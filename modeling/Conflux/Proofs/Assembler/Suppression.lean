import Conflux.Proofs.Assembler.Provenance
import Conflux.Zstd.Plain

/-!
How long a message that came out is kept from coming out again. The assembler takes the key of
every message that comes out into its memory of recent keys, and takes in nothing else; so what
the memory knows is told by the messages that came out and their order. A fragment of a message
that is known is turned away before anything is done with it, and a message is known until as many
others have come out after it as the memory holds.

The fragments that are turned away count for nothing here, however many there are: a key that is
known already pushes no other out.
-/

namespace Conflux

namespace Assembler

variable {a b : Assembler}

section

variable [Compression]

def completion? (a : Assembler) : Event → Option MessageKey
  | .arrive x => (a.answer x).message?.map fun _ => x.key
  | .sweep _ => none

def completions (a : Assembler) : List Event → List MessageKey
  | [] => []
  | e :: events => (a.completion? e).toList ++ (a.react e).completions events

theorem completed_react (a : Assembler) (e : Event) :
    (a.react e).completed = a.completed.insertAll (a.completion? e).toList := by
  cases e with
  | sweep => rfl
  | arrive x =>
      change (a.take x).completed = _
      rw [(a.added x).completed_eq, completion?]
      cases (a.answer x).message? with
      | none => rfl
      | some whole => rfl

/-- The memory has taken in the keys of the messages that came out, and nothing else. -/
theorem completed_undergo (a : Assembler) (events : List Event) :
    (a.undergo events).completed = a.completed.insertAll (a.completions events) := by
  induction events generalizing a with
  | nil => rfl
  | cons e events ih =>
      change ((a.react e).undergo events).completed = _
      rw [ih, completed_react, completions, RecentKeys.insertAll, RecentKeys.insertAll,
        RecentKeys.insertAll, List.foldl_append]

omit [Compression] in
theorem Answer.eq_ok_of_message? {result : Answer} {whole : Assembled}
    (h : result.message? = some whole) : result = .ok (some whole) := by
  cases result with
  | error e => cases h
  | ok whole? => exact congrArg Except.ok h

/-- A message that comes out was not known before. -/
theorem not_mem_completed {x : Arrival} (h : (a.answer x).message?.isSome = true) :
    x.key ∉ a.completed.keys := by
  obtain ⟨whole, hwhole⟩ := Option.isSome_iff_exists.1 h
  have htakes : a.refuses x.fragment = false :=
    refuses_of_add (Answer.eq_ok_of_message? hwhole)
  exact (refuses_eq_false_iff.1 htakes).2.1

/-- What a fragment of a known message is told. Its encoding is looked at first. -/
def repetition (x : Arrival) : AssemblyError :=
  if (Encoding.ofCode? x.fragment.header.encoding).isSome then .alreadyAssembled
  else .unknownEncoding x.fragment.header.encoding

theorem turns_away {x : Arrival} (h : x.key ∈ a.completed.keys) :
    a.take x = a ∧ a.answer x = .error (repetition x) := by
  have hknown : a.completed.contains x.fragment.header.messageKey = true :=
    RecentKeys.contains_eq_true.2 h
  rw [take, answer, add, repetition]
  cases Encoding.ofCode? x.fragment.header.encoding with
  | none => exact ⟨rfl, rfl⟩
  | some encoding =>
      dsimp only
      rw [if_pos hknown]
      exact ⟨rfl, rfl⟩

/-- A message that came out is known until as many others have come out after it as the memory
holds. -/
theorem mem_completed {x : Arrival} {events : List Event} (hsound : a.completed.Sound)
    (hout : (a.answer x).message?.isSome = true)
    (hfew : (((a.take x).completions events).toFinset.erase x.key).card < a.completed.capacity) :
    x.key ∈ ((a.take x).undergo events).completed.keys := by
  have hcompleted : (a.take x).completed = (a.completed.insert x.key).1 := by
    obtain ⟨whole, hwhole⟩ := Option.isSome_iff_exists.1 hout
    rw [(a.added x).completed_eq, hwhole]
  rw [completed_undergo, hcompleted]
  exact hsound.mem_insertAll (not_mem_completed hout) hfew

/-- The memory of recent keys, kept as a row with a set at its side. After any keys, those are
known that fit of the keys that were new when they came, the last ones; they are all different,
and to take in one of them again changes nothing. The assembler keeps the same memory without the
set. It takes in the messages that come out, and so a message that came out is turned away from
then on: as long as fewer others have come out after it than the memory holds, a fragment of it
changes nothing and is told so. -/
theorem remembers_completed :
    (∀ (κ : Type) [DecidableEq κ] [Hashable κ] (capacity : Nat) (ks : List κ),
      let c := (IndexedKeys.empty capacity).insertAll ks
      let recorded := (IndexedKeys.empty capacity).recorded ks
      c.Remembers (recorded.rtake capacity) ∧ c.size = min capacity recorded.length ∧
        (capacity = 0 → ∀ k, (c.insert k).2 = true) ∧
        c.queue = (RecentKeys.empty capacity).insertAll ks) ∧
    ∀ (ttl capacity : Nat) (before : List Event) (x : Arrival) (later : List Event),
      let a := (fresh ttl capacity).undergo before
      let b := (a.take x).undergo later
      a.completed =
          (RecentKeys.empty capacity).insertAll ((fresh ttl capacity).completions before) ∧
        ((a.answer x).message?.isSome = true →
          (((a.take x).completions later).toFinset.erase x.key).card < capacity →
            ∀ y, y.key = x.key → b.take y = b ∧ b.answer y = .error (repetition y)) := by
  refine ⟨fun κ _ _ capacity ks => ?_, fun ttl capacity before x later => ?_⟩
  · intro c recorded
    have hremembers : c.Remembers (recorded.rtake capacity) :=
      IndexedKeys.remembers_insertAll capacity ks
    refine ⟨hremembers, ?_, ?_, (IndexedKeys.sound_empty capacity).queue_insertAll ks⟩
    · rw [hremembers.size_eq, List.rtake, List.length_drop]
      omega
    · intro hzero k
      rw [← Bool.not_eq_false, hremembers.answer_iff, hzero, List.rtake_zero]
      exact List.not_mem_nil
  · intro a b
    have hcompleted := completed_undergo (fresh ttl capacity) before
    refine ⟨hcompleted, fun hout hfew y hy => turns_away ?_⟩
    rw [hy]
    refine mem_completed ?_ hout ?_
    · rw [hcompleted]
      exact (RecentKeys.sound_empty capacity).insertAll _
    · rwa [capacity_undergo]

end

open scoped Zstd

/-- There is room for two. One other message has come out, and the first comes again. -/
theorem remembers_completed_crossed :
    let a := (fresh 10 2).undergo crossed
    let later := (arriving compressed.fragments).map Event.arrive
    (a.answer closing).message?.isSome = true ∧
      (a.take closing).completions later = [compressed.key] ∧
      ((a.take closing).undergo later).answer closing = .error .alreadyAssembled := by
  intro a later
  have hout : (a.answer closing).message?.isSome = true := by decide +kernel
  have hother : (a.take closing).completions later = [compressed.key] := by decide +kernel
  refine ⟨hout, hother, ?_⟩
  have hturned := (remembers_completed.2 10 2 crossed closing later).2 hout ?_ closing rfl
  · rw [hturned.2]
    exact congrArg _ (if_pos (by decide +kernel))
  · rw [hother, Nat.lt_succ_iff]
    exact (Finset.card_erase_le).trans (List.toFinset_card_le _)

end Assembler

end Conflux
