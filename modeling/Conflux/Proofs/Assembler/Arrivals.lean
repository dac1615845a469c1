import Conflux.Proofs.Assembler
import Conflux.Proofs.RecentKeys
import Mathlib.Data.List.Induction

/-!
Fragments that arrive one after the other. `Added` is the one place where the taking of a
fragment is opened: it is refused, kept in a record, thrown away with its record, or it
completes its message. What holds of every state of a run is read off these four cases.

As long as no record is old enough to expire and the memory of completed messages has room,
a fragment does nothing to the messages it is no part of, neither to their records nor to
what is remembered of them.
-/

namespace Conflux

structure Arrival where
  now : Nat
  fragment : Fragment
  position : Position

def Arrival.key (x : Arrival) : MessageKey := x.fragment.header.messageKey

namespace Assembler

abbrev Answer := Except AssemblyError (Option Assembled)

def Answer.message? : Answer → Option Assembled
  | .ok whole => whole
  | .error _ => none

/-! ### What a fragment can do -/

variable {a b : Assembler} {x : Arrival} {result : Answer} {k : MessageKey}

/-- What becomes of the assembler and what is answered. Records that have expired may be
swept before. -/
inductive Added (a : Assembler) (x : Arrival) : Assembler → Answer → Prop where
  | refused (e : AssemblyError) (he : e.isRefusal = true) : Added a x a (.error e)
  | kept (r : Assembly) (hr : r.startedAt = x.now ∨
      ∃ known, a.opened.get? x.key = some known ∧ r.startedAt = known.startedAt) :
      Added a x ((a.evict x.now).putRecord x.key r) (.ok none)
  | discarded {b : Assembler} (hb : b = a ∨ b = a.evict x.now) (e : AssemblyError)
      (he : e.isRefusal = false) : Added a x (b.close x.key) (.error e)
  | completed {b : Assembler} (hb : b = a ∨ b = a.evict x.now) (whole : Assembled) :
      Added a x { b.close x.key with completed := (a.completed.insert x.key).1 }
        (.ok (some whole))

theorem Added.ttl_eq (h : Added a x b result) : b.ttl = a.ttl := by
  cases h with
  | refused | kept => rfl
  | discarded hb | completed hb => rcases hb with rfl | rfl <;> rfl

theorem Added.completed_eq (h : Added a x b result) :
    b.completed = match result.message? with
      | some _ => (a.completed.insert x.key).1
      | none => a.completed := by
  cases h with
  | refused | kept => rfl
  | discarded hb => rcases hb with rfl | rfl <;> rfl
  | completed hb => rfl

/-- A record is as old as it was, or new. -/
theorem Added.started (h : Added a x b result) {r : Assembly} (hr : b.opened.get? k = some r) :
    (x.key = k ∧ r.startedAt = x.now) ∨
      ∃ known, a.opened.get? k = some known ∧ r.startedAt = known.startedAt := by
  have hclose {c : Assembler} (hc : c = a ∨ c = a.evict x.now)
      (hr : (c.close x.key).opened.get? k = some r) : a.opened.get? k = some r := by
    rcases hc with rfl | rfl
    · exact get?_of_close hr
    · exact get?_evict (get?_of_close hr)
  cases h with
  | refused => exact .inr ⟨r, hr, rfl⟩
  | kept s hs =>
      rw [putRecord, Table.get?_put] at hr
      split at hr
      · next hk =>
          obtain rfl := Option.some.inj hr
          rw [← hk]
          exact hs.imp_left fun hnow => ⟨rfl, hnow⟩
      · exact .inr ⟨r, get?_evict hr, rfl⟩
  | discarded hb => exact .inr ⟨r, hclose hb hr, rfl⟩
  | completed hb => exact .inr ⟨r, hclose hb hr, rfl⟩

/-- A record of another message stays as it is, unless it expires. -/
theorem Added.opened_of_ne (h : Added a x b result)
    (hlast : (a.evict x.now).opened.get? k = a.opened.get? k) (hk : x.key ≠ k) :
    b.opened.get? k = a.opened.get? k := by
  have hclose {c : Assembler} (hc : c = a ∨ c = a.evict x.now) :
      (c.close x.key).opened.get? k = a.opened.get? k := by
    rw [close, Table.get?_erase, if_neg hk]
    rcases hc with rfl | rfl
    · rfl
    · exact hlast
  cases h with
  | refused => rfl
  | kept => rw [putRecord, Table.get?_put_of_ne hk, hlast]
  | discarded hb => exact hclose hb
  | completed hb => exact hclose hb

/-- A record that is not old enough stays. -/
theorem get?_evict_eq {now : Nat}
    (h : ∀ r, a.opened.get? k = some r → r.expired a.ttl now = false) :
    (a.evict now).opened.get? k = a.opened.get? k := by
  cases hr : a.opened.get? k with
  | none =>
      by_contra hsome
      obtain ⟨r, hr'⟩ := Option.ne_none_iff_exists'.1 hsome
      rw [get?_evict hr'] at hr
      cases hr
  | some r =>
      refine Table.get?_eq_some_iff.2 (List.mem_filter.2 ⟨Table.get?_eq_some_iff.1 hr, ?_⟩)
      exact congrArg (! ·) (h r hr)

/-! ### Runs -/

variable [Compression]

def take (a : Assembler) (x : Arrival) : Assembler := (a.add x.now x.fragment x.position).1

def answer (a : Assembler) (x : Arrival) : Answer := (a.add x.now x.fragment x.position).2

def feed (a : Assembler) (xs : List Arrival) : Assembler := xs.foldl take a

def answers (a : Assembler) : List Arrival → List Answer
  | [] => []
  | x :: xs => a.answer x :: (a.take x).answers xs

def messages (a : Assembler) (xs : List Arrival) : List Assembled :=
  (a.answers xs).filterMap Answer.message?

theorem feed_append (a : Assembler) (xs ys : List Arrival) :
    a.feed (xs ++ ys) = (a.feed xs).feed ys := by
  rw [feed, List.foldl_append]
  rfl

theorem answers_append (a : Assembler) (xs ys : List Arrival) :
    a.answers (xs ++ ys) = a.answers xs ++ (a.feed xs).answers ys := by
  induction xs generalizing a with
  | nil => rfl
  | cons x xs ih =>
      change a.answer x :: (a.take x).answers (xs ++ ys) = _
      rw [ih]
      rfl

theorem getElem?_answers (a : Assembler) (xs : List Arrival) (i : Nat) :
    (a.answers xs)[i]? = xs[i]?.map fun x => (a.feed (xs.take i)).answer x := by
  induction xs generalizing a i with
  | nil => rfl
  | cons x xs ih =>
      cases i with
      | zero => rfl
      | succ i => exact ih (a.take x) i

theorem messages_append (a : Assembler) (xs ys : List Arrival) :
    a.messages (xs ++ ys) = a.messages xs ++ (a.feed xs).messages ys := by
  rw [messages, answers_append, List.filterMap_append]
  rfl

theorem length_messages_le (a : Assembler) (xs : List Arrival) :
    (a.messages xs).length ≤ xs.length := by
  have hlength : (a.answers xs).length = xs.length := by
    induction xs generalizing a with
    | nil => rfl
    | cons x xs ih => exact congrArg (· + 1) (ih (a.take x))
  rw [← hlength]
  exact List.length_filterMap_le _ _

theorem added_finish (hb : b = a ∨ b = a.evict x.now) (encoding : Encoding) (encoded : Bytes)
    (position : Position) (lastOffset : UInt64) :
    let after := (b.close x.key).finish x.key encoding encoded position lastOffset
    Added a x after.1 after.2 := by
  have hcompleted : (b.close x.key).completed = a.completed := by
    rcases hb with rfl | rfl <;> rfl
  dsimp only
  rw [finish]
  split
  · rw [hcompleted]
    exact .completed hb _
  · next e hread => exact .discarded hb e (readMessage_error hread)

theorem added_addToRecord (a : Assembler) (x : Arrival) (encoding : Encoding) :
    let after := (a.evict x.now).addToRecord x.now x.fragment encoding x.position
    Added a x after.1 after.2 := by
  let known := ((a.evict x.now).opened.get? x.key).getD
    (.start x.fragment.header.total encoding x.position x.now)
  have hstarted : known.startedAt = x.now ∨
      ∃ r, a.opened.get? x.key = some r ∧ known.startedAt = r.startedAt := by
    cases hr : (a.evict x.now).opened.get? x.key with
    | none =>
        left
        simp only [known, hr, Option.getD_none, Assembly.start]
    | some r =>
        right
        refine ⟨r, get?_evict hr, ?_⟩
        simp only [known, hr, Option.getD_some]
  have hstore : ((known.extend x.position).store x.fragment.header.offset
      x.fragment.payload).startedAt = known.startedAt := by
    rw [Assembly.store]
    split <;> rfl
  dsimp only
  rw [addToRecord]
  dsimp only
  split
  · exact .discarded (.inr rfl) _ rfl
  · split
    · exact .kept _ hstarted
    · split
      · split
        · exact added_finish (.inr rfl) _ _ _ _
        · exact .discarded (.inr rfl) _ rfl
      · refine .kept _ ?_
        rw [← hstore] at hstarted
        exact hstarted

theorem added (a : Assembler) (x : Arrival) : Added a x (a.take x) (a.answer x) := by
  rw [take, answer]
  cases hrefuses : a.refuses x.fragment with
  | true =>
      obtain ⟨e, he, hadd⟩ := add_of_refuses hrefuses x.now x.position
      rw [hadd]
      exact .refused e he
  | false =>
      obtain ⟨encoding, _, hadd⟩ := add_of_takes hrefuses x.now x.position
      rw [hadd]
      split
      · exact added_finish (.inl rfl) encoding _ _ _
      · exact added_addToRecord a x encoding

variable {ttl remembered : Nat} {past : List Arrival}

/-- A record is no older than the first arrival of its message, and no more is remembered
than came out. -/
structure Steady (ttl remembered : Nat) (past : List Arrival) (a : Assembler) : Prop where
  ttl_eq : a.ttl = ttl
  capacity : a.completed.capacity = remembered
  started : ∀ k r, a.opened.get? k = some r → ∃ x ∈ past, x.key = k ∧ r.startedAt = x.now
  room : a.completed.keys.length ≤ ((fresh ttl remembered).messages past).length

theorem steady_fresh (ttl remembered : Nat) :
    Steady ttl remembered [] (fresh ttl remembered) where
  ttl_eq := rfl
  capacity := rfl
  started k r hr := by cases hr
  room := Nat.le_refl _

theorem messages_concat (a : Assembler) (past : List Arrival) (x : Arrival) :
    a.messages (past ++ [x]) = a.messages past ++ ((a.feed past).answer x).message?.toList := by
  have hone : (a.feed past).messages [x] = ((a.feed past).answer x).message?.toList := by
    change [(a.feed past).answer x].filterMap Answer.message? = _
    cases hm : ((a.feed past).answer x).message? with
    | none => rw [List.filterMap_cons_none hm, List.filterMap_nil, Option.toList_none]
    | some whole => rw [List.filterMap_cons_some hm, List.filterMap_nil, Option.toList_some]
  rw [messages_append, hone]

theorem Steady.step (h : Steady ttl remembered past ((fresh ttl remembered).feed past))
    (x : Arrival) :
    Steady ttl remembered (past ++ [x]) ((fresh ttl remembered).feed (past ++ [x])) := by
  rw [feed_append]
  let a := (fresh ttl remembered).feed past
  have hadded := a.added x
  have hcompleted := hadded.completed_eq
  refine ⟨hadded.ttl_eq.trans h.ttl_eq, ?_, ?_, ?_⟩
  · refine Eq.trans ?_ h.capacity
    change (a.take x).completed.capacity = _
    rw [hcompleted]
    split
    · exact RecentKeys.capacity_insert _ _
    · rfl
  · intro k r hr
    rcases hadded.started hr with hnow | ⟨known, hknown, hsame⟩
    · exact ⟨x, List.mem_append_right _ (List.mem_singleton_self x), hnow⟩
    · obtain ⟨y, hy, hkey, hstarted⟩ := h.started k known hknown
      exact ⟨y, List.mem_append_left _ hy, hkey, hsame.trans hstarted⟩
  · have hroom := h.room
    rw [messages_concat, List.length_append]
    change (a.take x).completed.keys.length ≤ _
    rw [hcompleted]
    change _ ≤ _ + (a.answer x).message?.toList.length
    cases (a.answer x).message? with
    | none => exact hroom
    | some whole =>
        have hle := a.completed.length_insert_le x.key
        exact Nat.le_trans hle (Nat.add_le_add_right hroom 1)

theorem steady_feed (ttl remembered : Nat) (past : List Arrival) :
    Steady ttl remembered past ((fresh ttl remembered).feed past) := by
  induction past using List.reverseRecOn with
  | nil => exact steady_fresh ttl remembered
  | append_singleton past x ih => exact ih.step x

/-- The record of a message has not expired as long as all its fragments have come lately. -/
theorem Steady.get?_evict (h : Steady ttl remembered past a)
    (hlasting : ∀ y ∈ past, y.key = k → x.now - y.now ≤ ttl) :
    (a.evict x.now).opened.get? k = a.opened.get? k := by
  refine get?_evict_eq fun r hr => ?_
  obtain ⟨y, hy, hkey, hstarted⟩ := h.started k r hr
  have hle := hlasting y hy hkey
  rw [Assembly.expired, h.ttl_eq, hstarted, decide_eq_false_iff_not]
  omega

/-- A message that comes out is remembered, and no other is forgotten for it, if the memory
has room for all that come out. -/
theorem Steady.mem_completed_iff (h : Steady ttl remembered past ((fresh ttl remembered).feed past))
    (hroom : ((fresh ttl remembered).messages (past ++ [x])).length ≤ remembered) :
    k ∈ (((fresh ttl remembered).feed past).take x).completed.keys ↔
      k ∈ ((fresh ttl remembered).feed past).completed.keys ∨
        (((fresh ttl remembered).feed past).answer x).message?.isSome = true ∧ k = x.key := by
  let a := (fresh ttl remembered).feed past
  change k ∈ (a.take x).completed.keys ↔ k ∈ a.completed.keys ∨
    (a.answer x).message?.isSome = true ∧ k = x.key
  rw [(a.added x).completed_eq]
  cases hm : (a.answer x).message? with
  | none => simp
  | some whole =>
      have hless : a.completed.keys.length < a.completed.capacity := by
        have hle := h.room
        rw [messages_concat, List.length_append] at hroom
        change _ + (a.answer x).message?.toList.length ≤ _ at hroom
        rw [hm] at hroom
        rw [show a.completed.capacity = remembered from h.capacity]
        exact Nat.lt_of_le_of_lt hle hroom
      simpa using RecentKeys.mem_insert_of_room hless

end Assembler

end Conflux
