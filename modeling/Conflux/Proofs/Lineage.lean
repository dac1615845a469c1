import Conflux.Proofs.Slot
import Conflux.Proofs.Stretch

/-!
The deliveries behind the bundles of a slot. A slot itself knows only where the content
of a bundle begins and where it ends; its lineage lists the deliveries one by one and is
kept beside it. A delta that joins another adds its deliveries, a complete bundle
replaces them, and they move with the bundle from waiting to work and back. When a
bundle leaves, or is superseded, its deliveries are forgotten.
-/

namespace Conflux.Slot

structure Lineage where
  running : List Position
  buffered : List Position

namespace Lineage

def blank : Lineage := ⟨[], []⟩

/-- The delivery's payload went into a bundle that the slot still has. -/
def Has (l : Lineage) (τ : Position) : Prop := τ ∈ l.running ∨ τ ∈ l.buffered

/-- What the slot was seen to do, done to its lineage; `joined` are the deliveries of the
envelope that came, if one came. -/
def next (mode : SyncMode) (joined : List Position) (l : Lineage) : Happening → Lineage
  | .accepted _ _ _ =>
      { l with buffered := if mode.isDelta then l.buffered ++ joined else joined }
  | .started _ => ⟨l.buffered, []⟩
  | .finished _ _ (.retry _) => ⟨[], l.running ++ l.buffered⟩
  | .finished _ _ .notInFlight => l
  | .finished _ _ _ => { l with running := [] }
  | _ => l

/-- Where content begins and ends, if there is some. Without content there are no
deliveries. -/
def Held (delivered : List Position) (home : Partition) (tags : List Position) :
    Option (Position × UInt64) → Prop
  | some p => Stretch delivered home tags p.1 p.2
  | none => tags = []

/-- The positions in the slot speak for the deliveries in the lineage. -/
structure Fits (delivered : List Position) (home : Partition) (l : Lineage) (s : Slot) :
    Prop where
  running : Held delivered home l.running (s.running.map fun r => (r.position, r.lastOffset))
  buffered : Held delivered home l.buffered (s.buffered.map fun b => (b.position, b.lastOffset))
  settled : ∀ p v, s.settled = some (p, v) → p.partitionKey = home ∧ p ∈ delivered

variable {delivered joined : List Position} {home : Partition} {mode : SyncMode} {l : Lineage}
  {s core : Slot} {seen : Happening} {τ : Position}

theorem fits_blank (delivered : List Position) (home : Partition) :
    blank.Fits delivered home empty :=
  ⟨rfl, rfl, fun _ _ h => nomatch h⟩

theorem Held.mono {tags : List Position} {p : Option (Position × UInt64)}
    (h : Held delivered home tags p) {later : List Position} (hsub : delivered ⊆ later) :
    Held later home tags p := by
  cases p with
  | none => exact h
  | some p => exact Stretch.mono h hsub

theorem Held.stretch {α : Type} {tags : List Position} {x : Option α}
    {place : α → Position × UInt64}
    (h : Held delivered home tags (x.map place)) {a : α} (hx : x = some a) :
    Stretch delivered home tags (place a).1 (place a).2 := by
  rw [hx] at h
  exact h

theorem Held.nil {α : Type} {tags : List Position} {x : Option α} {place : α → Position × UInt64}
    (h : Held delivered home tags (x.map place)) (hx : x = none) : tags = [] := by
  rw [hx] at h
  exact h

theorem Fits.mono (h : l.Fits delivered home s) {later : List Position}
    (hsub : delivered ⊆ later) : l.Fits later home s where
  running := h.running.mono hsub
  buffered := h.buffered.mono hsub
  settled p v hp := ⟨(h.settled p v hp).1, hsub (h.settled p v hp).2⟩

theorem Fits.accept (h : l.Fits delivered home s) {e : Envelope} {position : Position}
    {lastOffset : UInt64} (hjoined : Stretch delivered home joined position lastOffset) :
    (l.next mode joined (.accepted e position lastOffset)).Fits delivered home
      (s.buffer mode e position lastOffset) := by
  refine ⟨h.running, ?_, h.settled⟩
  cases hb : s.buffered with
  | none =>
      rw [buffer, hb, next, h.buffered.nil hb]
      cases mode with
      | complete => exact hjoined
      | delta key? => exact hjoined
  | some b =>
      have hbuffered := h.buffered.stretch hb
      rw [buffer, hb, next]
      cases mode with
      | complete =>
          -- The content is replaced, but the end of what it replaces is kept.
          exact hjoined.reach hbuffered.ends
      | delta key? => exact hbuffered.join hjoined

/-- The bundle at work leaves, and where it ended is remembered. -/
theorem Fits.settle (h : l.Fits delivered home s) {r : Running} {lastProcessed : Option Version}
    (hr : s.running = some r) :
    Fits delivered home { l with running := [] }
      { s with
        running := none
        settled := some (r.finish, r.envelope.version)
        lastProcessed := lastProcessed } := by
  have hrunning := h.running.stretch hr
  refine ⟨rfl, h.buffered, fun p v hp => ?_⟩
  obtain rfl : r.finish = p := congrArg Prod.fst (Option.some.inj hp)
  have hends := hrunning.ends
  rw [← hrunning.at_home] at hends
  exact ⟨hrunning.at_home, hends⟩

theorem Fits.step (h : l.Fits delivered home s) (hstep : Step mode s seen core)
    (hjoined : ∀ e position lastOffset, seen = .accepted e position lastOffset →
      Stretch delivered home joined position lastOffset) :
    (l.next mode joined seen).Fits delivered home core := by
  cases hstep with
  | keep | refuse | rest => exact ⟨h.running, h.buffered, h.settled⟩
  | accept => exact h.accept (hjoined _ _ _ rfl)
  | start hb hr => exact ⟨h.buffered.stretch hb, rfl, h.settled⟩
  | succeed hr => exact h.settle hr
  | drop hr => exact h.settle hr
  | supersede hr hb => exact ⟨rfl, h.buffered, h.settled⟩
  | putBack hr hb =>
      refine ⟨rfl, ?_, h.settled⟩
      rw [next, h.buffered.nil hb, List.append_nil]
      exact h.running.stretch hr
  | putBeneath hr hb =>
      exact ⟨rfl, (h.running.stretch hr).join (h.buffered.stretch hb), h.settled⟩

theorem Fits.woken {n : Nat} (h : l.Fits delivered home core) (hwoken : Woken core n s) :
    l.Fits delivered home s := by
  cases hwoken with
  | asleep => exact h
  | woken => exact ⟨h.running, h.buffered, h.settled⟩

/-- Nothing comes into a slot but with an envelope that is accepted. -/
theorem Has.of_next (h : (l.next mode joined seen).Has τ) :
    l.Has τ ∨ (∃ e position lastOffset, seen = .accepted e position lastOffset) ∧ τ ∈ joined := by
  unfold next at h
  split at h
  · next e position lastOffset =>
      rcases h with h | h
      · exact .inl (.inl h)
      · split at h
        · rcases List.mem_append.1 h with h | h
          · exact .inl (.inr h)
          · exact .inr ⟨⟨e, position, lastOffset, rfl⟩, h⟩
        · exact .inr ⟨⟨e, position, lastOffset, rfl⟩, h⟩
  · rcases h with h | h
    · exact .inl (.inr h)
    · cases h
  · rcases h with h | h
    · cases h
    · exact .inl (List.mem_append.1 h)
  · exact .inl h
  · rcases h with h | h
    · cases h
    · exact .inl (.inr h)
  · exact .inl h

end Lineage

end Conflux.Slot
