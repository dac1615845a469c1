import Conflux.Leaf

/-!
What one operation can do to one slot. `Happening` is what can be seen of it from
outside, and `Step` says for each happening how the bundles of the slot move. Every
claim about slots over a run is proved by going through the constructors of `Step`; no
operation has to be opened again. The ticket that a step may write is kept apart, in
`Woken`: it depends on other slots, and it moves no bundle.
-/

namespace Conflux.Slot

inductive Happening where
  | nothing
  /-- A bundle came that was not stale. -/
  | accepted (e : Envelope) (position : Position) (lastOffset : UInt64)
  /-- A ticket was redeemed in vain. -/
  | refused
  | started (c : Claim)
  | finished (done : Running) (verdict : Verdict) (completion : Completion)
  | rested

/-- How the slot is left by what happened, before it is looked at for a ticket. -/
inductive Step (mode : SyncMode) (s : Slot) : Happening → Slot → Prop where
  | keep : Step mode s .nothing s
  | accept {e : Envelope} {position : Position} {lastOffset : UInt64}
      (hv : s.admits e.version = true) :
      Step mode s (.accepted e position lastOffset) (s.buffer mode e position lastOffset)
  | refuse : Step mode s .refused { s with queued := false }
  | start {b : Buffered} {x : Registration} (hb : s.buffered = some b) (hr : s.running = none)
      (hs : s.resting = false) :
      Step mode s (.started ⟨x, b.envelope, b.position, b.attempts + 1⟩)
        { s with buffered := none, running := some b.start, queued := false }
  | succeed {r : Running} (hr : s.running = some r) :
      Step mode s (.finished r .succeeded .processed)
        { s with
          running := none
          settled := some (r.finish, r.envelope.version)
          lastProcessed := Version.maxOption s.lastProcessed (some r.envelope.version) }
  | drop {r : Running} {maxAttempts : Nat} (hr : s.running = some r)
      (hm : maxAttempts ≤ r.attempt) :
      Step mode s (.finished r (.failed maxAttempts) (.dropped r.envelope.version r.attempt))
        { s with running := none, settled := some (r.finish, r.envelope.version) }
  | supersede {r : Running} {b : Buffered} {maxAttempts : Nat} (hr : s.running = some r)
      (hb : s.buffered = some b) (hm : r.attempt < maxAttempts) (hc : mode = .complete) :
      Step mode s (.finished r (.failed maxAttempts) .superseded) { s with running := none }
  | putBack {r : Running} {maxAttempts : Nat} (hr : s.running = some r)
      (hb : s.buffered = none) (hm : r.attempt < maxAttempts) :
      Step mode s (.finished r (.failed maxAttempts) (.retry r.attempt))
        { s with running := none, buffered := some r.again, resting := true }
  | putBeneath {r : Running} {b : Buffered} {maxAttempts : Nat} (hr : s.running = some r)
      (hb : s.buffered = some b) (hm : r.attempt < maxAttempts) (hd : mode.isDelta = true) :
      Step mode s (.finished r (.failed maxAttempts) (.retry r.attempt))
        { s with running := none, buffered := some (b.beneath mode r), resting := true }
  | rest : Step mode s .rested { s with resting := false }

/-- The slot after it was looked at, and how many tickets were written for it. -/
inductive Woken (s : Slot) : Nat → Slot → Prop where
  | asleep : Woken s 0 s
  | woken (hi : s.idle = true) (hb : s.buffered.isSome = true) :
      Woken s 1 { s with queued := true }

/-- Waking moves no bundle. -/
theorem Woken.buffered_eq {core s : Slot} {n : Nat} (h : Woken core n s) :
    s.buffered = core.buffered := by
  cases h <;> rfl

theorem finish_of_running_none {s : Slot} (h : s.running = none) (mode : SyncMode)
    (verdict : Verdict) : s.finish mode verdict = (s, .notInFlight) := by
  rw [finish, h]

theorem step_finish {s : Slot} {r : Running} (h : s.running = some r) (mode : SyncMode)
    (verdict : Verdict) :
    Step mode s (.finished r verdict (s.finish mode verdict).2) (s.finish mode verdict).1 := by
  rw [finish, h]
  cases verdict with
  | succeeded => exact .succeed h
  | failed maxAttempts =>
      by_cases hm : maxAttempts ≤ r.attempt
      · simp only [hm, if_true]
        exact .drop h hm
      · have hlt : r.attempt < maxAttempts := Nat.lt_of_not_le hm
        simp only [hm, if_false]
        unfold takeBack
        split
        · next hb => exact .putBack h hb hlt
        · next b hb =>
            cases mode with
            | complete => exact .supersede h hb hlt rfl
            | delta key? => exact .putBeneath h hb hlt rfl

theorem finish_ne_notInFlight {s : Slot} {r : Running} (h : s.running = some r)
    (mode : SyncMode) (verdict : Verdict) : (s.finish mode verdict).2 ≠ .notInFlight := by
  have hstep := step_finish h mode verdict
  generalize (s.finish mode verdict).2 = completion at hstep
  intro hc
  subst hc
  cases hstep

end Conflux.Slot
