import Conflux.Proofs.Registry
import Conflux.Proofs.Slot
import Conflux.Proofs.Version

/-!
A leaf seen slot by slot. A type that has not come yet has an empty slot, so `slot` is
total and no statement has to ask whether an entry is there. Looking after tickets
(`wake`, `wakeAll`) sets the ticket flag of the slots that are ready and does nothing
else; the operations are then one `Slot.Step` at the slot they name, followed by it.
-/

namespace Conflux

def Ticket.isFor (source bundleType : String) (t : Ticket) : Bool :=
  t.source == source && t.bundleType == bundleType

namespace Leaf

def slot (l : Leaf) (bundleType : String) : Slot := (l.slot? bundleType).getD .empty

@[simp] theorem slot_fresh (source t : String) : (fresh source).slot t = .empty := rfl

theorem slot_putSlot (l : Leaf) (t u : String) (s : Slot) :
    (l.putSlot t s).slot u = if t = u then s else l.slot u := by
  rw [slot, slot?, putSlot, Table.get?_put]
  split
  · rfl
  · rfl

@[simp] theorem slot_putSlot_self (l : Leaf) (t : String) (s : Slot) :
    (l.putSlot t s).slot t = s := by
  rw [slot_putSlot, if_pos rfl]

theorem slot_putSlot_of_ne {t u : String} (h : t ≠ u) (l : Leaf) (s : Slot) :
    (l.putSlot t s).slot u = l.slot u := by
  rw [slot_putSlot, if_neg h]

@[simp] theorem source_putSlot (l : Leaf) (t : String) (s : Slot) :
    (l.putSlot t s).source = l.source := rfl

theorem slot_of_slot? {l : Leaf} {t : String} {s : Slot} (h : l.slot? t = some s) :
    l.slot t = s := by
  rw [slot, h, Option.getD_some]

theorem lastProcessed_eq (l : Leaf) (t : String) :
    l.lastProcessed t = (l.slot t).lastProcessed := by
  rw [lastProcessed, slot]
  cases l.slot? t <;> rfl

theorem satisfied_congr {l m : Leaf} (h : ∀ t, l.lastProcessed t = m.lastProcessed t)
    (x : Registration) (e : Envelope) : l.satisfied x e = m.satisfied x e := by
  rw [satisfied, satisfied]
  split
  · rfl
  · next d _ => rw [h d]

theorem satisfied_iff {l : Leaf} {x : Registration} {e : Envelope} {d : String}
    (hd : x.dependsOn = some d) :
    l.satisfied x e = true ↔ e.required.ReachedBy (l.slot d).lastProcessed := by
  simp only [satisfied, hd, lastProcessed_eq]
  cases (l.slot d).lastProcessed with
  | none => simp [Version.ReachedBy]
  | some v => simp [Version.ReachedBy]

/-! ### Looking after tickets -/

/-- The slot can run and has no ticket. -/
def ready (l : Leaf) (r : Registry) (t : String) : Bool :=
  match r.get? t with
  | some x => l.runnable x (l.slot t)
  | none => false

theorem ready_iff {l : Leaf} {r : Registry} {t : String} :
    l.ready r t = true ↔ ∃ x b, r.get? t = some x ∧ (l.slot t).buffered = some b ∧
      (l.slot t).idle = true ∧ l.satisfied x b.envelope = true := by
  rw [ready]
  split
  · next x hx =>
      rw [runnable]
      split
      · next b hb => simp [hx, hb]
      · next hb => simp [hb]
  · next hx => simp [hx]

theorem wake_eq (l : Leaf) (r : Registry) (t : String) :
    ∃ k : Ticket, k.isFor l.source t = true ∧
      l.wake r t =
        if l.ready r t then (l.putSlot t { l.slot t with queued := true }, [k]) else (l, []) := by
  cases hx : r.get? t with
  | none =>
      refine ⟨⟨l.source, t, 0⟩, by simp [Ticket.isFor], ?_⟩
      rw [wake, ready, hx]
      rfl
  | some x =>
      refine ⟨l.ticket x t, by simp [Ticket.isFor, ticket], ?_⟩
      cases hs : l.slot? t with
      | none =>
          rw [wake, ready, hx, hs, slot, hs]
          rfl
      | some s =>
          rw [wake, ready, hx, hs, slot_of_slot? hs]

@[simp] theorem source_wake (l : Leaf) (r : Registry) (t : String) :
    (l.wake r t).1.source = l.source := by
  obtain ⟨k, _, hw⟩ := l.wake_eq r t
  rw [hw]
  split <;> rfl

theorem slot_wake (l : Leaf) (r : Registry) (t u : String) :
    (l.wake r t).1.slot u =
      if t = u ∧ l.ready r t = true then { l.slot u with queued := true } else l.slot u := by
  obtain ⟨k, _, hw⟩ := l.wake_eq r t
  rw [hw]
  by_cases hr : l.ready r t = true
  · by_cases ht : t = u
    · subst ht
      simp [hr]
    · simp [hr, ht, slot_putSlot_of_ne ht]
  · simp [hr]

theorem lastProcessed_wake (l : Leaf) (r : Registry) (t u : String) :
    (l.wake r t).1.lastProcessed u = l.lastProcessed u := by
  rw [lastProcessed_eq, lastProcessed_eq, slot_wake]
  split <;> rfl

/-- A slot that has been looked at is not ready; the others are as ready as before. -/
theorem ready_wake (l : Leaf) (r : Registry) (t u : String) :
    (l.wake r t).1.ready r u = (l.ready r u && decide (t ≠ u)) := by
  -- A ticket flag is nothing that a dependency is about.
  have hsat := satisfied_congr (l.lastProcessed_wake r t)
  rw [Bool.eq_iff_iff, Bool.and_eq_true, decide_eq_true_eq, ready_iff, ready_iff, slot_wake]
  simp only [hsat]
  by_cases ht : t = u
  · subst ht
    by_cases hr : l.ready r t = true
    · simp [hr, Slot.idle]
    · have hno := mt ready_iff.2 hr
      simpa [hr] using hno
  · simp [ht]

theorem slot_wakeAll (l : Leaf) (r : Registry) (ts : List String) (u : String) :
    (l.wakeAll r ts).1.slot u =
      if u ∈ ts ∧ l.ready r u = true then { l.slot u with queued := true } else l.slot u := by
  induction ts generalizing l with
  | nil => simp [wakeAll]
  | cons t ts ih =>
      change ((l.wake r t).1.wakeAll r ts).1.slot u = _
      rw [ih, ready_wake, slot_wake]
      by_cases ht : t = u
      · subst ht
        by_cases hr : l.ready r t = true <;> simp [hr]
      · simp [ht, Ne.symm ht]

@[simp] theorem source_wakeAll (l : Leaf) (r : Registry) (ts : List String) :
    (l.wakeAll r ts).1.source = l.source := by
  induction ts generalizing l with
  | nil => rfl
  | cons t ts ih =>
      change ((l.wake r t).1.wakeAll r ts).1.source = _
      rw [ih, source_wake]

theorem countP_wake (l : Leaf) (r : Registry) (t : String) (source u : String) :
    (l.wake r t).2.countP (Ticket.isFor source u) =
      if source = l.source ∧ t = u ∧ l.ready r t = true then 1 else 0 := by
  obtain ⟨k, hk, hw⟩ := l.wake_eq r t
  simp only [Ticket.isFor, Bool.and_eq_true, beq_iff_eq] at hk
  rw [hw]
  by_cases hr : l.ready r t = true
  · simp only [hr, if_true, and_true, List.countP_singleton, Ticket.isFor, hk.1, hk.2,
      Bool.and_eq_true, beq_iff_eq]
    simp only [eq_comm]
  · simp [hr]

theorem countP_wakeAll (l : Leaf) (r : Registry) (ts : List String) (source u : String) :
    (l.wakeAll r ts).2.countP (Ticket.isFor source u) =
      if source = l.source ∧ u ∈ ts ∧ l.ready r u = true then 1 else 0 := by
  induction ts generalizing l with
  | nil => simp [wakeAll]
  | cons t ts ih =>
      change ((l.wake r t).2 ++ ((l.wake r t).1.wakeAll r ts).2).countP _ = _
      rw [List.countP_append, ih, countP_wake, ready_wake, source_wake]
      by_cases ht : t = u
      · subst ht
        simp
      · simp [ht, Ne.symm ht]

/-- What looking after tickets does to one slot. -/
theorem woken_wakeAll (l : Leaf) (r : Registry) (ts : List String) (u : String) :
    Slot.Woken (l.slot u) ((l.wakeAll r ts).2.countP (Ticket.isFor l.source u))
      ((l.wakeAll r ts).1.slot u) := by
  rw [slot_wakeAll, countP_wakeAll]
  by_cases h : u ∈ ts ∧ l.ready r u = true
  · obtain ⟨x, b, _, hb, hi, _⟩ := ready_iff.1 h.2
    simp only [h, and_self, if_true]
    exact .woken hi (by rw [hb]; rfl)
  · simp only [h, and_false, if_false]
    exact .asleep

/-! ### Operations -/

theorem wakeAll_singleton (l : Leaf) (r : Registry) (t : String) :
    l.wakeAll r [t] = l.wake r t := by
  change ((l.wake r t).1, (l.wake r t).2 ++ []) = _
  rw [List.append_nil]

def moved (l : Leaf) (r : Registry) (t : String) (core : Slot) (ts : List String) :
    Leaf × List Ticket :=
  (l.putSlot t core).wakeAll r ts

theorem insert_of_admits {l : Leaf} {x : Registration} {e : Envelope}
    (h : (l.slot x.bundleType).admits e.version = true) (r : Registry) (position : Position)
    (lastOffset : UInt64) :
    let after := l.moved r x.bundleType
      ((l.slot x.bundleType).buffer x.mode e position lastOffset) [x.bundleType]
    let effect := l.insert r x e position lastOffset
    effect.leaf = after.1 ∧ effect.tickets = after.2 ∧
      (effect.answer.admission = .ready ∨ effect.answer.admission = .buffered) := by
  dsimp only
  rw [moved, wakeAll_singleton, insert]
  change (l.slot x.bundleType).admits e.version = true at h
  rw [slot] at *
  simp only [h, if_true, true_and]
  split
  · exact .inl rfl
  · exact .inr rfl

theorem insert_of_not_admits {l : Leaf} {x : Registration} {e : Envelope}
    (h : ¬ (l.slot x.bundleType).admits e.version = true) (r : Registry) (position : Position)
    (lastOffset : UInt64) : l.insert r x e position lastOffset = ⟨l, [], ⟨.stale, false⟩⟩ := by
  rw [insert]
  exact if_neg h

/-- What a ticket brings: the waiting bundle, if it may run now. -/
theorem claim_cases {l : Leaf} {r : Registry} {t : String} {x : Registration}
    (hx : r.get? t = some x) :
    (∃ b, (l.slot t).buffered = some b ∧ (l.slot t).running = none ∧
      (l.slot t).resting = false ∧ l.satisfied x b.envelope = true ∧
      (l.claim r t).2 = some ⟨x, b.envelope, b.position, b.attempts + 1⟩ ∧
      ∀ u, (l.claim r t).1.slot u = if t = u then
        { l.slot t with buffered := none, running := some b.start, queued := false }
        else l.slot u) ∨
    (l.claim r t).2 = none ∧
      ∀ u, (l.claim r t).1.slot u =
        if t = u then { l.slot t with queued := false } else l.slot u := by
  cases hs : l.slot? t with
  | none =>
      have hempty : l.slot t = .empty := by rw [slot, hs, Option.getD_none]
      have hclaim : l.claim r t = (l, none) := by rw [claim, hx, hs]
      rw [hclaim]
      refine .inr ⟨rfl, fun u => ?_⟩
      by_cases hu : t = u
      · rw [if_pos hu, ← hu, hempty]
        rfl
      · rw [if_neg hu]
  | some s =>
      obtain rfl := slot_of_slot? hs
      simp only [claim, hx, hs, Slot.start?]
      cases hb : (l.slot t).buffered with
      | none => exact .inr (by simp [slot_putSlot])
      | some b =>
          by_cases hsat : l.satisfied x b.envelope = true
          · cases hr : (l.slot t).running with
            | some run => exact .inr (by simp [hsat, slot_putSlot])
            | none =>
                cases hrest : (l.slot t).resting with
                | true => exact .inr (by simp [hsat, slot_putSlot])
                | false =>
                    refine .inl ⟨b, rfl, rfl, rfl, hsat, ?_⟩
                    simp [hsat, slot_putSlot, Buffered.start]
          · exact .inr (by simp [hsat, slot_putSlot])

theorem claim_of_not_registered {r : Registry} {t : String} (hx : r.get? t = none) (l : Leaf) :
    l.claim r t = (l, none) := by
  rw [claim, hx]

/-- The types to look at after a run: the one that ran, and those that wait for it. -/
def awaiting (r : Registry) (t : String) (completion : Completion) : List String :=
  t :: if completion = .processed then r.dependents t else []

theorem complete_of_running {l : Leaf} {r : Registry} {t : String} {x : Registration}
    {run : Running} (hx : r.get? t = some x) (hr : (l.slot t).running = some run)
    (verdict : Verdict) :
    let finished := (l.slot t).finish x.mode verdict
    let after := l.moved r t finished.1 (awaiting r t finished.2)
    l.complete r t verdict = ⟨after.1, after.2, finished.2⟩ := by
  cases hs : l.slot? t with
  | none =>
      rw [slot, hs] at hr
      cases hr
  | some s =>
      obtain rfl := slot_of_slot? hs
      have hne := Slot.finish_ne_notInFlight hr x.mode verdict
      simp only [complete, hx, hs, hne, if_false]
      rfl

theorem complete_of_running_none {l : Leaf} {t : String} (hr : (l.slot t).running = none)
    (r : Registry) (verdict : Verdict) : l.complete r t verdict = ⟨l, [], .notInFlight⟩ := by
  rw [complete]
  split
  · next s _ hs =>
      rw [slot_of_slot? hs] at hr
      rw [Slot.finish_of_running_none hr]
      rfl
  · rfl

theorem endRest_cases (l : Leaf) (r : Registry) (t : String) :
    ((l.endRest r t).leaf, (l.endRest r t).tickets) =
        l.moved r t { l.slot t with resting := false } [t] ∨
      l.slot t = .empty ∧ l.endRest r t = ⟨l, [], false⟩ := by
  cases hs : l.slot? t with
  | none => exact .inr ⟨by rw [slot, hs, Option.getD_none], by rw [endRest, hs]⟩
  | some s =>
      obtain rfl := slot_of_slot? hs
      refine .inl ?_
      rw [endRest, hs, moved, wakeAll_singleton]

/-! ### The source stays -/

@[simp] theorem source_insert (l : Leaf) (r : Registry) (x : Registration) (e : Envelope)
    (position : Position) (lastOffset : UInt64) :
    (l.insert r x e position lastOffset).leaf.source = l.source := by
  rw [insert]
  dsimp only
  split
  · exact source_wake _ r x.bundleType
  · rfl

@[simp] theorem source_claim (l : Leaf) (r : Registry) (t : String) :
    (l.claim r t).1.source = l.source := by
  rw [claim]
  split
  · dsimp only
    split <;> rfl
  · rfl

@[simp] theorem source_complete (l : Leaf) (r : Registry) (t : String) (verdict : Verdict) :
    (l.complete r t verdict).leaf.source = l.source := by
  rw [complete]
  split
  · dsimp only
    split
    · rfl
    · exact source_wakeAll _ r _
  · rfl

@[simp] theorem source_endRest (l : Leaf) (r : Registry) (t : String) :
    (l.endRest r t).leaf.source = l.source := by
  rw [endRest]
  split
  · exact source_wake _ r t
  · rfl

end Leaf

end Conflux
