import Conflux.Proofs.Aggregator.Run

/-!
No bundle is forgotten. A leaf is alert when each of its slots that can run has a ticket,
and every operation keeps it so: an operation moves one slot, and whatever can come to run
by that move is looked at afterwards.

A slot comes to run by its own move, or by the move of the type it depends on. The second
kind needs that the last processed version of a type moves in one way only, when a bundle
of it is processed, and that the registry lists everybody who waits for the type.
-/

namespace Conflux

theorem Slot.Step.lastProcessed_eq_or {mode : SyncMode} {s core : Slot} {seen : Happening}
    (hstep : Step mode s seen core) :
    core.lastProcessed = s.lastProcessed ∨ ∃ r, seen = .finished r .succeeded .processed := by
  cases hstep with
  | keep | accept | refuse | start | drop | supersede | putBack | putBeneath | rest =>
      exact .inl rfl
  | succeed => exact .inr ⟨_, rfl⟩

namespace Leaf

/-- No slot that can run is without a ticket. -/
def Alert (l : Leaf) (r : Registry) : Prop := ∀ t, l.ready r t = false

/-- Whether a slot can run is a matter of that slot and of what has been processed. -/
theorem ready_congr {l m : Leaf} {t : String} (hslot : l.slot t = m.slot t) (r : Registry)
    (hlast : ∀ x d, r.get? t = some x → x.dependsOn = some d →
      (l.slot d).lastProcessed = (m.slot d).lastProcessed) : l.ready r t = m.ready r t := by
  rw [ready, ready, hslot]
  split
  · next x hx =>
      rw [runnable, runnable]
      split
      · next b _ =>
          rw [satisfied, satisfied]
          split
          · rfl
          · next d hd => rw [lastProcessed_eq, lastProcessed_eq, hlast x d hx hd]
      · rfl
  · rfl

/-- The slots that have been looked at are not ready; the others are as ready as before. -/
theorem ready_wakeAll (l : Leaf) (r : Registry) (ts : List String) (u : String) :
    (l.wakeAll r ts).1.ready r u = (l.ready r u && decide (u ∉ ts)) := by
  induction ts generalizing l with
  | nil => simp [wakeAll]
  | cons t ts ih =>
      change ((l.wake r t).1.wakeAll r ts).1.ready r u = _
      rw [ih, ready_wake]
      by_cases ht : t = u
      · simp [ht]
      · simp [ht, Ne.symm ht]

variable {l : Leaf} {r : Registry} {t : String}

/-- A move of one slot, and a look at that slot. Those who wait for its type are looked
at too, unless nothing has changed for them. -/
theorem Alert.moved (h : l.Alert r) {core : Slot} {ts : List String} (ht : t ∈ ts)
    (hlast : core.lastProcessed = (l.slot t).lastProcessed ∨
      ∀ u x, r.get? u = some x → x.dependsOn = some t → u ∈ ts) :
    (l.moved r t core ts).1.Alert r := by
  intro u
  rw [Leaf.moved, ready_wakeAll]
  by_cases hu : u ∈ ts
  · simp [hu]
  · have hne : t ≠ u := fun htu => hu (htu ▸ ht)
    -- A slot that is not looked at neither moved nor waits for the one that did.
    have hsame : (l.putSlot t core).ready r u = l.ready r u := by
      refine ready_congr (slot_putSlot_of_ne hne l core) r fun x d hx hd => ?_
      rw [slot_putSlot]
      split
      · next htd =>
          subst htd
          rcases hlast with hlast | hlisted
          · exact hlast
          · exact absurd (hlisted u x hx hd) hu
      · rfl
    rw [hsame, h u, Bool.false_and]

theorem Alert.insert (h : l.Alert r) (x : Registration) (e : Envelope) (position : Position)
    (lastOffset : UInt64) : (l.insert r x e position lastOffset).leaf.Alert r := by
  by_cases hadmits : (l.slot x.bundleType).admits e.version = true
  · rw [(insert_of_admits hadmits r position lastOffset).1]
    exact h.moved (List.mem_singleton_self _) (.inl rfl)
  · rw [insert_of_not_admits hadmits]
    exact h

/-- A bundle that can run is handed out. -/
theorem claim_isSome {x : Registration} {b : Buffered} (hx : r.get? t = some x)
    (hb : (l.slot t).buffered = some b) (hr : (l.slot t).running = none)
    (hrest : (l.slot t).resting = false) (hsat : l.satisfied x b.envelope = true) :
    (l.claim r t).2.isSome = true := by
  cases hs : l.slot? t with
  | none =>
      rw [slot, hs] at hb
      cases hb
  | some s =>
      obtain rfl := slot_of_slot? hs
      simp [claim, hx, hs, hb, hr, hrest, hsat, Slot.start?]

theorem lastProcessed_claim (l : Leaf) (r : Registry) (t u : String) :
    (l.claim r t).1.lastProcessed u = l.lastProcessed u := by
  rw [lastProcessed_eq, lastProcessed_eq]
  cases hx : r.get? t with
  | none => rw [claim_of_not_registered hx]
  | some x =>
      rcases claim_cases (l := l) hx with ⟨_, _, _, _, _, _, hafter⟩ | ⟨_, hafter⟩
      · rw [hafter]
        split
        · next htu => rw [htu]
        · rfl
      · rw [hafter]
        split
        · next htu => rw [htu]
        · rfl

/-- A ticket is used up either for a run or in vain, and in vain only where the slot can
not run: so no other ticket is missed. -/
theorem Alert.claim (h : l.Alert r) : (l.claim r t).1.Alert r := by
  intro u
  by_cases hready : (l.claim r t).1.ready r u = true
  · obtain ⟨x, b, hx, hb, hidle, hsat⟩ := ready_iff.1 hready
    rw [satisfied_congr (lastProcessed_claim l r t)] at hsat
    simp only [Slot.idle, Bool.and_eq_true, Option.isNone_iff_eq_none, Bool.not_eq_true']
      at hidle
    by_cases htu : t = u
    · subst htu
      rcases claim_cases hx with ⟨_, _, _, _, _, _, hafter⟩ | ⟨hrefused, hafter⟩
      · rw [hafter, if_pos rfl] at hb
        cases hb
      · rw [hafter, if_pos rfl] at hb hidle
        have hsome := claim_isSome hx hb hidle.1.1 hidle.2 hsat
        rw [hrefused] at hsome
        cases hsome
    · have hslot : (l.claim r t).1.slot u = l.slot u := by
        cases hy : r.get? t with
        | none => rw [claim_of_not_registered hy]
        | some y =>
            rcases claim_cases (l := l) hy with ⟨_, _, _, _, _, _, hafter⟩ | ⟨_, hafter⟩
            · rw [hafter, if_neg htu]
            · rw [hafter, if_neg htu]
      rw [← h u]
      refine ready_congr hslot r fun _ d _ _ => ?_
      rw [← lastProcessed_eq, ← lastProcessed_eq, lastProcessed_claim]
  · exact Bool.eq_false_iff.2 hready

theorem Alert.complete (h : l.Alert r) (hlisted : r.Listed) (verdict : Verdict) :
    (l.complete r t verdict).leaf.Alert r := by
  cases hr : (l.slot t).running with
  | none =>
      rw [complete_of_running_none hr]
      exact h
  | some run =>
      cases hx : r.get? t with
      | none =>
          have hnone : l.complete r t verdict = ⟨l, [], .notInFlight⟩ := by
            rw [Leaf.complete, hx]
          rw [hnone]
          exact h
      | some x =>
          rw [complete_of_running hx hr]
          refine h.moved (List.mem_cons_self ..) ?_
          rcases (Slot.step_finish hr x.mode verdict).lastProcessed_eq_or with hlast | ⟨_, hseen⟩
          · exact .inl hlast
          · -- A bundle was processed, so all who wait for its type are looked at.
            injection hseen with _ _ hprocessed
            refine .inr fun u y hy hd => ?_
            rw [awaiting, if_pos hprocessed]
            exact List.mem_cons_of_mem _ (hlisted u y t hy hd)

theorem Alert.endRest (h : l.Alert r) : (l.endRest r t).leaf.Alert r := by
  rcases endRest_cases l r t with heffect | ⟨_, heffect⟩
  · rw [show (l.endRest r t).leaf = _ from congrArg Prod.fst heffect]
    exact h.moved (List.mem_singleton_self _) (.inl rfl)
  · rw [heffect]
    exact h

end Leaf

namespace Aggregator

/-- In no leaf is a slot that can run without a ticket. -/
def Alert (a : Aggregator) : Prop := ∀ source, (a.leaf source).Alert a.registry

variable {a : Aggregator}

/-- An operation puts one leaf in its place. -/
theorem Alert.put (h : a.Alert) {source : String} {l : Leaf} (hl : l.Alert a.registry)
    (queue : ReadyQueue) : Alert { a with leaves := a.leaves.put source l, queue } := by
  intro s
  rw [leaf, leaf?, Table.get?_put]
  split
  · exact hl
  · exact h s

theorem leaf_of_leaf? {source : String} {l : Leaf} (h : a.leaf? source = some l) :
    a.leaf source = l := by
  rw [leaf, h, Option.getD_some]

theorem Alert.step (h : a.Alert) (hlisted : a.registry.Listed) (o : Operation) :
    (a.step o).Alert := by
  match o with
  | .insert e position lastOffset =>
      rw [Aggregator.step, insert]
      split
      · exact h
      · next x _ => exact h.put ((h e.source).insert x e position lastOffset) _
  | .work .pop =>
      rcases a.work_pop_cases with ⟨_, rest, _, _, hw⟩ | ⟨_, _, hw⟩
      · rw [Aggregator.step, hw]
        exact h
      · rw [Aggregator.step, hw]
        exact h
  | .work (.claim source t) =>
      rw [Aggregator.step, work, claim]
      split
      · exact h
      · next l hl =>
          have hclaim := (h source).claim (t := t)
          rw [leaf_of_leaf? hl] at hclaim
          exact h.put hclaim _
  | .work (.complete source t verdict) =>
      rw [Aggregator.step, work, complete]
      split
      · exact h
      · next l hl =>
          have hcomplete := (h source).complete (t := t) hlisted verdict
          rw [leaf_of_leaf? hl] at hcomplete
          exact h.put hcomplete _
  | .work (.endRest source t) =>
      rw [Aggregator.step, work, endRest]
      split
      · exact h
      · next l hl =>
          have hrest := (h source).endRest (t := t)
          rw [leaf_of_leaf? hl] at hrest
          exact h.put hrest _

end Aggregator

end Conflux
