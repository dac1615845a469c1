import Conflux.Aggregator
import Conflux.Proofs.Leaf
import Conflux.Proofs.ReadyQueue

/-!
Runs of an aggregator: inserts and what the workers do, in any order. Nothing is asked
of the workers here; they may redeem tickets that nobody wrote and end rests that never
began.

`Sound.step_slot` is the one place where the operations are opened. It says what a
single operation does to the slot of any source and type: the bundles make one
`Slot.Step`, labelled by what was seen to happen, and the slot may be woken, with as
many tickets as the queue then has more. `slot_invariant` turns a property that these
two keep into one of every run.
-/

namespace Conflux.Aggregator

inductive Work where
  | pop
  | claim (source bundleType : String)
  | complete (source bundleType : String) (verdict : Verdict)
  | endRest (source bundleType : String)

inductive Operation where
  | insert (e : Envelope) (position : Position) (lastOffset : UInt64)
  | work (w : Work)

def work (a : Aggregator) : Work → Aggregator
  | .pop => match a.pop? with
    | some (_, a) => a
    | none => a
  | .claim source t => (a.claim source t).1
  | .complete source t verdict => (a.complete source t verdict).1
  | .endRest source t => (a.endRest source t).1

def step (a : Aggregator) : Operation → Aggregator
  | .insert e position lastOffset => (a.insert e position lastOffset).1
  | .work w => a.work w

def run (a : Aggregator) (ops : List Operation) : Aggregator := ops.foldl step a

@[simp] theorem run_nil (a : Aggregator) : a.run [] = a := rfl

@[simp] theorem run_cons (a : Aggregator) (o : Operation) (ops : List Operation) :
    a.run (o :: ops) = (a.step o).run ops := rfl

theorem run_append (a : Aggregator) (ops ops' : List Operation) :
    a.run (ops ++ ops') = (a.run ops).run ops' := by
  rw [run, List.foldl_append]
  rfl

/-! ### One slot of an aggregator -/

/-- The leaf of a source; one that has sent nothing has a fresh leaf. -/
def leaf (a : Aggregator) (source : String) : Leaf := (a.leaf? source).getD (.fresh source)

def slot (a : Aggregator) (source bundleType : String) : Slot := (a.leaf source).slot bundleType

def tickets (a : Aggregator) (source bundleType : String) : Nat :=
  a.queue.waiting.countP (Ticket.isFor source bundleType)

def happening (a : Aggregator) (source bundleType : String) : Operation → Slot.Happening
  | .insert e position lastOffset =>
      if e.source = source ∧ e.bundleType = bundleType then
        match (a.insert e position lastOffset).2.admission with
        | .ready | .buffered => .accepted e position lastOffset
        | .stale | .unknownType => .nothing
      else .nothing
  | .work .pop => .nothing
  | .work (.claim s t) =>
      if s = source ∧ t = bundleType then
        match (a.claim s t).2 with
        | some c => .started c
        | none => .refused
      else .nothing
  | .work (.complete s t verdict) =>
      if s = source ∧ t = bundleType then
        match (a.slot s t).running with
        | some r => .finished r verdict (a.complete s t verdict).2
        | none => .nothing
      else .nothing
  | .work (.endRest s t) => if s = source ∧ t = bundleType then .rested else .nothing

def happenings (a : Aggregator) (source bundleType : String) :
    List Operation → List Slot.Happening
  | [] => []
  | o :: ops => a.happening source bundleType o :: (a.step o).happenings source bundleType ops

theorem slot_put {a : Aggregator} {source : String} {l : Leaf} (s t : String) :
    ({ a with leaves := a.leaves.put source l } : Aggregator).slot s t =
      if source = s then l.slot t else a.slot s t := by
  rw [slot, leaf, leaf?, Table.get?_put]
  split
  · rfl
  · rfl

theorem slot_apply {α : Type} (a : Aggregator) (source : String) (e : Leaf.Effect α)
    (s t : String) :
    (a.apply source e).slot s t = if source = s then e.leaf.slot t else a.slot s t :=
  slot_put s t

theorem tickets_apply {α : Type} (a : Aggregator) (source : String) (e : Leaf.Effect α)
    (s t : String) :
    (a.apply source e).tickets s t = a.tickets s t + e.tickets.countP (Ticket.isFor s t) :=
  ReadyQueue.countP_pushAll _ _ _

/-! ### What every aggregator of a run is like -/

structure Sound (a : Aggregator) : Prop where
  named : a.registry.Named
  source : ∀ s l, a.leaf? s = some l → l.source = s
  unregistered : ∀ s t, a.registry.get? t = none → a.slot s t = .empty

theorem sound_fresh {r : Registry} (h : r.Named) : (fresh r).Sound :=
  ⟨h, fun _ _ hl => (nomatch hl), fun _ _ _ => rfl⟩

theorem Sound.source_leaf {a : Aggregator} (h : a.Sound) (s : String) : (a.leaf s).source = s := by
  rw [leaf]
  cases hl : a.leaf? s with
  | none => rfl
  | some l => exact h.source s l hl

/-- A slot of a leaf is moved on, and tickets are looked after: so are the slots of the
aggregator. -/
theorem Sound.woken_apply {α : Type} {a : Aggregator} (h : a.Sound) {source t : String}
    {core : Slot} {ts : List String} {e : Leaf.Effect α}
    (he : (e.leaf, e.tickets) = (a.leaf source).moved a.registry t core ts) (s u : String) :
    ∃ n, Slot.Woken (if source = s ∧ t = u then core else a.slot s u) n
        ((a.apply source e).slot s u) ∧
      (a.apply source e).tickets s u = a.tickets s u + n := by
  have hleaf : e.leaf = _ := congrArg Prod.fst he
  have htickets : e.tickets = _ := congrArg Prod.snd he
  refine ⟨_, ?_, tickets_apply a source e s u⟩
  rw [slot_apply, hleaf, htickets, Leaf.moved]
  by_cases hs : source = s
  · subst hs
    have hw := ((a.leaf source).putSlot t core).woken_wakeAll a.registry ts u
    rw [Leaf.source_putSlot, h.source_leaf, Leaf.slot_putSlot] at hw
    simpa [slot] using hw
  · rw [Leaf.countP_wakeAll, Leaf.source_putSlot, h.source_leaf]
    simpa [hs, Ne.symm hs] using Slot.Woken.asleep

/-- A step at one slot: what was seen to happen moved its bundles, and it may have been
woken. The queue has as many tickets more for it. -/
def StepsAt (a b : Aggregator) (source t : String) (h : Slot.Happening) : Prop :=
  ∃ core n, Slot.Step (a.registry.mode t) (a.slot source t) h core ∧
    Slot.Woken core n (b.slot source t) ∧ b.tickets source t = a.tickets source t + n

theorem StepsAt.still {a b : Aggregator} {source t : String}
    (hslot : b.slot source t = a.slot source t)
    (htickets : b.tickets source t = a.tickets source t) : a.StepsAt b source t .nothing :=
  ⟨_, 0, .keep, hslot ▸ .asleep, htickets⟩

/-- A move of one slot is a step there, and nowhere else is there one. -/
theorem Sound.stepsAt_apply {α : Type} {a : Aggregator} (h : a.Sound) {source t : String}
    {core : Slot} {ts : List String} {e : Leaf.Effect α} {seen : Slot.Happening}
    (he : (e.leaf, e.tickets) = (a.leaf source).moved a.registry t core ts)
    (hstep : Slot.Step (a.registry.mode t) (a.slot source t) seen core) (s u : String) :
    a.StepsAt (a.apply source e) s u (if source = s ∧ t = u then seen else .nothing) := by
  obtain ⟨n, hw, hn⟩ := h.woken_apply he s u
  by_cases hsu : source = s ∧ t = u
  · obtain ⟨rfl, rfl⟩ := hsu
    simp only [and_self, if_true] at hw ⊢
    exact ⟨core, n, hstep, hw, hn⟩
  · rw [if_neg hsu] at hw ⊢
    exact ⟨_, n, .keep, hw, hn⟩

theorem Sound.stepsAt_insert {a : Aggregator} (h : a.Sound) (e : Envelope) (position : Position)
    (lastOffset : UInt64) (s u : String) :
    a.StepsAt (a.step (.insert e position lastOffset)) s u
      (a.happening s u (.insert e position lastOffset)) := by
  rw [step, happening]
  cases hx : a.registry.get? e.bundleType with
  | none =>
      have hi : a.insert e position lastOffset = (a, ⟨.unknownType, false⟩) := by
        rw [insert, hx]
      simp only [hi, ite_self]
      exact .still rfl rfl
  | some x =>
      have hname := h.named e.bundleType x hx
      let effect := (a.leaf e.source).insert a.registry x e position lastOffset
      have hi : a.insert e position lastOffset = (a.apply e.source effect, effect.answer) := by
        rw [insert, hx]
        rfl
      simp only [hi]
      by_cases hadmits : ((a.leaf e.source).slot x.bundleType).admits e.version = true
      · obtain ⟨hleaf, htickets, hanswer⟩ :=
          Leaf.insert_of_admits hadmits a.registry position lastOffset
        have hstep := h.stepsAt_apply (e := effect) (Prod.ext hleaf htickets)
          (by rw [hname, Registry.mode_eq hx]; exact .accept (hname ▸ hadmits)) s u
        rw [hname] at hstep
        -- The answer says that the bundle was taken, in one of two ways.
        convert hstep using 2
        rcases hanswer with hanswer | hanswer <;> simp only [effect, hanswer]
      · have heffect : effect = ⟨a.leaf e.source, [], ⟨.stale, false⟩⟩ :=
          Leaf.insert_of_not_admits hadmits a.registry position lastOffset
        simp only [heffect, ite_self]
        refine .still ?_ (tickets_apply _ _ _ _ _)
        rw [slot_apply]
        split
        · next hs => rw [← hs]; rfl
        · rfl

theorem claim_eq (a : Aggregator) (source t : String) :
    (a.claim source t).2 = ((a.leaf source).claim a.registry t).2 ∧
      (∀ s u, (a.claim source t).1.slot s u =
        if source = s then ((a.leaf source).claim a.registry t).1.slot u else a.slot s u) ∧
      (a.claim source t).1.queue = a.queue := by
  rw [claim, leaf]
  cases hl : a.leaf? source with
  | none =>
      have hfresh : (Leaf.fresh source).claim a.registry t = (.fresh source, none) := by
        rw [Leaf.claim]
        split
        · next hs => cases hs
        · rfl
      rw [Option.getD_none, hfresh]
      refine ⟨rfl, fun s u => ?_, rfl⟩
      change a.slot s u = if source = s then (Leaf.fresh source).slot u else a.slot s u
      by_cases hs : source = s
      · rw [if_pos hs, slot, ← hs, leaf, hl, Option.getD_none]
      · rw [if_neg hs]
  | some l => exact ⟨rfl, slot_put, rfl⟩

theorem Sound.stepsAt_claim {a : Aggregator} (h : a.Sound) (source t : String) (s u : String) :
    a.StepsAt (a.step (.work (.claim source t))) s u
      (a.happening s u (.work (.claim source t))) := by
  obtain ⟨hanswer, hslot, hqueue⟩ := a.claim_eq source t
  have htickets : (a.claim source t).1.tickets s u = a.tickets s u := by
    rw [tickets, hqueue, tickets]
  rw [step, work, happening, hanswer]
  by_cases hsu : source = s ∧ t = u
  · obtain ⟨rfl, rfl⟩ := hsu
    simp only [and_self, if_true]
    have hself := hslot source t
    rw [if_pos rfl] at hself
    cases hx : a.registry.get? t with
    | none =>
        rw [Leaf.claim_of_not_registered hx] at hself ⊢
        refine ⟨{ a.slot source t with queued := false }, 0, .refuse, ?_, htickets⟩
        -- The slot of a type that is not registered is empty, and has no flag to clear.
        have hempty := h.unregistered source t hx
        rw [hself]
        change Slot.Woken { a.slot source t with queued := false } 0 (a.slot source t)
        rw [hempty]
        exact .asleep
    | some x =>
        rcases Leaf.claim_cases hx with ⟨b, hb, hr, hrest, _, hclaim, hafter⟩ | ⟨hclaim, hafter⟩
        · rw [hclaim]
          refine ⟨_, 0, .start hb hr hrest, ?_, htickets⟩
          rw [hself, hafter, if_pos rfl]
          exact .asleep
        · rw [hclaim]
          refine ⟨_, 0, .refuse, ?_, htickets⟩
          rw [hself, hafter, if_pos rfl]
          exact .asleep
  · rw [if_neg hsu]
    refine .still ?_ htickets
    rw [hslot]
    split
    · next hs =>
        have htu : t ≠ u := fun htu => hsu ⟨hs, htu⟩
        cases hx : a.registry.get? t with
        | none => rw [Leaf.claim_of_not_registered hx, ← hs, slot]
        | some x =>
            rcases Leaf.claim_cases (l := a.leaf source) hx with
              ⟨_, _, _, _, _, _, hafter⟩ | ⟨_, hafter⟩ <;>
            rw [hafter, if_neg htu, ← hs, slot]
    · rfl

theorem Sound.stepsAt_complete {a : Aggregator} (h : a.Sound) (source t : String)
    (verdict : Verdict) (s u : String) :
    a.StepsAt (a.step (.work (.complete source t verdict))) s u
      (a.happening s u (.work (.complete source t verdict))) := by
  rw [step, work, happening]
  cases hl : a.leaf? source with
  | none =>
      have hnone : (a.slot source t).running = none := by
        rw [slot, leaf, hl, Option.getD_none, Leaf.slot_fresh]
        rfl
      have hc : a.complete source t verdict = (a, .notInFlight) := by rw [complete, hl]
      rw [hc, hnone, ite_self]
      exact .still rfl rfl
  | some l =>
      let effect := (a.leaf source).complete a.registry t verdict
      have hc : a.complete source t verdict = (a.apply source effect, effect.answer) := by
        simp only [effect, complete, leaf, hl, Option.getD_some]
      rw [hc]
      cases hr : (a.slot source t).running with
      | none =>
          have heffect : effect = ⟨a.leaf source, [], .notInFlight⟩ :=
            Leaf.complete_of_running_none hr a.registry verdict
          rw [heffect, ite_self]
          refine .still ?_ (tickets_apply _ _ _ _ _)
          rw [slot_apply]
          split
          · next hs => rw [← hs]; rfl
          · rfl
      | some run =>
          cases hx : a.registry.get? t with
          | none =>
              rw [h.unregistered source t hx] at hr
              cases hr
          | some x =>
              let finished := (a.slot source t).finish x.mode verdict
              have hstep := Slot.step_finish hr x.mode verdict
              rw [← Registry.mode_eq hx] at hstep
              have heffect : effect = _ := Leaf.complete_of_running hx hr verdict
              have hmoved : (effect.leaf, effect.tickets) = (a.leaf source).moved a.registry t
                  finished.1 (Leaf.awaiting a.registry t finished.2) := by rw [heffect]; rfl
              have hanswer : effect.answer = finished.2 := by rw [heffect]; rfl
              rw [hanswer]
              simp only [finished, ← Registry.mode_eq hx] at hmoved ⊢
              exact h.stepsAt_apply hmoved hstep s u

/-- A worker who runs a handler is heard when it ends. -/
theorem Sound.complete_ne_notInFlight {a : Aggregator} (h : a.Sound) {source t : String}
    {r : Running} (hr : (a.slot source t).running = some r) (verdict : Verdict) :
    (a.complete source t verdict).2 ≠ .notInFlight := by
  obtain ⟨core, n, hstep, _⟩ := h.stepsAt_complete source t verdict source t
  rw [happening, if_pos ⟨rfl, rfl⟩, hr] at hstep
  intro hanswer
  simp only [hanswer] at hstep
  cases hstep

theorem Sound.stepsAt_endRest {a : Aggregator} (h : a.Sound) (source t : String) (s u : String) :
    a.StepsAt (a.step (.work (.endRest source t))) s u
      (a.happening s u (.work (.endRest source t))) := by
  rw [step, work, happening, endRest]
  cases hl : a.leaf? source with
  | none =>
      have hempty : a.slot source t = .empty := by
        rw [slot, leaf, hl, Option.getD_none, Leaf.slot_fresh]
      by_cases hsu : source = s ∧ t = u
      · obtain ⟨rfl, rfl⟩ := hsu
        simp only [and_self, if_true]
        -- Without a leaf there is no rest, so nothing is left of its end.
        refine ⟨{ a.slot source t with resting := false }, 0, .rest, ?_, rfl⟩
        rw [hempty]
        exact .asleep
      · rw [if_neg hsu]
        exact .still rfl rfl
  | some l =>
      have hleaf : a.leaf source = l := by rw [leaf, hl, Option.getD_some]
      rcases Leaf.endRest_cases (a.leaf source) a.registry t with he | ⟨hempty, he⟩
      · have hstep := h.stepsAt_apply he .rest s u
        rw [hleaf] at hstep
        exact hstep
      · rw [hleaf] at he
        simp only [he]
        have hsame (v : String) : (a.apply source (⟨l, [], false⟩ : Leaf.Effect Bool)).slot s v =
            a.slot s v := by
          rw [slot_apply]
          split
          · next hs => rw [← hs, slot, hleaf]
          · rfl
        by_cases hsu : source = s ∧ t = u
        · obtain ⟨rfl, rfl⟩ := hsu
          simp only [and_self, if_true]
          refine ⟨{ a.slot source t with resting := false }, 0, .rest, ?_, tickets_apply _ _ _ _ _⟩
          rw [hsame, slot, hempty]
          exact .asleep
        · rw [if_neg hsu]
          exact .still (hsame u) (tickets_apply _ _ _ _ _)

theorem work_pop_cases (a : Aggregator) :
    (∃ t rest, a.queue.waiting = t :: rest ∧ a.pop? = some (t, a.work .pop) ∧
      a.work .pop = { a with queue := ⟨rest⟩ }) ∨
    a.queue.waiting = [] ∧ a.pop? = none ∧ a.work .pop = a := by
  cases hq : a.queue.waiting with
  | nil =>
      have hp : a.pop? = none := by rw [pop?, ReadyQueue.pop?, hq]; rfl
      exact .inr ⟨rfl, hp, by rw [work, hp]⟩
  | cons t rest =>
      have hp : a.pop? = some (t, { a with queue := ⟨rest⟩ }) := by
        rw [pop?, ReadyQueue.pop?, hq]
        rfl
      have hw : a.work .pop = { a with queue := ⟨rest⟩ } := by rw [work, hp]
      exact .inl ⟨t, rest, rfl, by rw [hp, hw], hw⟩

theorem slot_work_pop (a : Aggregator) (s t : String) : (a.work .pop).slot s t = a.slot s t := by
  rcases a.work_pop_cases with ⟨k, rest, _, _, hw⟩ | ⟨_, _, hw⟩
  · rw [hw]
    rfl
  · rw [hw]

/-- What an operation does to a slot, and to the tickets for it unless it takes one. -/
theorem Sound.stepsAt {a : Aggregator} (h : a.Sound) {o : Operation} (ho : o ≠ .work .pop)
    (s u : String) : a.StepsAt (a.step o) s u (a.happening s u o) := by
  match o with
  | .insert e position lastOffset => exact h.stepsAt_insert e position lastOffset s u
  | .work .pop => exact absurd rfl ho
  | .work (.claim source t) => exact h.stepsAt_claim source t s u
  | .work (.complete source t verdict) => exact h.stepsAt_complete source t verdict s u
  | .work (.endRest source t) => exact h.stepsAt_endRest source t s u

/-- What an operation does to a slot. -/
theorem Sound.step_slot {a : Aggregator} (h : a.Sound) (o : Operation) (s u : String) :
    ∃ core n, Slot.Step (a.registry.mode u) (a.slot s u) (a.happening s u o) core ∧
      Slot.Woken core n ((a.step o).slot s u) := by
  by_cases ho : o = .work .pop
  · subst ho
    refine ⟨a.slot s u, 0, .keep, ?_⟩
    rw [step, slot_work_pop]
    exact .asleep
  · obtain ⟨core, n, hstep, hwoken, _⟩ := h.stepsAt ho s u
    exact ⟨core, n, hstep, hwoken⟩

/-- A bundle is seen to come in only where it is inserted. -/
theorem happening_eq_accepted {a : Aggregator} {s u : String} {o : Operation} {e : Envelope}
    {position : Position} {lastOffset : UInt64}
    (h : a.happening s u o = .accepted e position lastOffset) :
    o = .insert e position lastOffset ∧ e.source = s ∧ e.bundleType = u := by
  match o with
  | .insert d place last =>
      rw [happening] at h
      split at h
      · next hsu =>
          split at h
          · cases h
            exact ⟨rfl, hsu⟩
          · cases h
            exact ⟨rfl, hsu⟩
          · cases h
          · cases h
      · cases h
  | .work .pop => cases h
  | .work (.claim source t) =>
      rw [happening] at h
      split at h
      · split at h <;> cases h
      · cases h
  | .work (.complete source t given) =>
      rw [happening] at h
      split at h
      · split at h <;> cases h
      · cases h
  | .work (.endRest source t) =>
      rw [happening] at h
      split at h <;> cases h

theorem happening_of_not_registered {a : Aggregator} {u : String}
    (hu : a.registry.get? u = none) (s : String) (o : Operation) (e : Envelope)
    (position : Position) (lastOffset : UInt64) :
    a.happening s u o ≠ .accepted e position lastOffset := by
  intro h
  obtain ⟨rfl, rfl, rfl⟩ := happening_eq_accepted h
  rw [happening, insert, hu] at h
  simp at h

/-- A run is seen to end only where a worker reports it. -/
theorem happening_eq_finished {a : Aggregator} {s u : String} {o : Operation} {done : Running}
    {verdict : Verdict} {completion : Completion}
    (h : a.happening s u o = .finished done verdict completion) :
    o = .work (.complete s u verdict) ∧ (a.slot s u).running = some done ∧
      (a.complete s u verdict).2 = completion := by
  match o with
  | .insert e position lastOffset =>
      rw [happening] at h
      split at h
      · split at h <;> cases h
      · cases h
  | .work .pop => cases h
  | .work (.claim source t) =>
      rw [happening] at h
      split at h
      · split at h <;> cases h
      · cases h
  | .work (.complete source t given) =>
      rw [happening] at h
      split at h
      · next hsu =>
          obtain ⟨rfl, rfl⟩ := hsu
          split at h
          · next r hr =>
              cases h
              exact ⟨rfl, hr, rfl⟩
          · cases h
      · cases h
  | .work (.endRest source t) =>
      rw [happening] at h
      split at h <;> cases h

@[simp] theorem registry_work (a : Aggregator) (w : Work) : (a.work w).registry = a.registry := by
  cases w with
  | pop => rcases a.work_pop_cases with ⟨k, rest, _, _, hw⟩ | ⟨_, _, hw⟩ <;> rw [hw]
  | claim source t =>
      rw [work, claim]
      split <;> rfl
  | complete source t verdict =>
      rw [work, complete]
      split <;> rfl
  | endRest source t =>
      rw [work, endRest]
      split <;> rfl

@[simp] theorem registry_step (a : Aggregator) (o : Operation) :
    (a.step o).registry = a.registry := by
  cases o with
  | insert e position lastOffset =>
      rw [step, insert]
      split <;> rfl
  | work w => exact registry_work a w

@[simp] theorem registry_run (a : Aggregator) (ops : List Operation) :
    (a.run ops).registry = a.registry := by
  induction ops generalizing a with
  | nil => rfl
  | cons o ops ih => rw [run_cons, ih, registry_step]

theorem source_put {a : Aggregator} {source : String} {l : Leaf}
    (h : ∀ s l, a.leaf? s = some l → l.source = s) (hl : l.source = source) (s : String)
    (m : Leaf) (hm : (a.leaves.put source l).get? s = some m) : m.source = s := by
  rw [Table.get?_put] at hm
  split at hm
  · next hs =>
      cases hm
      exact hl.trans hs
  · exact h s m hm

theorem Sound.source_step {a : Aggregator} (h : a.Sound) (o : Operation) (s : String) (l : Leaf)
    (hl : (a.step o).leaf? s = some l) : l.source = s := by
  match o with
  | .insert e position lastOffset =>
      rw [step, insert] at hl
      split at hl
      · exact h.source s l hl
      · refine source_put h.source ?_ s l hl
        rw [Leaf.source_insert]
        exact h.source_leaf e.source
  | .work .pop =>
      rw [step] at hl
      rcases a.work_pop_cases with ⟨k, rest, _, _, hw⟩ | ⟨_, _, hw⟩ <;> rw [hw] at hl <;>
        exact h.source s l hl
  | .work (.claim source t) =>
      rw [step, work, claim] at hl
      split at hl
      · exact h.source s l hl
      · next m hm =>
          refine source_put h.source ?_ s l hl
          rw [Leaf.source_claim]
          exact h.source source m hm
  | .work (.complete source t verdict) =>
      rw [step, work, complete] at hl
      split at hl
      · exact h.source s l hl
      · next m hm =>
          refine source_put h.source ?_ s l hl
          rw [Leaf.source_complete]
          exact h.source source m hm
  | .work (.endRest source t) =>
      rw [step, work, endRest] at hl
      split at hl
      · exact h.source s l hl
      · next m hm =>
          refine source_put h.source ?_ s l hl
          rw [Leaf.source_endRest]
          exact h.source source m hm

theorem Sound.step {a : Aggregator} (h : a.Sound) (o : Operation) : (a.step o).Sound where
  named := by
    rw [registry_step]
    exact h.named
  source := h.source_step o
  unregistered s u hu := by
    rw [registry_step] at hu
    have hempty := h.unregistered s u hu
    have hnot := happening_of_not_registered hu s o
    obtain ⟨core, n, hstep, hwoken⟩ := h.step_slot o s u
    rw [hempty] at hstep
    -- Only an accepted bundle could fill the slot, and none of this type is accepted.
    have hcore : core = .empty := by
      generalize a.happening s u o = seen at hstep hnot
      cases hstep with
      | keep | refuse | rest => rfl
      | accept => exact absurd rfl (hnot _ _ _)
      | start hb => cases hb
      | succeed hr | drop hr | supersede hr | putBack hr | putBeneath hr => cases hr
    rw [hcore] at hwoken
    generalize (a.step o).slot s u = after at hwoken ⊢
    cases hwoken with
    | asleep => rfl
    | woken _ hb => cases hb

theorem Sound.run {a : Aggregator} (h : a.Sound) (ops : List Operation) : (a.run ops).Sound := by
  induction ops generalizing a with
  | nil => exact h
  | cons o ops ih => exact ih (h.step o)

/-! ### Properties of runs -/

/-- What every step keeps and every waking keeps, a run keeps. The property may speak of
all that was seen to happen so far. -/
theorem Sound.slot_invariant {a : Aggregator} (h : a.Sound) (source t : String)
    {P : List Slot.Happening → Slot → Prop} (past : List Slot.Happening)
    (hstart : P past (a.slot source t))
    (hstep : ∀ past s seen core, P past s → Slot.Step (a.registry.mode t) s seen core →
      P (past ++ [seen]) core)
    (hwoken : ∀ past core n s, P past core → Slot.Woken core n s → P past s)
    (ops : List Operation) :
    P (past ++ a.happenings source t ops) ((a.run ops).slot source t) := by
  -- The past grows with each operation, so the start of the rest may be any of its states.
  induction ops generalizing a past with
  | nil => simpa [happenings] using hstart
  | cons o ops ih =>
      obtain ⟨core, n, hs, hw⟩ := h.step_slot o source t
      have hnext : P (past ++ [a.happening source t o]) ((a.step o).slot source t) :=
        hwoken _ _ _ _ (hstep _ _ _ _ hstart hs) hw
      have hrest := ih (h.step o) _ hnext (by simpa using hstep)
      rwa [List.append_assoc, List.singleton_append] at hrest

end Conflux.Aggregator
