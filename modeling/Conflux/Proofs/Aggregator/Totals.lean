import Conflux.Proofs.Aggregator.Run
import Mathlib.Algebra.BigOperators.Group.Finset.Sigma
import Mathlib.Algebra.GroupWithZero.Nat

/-!
What all slots of an aggregator have together. A total is taken over the entries of the two
layers of tables, leaves and slots. To reason about it, it is read as a sum over sources and
types, of which an operation changes one summand; how this one changes is known from
`Slot.Step`. So the bundles that wait and those at work are counted without opening an
operation again.
-/

namespace Conflux

open Finset

/-- The values of a table, summed up over any keys that there may be. -/
theorem Table.sum_values {κ α : Type} [DecidableEq κ] (t : Table κ α) {f : α → Nat} {absent : α}
    (habsent : f absent = 0) {ks : Finset κ} (hks : t.keys.toFinset ⊆ ks) :
    (t.values.map f).sum = ∑ k ∈ ks, f ((t.get? k).getD absent) := by
  have hentries : (t.values.map f).sum = ∑ k ∈ t.keys.toFinset, f ((t.get? k).getD absent) := by
    rw [keys, List.sum_toFinset _ t.distinct, values, List.map_map, List.map_map]
    refine congrArg List.sum (List.map_congr_left fun e he => ?_)
    simp [get?_eq_some_iff.2 he]
  rw [hentries]
  refine sum_subset hks fun k _ hk => ?_
  cases hget : t.get? k with
  | none => exact habsent
  | some v =>
      rw [List.mem_toFinset] at hk
      exact absurd (List.mem_map_of_mem (f := Prod.fst) (get?_eq_some_iff.1 hget)) hk

/-- How many bundles it adds to those that are there. One that joins another adds none. -/
def Insertion.adds (i : Insertion) : Nat :=
  match i.admission with
  | .ready | .buffered => if i.conflated then 0 else 1
  | .stale | .unknownType => 0

/-- How many bundles go with the end of a run, where so many wait. What is tried again stays,
unless it becomes one with what waits. -/
def Completion.takes (waiting : Nat) : Completion → Nat
  | .processed | .superseded | .dropped _ _ => 1
  | .retry _ => waiting
  | .notInFlight => 0

namespace Slot

def waiting (s : Slot) : Nat := s.buffered.isSome.toNat

def atWork (s : Slot) : Nat := s.running.isSome.toNat

def Happening.adds (s : Slot) : Happening → Nat
  | .accepted _ _ _ => 1 - s.waiting
  | _ => 0

def Happening.takes (s : Slot) : Happening → Nat
  | .finished _ _ completion => completion.takes s.waiting
  | _ => 0

theorem Step.balance {mode : SyncMode} {s core : Slot} {seen : Happening}
    (h : Step mode s seen core) :
    core.waiting + core.atWork + seen.takes s = s.waiting + s.atWork + seen.adds s := by
  cases h with
  | keep | refuse | rest => rfl
  | accept =>
      have hle : s.waiting ≤ 1 := Bool.toNat_le _
      change 1 + s.atWork + 0 = s.waiting + s.atWork + (1 - s.waiting)
      omega
  | start hb hr => simp [waiting, atWork, Happening.takes, Happening.adds, hb, hr]
  | succeed hr | drop hr =>
      simp [waiting, atWork, Happening.takes, Happening.adds, Completion.takes, hr]
  | supersede hr hb | putBack hr hb | putBeneath hr hb =>
      simp [waiting, atWork, Happening.takes, Happening.adds, Completion.takes, hr, hb]

end Slot

def Leaf.total (f : Slot → Nat) (l : Leaf) : Nat := (l.slots.values.map f).sum

namespace Aggregator

/-- What the slots of all leaves have of something. -/
def total (f : Slot → Nat) (a : Aggregator) : Nat := (a.leaves.values.map (Leaf.total f)).sum

def waiting (a : Aggregator) : Nat := a.total Slot.waiting

def inFlight (a : Aggregator) : Nat := a.total Slot.atWork

variable {a b : Aggregator} {f : Slot → Nat}

/-! ### A total as a sum over sources and types -/

/-- There are leaves of these sources only, and in them slots of these types only. -/
structure Within (a : Aggregator) (sources types : Finset String) : Prop where
  sources : a.leaves.keys.toFinset ⊆ sources
  types : ∀ s l, a.leaf? s = some l → l.slots.keys.toFinset ⊆ types

theorem Within.mono {sources types sources' types' : Finset String} (h : a.Within sources types)
    (hs : sources ⊆ sources') (ht : types ⊆ types') : a.Within sources' types' :=
  ⟨h.sources.trans hs, fun s l hl => (h.types s l hl).trans ht⟩

theorem exists_within (a : Aggregator) : ∃ sources types, a.Within sources types := by
  refine ⟨a.leaves.keys.toFinset, (a.leaves.values.flatMap (·.slots.keys)).toFinset,
    subset_rfl, fun s l hl t ht => ?_⟩
  have hleaf : l ∈ a.leaves.values :=
    List.mem_map_of_mem (f := Prod.snd) (Table.get?_eq_some_iff.1 hl)
  rw [List.mem_toFinset] at ht ⊢
  exact List.mem_flatMap.2 ⟨l, hleaf, ht⟩

theorem total_eq (hf : f .empty = 0) {sources types : Finset String}
    (h : a.Within sources types) : a.total f = ∑ x ∈ sources ×ˢ types, f (a.slot x.1 x.2) := by
  have hfresh : Leaf.total f (.fresh "") = 0 := rfl
  rw [total, Table.sum_values a.leaves hfresh h.sources, sum_product]
  refine sum_congr rfl fun s _ => ?_
  have hslot (t : String) : a.slot s t = ((a.leaf? s).getD (.fresh "")).slot t := by
    rw [slot, leaf]
    cases a.leaf? s <;> rfl
  simp only [hslot, Leaf.slot]
  refine Table.sum_values _ hf ?_
  cases hl : a.leaves.get? s with
  | none => exact empty_subset types
  | some l => exact h.types s l hl

/-- Where one slot is all that has changed, the total has changed as much as the slot. -/
theorem total_of_elsewhere (hf : f .empty = 0) {source t : String}
    (helsewhere : ∀ s u, ¬ (source = s ∧ t = u) → f (b.slot s u) = f (a.slot s u)) :
    b.total f + f (a.slot source t) = a.total f + f (b.slot source t) := by
  obtain ⟨sources, types, ha⟩ := a.exists_within
  obtain ⟨sources', types', hb⟩ := b.exists_within
  -- Both are summed up over the same keys, and the slot in question is among them.
  let ss := {source} ∪ (sources ∪ sources')
  let ts := {t} ∪ (types ∪ types')
  have hmem : (source, t) ∈ ss ×ˢ ts := by simp [ss, ts]
  have ha : a.Within ss ts := ha.mono (by grind) (by grind)
  have hb : b.Within ss ts := hb.mono (by grind) (by grind)
  rw [total_eq hf ha, total_eq hf hb, ← add_sum_erase _ _ hmem, ← add_sum_erase _ _ hmem]
  have hrest : ∑ x ∈ (ss ×ˢ ts).erase (source, t), f (b.slot x.1 x.2) =
      ∑ x ∈ (ss ×ˢ ts).erase (source, t), f (a.slot x.1 x.2) := by
    refine sum_congr rfl fun x hx => helsewhere x.1 x.2 fun heq => (mem_erase.1 hx).1 ?_
    exact Prod.ext heq.1.symm heq.2.symm
  rw [hrest]
  dsimp only
  omega

/-! ### Operations -/

/-- An operation on one slot changes a total as it changes the slot; that the slot is woken
after it does not count. -/
theorem Sound.total_step (h : a.Sound) (o : Operation) (source t : String)
    (helsewhere : ∀ s u, ¬ (source = s ∧ t = u) → a.happening s u o = .nothing) :
    ∃ core, Slot.Step (a.registry.mode t) (a.slot source t) (a.happening source t o) core ∧
      ∀ f : Slot → Nat, f .empty = 0 → (∀ s : Slot, f { s with queued := true } = f s) →
        (a.step o).total f + f (a.slot source t) = a.total f + f core := by
  obtain ⟨core, _, hstep, hw⟩ := h.step_slot o source t
  refine ⟨core, hstep, fun f hempty hqueued => ?_⟩
  have hwoken {core s : Slot} {n : Nat} (hw : Slot.Woken core n s) : f s = f core := by
    cases hw with
    | asleep => rfl
    | woken => exact hqueued core
  rw [← hwoken hw]
  refine total_of_elsewhere hempty fun s u hne => ?_
  obtain ⟨same, _, hsame, hw⟩ := h.step_slot o s u
  rw [helsewhere s u hne] at hsame
  cases hsame
  exact hwoken hw

def held (a : Aggregator) : Nat := a.waiting + a.inFlight

theorem Sound.held_step (h : a.Sound) (o : Operation) (source t : String)
    (helsewhere : ∀ s u, ¬ (source = s ∧ t = u) → a.happening s u o = .nothing) :
    (a.step o).held + (a.happening source t o).takes (a.slot source t) =
      a.held + (a.happening source t o).adds (a.slot source t) := by
  obtain ⟨core, hstep, htotal⟩ := h.total_step o source t helsewhere
  have hwaiting := htotal Slot.waiting rfl fun _ => rfl
  have hatWork := htotal Slot.atWork rfl fun _ => rfl
  have hbalance := hstep.balance
  rw [held, held, waiting, waiting, inFlight, inFlight]
  omega

theorem conflated_insert (h : a.registry.Named) (e : Envelope) (position : Position)
    (lastOffset : UInt64) :
    let i := (a.insert e position lastOffset).2
    i.admission = .ready ∨ i.admission = .buffered →
      i.conflated = (a.slot e.source e.bundleType).buffered.isSome := by
  rw [insert]
  cases hx : a.registry.get? e.bundleType with
  | none =>
      dsimp only
      rintro (h | h) <;> cases h
  | some x =>
      dsimp only
      rw [Leaf.insert, slot, leaf, Leaf.slot, h e.bundleType x hx]
      dsimp only
      split
      · exact fun _ => rfl
      · rintro (h | h) <;> cases h

theorem Sound.held_insert (h : a.Sound) (e : Envelope) (position : Position)
    (lastOffset : UInt64) :
    (a.insert e position lastOffset).1.held =
      a.held + (a.insert e position lastOffset).2.adds := by
  have hstep := h.held_step (.insert e position lastOffset) e.source e.bundleType
    fun s u hne => if_neg hne
  have hconflated := a.conflated_insert h.named e position lastOffset
  rw [happening, if_pos ⟨rfl, rfl⟩] at hstep
  rw [Insertion.adds]
  cases hi : (a.insert e position lastOffset).2.admission with
  | ready | buffered =>
      simp only [hi] at hstep
      rw [hconflated (by simp [hi])]
      refine hstep.trans (congrArg (a.held + ·) ?_)
      rw [Slot.Happening.adds, Slot.waiting]
      cases (a.slot e.source e.bundleType).buffered.isSome <;> rfl
  | stale | unknownType =>
      simp only [hi] at hstep
      exact hstep

/-- A report from where nothing is at work is not heard. -/
theorem complete_of_running_none {source t : String} (hr : (a.slot source t).running = none)
    (verdict : Verdict) : (a.complete source t verdict).2 = .notInFlight := by
  rw [complete]
  cases hl : a.leaf? source with
  | none => rfl
  | some l =>
      rw [slot, leaf, hl] at hr
      exact congrArg Leaf.Effect.answer (Leaf.complete_of_running_none hr a.registry verdict)

theorem Sound.held_complete (h : a.Sound) (source t : String) (verdict : Verdict) :
    (a.complete source t verdict).1.held +
      (a.complete source t verdict).2.takes (a.slot source t).waiting = a.held := by
  have hstep := h.held_step (.work (.complete source t verdict)) source t
    fun s u hne => if_neg hne
  rw [happening, if_pos ⟨rfl, rfl⟩] at hstep
  cases hr : (a.slot source t).running with
  | none =>
      rw [complete_of_running_none hr]
      simp only [hr] at hstep
      exact hstep
  | some r =>
      simp only [hr] at hstep
      exact hstep

theorem held_pop (a : Aggregator) : (a.work .pop).held = a.held := by
  rcases a.work_pop_cases with ⟨_, _, _, _, hw⟩ | ⟨_, _, hw⟩ <;> rw [hw]
  rfl

theorem Sound.held_claim (h : a.Sound) (source t : String) :
    (a.claim source t).1.held = a.held := by
  have hstep := h.held_step (.work (.claim source t)) source t
    fun s u hne => if_neg hne
  rw [happening, if_pos ⟨rfl, rfl⟩] at hstep
  cases hc : (a.claim source t).2 <;> simp only [hc] at hstep <;> exact hstep

theorem Sound.held_endRest (h : a.Sound) (source t : String) :
    (a.endRest source t).1.held = a.held := by
  have hstep := h.held_step (.work (.endRest source t)) source t
    fun s u hne => if_neg hne
  rw [happening, if_pos ⟨rfl, rfl⟩] at hstep
  exact hstep

end Aggregator

end Conflux
