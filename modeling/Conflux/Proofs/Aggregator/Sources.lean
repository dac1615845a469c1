import Conflux.Proofs.Aggregator.Run

/-!
The sources are apart. They share the registry and the queue, and still nothing that is done
for one of them can be told from what is seen of another: not from the answers, nor from the
slots, nor from what is reported for a commit, nor from the tickets that are written.

An operation that names a source does to its leaf what only the registry and the leaf decide
(`Operation.effect`, `step_eq`). So two aggregators that agree on the leaf of a source
(`Alike`) go on to agree, whatever is done in either of them for the others.
-/

namespace Conflux

namespace Aggregator

inductive Answer where
  | popped (k : Option Ticket)
  | inserted (i : Insertion)
  | claimed (c : Option Claim)
  | completed (c : Completion)
  | woken (b : Bool)

def answer (a : Aggregator) : Operation → Answer
  | .insert e position lastOffset => .inserted (a.insert e position lastOffset).2
  | .work .pop => .popped (a.pop?.map Prod.fst)
  | .work (.claim source t) => .claimed (a.claim source t).2
  | .work (.complete source t verdict) => .completed (a.complete source t verdict).2
  | .work (.endRest source t) => .woken (a.endRest source t).2

namespace Operation

/-- The source that an operation names. Whoever takes a ticket names none. -/
def source? : Operation → Option String
  | .insert e _ _ => some e.source
  | .work .pop => none
  | .work (.claim source _) => some source
  | .work (.complete source _ _) => some source
  | .work (.endRest source _) => some source

def names (source : String) (o : Operation) : Bool := o.source? == some source

/-- What an operation does to the leaf that it names. -/
def effect (r : Registry) (l : Leaf) : Operation → Leaf.Effect Answer
  | .insert e position lastOffset =>
      match r.get? e.bundleType with
      | none => ⟨l, [], .inserted ⟨.unknownType, false⟩⟩
      | some x =>
          let done := l.insert r x e position lastOffset
          ⟨done.leaf, done.tickets, .inserted done.answer⟩
  | .work .pop => ⟨l, [], .popped none⟩
  | .work (.claim _ t) => ⟨(l.claim r t).1, [], .claimed (l.claim r t).2⟩
  | .work (.complete _ t verdict) =>
      let done := l.complete r t verdict
      ⟨done.leaf, done.tickets, .completed done.answer⟩
  | .work (.endRest _ t) =>
      let done := l.endRest r t
      ⟨done.leaf, done.tickets, .woken done.answer⟩

end Operation

def written (a : Aggregator) (o : Operation) : List Ticket :=
  match o.source? with
  | some source => (o.effect a.registry (a.leaf source)).tickets
  | none => []

variable {a b : Aggregator} {o : Operation} {source : String}

/-! ### One operation -/

theorem leaf_put (a : Aggregator) (source : String) (l : Leaf) (s : String) :
    ({ a with leaves := a.leaves.put source l } : Aggregator).leaf s =
      if source = s then l else a.leaf s := by
  rw [leaf, leaf?, Table.get?_put]
  split
  · rfl
  · rfl

/-- Where no leaf is, the fresh one that stands for it may as well be there. -/
theorem leaf_of_fresh (h : a.leaf? source = none) (s : String) :
    a.leaf s = if source = s then .fresh source else a.leaf s := by
  split
  · next hs => rw [← hs, leaf, h, Option.getD_none]
  · rfl

/-- An operation does to the leaf that it names what the registry and this leaf decide, and
leaves the others alone. -/
theorem step_eq (a : Aggregator) (h : o.source? = some source) :
    let done := o.effect a.registry (a.leaf source)
    (∀ s, (a.step o).leaf s = if source = s then done.leaf else a.leaf s) ∧
      (a.step o).queue = a.queue.pushAll done.tickets ∧ a.answer o = done.answer := by
  match o with
  | .insert e position lastOffset =>
      cases h
      rw [step, answer, insert, Operation.effect]
      cases a.registry.get? e.bundleType with
      | none =>
          refine ⟨fun s => ?_, rfl, rfl⟩
          by_cases hs : e.source = s
          · rw [if_pos hs, hs]
          · rw [if_neg hs]
      | some x => exact ⟨leaf_put a e.source _, rfl, rfl⟩
  | .work (.claim _ t) =>
      cases h
      rw [step, work, answer, claim, Operation.effect]
      cases hl : a.leaf? source with
      | none =>
          have hnone : (Leaf.fresh source).claim a.registry t = (.fresh source, none) := by
            rw [Leaf.claim]
            split
            · next hs => cases hs
            · rfl
          rw [leaf, hl, Option.getD_none, hnone]
          exact ⟨leaf_of_fresh hl, rfl, rfl⟩
      | some l =>
          rw [leaf, hl, Option.getD_some]
          exact ⟨leaf_put a source _, rfl, rfl⟩
  | .work (.complete _ t verdict) =>
      cases h
      rw [step, work, answer, complete, Operation.effect]
      cases hl : a.leaf? source with
      | none =>
          have hnone : (Leaf.fresh source).complete a.registry t verdict =
              ⟨.fresh source, [], .notInFlight⟩ := Leaf.complete_of_running_none rfl _ _
          rw [leaf, hl, Option.getD_none, hnone]
          exact ⟨leaf_of_fresh hl, rfl, rfl⟩
      | some l =>
          rw [leaf, hl, Option.getD_some]
          exact ⟨leaf_put a source _, rfl, rfl⟩
  | .work (.endRest _ t) =>
      cases h
      rw [step, work, answer, endRest, Operation.effect]
      cases hl : a.leaf? source with
      | none =>
          rw [leaf, hl, Option.getD_none]
          exact ⟨leaf_of_fresh hl, rfl, rfl⟩
      | some l =>
          rw [leaf, hl, Option.getD_some]
          exact ⟨leaf_put a source _, rfl, rfl⟩

theorem leaf_step_of_not_names (a : Aggregator) (h : o.names source = false) :
    (a.step o).leaf source = a.leaf source := by
  rw [Operation.names, beq_eq_false_iff_ne] at h
  cases hsource : o.source? with
  | some s =>
      rw [hsource] at h
      rw [(a.step_eq hsource).1, if_neg fun hs => h (congrArg some hs)]
  | none =>
      match o with
      | .work .pop =>
          rw [step]
          rcases a.work_pop_cases with ⟨k, rest, _, _, hw⟩ | ⟨_, _, hw⟩
          · rw [hw]
            rfl
          · rw [hw]
      | .insert _ _ _ | .work (.claim _ _) | .work (.complete _ _ _) | .work (.endRest _ _) =>
          cases hsource

/-! ### The tickets of a source -/

def ofSource (source : String) (ks : List Ticket) : List Ticket :=
  ks.filter fun k => k.source == source

end Aggregator

namespace Leaf

theorem source_of_mem_wakeAll {l : Leaf} {r : Registry} {ts : List String} {k : Ticket}
    (hk : k ∈ (l.wakeAll r ts).2) : k.source = l.source := by
  induction ts generalizing l with
  | nil => cases hk
  | cons t ts ih =>
      change k ∈ (l.wake r t).2 ++ ((l.wake r t).1.wakeAll r ts).2 at hk
      rcases List.mem_append.1 hk with hk | hk
      · obtain ⟨m, hm, hw⟩ := l.wake_eq r t
        rw [hw] at hk
        split at hk
        · rw [List.mem_singleton.1 hk]
          rw [Ticket.isFor, Bool.and_eq_true, beq_iff_eq] at hm
          exact hm.1
        · cases hk
      · exact (ih hk).trans (source_wake l r t)

theorem source_of_mem_moved {l : Leaf} {r : Registry} {t : String} {core : Slot}
    {ts : List String} {k : Ticket} (hk : k ∈ (l.moved r t core ts).2) : k.source = l.source :=
  source_of_mem_wakeAll (l := l.putSlot t core) hk

/-- A leaf writes tickets for itself only. -/
theorem source_of_mem_tickets {l : Leaf} {r : Registry} {o : Aggregator.Operation} {k : Ticket}
    (hk : k ∈ (o.effect r l).tickets) : k.source = l.source := by
  match o with
  | .insert e position lastOffset =>
      rw [Aggregator.Operation.effect] at hk
      split at hk
      · cases hk
      · next x _ =>
          by_cases hadmits : (l.slot x.bundleType).admits e.version = true
          · obtain ⟨_, htickets, _⟩ := insert_of_admits hadmits r position lastOffset
            exact source_of_mem_moved (htickets ▸ hk)
          · rw [insert_of_not_admits hadmits] at hk
            cases hk
  | .work .pop => cases hk
  | .work (.claim _ t) => cases hk
  | .work (.complete _ t verdict) =>
      change k ∈ (l.complete r t verdict).tickets at hk
      cases hrun : (l.slot t).running with
      | none =>
          rw [complete_of_running_none hrun] at hk
          cases hk
      | some run =>
          cases hx : r.get? t with
          | none =>
              rw [complete, hx] at hk
              cases hk
          | some x =>
              rw [complete_of_running hx hrun] at hk
              exact source_of_mem_moved hk
  | .work (.endRest _ t) =>
      change k ∈ (l.endRest r t).tickets at hk
      rcases l.endRest_cases r t with hmoved | ⟨_, hnone⟩
      · have htickets : (l.endRest r t).tickets =
            (l.moved r t { l.slot t with resting := false } [t]).2 := congrArg Prod.snd hmoved
        exact source_of_mem_moved (htickets ▸ hk)
      · rw [hnone] at hk
        cases hk

end Leaf

/-- Of the entries of a table one at most is under the key. -/
theorem Table.flatMap_entries_ite {κ α β : Type} [DecidableEq κ] (t : Table κ α) (k : κ)
    (f : α → List β) :
    (t.entries.flatMap fun e => if e.1 = k then f e.2 else []) = (t.get? k).elim [] f := by
  obtain ⟨es, hdistinct⟩ := t
  change _ = (find? k es).elim [] f
  induction es with
  | nil => rfl
  | cons e es ih =>
      rw [List.map_cons, List.nodup_cons] at hdistinct
      rw [List.flatMap_cons, find?]
      split
      · next he =>
          have hrest : (es.flatMap fun e => if e.1 = k then f e.2 else []) = [] := by
            refine List.flatMap_eq_nil_iff.2 fun d hd => if_neg ?_
            rintro rfl
            exact hdistinct.1 (he ▸ List.mem_map_of_mem hd)
          rw [hrest, List.append_nil]
          rfl
      · exact ih hdistinct.2

theorem Leaf.source_of_mem_checkpoints {l : Leaf} {c : Checkpoint} (hc : c ∈ l.checkpoints) :
    c.source = l.source := by
  obtain ⟨e, _, hc⟩ := List.mem_flatMap.1 hc
  simp only [slotCheckpoints, List.mem_append, Option.mem_toList, Option.map_eq_some_iff] at hc
  rcases hc with (⟨_, _, rfl⟩ | ⟨_, _, rfl⟩) | ⟨_, _, rfl⟩ <;> rfl

namespace Aggregator

variable {a b : Aggregator} {o : Operation} {source : String}

theorem ofSource_written_of_not_names (h : a.Sound) (hnames : o.names source = false) :
    ofSource source (a.written o) = [] := by
  rw [Operation.names, beq_eq_false_iff_ne] at hnames
  refine List.filter_eq_nil_iff.2 fun k hk => ?_
  rw [written] at hk
  split at hk
  · next s hs =>
      rw [Leaf.source_of_mem_tickets hk, h.source_leaf, beq_iff_eq]
      rintro rfl
      exact hnames hs
  · cases hk

/-! ### What is seen of a source -/

/-- The answers that a run gives to the operations that name the source. -/
def answers (a : Aggregator) (source : String) : List Operation → List Answer
  | [] => []
  | o :: ops =>
      (if o.names source then [a.answer o] else []) ++ (a.step o).answers source ops

def pushed (a : Aggregator) : List Operation → List Ticket
  | [] => []
  | o :: ops => a.written o ++ (a.step o).pushed ops

/-- All that a run shows of a source. -/
structure Sight where
  answers : List Answer
  pushed : List Ticket
  slots : Table String Slot
  checkpoints : List Checkpoint

def sight (a : Aggregator) (source : String) (ops : List Operation) : Sight :=
  { answers := a.answers source ops
    pushed := ofSource source (a.pushed ops)
    slots := ((a.run ops).leaf source).slots
    checkpoints := (a.run ops).checkpoints.filter fun c => c.source == source }

/-- The checkpoints of a source are those of its leaf. -/
theorem Sound.checkpoints_filter (h : a.Sound) (source : String) :
    (a.checkpoints.filter fun c => c.source == source) = (a.leaf source).checkpoints := by
  have hentry : ∀ e ∈ a.leaves.entries, (e.2.checkpoints.filter fun c => c.source == source) =
      if e.1 = source then e.2.checkpoints else [] := by
    intro e he
    have hsource : e.2.source = e.1 := h.source e.1 e.2 (Table.get?_eq_some_iff.2 he)
    split
    · next hs =>
        refine List.filter_eq_self.2 fun c hc => ?_
        rw [beq_iff_eq, Leaf.source_of_mem_checkpoints hc, hsource, hs]
    · next hs =>
        refine List.filter_eq_nil_iff.2 fun c hc => ?_
        rwa [beq_iff_eq, Leaf.source_of_mem_checkpoints hc, hsource]
  have hleaf : (a.leaf source).checkpoints = (a.leaf? source).elim [] (·.checkpoints) := by
    rw [leaf]
    cases a.leaf? source <;> rfl
  rw [checkpoints, Table.values, List.flatMap_map, List.filter_flatMap,
    List.flatMap_congr hentry, hleaf]
  exact Table.flatMap_entries_ite a.leaves source _

/-! ### Two runs -/

/-- Aggregators that cannot be told apart by what they know of the source. -/
structure Alike (source : String) (a b : Aggregator) : Prop where
  left : a.Sound
  right : b.Sound
  registry : a.registry = b.registry
  leaf : a.leaf source = b.leaf source

/-- What is done for others in one of them changes nothing about it. -/
theorem Alike.step_left (h : Alike source a b) (hnames : o.names source = false) :
    Alike source (a.step o) b where
  left := h.left.step o
  right := h.right
  registry := (registry_step a o).trans h.registry
  leaf := (a.leaf_step_of_not_names hnames).trans h.leaf

theorem Alike.step (h : Alike source a b) (hnames : o.names source = true) :
    Alike source (a.step o) (b.step o) ∧ a.answer o = b.answer o ∧ a.written o = b.written o := by
  have hsource : o.source? = some source := beq_iff_eq.1 hnames
  obtain ⟨hleaf, _, hanswer⟩ := a.step_eq hsource
  obtain ⟨hleaf', _, hanswer'⟩ := b.step_eq hsource
  have heffect : o.effect a.registry (a.leaf source) = o.effect b.registry (b.leaf source) := by
    rw [h.registry, h.leaf]
  refine ⟨⟨h.left.step o, h.right.step o, ?_, ?_⟩, ?_, ?_⟩
  · rw [registry_step, registry_step, h.registry]
  · rw [hleaf, hleaf', if_pos rfl, if_pos rfl, heffect]
  · rw [hanswer, hanswer', heffect]
  · rw [written, written, hsource]
    exact congrArg Leaf.Effect.tickets heffect

/-- One run does what is done for the source, the other one does something for others, too. -/
theorem Alike.run (h : Alike source a b) (ops : List Operation) :
    Alike source (a.run ops) (b.run (ops.filter (·.names source))) ∧
      a.answers source ops = b.answers source (ops.filter (·.names source)) ∧
        ofSource source (a.pushed ops) =
          ofSource source (b.pushed (ops.filter (·.names source))) := by
  induction ops generalizing a b with
  | nil => exact ⟨h, rfl, rfl⟩
  | cons o ops ih =>
      cases hnames : o.names source with
      | false =>
          obtain ⟨halike, hanswers, hpushed⟩ := ih (h.step_left hnames)
          rw [List.filter_cons_of_neg (by rw [hnames]; exact Bool.false_ne_true), run_cons, answers,
            hnames, pushed, ofSource, List.filter_append, ← ofSource,
            ofSource_written_of_not_names h.left hnames]
          exact ⟨halike, hanswers, hpushed⟩
      | true =>
          obtain ⟨hstep, hanswer, hwritten⟩ := h.step hnames
          obtain ⟨halike, hanswers, hpushed⟩ := ih hstep
          rw [List.filter_cons_of_pos hnames, run_cons, run_cons, answers, answers, hnames, pushed,
            pushed, hanswer, hwritten, hanswers]
          refine ⟨halike, rfl, ?_⟩
          rw [ofSource, List.filter_append, ofSource, List.filter_append]
          exact congrArg _ hpushed

theorem Sound.sight_eq (h : a.Sound) (source : String) (ops : List Operation) :
    a.sight source ops = a.sight source (ops.filter (·.names source)) := by
  have hself : Alike source a a := ⟨h, h, rfl, rfl⟩
  obtain ⟨halike, hanswers, hpushed⟩ := hself.run ops
  rw [sight, sight, halike.left.checkpoints_filter, halike.right.checkpoints_filter, hanswers,
    hpushed, halike.leaf]

/-- What a run shows of a source is what it would show if nothing had been done for any other:
the answers, the slots, the checkpoints and the tickets written. So it is the same in two runs
in which the same is done for it. -/
theorem sources_apart (calls : List Registration) (source : String) (ops : List Operation) :
    let start := fresh (Registry.ofCalls calls)
    start.sight source ops = start.sight source (ops.filter (·.names source)) ∧
      ∀ others : List Operation,
        others.filter (·.names source) = ops.filter (·.names source) →
          start.sight source others = start.sight source ops := by
  intro start
  have hsound : start.Sound := sound_fresh (Registry.named_ofCalls calls)
  refine ⟨hsound.sight_eq source ops, fun others hothers => ?_⟩
  rw [hsound.sight_eq source others, hothers, ← hsound.sight_eq source ops]

/-- The clusters that another source sends do not let a compliance bundle go. -/
theorem sources_apart_clusters_elsewhere :
    let calls : List Registration :=
      [.complete "clusters" 0 none, .complete "compliance" 1 (some "clusters")]
    let bundle (source t : String) : Envelope := ⟨"1.0", t, source, t, ⟨0, 0, 0⟩, ⟨1, 1⟩, none, []⟩
    let ops : List Operation := [.insert (bundle "hub" "compliance") ⟨"status", 0, 5⟩ 5]
    let others : List Operation :=
      [.insert (bundle "edge" "clusters") ⟨"status", 0, 4⟩ 4,
        .insert (bundle "hub" "compliance") ⟨"status", 0, 5⟩ 5,
        .work .pop, .work (.claim "edge" "clusters"),
        .work (.complete "edge" "clusters" .succeeded)]
    let start := fresh (Registry.ofCalls calls)
    others.filter (·.names "hub") = ops.filter (·.names "hub") ∧
      ((start.run others).slot "edge" "clusters").lastProcessed = some ⟨1, 1⟩ ∧
        ((start.run others).slot "hub" "compliance").queued = false ∧
          start.sight "hub" others = start.sight "hub" ops := by
  intro calls bundle ops others start
  have hsame : others.filter (·.names "hub") = ops.filter (·.names "hub") := rfl
  obtain ⟨_, hothers⟩ := sources_apart calls "hub" ops
  exact ⟨hsame, by decide +kernel, by decide +kernel, hothers others hsame⟩

end Aggregator

end Conflux
