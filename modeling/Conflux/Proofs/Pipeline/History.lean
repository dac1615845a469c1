import Conflux.Proofs.Assembler.Provenance
import Conflux.Proofs.Pipeline.Ascent

/-!
The history of a run: what it is seen to do to a slot, what it hands to the workers, and what
its assembler is told. None of this is kept in the state of a pipeline, so it is read off the
operations, each in the state in which it is done.
-/

namespace Conflux

namespace Slot

def Happening.handed? : Happening → Option Version
  | .started c => some c.envelope.version
  | _ => none

variable {mode : SyncMode} {s core : Slot} {seen : Happening}

/-- What is handed out waited before. -/
theorem Step.buffered_of_handed {v : Version} (hstep : Step mode s seen core)
    (hv : seen.handed? = some v) :
    (∃ b, s.buffered = some b ∧ b.envelope.version = v) ∧ core.buffered = none := by
  cases hstep with
  | start hb => exact ⟨⟨_, hb, Option.some.inj hv⟩, rfl⟩
  | keep | accept | refuse | succeed | drop | supersede | putBack | putBeneath | rest => cases hv

end Slot

namespace Pipeline

variable {p : Pipeline} {o : Operation} {ops : List Operation}

/-! ### What the assembler sees -/

def event? (p : Pipeline) : Operation → Option Assembler.Event
  | .deliver now datagram position =>
      (p.fragment? datagram).map fun f => .arrive ⟨now, f, position⟩
  | .chore (.sweep now) => some (.sweep now)
  | .chore (.work _) => none

def events (p : Pipeline) (ops : List Operation) : List Assembler.Event := ops.filterMap p.event?

def arrivals (p : Pipeline) (ops : List Operation) : List Arrival :=
  Assembler.arrivals (p.events ops)

theorem fragment?_congr {q : Pipeline} (h : p.hub = q.hub) (datagram : Bytes) :
    p.fragment? datagram = q.fragment? datagram := by
  have htakes : p.takes = q.takes := by
    funext f
    rw [takes, takes, h]
  simp only [fragment?, htakes]

theorem event?_congr {q : Pipeline} (h : p.hub = q.hub) (o : Operation) :
    p.event? o = q.event? o := by
  match o with
  | .deliver now datagram position => rw [event?, event?, fragment?_congr h]
  | .chore (.sweep now) => rfl
  | .chore (.work w) => rfl

theorem events_concat (p : Pipeline) (ops : List Operation) (o : Operation) :
    p.events (ops ++ [o]) = p.events ops ++ (p.event? o).toList := by
  simp only [events, List.filterMap_append, List.filterMap_cons, List.filterMap_nil]
  cases p.event? o <;> rfl

theorem event?_eq_arrive {x : Arrival} :
    p.event? o = some (.arrive x) ↔
      ∃ datagram, o = .deliver x.now datagram x.position ∧
        p.fragment? datagram = some x.fragment := by
  match o with
  | .deliver now datagram position =>
      constructor
      · intro h
        obtain ⟨f, hf, hx⟩ := Option.map_eq_some_iff.1 h
        cases hx
        exact ⟨datagram, rfl, hf⟩
      · rintro ⟨_, ho, hf⟩
        cases ho
        exact Option.map_eq_some_iff.2 ⟨x.fragment, hf, rfl⟩
  | .chore (.sweep now) => simp [event?]
  | .chore (.work w) => simp [event?]

theorem mem_arrivals {x : Arrival} :
    x ∈ p.arrivals ops ↔ ∃ datagram, .deliver x.now datagram x.position ∈ ops ∧
      p.fragment? datagram = some x.fragment := by
  have harrive (e : Assembler.Event) : e.arrival? = some x ↔ e = .arrive x := by
    cases e <;> simp [Assembler.Event.arrival?]
  simp only [arrivals, Assembler.arrivals, events, List.mem_filterMap, harrive]
  constructor
  · rintro ⟨_, ⟨o, ho, he⟩, rfl⟩
    obtain ⟨datagram, rfl, hf⟩ := event?_eq_arrive.1 he
    exact ⟨datagram, ho, hf⟩
  · rintro ⟨datagram, ho, hf⟩
    exact ⟨_, ⟨_, ho, event?_eq_arrive.2 ⟨datagram, rfl, hf⟩⟩, rfl⟩

theorem arrivals_mono {later : List Operation} (h : ops ⊆ later) :
    p.arrivals ops ⊆ p.arrivals later := by
  intro x hx
  obtain ⟨datagram, ho, hf⟩ := mem_arrivals.1 hx
  exact mem_arrivals.2 ⟨datagram, h ho, hf⟩

theorem arrivals_concat (p : Pipeline) (ops : List Operation) (o : Operation) :
    p.arrivals (ops ++ [o]) =
      p.arrivals ops ++ ((p.event? o).bind (·.arrival?)).toList := by
  rw [arrivals, events_concat, arrivals]
  cases p.event? o with
  | none => simp
  | some e => exact Assembler.arrivals_concat _ e

/-! ### What happens in a run -/

variable [Compression]

def happenings (p : Pipeline) (source bundleType : String) :
    List Operation → List Slot.Happening
  | [] => []
  | o :: ops => p.happening source bundleType o :: (p.step o).happenings source bundleType ops

def handed (p : Pipeline) (source bundleType : String) (ops : List Operation) : List Version :=
  (p.happenings source bundleType ops).filterMap (·.handed?)

theorem run_concat (p : Pipeline) (ops : List Operation) (o : Operation) :
    p.run (ops ++ [o]) = (p.run ops).step o := by
  rw [run, List.foldl_append]
  rfl

theorem happenings_concat (p : Pipeline) (source bundleType : String) (ops : List Operation)
    (o : Operation) : p.happenings source bundleType (ops ++ [o]) =
      p.happenings source bundleType ops ++ [(p.run ops).happening source bundleType o] := by
  induction ops generalizing p with
  | nil => rfl
  | cons o' ops ih => exact congrArg _ (ih (p.step o'))

theorem handed_concat (p : Pipeline) (source bundleType : String) (ops : List Operation)
    (o : Operation) : p.handed source bundleType (ops ++ [o]) = p.handed source bundleType ops ++
      ((p.run ops).happening source bundleType o).handed?.toList := by
  rw [handed, happenings_concat, List.filterMap_append, handed]
  cases hseen : ((p.run ops).happening source bundleType o).handed? <;> simp [hseen]

theorem mem_handed_concat {source bundleType : String} {v : Version} :
    v ∈ p.handed source bundleType (ops ++ [o]) ↔ v ∈ p.handed source bundleType ops ∨
      ((p.run ops).happening source bundleType o).handed? = some v := by
  rw [handed_concat, List.mem_append, Option.mem_toList]

theorem sound_run (h : p.aggregator.Sound) (ops : List Operation) :
    (p.run ops).aggregator.Sound := by
  induction ops generalizing p with
  | nil => exact h
  | cons o ops ih =>
      refine ih ?_
      rw [aggregator_step]
      split
      · exact h.step _
      · exact h

/-- What every step and every waking keeps, a run keeps. -/
theorem slot_induction (h : p.aggregator.Sound) (source bundleType : String)
    {P : List Slot.Happening → Slot → Prop}
    (hstart : P [] (p.aggregator.slot source bundleType))
    (hstep : ∀ past mode s seen core, P past s → Slot.Step mode s seen core →
      P (past ++ [seen]) core)
    (hwoken : ∀ past core n s, P past core → Slot.Woken core n s → P past s)
    (ops : List Operation) :
    P (p.happenings source bundleType ops) ((p.run ops).aggregator.slot source bundleType) := by
  induction ops using List.reverseRecOn with
  | nil => exact hstart
  | append_singleton ops o ih =>
      obtain ⟨core, n, hs, hw⟩ := slot_step (sound_run h ops) o source bundleType
      rw [happenings_concat, run_concat]
      exact hwoken _ _ _ _ (hstep _ _ _ _ _ ih hs) hw

theorem happening_eq_finished {done : Running} {verdict : Verdict} {completion : Completion}
    (h : p.happening source bundleType o = .finished done verdict completion) :
    o = .chore (.work (.complete source bundleType verdict)) := by
  rw [happening] at h
  split at h
  · next r hr =>
      obtain ⟨rfl, _⟩ := Aggregator.happening_eq_finished h
      cases o with
      | deliver now datagram position =>
          rw [request?] at hr
          split at hr
          · obtain ⟨_, _, hr⟩ := Option.map_eq_some_iff.1 hr
            cases hr
          · cases hr
      | chore c =>
          cases c with
          | work w =>
              cases hr
              rfl
          | sweep now => cases hr
  · cases h

/-- A delivery hands nothing out. -/
theorem handed?_deliver (p : Pipeline) (source bundleType : String) (now : Nat)
    (datagram : Bytes) (position : Position) :
    (p.happening source bundleType (.deliver now datagram position)).handed? = none := by
  rw [happening]
  split
  · next r hr =>
      rw [request?] at hr
      split at hr
      · obtain ⟨_, _, rfl⟩ := Option.map_eq_some_iff.1 hr
        rw [Aggregator.happening]
        split
        · split <;> rfl
        · rfl
      · cases hr
  · rfl

theorem registry_run (p : Pipeline) (ops : List Operation) :
    (p.run ops).aggregator.registry = p.aggregator.registry := by
  induction ops generalizing p with
  | nil => rfl
  | cons o ops ih =>
      refine (ih (p.step o)).trans ?_
      rw [aggregator_step]
      split
      · exact Aggregator.registry_step _ _
      · rfl

/-! ### What the assembler makes of it -/

theorem hub_step (p : Pipeline) (o : Operation) : (p.step o).hub = p.hub := by
  match o with
  | .deliver now datagram position =>
      rw [step, deliver]
      split
      · rfl
      · simp only
        split
        · split
          · rfl
          · rw [receive]
            split <;> rfl
          · rfl
        · rfl
  | .chore (.work .pop) =>
      rw [step, work, pop?]
      cases p.aggregator.pop? <;> rfl
  | .chore (.work (.claim _ _)) => rfl
  | .chore (.work (.complete _ _ _)) => rfl
  | .chore (.work (.endRest _ _)) => rfl
  | .chore (.sweep _) => rfl

theorem hub_run (p : Pipeline) (ops : List Operation) : (p.run ops).hub = p.hub := by
  induction ops generalizing p with
  | nil => rfl
  | cons o ops ih => exact (ih (p.step o)).trans (hub_step p o)

theorem assembler_step (p : Pipeline) (o : Operation) :
    (p.step o).assembler = match p.event? o with
      | some e => p.assembler.react e
      | none => p.assembler := by
  match o with
  | .deliver now datagram position =>
      rw [step, event?]
      cases hf : p.fragment? datagram with
      | none => exact (deliver_of_none hf now position).1
      | some f => exact (deliver_of_fragment hf now position).1
  | .chore (.sweep now) => rfl
  | .chore (.work w) => exact (p.work_eq w).2

theorem assembler_run (p : Pipeline) (ops : List Operation) :
    (p.run ops).assembler = p.assembler.undergo (p.events ops) := by
  induction ops using List.reverseRecOn with
  | nil => rfl
  | append_singleton ops o ih =>
      have hevent : (p.run ops).event? o = p.event? o := event?_congr (hub_run p ops) o
      rw [run_concat, assembler_step, ih, hevent, events_concat]
      cases p.event? o with
      | none => exact congrArg p.assembler.undergo (List.append_nil _).symm
      | some e => exact (p.assembler.undergo_concat (p.events ops) e).symm

end Pipeline

end Conflux
