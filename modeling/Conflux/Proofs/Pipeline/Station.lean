import Conflux.Proofs.Crew
import Conflux.Proofs.Pipeline.Run

/-!
A pipeline and the workers on it. A run of a pipeline may end what was never begun; a station
cannot, as there it is the workers who move, and each of them only reports what he has in hand.
What the workers do is what the crew of the aggregator does, so the books of the crew are kept
here as well, and a run of a station is a run of its pipeline in which every report is heard.
-/

namespace Conflux

structure Station where
  pipeline : Pipeline
  hands : List Hand
  /-- The rests that were begun and are not over. -/
  rests : List (String × String)

namespace Station

/-- Workers and rests go by their place in the list. -/
inductive Move where
  | deliver (now : Nat) (datagram : Bytes) (position : Position)
  | sweep (now : Nat)
  | pop (worker : Nat)
  | claim (worker : Nat)
  | complete (worker : Nat) (verdict : Verdict)
  | endRest (rest : Nat)

def fresh (hub : Digest) (assembler : Assembler) (registry : Registry) (workers : Nat) : Station :=
  ⟨.fresh hub assembler registry, List.replicate workers .free, []⟩

variable [Compression]

/-- A worker who is not at that point, or is not there, makes no move. -/
def step (s : Station) : Move → Station
  | .deliver now datagram position =>
      { s with pipeline := (s.pipeline.deliver now datagram position).1 }
  | .sweep now => { s with pipeline := s.pipeline.evict now }
  | .pop i =>
      match s.hands[i]?, s.pipeline.pop? with
      | some .free, some (k, p) => { s with pipeline := p, hands := s.hands.set i (.holding k) }
      | _, _ => s
  | .claim i =>
      match s.hands[i]? with
      | some (.holding k) =>
          let (p, claim) := s.pipeline.claim k.source k.bundleType
          let hand := match claim with
            | some x => .working k x
            | none => .free
          { s with pipeline := p, hands := s.hands.set i hand }
      | _ => s
  | .complete i verdict =>
      match s.hands[i]? with
      | some (.working k _) =>
          let (p, completion) := s.pipeline.finishRun k.source k.bundleType verdict
          let begun := match completion with
            | .retry _ => [(k.source, k.bundleType)]
            | _ => []
          { pipeline := p, hands := s.hands.set i .free, rests := s.rests ++ begun }
      | _ => s
  | .endRest j =>
      match s.rests[j]? with
      | some (source, t) =>
          { s with pipeline := (s.pipeline.endRest source t).1, rests := s.rests.eraseIdx j }
      | none => s

def run (s : Station) (moves : List Move) : Station := moves.foldl step s

variable {s : Station} {m : Move}

/-! ### The crew of a station -/

def crew (s : Station) : Crew := ⟨s.pipeline.aggregator, s.hands, s.rests⟩

omit [Compression] in
theorem hands_crew (s : Station) : s.crew.hands = s.hands := rfl

omit [Compression] in
theorem pop?_crew (s : Station) :
    s.crew.aggregator.pop? = s.pipeline.pop?.map fun q => (q.1, q.2.aggregator) := by
  rw [Pipeline.pop?, Option.map_map]
  exact Option.map_id'.symm

/-- A move of a station is a move of its crew, or nothing to it. -/
theorem crew_step (s : Station) (m : Move) :
    (s.step m).crew = s.crew ∨ ∃ move, (s.step m).crew = s.crew.step move := by
  match m with
  | .deliver now datagram position =>
      have hdelivered := s.pipeline.delivered now datagram position
      rw [step]
      generalize (s.pipeline.deliver now datagram position).1 = p,
        (s.pipeline.deliver now datagram position).2 = admission at hdelivered
      cases hdelivered with
      | dropped | failed | stored | malformed => exact .inl rfl
      | @inserted assembler whole e _ _ aggregator insertion hinsert =>
          refine .inr ⟨.insert e whole.position whole.lastOffset, ?_⟩
          simp only [Crew.step, crew, hinsert]
  | .sweep now => exact .inl rfl
  | .pop i =>
      refine .inr ⟨.pop i, ?_⟩
      rw [step, Crew.step, pop?_crew, hands_crew]
      cases s.hands[i]? with
      | none => rfl
      | some hand => cases hand <;> cases s.pipeline.pop? <;> rfl
  | .claim i =>
      refine .inr ⟨.claim i, ?_⟩
      rw [step, Crew.step, hands_crew]
      cases s.hands[i]? with
      | none => rfl
      | some hand => cases hand <;> rfl
  | .complete i verdict =>
      refine .inr ⟨.complete i verdict, ?_⟩
      rw [step, Crew.step, hands_crew]
      cases s.hands[i]? with
      | none => rfl
      | some hand => cases hand <;> rfl
  | .endRest j =>
      refine .inr ⟨.endRest j, ?_⟩
      rw [step, Crew.step, show s.crew.rests = s.rests from rfl]
      cases s.rests[j]? <;> rfl

/-- The books of every slot agree, and the aggregator is as it should be. -/
structure InOrder (s : Station) : Prop where
  books : ∀ source t, s.crew.Books source t
  sound : s.pipeline.aggregator.Sound

omit [Compression] in
theorem inOrder_fresh (hub : Digest) (assembler : Assembler) {registry : Registry}
    (h : registry.Named) (workers : Nat) : (fresh hub assembler registry workers).InOrder :=
  ⟨Crew.books_fresh registry workers, Aggregator.sound_fresh h⟩

theorem InOrder.step (h : s.InOrder) (m : Move) : (s.step m).InOrder := by
  rcases s.crew_step m with hsame | ⟨move, hmove⟩
  · refine ⟨fun source t => hsame ▸ h.books source t, ?_⟩
    exact (congrArg (·.aggregator.Sound) hsame).mpr h.sound
  · refine ⟨fun source t => hmove ▸ (h.books source t).step h.sound move, ?_⟩
    exact (congrArg (·.aggregator.Sound) hmove).mpr (Crew.sound_step h.sound move)

/-! ### The run of the pipeline -/

/-- What a move is for the pipeline. -/
def operation? (s : Station) : Move → Option Pipeline.Operation
  | .deliver now datagram position => some (.deliver now datagram position)
  | .sweep now => some (.chore (.sweep now))
  | .pop i =>
      match s.hands[i]? with
      | some .free => some (.chore (.work .pop))
      | _ => none
  | .claim i =>
      match s.hands[i]? with
      | some (.holding k) => some (.chore (.work (.claim k.source k.bundleType)))
      | _ => none
  | .complete i verdict =>
      match s.hands[i]? with
      | some (.working k _) => some (.chore (.work (.complete k.source k.bundleType verdict)))
      | _ => none
  | .endRest j => s.rests[j]?.map fun rest => .chore (.work (.endRest rest.1 rest.2))

def operations (s : Station) : List Move → List Pipeline.Operation
  | [] => []
  | m :: moves => (s.operation? m).toList ++ (s.step m).operations moves

theorem pipeline_step (s : Station) (m : Move) :
    (s.step m).pipeline = s.pipeline.run (s.operation? m).toList := by
  match m with
  | .deliver now datagram position => rfl
  | .sweep now => rfl
  | .pop i =>
      rw [step, operation?]
      cases hi : s.hands[i]? with
      | none => rfl
      | some hand =>
          cases hand with
          | free =>
              change _ = s.pipeline.work .pop
              rw [Pipeline.work]
              cases s.pipeline.pop? <;> rfl
          | holding | working => rfl
  | .claim i =>
      rw [step, operation?]
      cases s.hands[i]? with
      | none => rfl
      | some hand => cases hand <;> rfl
  | .complete i verdict =>
      rw [step, operation?]
      cases s.hands[i]? with
      | none => rfl
      | some hand => cases hand <;> rfl
  | .endRest j =>
      rw [step, operation?]
      cases s.rests[j]? <;> rfl

theorem pipeline_run (s : Station) (moves : List Move) :
    (s.run moves).pipeline = s.pipeline.run (s.operations moves) := by
  induction moves generalizing s with
  | nil => rfl
  | cons m moves ih =>
      rw [operations, Pipeline.run, List.foldl_append]
      change ((s.step m).run moves).pipeline = (s.pipeline.run (s.operation? m).toList).run _
      rw [ih, pipeline_step]

omit [Compression] in
/-- What a worker reports of, is at work. -/
theorem InOrder.running_of_operation? (h : s.InOrder) {source t : String} {verdict : Verdict}
    (ho : s.operation? m = some (.chore (.work (.complete source t verdict)))) :
    (s.pipeline.aggregator.slot source t).running.isSome = true := by
  match m with
  | .deliver now datagram position => cases ho
  | .sweep now => cases ho
  | .pop i =>
      rw [operation?] at ho
      split at ho <;> cases ho
  | .claim i =>
      rw [operation?] at ho
      split at ho <;> cases ho
  | .complete i given =>
      rw [operation?] at ho
      split at ho
      · next k x hi =>
          cases ho
          obtain ⟨r, hr, _⟩ := (h.books k.source k.bundleType).claims k x
            (List.mem_of_getElem? hi) (Crew.isFor_iff.2 ⟨rfl, rfl⟩)
          exact Option.isSome_iff_exists.2 ⟨r, hr⟩
      · cases ho
  | .endRest j =>
      rw [operation?] at ho
      obtain ⟨_, _, ho⟩ := Option.map_eq_some_iff.1 ho
      cases ho

end Station

end Conflux
