import Conflux.Proofs.Pipeline.Station
import Conflux.Rehearsal.Stage

/-!
A rehearsal is the run of a station. The workers of a stage have no places, and what they have in
hand is spread over its agenda and its jobs; but however it is spread, there is a station with as
much work in its hands and as many rests to be ended, and what the stage does next is a move of one
of these hands. The clock and the script only decide whose move it is. So whatever the pipeline of a
station is like after all its runs, it is like that after a rehearsal.
-/

namespace Conflux

def Hand.isFree : Hand → Bool
  | .free => true
  | _ => false

theorem Hand.isFree_iff {hand : Hand} : hand.isFree = true ↔ hand = .free := by
  cases hand <;> simp [isFree]

namespace Station

variable {x : Station} {source t : String}

theorem exists_free (h : 0 < x.hands.countP Hand.isFree) : ∃ i : Nat, x.hands[i]? = some .free := by
  obtain ⟨hand, hmem, hhand⟩ := List.countP_pos_iff.1 h
  obtain rfl := Hand.isFree_iff.1 hhand
  exact List.getElem?_of_mem hmem

theorem exists_working (h : 0 < x.crew.atWork source t) :
    ∃ (k : Ticket) (c : Claim) (i : Nat), x.hands[i]? = some (.working k c) ∧
      k.source = source ∧ k.bundleType = t := by
  obtain ⟨hand, hmem, hhand⟩ := List.countP_pos_iff.1 h
  obtain ⟨i, hi⟩ := List.getElem?_of_mem hmem
  cases hand with
  | free | holding => cases hhand
  | working k c => exact ⟨k, c, i, hi, Crew.isFor_iff.1 hhand⟩

theorem exists_rest (h : 0 < x.crew.restsOf source t) :
    ∃ j : Nat, x.rests[j]? = some (source, t) := by
  obtain ⟨rest, hmem, hrest⟩ := List.countP_pos_iff.1 h
  obtain rfl := eq_of_beq hrest
  exact List.getElem?_of_mem hmem

/-- A worker pops a ticket and redeems it at once. -/
theorem run_redeem [Compression] {i : Nat} {k : Ticket} {p : Pipeline}
    (hi : x.hands[i]? = some .free) (hpop : x.pipeline.pop? = some (k, p)) :
    x.run [.pop i, .claim i] = { x with
      pipeline := (p.claim k.source k.bundleType).1
      hands := x.hands.set i ((p.claim k.source k.bundleType).2.elim .free (.working k)) } := by
  have hlt : i < x.hands.length := (List.getElem?_eq_some_iff.1 hi).1
  change (x.step (.pop i)).step (.claim i) = _
  rw [step, hi, hpop]
  dsimp only
  rw [step]
  dsimp only
  rw [List.getElem?_set_self hlt]
  dsimp only
  rw [List.set_set]
  cases (p.claim k.source k.bundleType).2 <;> rfl

end Station

namespace Rehearsal

def Job.isFor (source t : String) (j : Job) : Bool := j.source == source && j.bundleType == t

def Rest.isFor (source t : String) (r : Rest) : Bool := (r.source, r.bundleType) == (source, t)

namespace Task

def seeks : Task → Bool
  | .seek => true
  | _ => false

def worksOn (source t : String) : Task → Bool
  | .start k _ => k.isFor source t
  | .report s b _ => s == source && b == t
  | _ => false

def ends (source t : String) : Task → Bool
  | .wake s b => (s, b) == (source, t)
  | _ => false

end Task

namespace Stage

/-! ### What the workers have in hand -/

/-- The workers who have nothing in hand. -/
def atLeisure (s : Stage) : Nat := s.idle + s.agenda.countP Task.seeks

def atWork (s : Stage) (source t : String) : Nat :=
  s.agenda.countP (Task.worksOn source t) + s.jobs.countP (Job.isFor source t)

def restsOf (s : Stage) (source t : String) : Nat :=
  s.agenda.countP (Task.ends source t) + s.rests.countP (Rest.isFor source t)

variable {s s' s'' : Stage} {x : Station} {source t : String}

theorem countP_cons {α : Type} (p : α → Bool) (a : α) (l : List α) :
    (a :: l).countP p = l.countP p + (p a).toNat := by
  rw [List.countP_cons]
  cases p a <;> rfl

theorem countP_concat {α : Type} (p : α → Bool) (l : List α) (a : α) :
    (l ++ [a]).countP p = l.countP p + (p a).toNat := by
  rw [List.countP_append, countP_cons, List.countP_nil, Nat.zero_add]

/-- What is over and what is not is counted together. -/
theorem countP_due {α : Type} (p : α → Bool) (due : α → Nat) (now : Nat) (l : List α) :
    (l.filter fun a => due a ≤ now).countP p + (l.filter fun a => now < due a).countP p =
      l.countP p := by
  rw [List.countP_eq_countP_filter_add l p fun a => due a ≤ now]
  simp only [← decide_not, Nat.not_le]

theorem atLeisure_add (s : Stage) (task : Task) :
    (s.add task).atLeisure = s.atLeisure + task.seeks.toNat := by
  rw [atLeisure, add, countP_concat, atLeisure, Nat.add_assoc]

theorem atWork_add (s : Stage) (task : Task) (source t : String) :
    (s.add task).atWork source t = s.atWork source t + (task.worksOn source t).toNat := by
  rw [atWork, add, countP_concat, atWork, Nat.add_right_comm]

theorem restsOf_add (s : Stage) (task : Task) (source t : String) :
    (s.add task).restsOf source t = s.restsOf source t + (task.ends source t).toNat := by
  rw [restsOf, add, countP_concat, restsOf, Nat.add_right_comm]

theorem atLeisure_seekNext (s : Stage) : s.seekNext.atLeisure = s.atLeisure + 1 := by
  rw [atLeisure, seekNext, countP_cons, ← Nat.add_assoc]
  rfl

theorem atWork_seekNext (s : Stage) (source t : String) :
    s.seekNext.atWork source t = s.atWork source t := by
  rw [atWork, seekNext, countP_cons]
  rfl

theorem restsOf_seekNext (s : Stage) (source t : String) :
    s.seekNext.restsOf source t = s.restsOf source t := by
  rw [restsOf, seekNext, countP_cons]
  rfl

/-- The workers who are called are no longer idle, but they have nothing in hand yet. -/
theorem atLeisure_update (s : Stage) (p : Pipeline) : (s.update p).atLeisure = s.atLeisure := by
  have hcalled :=
    Nat.min_le_right (p.aggregator.queue.size - s.pipeline.aggregator.queue.size) s.idle
  simp only [atLeisure, update, List.countP_append, List.countP_replicate, Task.seeks, if_true]
  omega

theorem atWork_update (s : Stage) (p : Pipeline) (source t : String) :
    (s.update p).atWork source t = s.atWork source t := by
  simp [atWork, update, Task.worksOn, List.countP_replicate]

theorem restsOf_update (s : Stage) (p : Pipeline) (source t : String) :
    (s.update p).restsOf source t = s.restsOf source t := by
  simp [restsOf, update, Task.ends, List.countP_replicate]

theorem restsOf_lieDown (s : Stage) (source t : String) (attempt : Nat) (source' t' : String) :
    (s.lieDown source t attempt).restsOf source' t' =
      s.restsOf source' t' + ((source, t) == (source', t')).toNat := by
  rw [lieDown]
  split
  · rw [restsOf_add, Task.ends]
  · rw [restsOf, countP_concat, ← Nat.add_assoc]
    rfl

theorem atWork_lieDown (s : Stage) (source t : String) (attempt : Nat) (source' t' : String) :
    (s.lieDown source t attempt).atWork source' t' = s.atWork source' t' := by
  rw [lieDown]
  split
  · rw [atWork_add]
    rfl
  · rfl

theorem pipeline_lieDown (s : Stage) (source t : String) (attempt : Nat) :
    (s.lieDown source t attempt).pipeline = s.pipeline := by
  rw [lieDown]
  split <;> rfl

theorem atLeisure_lieDown (s : Stage) (source t : String) (attempt : Nat) :
    (s.lieDown source t attempt).atLeisure = s.atLeisure := by
  rw [lieDown]
  split
  · rw [atLeisure_add]
    rfl
  · rfl

/-- The station has the pipeline of the stage; it has hands enough, the same work in them, and the
same rests to be ended. -/
structure PlayedBy (s : Stage) (x : Station) : Prop where
  pipeline : x.pipeline = s.pipeline
  free : s.atLeisure ≤ x.hands.countP Hand.isFree
  atWork : ∀ source t, x.crew.atWork source t = s.atWork source t
  rests : ∀ source t, x.crew.restsOf source t = s.restsOf source t

/-- The task that comes next is part of what the station has to do. -/
theorem PlayedBy.front {task : Task} (h : { s with agenda := task :: s.agenda }.PlayedBy x) :
    s.atLeisure + task.seeks.toNat ≤ x.hands.countP Hand.isFree ∧
      (∀ source t, x.crew.atWork source t = s.atWork source t + (task.worksOn source t).toNat) ∧
        ∀ source t, x.crew.restsOf source t = s.restsOf source t + (task.ends source t).toNat := by
  refine ⟨?_, fun source t => ?_, fun source t => ?_⟩
  · refine Nat.le_trans (Nat.le_of_eq ?_) h.free
    rw [atLeisure, atLeisure, countP_cons, Nat.add_assoc]
  · refine (h.atWork source t).trans ?_
    rw [Stage.atWork, Stage.atWork, countP_cons, Nat.add_right_comm]
  · refine (h.rests source t).trans ?_
    rw [restsOf, restsOf, countP_cons, Nat.add_right_comm]

theorem playedBy_fresh (hub : Digest) (assembler : Assembler) (registry : Registry)
    (retry : RetryPolicy) (script : Table String Part) (feed : Feed) (workers : Nat)
    (commits sweeps : Option Nat) :
    (fresh (.fresh hub assembler registry) retry script feed workers commits sweeps).PlayedBy
      (.fresh hub assembler registry (max workers 1)) where
  pipeline := rfl
  free := by
    simp [atLeisure, fresh, Station.fresh, Task.seeks, Hand.isFree, List.countP_replicate]
  atWork source t := by
    simp [atWork, fresh, Station.fresh, Station.crew, Crew.atWork, Task.worksOn, Hand.worksOn,
      List.countP_replicate]
  rests source t := by
    simp [restsOf, fresh, Station.fresh, Station.crew, Crew.restsOf, Task.ends,
      List.countP_replicate]

variable [Compression]

/-- A station that plays the one can go on to play the other. -/
def LeadsTo (s s' : Stage) : Prop := ∀ x, s.PlayedBy x → ∃ moves, s'.PlayedBy (x.run moves)

theorem leadsTo_of_playedBy (h : ∀ x, s.PlayedBy x → s'.PlayedBy x) : s.LeadsTo s' :=
  fun x hx => ⟨[], h x hx⟩

/-- A station looks at no more of a stage than this. -/
theorem leadsTo_of_same
    (h : (s'.pipeline, s'.idle, s'.agenda, s'.jobs, s'.rests) =
      (s.pipeline, s.idle, s.agenda, s.jobs, s.rests)) : s.LeadsTo s' := by
  obtain ⟨hpipeline, hidle, hagenda, hjobs, hrests⟩ := by simpa only [Prod.mk.injEq] using h
  refine leadsTo_of_playedBy fun x hx => ⟨?_, ?_, fun source t => ?_, fun source t => ?_⟩
  · rw [hpipeline, hx.pipeline]
  · rw [atLeisure, hidle, hagenda]
    exact hx.free
  · rw [hx.atWork, atWork, atWork, hagenda, hjobs]
  · rw [hx.rests, restsOf, restsOf, hagenda, hrests]

theorem LeadsTo.refl (s : Stage) : s.LeadsTo s := leadsTo_of_playedBy fun _ hx => hx

theorem LeadsTo.trans (h : s.LeadsTo s') (h' : s'.LeadsTo s'') : s.LeadsTo s'' := by
  intro x hx
  obtain ⟨moves, hmoves⟩ := h x hx
  obtain ⟨moves', hmoves'⟩ := h' _ hmoves
  refine ⟨moves ++ moves', ?_⟩
  rw [Station.run, List.foldl_append]
  exact hmoves'

theorem leadsTo_foldl {α : Type} {f : Stage → α → Stage}
    (h : ∀ (s : Stage) a, s.LeadsTo (f s a)) (l : List α) (s : Stage) :
    s.LeadsTo (l.foldl f s) := by
  induction l generalizing s with
  | nil => exact .refl s
  | cons a l ih => exact (h s a).trans (ih (f s a))

/-! ### Tasks -/

theorem leadsTo_endRun (s : Stage) (j : Job) :
    { s with jobs := j :: s.jobs }.LeadsTo (s.endRun j.source j.bundleType) := by
  refine leadsTo_of_playedBy fun x hx =>
    ⟨hx.pipeline, ?_, fun source t => ?_, fun source t => ?_⟩
  · rw [endRun, atLeisure_add]
    exact hx.free
  · rw [hx.atWork, endRun, atWork_add, atWork, countP_cons]
    exact (Nat.add_assoc _ _ _).symm
  · rw [hx.rests, endRun, restsOf_add]
    rfl

theorem leadsTo_over (s : Stage) (r : Rest) :
    { s with rests := r :: s.rests }.LeadsTo (s.add (.wake r.source r.bundleType)) := by
  refine leadsTo_of_playedBy fun x hx =>
    ⟨hx.pipeline, ?_, fun source t => ?_, fun source t => ?_⟩
  · rw [atLeisure_add]
    exact hx.free
  · rw [hx.atWork, atWork_add]
    rfl
  · rw [hx.rests, restsOf_add, restsOf, countP_cons]
    exact (Nat.add_assoc _ _ _).symm

/-- A handler that begins is at work, whether it takes time or not. -/
theorem leadsTo_startRun (s : Stage) (k : Ticket) (c : Claim) :
    { s with agenda := .start k c :: s.agenda }.LeadsTo (s.startRun k c) := by
  let j : Job := ⟨k.source, k.bundleType, s.now + (s.part k.bundleType).millis⟩
  rw [startRun]
  split
  · refine LeadsTo.trans ?_ (leadsTo_endRun (s.record (.started c)) j)
    refine leadsTo_of_playedBy fun x hx => ?_
    obtain ⟨hfree, hwork, hrests⟩ := hx.front
    refine ⟨hx.pipeline, hfree, fun source t => ?_, hrests⟩
    rw [hwork, atWork, atWork, countP_cons, Nat.add_assoc]
    rfl
  · refine leadsTo_of_playedBy fun x hx => ?_
    obtain ⟨hfree, hwork, hrests⟩ := hx.front
    refine ⟨hx.pipeline, hfree, fun source t => ?_, hrests⟩
    rw [hwork, atWork, atWork, countP_concat, Nat.add_assoc]
    rfl

/-- A worker pops a ticket and redeems it, or finds none. -/
theorem leadsTo_seek (s : Stage) : s.seekNext.LeadsTo (s.perform .seek) := by
  intro x hx
  obtain ⟨hfree, hwork, hrests⟩ := hx.front
  rw [perform]
  split
  · exact ⟨[], hx.pipeline, Nat.le_of_succ_le hfree, hwork, hrests⟩
  · split
    · refine ⟨[], hx.pipeline, ?_, hwork, hrests⟩
      rw [atLeisure, Nat.add_right_comm]
      exact hfree
    · next k p hpop =>
        obtain ⟨i, hi⟩ := Station.exists_free (Nat.zero_lt_of_lt hfree)
        rw [show s.pipeline = x.pipeline from hx.pipeline.symm] at hpop
        refine ⟨[.pop i, .claim i], ?_⟩
        rw [Station.run_redeem hi hpop]
        obtain ⟨p', claim⟩ := p.claim k.source k.bundleType
        have hleft := Crew.countP_replace hi (claim.elim .free (.working k)) Hand.isFree
        have htaken (source t : String) :=
          Crew.countP_replace hi (claim.elim .free (.working k)) (Hand.worksOn source t)
        cases claim with
        | none =>
            refine ⟨rfl, ?_, fun source t => ?_, fun source t => ?_⟩
            · rw [atLeisure_seekNext]
              exact hfree.trans (Nat.add_right_cancel hleft).ge
            · rw [atWork_seekNext]
              exact (htaken source t).trans (hwork source t)
            · rw [restsOf_seekNext]
              exact hrests source t
        | some c =>
            refine ⟨rfl, ?_, fun source t => ?_, fun source t => ?_⟩
            · rw [atLeisure_add]
              exact Nat.le_of_succ_le_succ (hfree.trans hleft.ge)
            · rw [atWork_add]
              exact (htaken source t).trans (congrArg (· + _) (hwork source t))
            · rw [restsOf_add]
              exact hrests source t

/-- A report is heard from a worker who works on the slot. After it he has nothing in hand, and
with a retry a rest begins. -/
theorem leadsTo_report (s : Stage) (source t : String) (ending : Ending) :
    { s with agenda := .report source t ending :: s.agenda }.LeadsTo
      (s.perform (.report source t ending)) := by
  intro x hx
  obtain ⟨hfree, hwork, hrests⟩ := hx.front
  have hpos : 0 < x.crew.atWork source t := by
    rw [hwork, Task.worksOn, beq_self_eq_true, beq_self_eq_true]
    exact Nat.succ_pos _
  obtain ⟨k, c, i, hi, rfl, rfl⟩ := Station.exists_working hpos
  have hgained := Crew.countP_replace hi .free Hand.isFree
  have hleft (source t : String) := Crew.countP_replace hi .free (Hand.worksOn source t)
  refine ⟨[.complete i (s.verdict ending)], ?_⟩
  change PlayedBy _ (x.step (.complete i (s.verdict ending)))
  rw [Station.step, hi, hx.pipeline, perform]
  dsimp only
  obtain ⟨p, completion⟩ := s.pipeline.finishRun k.source k.bundleType (s.verdict ending)
  have hrested (source t : String) : (s.update p).restsOf source t = x.crew.restsOf source t :=
    (s.restsOf_update p source t).trans (hrests source t).symm
  have hidle : (s.update p).atLeisure + 1 ≤ (x.hands.set i .free).countP Hand.isFree := by
    rw [atLeisure_update]
    exact (Nat.succ_le_succ hfree).trans hgained.ge
  have hworked (source t : String) :
      (s.update p).atWork source t = (x.hands.set i .free).countP (Hand.worksOn source t) := by
    rw [atWork_update]
    exact (Nat.add_right_cancel ((hleft source t).trans (hwork source t))).symm
  cases completion with
  | retry attempt =>
      have hpipeline := (s.update p).pipeline_lieDown k.source k.bundleType attempt
      refine ⟨hpipeline.symm, ?_, fun source t => ?_, fun source t => ?_⟩
      · rw [atLeisure_seekNext, atLeisure_lieDown]
        exact hidle
      · rw [atWork_seekNext, atWork_lieDown]
        exact (hworked source t).symm
      · rw [restsOf_seekNext, restsOf_lieDown]
        exact (countP_concat _ x.rests _).trans (congrArg (· + _) (hrested source t).symm)
  | processed | superseded | dropped | notInFlight =>
      refine ⟨rfl, ?_, fun source t => ?_, fun source t => ?_⟩
      · rw [atLeisure_seekNext]
        exact hidle
      · rw [atWork_seekNext]
        exact (hworked source t).symm
      · rw [restsOf_seekNext, hrested, Station.crew, Station.crew, Crew.restsOf, Crew.restsOf,
          List.append_nil]

/-- A rest that is over is one of those to be ended. -/
theorem leadsTo_wake (s : Stage) (source t : String) :
    { s with agenda := .wake source t :: s.agenda }.LeadsTo (s.perform (.wake source t)) := by
  intro x hx
  obtain ⟨hfree, hwork, hrests⟩ := hx.front
  have hpos : 0 < x.crew.restsOf source t := by
    rw [hrests, Task.ends, beq_self_eq_true]
    exact Nat.succ_pos _
  obtain ⟨j, hj⟩ := Station.exists_rest hpos
  refine ⟨[.endRest j], ?_⟩
  change PlayedBy _ (x.step (.endRest j))
  rw [Station.step, hj, hx.pipeline, perform]
  refine ⟨rfl, ?_, fun source' t' => ?_, fun source' t' => ?_⟩
  · rw [atLeisure_update]
    exact hfree
  · rw [atWork_update]
    exact hwork source' t'
  · rw [restsOf_update]
    have hended := Crew.countP_remove hj (· == (source', t'))
    exact Nat.add_right_cancel (hended.trans (hrests source' t'))

theorem leadsTo_perform (s : Stage) (task : Task) :
    { s with agenda := task :: s.agenda }.LeadsTo (s.perform task) := by
  cases task with
  | seek => exact s.leadsTo_seek
  | start k c => exact s.leadsTo_startRun k c
  | report source t ending => exact s.leadsTo_report source t ending
  | wake source t => exact s.leadsTo_wake source t

theorem leadsTo_settleWithin (fuel : Nat) (s : Stage) : s.LeadsTo (s.settleWithin fuel) := by
  induction fuel generalizing s with
  | zero => exact .refl s
  | succ fuel ih =>
      rw [settleWithin]
      split
      · exact .refl s
      · next task tasks hagenda =>
          have hperform := leadsTo_perform { s with agenda := tasks } task
          rw [← hagenda] at hperform
          exact hperform.trans (ih _)

/-! ### Turns -/

/-- A datagram is delivered. -/
theorem leadsTo_deliver (s : Stage) (tick : Nat) (datagram : Bytes) (place : Position) :
    s.LeadsTo ({ s with tick }.update (s.pipeline.deliver tick datagram place).1) := by
  intro x hx
  refine ⟨[.deliver tick datagram place], ?_⟩
  change PlayedBy _ (x.step (.deliver tick datagram place))
  rw [Station.step, hx.pipeline]
  refine ⟨rfl, ?_, fun source t => ?_, fun source t => ?_⟩
  · rw [atLeisure_update]
    exact hx.free
  · rw [atWork_update]
    exact hx.atWork source t
  · rw [restsOf_update]
    exact hx.rests source t

theorem leadsTo_receiveAll (s : Stage) : s.LeadsTo s.receiveAll := by
  refine LeadsTo.trans ?_
    (leadsTo_foldl (fun s d => s.leadsTo_deliver (s.tick + 1) d.1 d.2) s.feed.waiting _)
  exact leadsTo_of_same rfl

theorem leadsTo_receiverTurn (s : Stage) : s.LeadsTo s.receiverTurn := by
  rw [receiverTurn]
  split
  · exact .refl s
  · split
    · exact leadsTo_of_same rfl
    · dsimp only
      split
      · exact s.leadsTo_receiveAll.trans (leadsTo_of_same rfl)
      · exact s.leadsTo_receiveAll

/-- Commits are the business of the feed. -/
theorem leadsTo_of_commit? {c c' : Committer} (h : s.commit? c = some (s', c')) :
    s.LeadsTo s' := by
  obtain ⟨positions, -, h⟩ := Option.map_eq_some_iff.1 h
  split at h
  · dsimp only at h
    split at h
    · cases h
      exact leadsTo_of_same rfl
    · cases h
      exact leadsTo_of_same rfl
  · cases h
    exact .refl s

theorem leadsTo_commitInBackground (s : Stage) : s.LeadsTo s.commitInBackground := by
  rw [commitInBackground]
  split
  · next h => exact (leadsTo_of_commit? h).trans (leadsTo_of_same rfl)
  · exact .refl s

theorem leadsTo_commitTurn (s : Stage) : s.LeadsTo s.commitTurn := by
  rw [commitTurn]
  split
  · split
    · exact s.leadsTo_commitInBackground.trans (leadsTo_of_same rfl)
    · exact .refl s
  · exact .refl s

theorem leadsTo_sweepTurn (s : Stage) : s.LeadsTo s.sweepTurn := by
  rw [sweepTurn]
  split
  · split
    · intro x hx
      refine ⟨[.sweep (s.tick + 1)], ?_⟩
      change PlayedBy _ (x.step (.sweep (s.tick + 1)))
      rw [Station.step, hx.pipeline]
      exact ⟨rfl, hx.free, hx.atWork, hx.rests⟩
    · exact .refl s
  · exact .refl s

/-- The jobs that are over are reported, one after the other. -/
theorem leadsTo_endRuns (js : List Job) (s : Stage) :
    { s with jobs := js ++ s.jobs }.LeadsTo
      (js.foldl (fun s (j : Job) => s.endRun j.source j.bundleType) s) := by
  induction js generalizing s with
  | nil => exact .refl s
  | cons j js ih =>
      have hend := leadsTo_endRun { s with jobs := js ++ s.jobs } j
      exact hend.trans (ih (s.endRun j.source j.bundleType))

theorem leadsTo_jobsTurn (s : Stage) : s.LeadsTo s.jobsTurn := by
  refine LeadsTo.trans ?_ (leadsTo_endRuns _ _)
  refine leadsTo_of_playedBy fun x hx => ⟨hx.pipeline, hx.free, fun source t => ?_, hx.rests⟩
  rw [hx.atWork, atWork, atWork, List.countP_append, countP_due]

/-- The rests that are over are to be ended, one after the other. -/
theorem leadsTo_wakes (rs : List Rest) (s : Stage) :
    { s with rests := rs ++ s.rests }.LeadsTo
      (rs.foldl (fun s (r : Rest) => s.add (.wake r.source r.bundleType)) s) := by
  induction rs generalizing s with
  | nil => exact .refl s
  | cons r rs ih =>
      have hover := leadsTo_over { s with rests := rs ++ s.rests } r
      exact hover.trans (ih (s.add (.wake r.source r.bundleType)))

theorem leadsTo_restsTurn (s : Stage) : s.LeadsTo s.restsTurn := by
  refine LeadsTo.trans ?_ (leadsTo_wakes _ _)
  refine leadsTo_of_playedBy fun x hx => ⟨hx.pipeline, hx.free, hx.atWork, fun source t => ?_⟩
  rw [hx.rests, restsOf, restsOf, List.countP_append, countP_due]

theorem leadsTo_moment (s : Stage) : s.LeadsTo s.moment := by
  have hreceived := s.leadsTo_receiverTurn.trans (leadsTo_commitTurn _)
  have hswept := hreceived.trans (leadsTo_sweepTurn _)
  have hended := (hswept.trans (leadsTo_jobsTurn _)).trans (leadsTo_restsTurn _)
  exact hended.trans (leadsTo_settleWithin _ _)

/-! ### Rehearsals -/

theorem leadsTo_elapse (s : Stage) : s.LeadsTo s.elapse := by
  refine LeadsTo.trans ?_ (leadsTo_moment _)
  exact leadsTo_of_same rfl

theorem leadsTo_passMillis (n : Nat) (s : Stage) : s.LeadsTo (s.passMillis n) := by
  induction n generalizing s with
  | zero => exact .refl s
  | succ n ih => exact s.leadsTo_elapse.trans (ih s.elapse)

theorem leadsTo_awaitJobs (n : Nat) (s : Stage) : s.LeadsTo (s.awaitJobs n) := by
  induction n generalizing s with
  | zero => exact .refl s
  | succ n ih =>
      rw [awaitJobs]
      split
      · exact .refl s
      · exact s.leadsTo_elapse.trans (ih s.elapse)

theorem leadsTo_finish (s : Stage) : s.LeadsTo s.finish := by
  have hclosed : s.LeadsTo { s with closing := true }.settle := by
    refine LeadsTo.trans ?_ (leadsTo_settleWithin _ _)
    exact leadsTo_of_same rfl
  rw [finish]
  split
  · exact (hclosed.trans (leadsTo_awaitJobs _ _)).trans (leadsTo_commitInBackground _)
  · exact hclosed.trans (leadsTo_awaitJobs _ _)

inductive Cue where
  | send (datagram : Bytes)
  | close
  | run (millis : Nat)
  | finish

def take (s : Stage) : Cue → Stage
  | .send datagram => ((s.send? datagram).map (·.2)).getD s
  | .close => s.close
  | .run millis => s.run millis
  | .finish => s.finish

theorem leadsTo_take (s : Stage) (cue : Cue) : s.LeadsTo (s.take cue) := by
  cases cue with
  | send datagram =>
      rw [take, send?, Option.map_map]
      cases s.feed.send? datagram with
      | none => exact .refl s
      | some p => exact leadsTo_of_same rfl
  | close => exact leadsTo_of_same rfl
  | run millis => exact s.leadsTo_moment.trans (leadsTo_passMillis millis s.moment)
  | finish => exact s.leadsTo_finish

/-- However a rehearsal goes, there is a run of a station in which the same comes of the pipeline,
with as many workers and the same work and the same rests at the end of it. -/
theorem exists_station (hub : Digest) (assembler : Assembler) (registry : Registry)
    (retry : RetryPolicy) (script : Table String Part) (feed : Feed) (workers : Nat)
    (commits sweeps : Option Nat) (cues : List Cue) :
    let start := fresh (.fresh hub assembler registry) retry script feed workers commits sweeps
    ∃ moves, (cues.foldl take start).PlayedBy
      ((Station.fresh hub assembler registry (max workers 1)).run moves) :=
  leadsTo_foldl leadsTo_take cues _ _
    (playedBy_fresh hub assembler registry retry script feed workers commits sweeps)

end Stage

end Rehearsal

end Conflux
