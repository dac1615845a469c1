import Conflux.Proofs.Aggregator.Totals
import Conflux.Proofs.Pipeline.History
import Conflux.Proofs.Pipeline.Station
import Conflux.Zstd.Plain

/-!
Nothing is lost between the counters. Each of them is moved in a place of its own, and none of
these places knows of the others; but whatever comes in goes out at one exit and is counted
there, and only there. What no counter tells, how often a delivery only stored its fragment and
what became of the failed runs, is tallied along the run; what waits and what is in flight is
counted in the slots.
-/

namespace Conflux

namespace Pipeline

/-! ### Tallies -/

variable [Compression]

/-- How often, in a run, the operation that comes next is of that kind. -/
def tally (p : Pipeline) (kind : Pipeline → Operation → Bool) : List Operation → Nat
  | [] => 0
  | o :: ops => (kind p o).toNat + (p.step o).tally kind ops

/-- A delivery of a fragment that is kept for its message, or that is there already and has its
place noted. -/
def stores (p : Pipeline) : Operation → Bool
  | .deliver now datagram position =>
      match p.reply? now datagram position with
      | some (.ok none) => true
      | _ => false
  | .chore _ => false

def reports (answer : Completion → Bool) (p : Pipeline) : Operation → Bool
  | .chore (.work (.complete source t verdict)) => answer (p.complete source t verdict).2
  | _ => false

def retries : Pipeline → Operation → Bool :=
  reports fun
    | .retry _ => true
    | _ => false

def supersedes : Pipeline → Operation → Bool :=
  reports fun
    | .superseded => true
    | _ => false

def drops : Pipeline → Operation → Bool :=
  reports fun
    | .dropped _ _ => true
    | _ => false

/-- A failed delta goes back beneath a newer one that waits. -/
def merges (p : Pipeline) : Operation → Bool
  | .chore (.work (.complete source t verdict)) =>
      (p.aggregator.slot source t).buffered.isSome &&
        p.retries (.chore (.work (.complete source t verdict)))
  | _ => false

/-- A failure is reported from where nothing is at work. -/
def unheard (p : Pipeline) : Operation → Bool
  | .chore (.work (.complete source t (.failed _))) =>
      (p.aggregator.slot source t).running.isNone
  | _ => false

variable {p : Pipeline} {kind : Pipeline → Operation → Bool}

theorem tally_append (p : Pipeline) (kind : Pipeline → Operation → Bool)
    (ops later : List Operation) :
    p.tally kind (ops ++ later) = p.tally kind ops + (p.run ops).tally kind later := by
  induction ops generalizing p with
  | nil => exact (Nat.zero_add _).symm
  | cons o ops ih =>
      rw [List.cons_append, tally, tally, ih, Nat.add_assoc]
      rfl

theorem tally_concat (p : Pipeline) (kind : Pipeline → Operation → Bool) (ops : List Operation)
    (o : Operation) :
    p.tally kind (ops ++ [o]) = p.tally kind ops + (kind (p.run ops) o).toNat :=
  tally_append p kind ops [o]

/-! ### The end of a run -/

omit [Compression] in
/-- Every failure that is reported has one answer. -/
theorem handlerFailures_finishRun (h : p.aggregator.Sound) (source t : String)
    (verdict : Verdict) :
    let o : Operation := .chore (.work (.complete source t verdict))
    (p.finishRun source t verdict).1.counters.handlerFailures = p.counters.handlerFailures +
      (p.retries o).toNat + (p.supersedes o).toNat + (p.drops o).toNat + (p.unheard o).toNat := by
  intro o
  simp only [o, retries, supersedes, drops, unheard, reports, finishRun, complete, count,
    Counters.complete]
  cases hr : (p.aggregator.slot source t).running with
  | none =>
      rw [Aggregator.complete_of_running_none hr]
      cases verdict <;> simp [hr]
  | some r =>
      obtain ⟨core, _, hstep, _⟩ := h.stepsAt_complete source t verdict source t
      rw [Aggregator.happening, if_pos ⟨rfl, rfl⟩, hr] at hstep
      generalize (p.aggregator.complete source t verdict).2 = completion at hstep
      dsimp only at hstep
      cases hstep with
      | succeed | drop | supersede | putBack | putBeneath => simp [hr]

omit [Compression] in
theorem bundlesDropped_finishRun (p : Pipeline) (source t : String) (verdict : Verdict) :
    (p.finishRun source t verdict).1.counters.bundlesDropped = p.counters.bundlesDropped +
      (p.drops (.chore (.work (.complete source t verdict)))).toNat := by
  simp only [drops, reports, finishRun, complete, count, Counters.complete]
  cases (p.aggregator.complete source t verdict).2 <;> rfl

omit [Compression] in
/-- The bundle that a run ends with goes where a counter or a tally has it. -/
theorem takes_finishRun (p : Pipeline) (source t : String) (verdict : Verdict) :
    let o : Operation := .chore (.work (.complete source t verdict))
    let after := (p.finishRun source t verdict).1.counters
    after.bundlesProcessed + after.bundlesDropped + (p.supersedes o).toNat + (p.merges o).toNat =
      p.counters.bundlesProcessed + p.counters.bundlesDropped +
        (p.aggregator.complete source t verdict).2.takes
          (p.aggregator.slot source t).waiting := by
  simp only [supersedes, merges, retries, reports, finishRun, complete, count, Counters.complete,
    Slot.waiting]
  cases (p.aggregator.complete source t verdict).2 with
  | processed | dropped =>
      simp [Completion.takes]
      omega
  | superseded | retry | notInFlight => simp [Completion.takes]

/-! ### The ledger -/

/-- What the counters do not tell about a run. -/
structure Tallies where
  stored : Nat
  retried : Nat
  superseded : Nat
  merged : Nat
  dropped : Nat
  unheard : Nat

def tallies (p : Pipeline) (ops : List Operation) : Tallies where
  stored := p.tally stores ops
  retried := p.tally retries ops
  superseded := p.tally supersedes ops
  merged := p.tally merges ops
  dropped := p.tally drops ops
  unheard := p.tally unheard ops

def Tallies.next (t : Tallies) (p : Pipeline) (o : Operation) : Tallies where
  stored := t.stored + (p.stores o).toNat
  retried := t.retried + (p.retries o).toNat
  superseded := t.superseded + (p.supersedes o).toNat
  merged := t.merged + (p.merges o).toNat
  dropped := t.dropped + (p.drops o).toNat
  unheard := t.unheard + (p.unheard o).toNat

theorem tallies_concat (p : Pipeline) (ops : List Operation) (o : Operation) :
    p.tallies (ops ++ [o]) = (p.tallies ops).next (p.run ops) o := by
  simp only [tallies, Tallies.next, tally_concat]

/-- The counters agree with the tallies, and with what is there. -/
structure Balanced (t : Tallies) (p : Pipeline) : Prop where
  fragments : p.counters.fragmentsReceived = p.counters.fragmentsDropped +
    p.counters.assembliesFailed + p.counters.messagesAssembled + t.stored
  messages : p.counters.messagesAssembled = p.counters.envelopesMalformed +
    p.counters.unknownType + p.counters.envelopesStale + p.counters.envelopesInserted
  bundles : p.counters.envelopesInserted = p.counters.envelopesConflated +
    p.counters.bundlesProcessed + p.counters.bundlesDropped + t.superseded + t.merged +
    p.aggregator.held
  failures : p.counters.handlerFailures = t.retried + t.superseded + t.dropped + t.unheard
  dropped : p.counters.bundlesDropped = t.dropped

theorem balanced_fresh (hub : Digest) (assembler : Assembler) (registry : Registry) :
    Balanced ((fresh hub assembler registry).tallies []) (fresh hub assembler registry) :=
  ⟨rfl, rfl, rfl, rfl, rfl⟩

variable {t : Tallies}

/-- A delivery is counted where it ends. -/
theorem Balanced.deliver (h : Balanced t p) (hsound : p.aggregator.Sound) (now : Nat)
    (datagram : Bytes) (position : Position) :
    Balanced (t.next p (.deliver now datagram position))
      (p.deliver now datagram position).1 := by
  obtain ⟨hfragments, hmessages, hbundles, hfailures, hdropped⟩ := h
  -- No run ends here.
  have hnext : t.next p (.deliver now datagram position) =
      { t with stored := t.stored + (p.stores (.deliver now datagram position)).toNat } := rfl
  rw [hnext]
  have hdelivered := p.delivered now datagram position
  generalize (p.deliver now datagram position).1 = after,
    (p.deliver now datagram position).2 = admission at hdelivered
  cases hdelivered with
  | dropped assembler hreply =>
      have hstored : p.stores (.deliver now datagram position) = false := by
        rw [stores]
        split
        · next hnone =>
            obtain ⟨e, he, _⟩ := hreply _ hnone
            cases he
        · rfl
      refine ⟨?_, hmessages, hbundles, hfailures, hdropped⟩
      simp only [hstored, Counters.receiveFragment, Counters.dropFragment,
        Bool.toNat_false]
      omega
  | failed assembler hreply =>
      have hstored : p.stores (.deliver now datagram position) = false := by
        simp only [stores, hreply]
      refine ⟨?_, hmessages, hbundles, hfailures, hdropped⟩
      simp only [hstored, Counters.receiveFragment, Counters.failAssembly,
        Bool.toNat_false]
      omega
  | stored assembler hreply =>
      have hstored : p.stores (.deliver now datagram position) = true := by
        simp only [stores, hreply]
      refine ⟨?_, hmessages, hbundles, hfailures, hdropped⟩
      simp only [hstored, Counters.receiveFragment, Bool.toNat_true]
      omega
  | malformed assembler hreply =>
      have hstored : p.stores (.deliver now datagram position) = false := by
        simp only [stores, hreply]
      refine ⟨?_, ?_, hbundles, hfailures, hdropped⟩
      · simp only [hstored, Counters.receiveFragment, Counters.assembleMessage,
          Counters.refuseEnvelope, Bool.toNat_false]
        omega
      · simp only [Counters.receiveFragment, Counters.assembleMessage, Counters.refuseEnvelope]
        omega
  | @inserted assembler whole e hreply _ aggregator insertion hinsert =>
      have hstored : p.stores (.deliver now datagram position) = false := by
        simp only [stores, hreply]
      have hheld : aggregator.held = p.aggregator.held + insertion.adds := by
        have hinserted := hsound.held_insert e whole.position whole.lastOffset
        rwa [hinsert] at hinserted
      obtain ⟨admission, conflated⟩ := insertion
      -- Where the insertion is counted, depends on the admission alone.
      cases admission with
      | ready | buffered =>
          refine ⟨?_, ?_, ?_, hfailures, hdropped⟩
          · simp only [hstored, Counters.receiveFragment, Counters.assembleMessage,
              Counters.insert, Bool.toNat_false]
            omega
          · simp only [Counters.receiveFragment, Counters.assembleMessage, Counters.insert]
            omega
          · simp only [Insertion.adds] at hheld
            simp only [Counters.receiveFragment, Counters.assembleMessage, Counters.insert]
            cases conflated <;> simp only [Bool.false_eq_true, if_true, if_false] at hheld ⊢ <;>
              omega
      | stale | unknownType =>
          refine ⟨?_, ?_, ?_, hfailures, hdropped⟩
          · simp only [hstored, Counters.receiveFragment, Counters.assembleMessage,
              Counters.insert, Bool.toNat_false]
            omega
          · simp only [Counters.receiveFragment, Counters.assembleMessage, Counters.insert]
            omega
          · exact hheld ▸ hbundles

/-- A report is counted by what it says, and by the answer to it. -/
theorem Balanced.complete (h : Balanced t p) (hsound : p.aggregator.Sound)
    (source bundleType : String) (verdict : Verdict) :
    Balanced (t.next p (.chore (.work (.complete source bundleType verdict))))
      (p.finishRun source bundleType verdict).1 := by
  obtain ⟨hfragments, hmessages, hbundles, hfailures, hdropped⟩ := h
  have hfailed := handlerFailures_finishRun hsound source bundleType verdict
  have hdrops := bundlesDropped_finishRun p source bundleType verdict
  have htaken := takes_finishRun p source bundleType verdict
  have hheld : (p.finishRun source bundleType verdict).1.aggregator.held + _ = _ :=
    hsound.held_complete source bundleType verdict
  dsimp only at hfailed htaken
  refine ⟨hfragments, hmessages, ?_, ?_, ?_⟩
  · change p.counters.envelopesInserted = p.counters.envelopesConflated + _ + _ + _ + _ + _
    simp only [Tallies.next]
    omega
  · simp only [Tallies.next]
    omega
  · simp only [Tallies.next]
    omega

/-- Nothing else that is done counts. -/
theorem Balanced.still (h : Balanced t p) {o : Operation} {after : Pipeline}
    (hcounters : after.counters = p.counters) (hheld : after.aggregator.held = p.aggregator.held)
    (hnext : t.next p o = t) : Balanced (t.next p o) after := by
  rw [hnext]
  constructor
  · rw [hcounters]
    exact h.fragments
  · rw [hcounters]
    exact h.messages
  · rw [hcounters, hheld]
    exact h.bundles
  · rw [hcounters]
    exact h.failures
  · rw [hcounters]
    exact h.dropped

theorem Balanced.step (h : Balanced t p) (hsound : p.aggregator.Sound) (o : Operation) :
    Balanced (t.next p o) (p.step o) := by
  match o with
  | .deliver now datagram position => exact h.deliver hsound now datagram position
  | .chore (.work .pop) =>
      refine h.still ?_ ?_ rfl
      · rw [Pipeline.step, work, pop?]
        cases p.aggregator.pop? <;> rfl
      · rw [Pipeline.step, (p.work_eq .pop).1]
        exact p.aggregator.held_pop
  | .chore (.work (.claim source u)) => exact h.still rfl (hsound.held_claim source u) rfl
  | .chore (.work (.complete source u verdict)) => exact h.complete hsound source u verdict
  | .chore (.work (.endRest source u)) => exact h.still rfl (hsound.held_endRest source u) rfl
  | .chore (.sweep now) => exact h.still rfl rfl rfl

theorem Balanced.run {start : Pipeline} (h : Balanced (start.tallies []) start)
    (hsound : start.aggregator.Sound) (ops : List Operation) :
    Balanced (start.tallies ops) (start.run ops) := by
  induction ops using List.reverseRecOn with
  | nil => exact h
  | append_singleton ops o ih =>
      rw [run_concat, tallies_concat]
      exact ih.step (sound_run hsound ops) o

end Pipeline

namespace Station

section

variable [Compression] {s : Station}

/-- At a station every failure is heard. -/
theorem InOrder.tally_unheard (h : s.InOrder) (moves : List Move) :
    s.pipeline.tally Pipeline.unheard (s.operations moves) = 0 := by
  induction moves generalizing s with
  | nil => rfl
  | cons m moves ih =>
      have hrest := ih (h.step m)
      rw [pipeline_step] at hrest
      rw [operations, Pipeline.tally_append, hrest]
      cases ho : s.operation? m with
      | none => rfl
      | some o =>
          change (s.pipeline.unheard o).toNat + 0 + 0 = 0
          rcases o with _ | ⟨⟨_ | _ | ⟨source, t, _ | maxAttempts⟩ | _⟩ | _⟩
          case chore.work.complete.failed =>
            have hrunning := h.running_of_operation? ho
            rw [Pipeline.unheard, Option.isNone_eq_false_iff.2 hrunning]
            rfl
          all_goals rfl

/-- The counters of a station at any time. Every fragment was dropped, or made an assembly fail,
or completed a message, or was stored. Every message had no bundle in it that could be read, or
one of an unknown type, a stale one, or one that was inserted. Every bundle that was inserted and
did not join another one was processed, or dropped, or gave way to a newer one, or became one
with a newer one, or waits, or is in flight. And every failure of a handler had its answer. -/
theorem counters_balance (hub : Digest) (ttl remembered : Nat) (calls : List Registration)
    (workers : Nat) (moves : List Move) :
    let station := fresh hub (.fresh ttl remembered) (Registry.ofCalls calls) workers
    let start := station.pipeline
    let ops := station.operations moves
    let p := (station.run moves).pipeline
    let c := p.counters
    p = start.run ops ∧
      c.fragmentsReceived = c.fragmentsDropped + c.assembliesFailed + c.messagesAssembled +
        start.tally Pipeline.stores ops ∧
      c.messagesAssembled = c.envelopesMalformed + c.unknownType + c.envelopesStale +
        c.envelopesInserted ∧
      c.envelopesConflated ≤ c.envelopesInserted ∧
      c.envelopesInserted - c.envelopesConflated = c.bundlesProcessed + c.bundlesDropped +
        start.tally Pipeline.supersedes ops + start.tally Pipeline.merges ops +
        p.aggregator.waiting + p.aggregator.inFlight ∧
      c.handlerFailures = start.tally Pipeline.retries ops +
        start.tally Pipeline.supersedes ops + start.tally Pipeline.drops ops ∧
      c.bundlesDropped = start.tally Pipeline.drops ops := by
  intro station start ops p c
  have hnamed := Registry.named_ofCalls calls
  have hp : p = start.run ops := station.pipeline_run moves
  have hbalanced : Pipeline.Balanced (start.tallies ops) p := hp ▸
    (Pipeline.balanced_fresh hub _ _).run (Aggregator.sound_fresh hnamed) ops
  have hunheard : start.tally Pipeline.unheard ops = 0 :=
    (inOrder_fresh hub _ hnamed workers).tally_unheard moves
  obtain ⟨hfragments, hmessages, hbundles, hfailures, hdropped⟩ := hbalanced
  simp only [Pipeline.tallies, Aggregator.held] at hfragments hbundles hfailures hdropped
  refine ⟨hp, hfragments, hmessages, ?_, ?_, ?_, hdropped⟩
  all_goals
    dsimp only [c]
    omega

end

open scoped Zstd

/-- While a bundle is at work, a newer one comes and a datagram that is none; then the first one
fails. Its failure has one answer, although it was not its last attempt. -/
theorem counters_balance_overtaken :
    let datagram (value : UInt64) : Bytes :=
      match Fragment.ofMessage (.ofEnvelope
        ⟨"1.0", "changes", "hub", "bundle", ⟨0, 0, 0⟩, ⟨0, value⟩, none, []⟩ "")
        .identity 2000 value with
      | .ok (f :: _) => f.toBytes
      | _ => []
    let moves : List Move :=
      [.deliver 0 (datagram 1) ⟨"status", 0, 3⟩, .pop 0, .claim 0,
        .deliver 1 (datagram 2) ⟨"status", 0, 4⟩, .deliver 2 [] ⟨"status", 0, 5⟩,
        .complete 0 (.failed 3)]
    let station := fresh anyDestination (.fresh 100 100)
      (Registry.ofCalls [⟨"changes", 0, none, .delta none⟩]) 1
    let start := station.pipeline
    let ops := station.operations moves
    let c := (station.run moves).pipeline.counters
    (c.fragmentsReceived, c.messagesAssembled, c.envelopesInserted, c.handlerFailures) =
        (3, 2, 2, 1) ∧
      c.fragmentsReceived = c.fragmentsDropped + c.assembliesFailed + c.messagesAssembled +
        start.tally Pipeline.stores ops ∧
      c.handlerFailures = start.tally Pipeline.retries ops +
        start.tally Pipeline.supersedes ops + start.tally Pipeline.drops ops := by
  intro datagram moves
  obtain ⟨-, hfragments, -, -, -, hanswers, -⟩ := counters_balance anyDestination 100 100
    [⟨"changes", 0, none, .delta none⟩] 1 moves
  exact ⟨by decide +kernel, hfragments, hanswers⟩

end Station

end Conflux
