import Conflux.Proofs.Aggregator.Run
import Conflux.Proofs.Assembler
import Conflux.Proofs.Message

/-!
Runs of a pipeline. Datagrams are delivered one at a time; between two deliveries the
workers do what they do, and the assembler is swept. `Chore` is all that is not a
delivery, and that is what may go on while a commit reads its snapshot.

An operation on the pipeline asks at most one thing of the aggregator (`request?`), so
whatever is known of runs of an aggregator is known of the aggregator in a run of a
pipeline.
-/

namespace Conflux.Pipeline

inductive Chore where
  | work (w : Aggregator.Work)
  | sweep (now : Nat)

inductive Operation where
  | deliver (now : Nat) (datagram : Bytes) (position : Position)
  | chore (c : Chore)

def work (p : Pipeline) : Aggregator.Work → Pipeline
  | .pop => match p.pop? with
    | some (_, p) => p
    | none => p
  | .claim source t => (p.claim source t).1
  | .complete source t verdict => (p.finishRun source t verdict).1
  | .endRest source t => (p.endRest source t).1

variable [Compression]

def step (p : Pipeline) : Operation → Pipeline
  | .deliver now datagram position => (p.deliver now datagram position).1
  | .chore (.work w) => p.work w
  | .chore (.sweep now) => p.evict now

def run (p : Pipeline) (ops : List Operation) : Pipeline := ops.foldl step p

/-- The fragment in a datagram, if there is one and it is for this hub. -/
def fragment? (p : Pipeline) (datagram : Bytes) : Option Fragment :=
  match Fragment.ofBytes datagram with
  | .ok f => if p.takes f.header then some f else none
  | .error _ => none

/-- The bundle that a fragment completes, with the message it came in. -/
def arrival? (p : Pipeline) (now : Nat) (f : Fragment) (position : Position) :
    Option (Envelope × Assembled) :=
  match (p.assembler.add now f position).2 with
  | .ok (some whole) => (bundle? whole.message).map fun e => (e, whole)
  | _ => none

def request? (p : Pipeline) : Operation → Option Aggregator.Operation
  | .deliver now datagram position =>
      match p.fragment? datagram with
      | some f => (p.arrival? now f position).map fun x =>
          .insert x.1 x.2.position x.2.lastOffset
      | none => none
  | .chore (.work w) => some (.work w)
  | .chore (.sweep _) => none

omit [Compression] in
theorem work_eq (p : Pipeline) (w : Aggregator.Work) :
    (p.work w).aggregator = p.aggregator.work w ∧ (p.work w).assembler = p.assembler := by
  cases w with
  | pop =>
      rw [work, pop?]
      rcases p.aggregator.work_pop_cases with ⟨k, rest, _, hpop, _⟩ | ⟨_, hpop, hwork⟩
      · rw [hpop]
        exact ⟨rfl, rfl⟩
      · rw [hpop, hwork]
        exact ⟨rfl, rfl⟩
  | claim source t => exact ⟨rfl, rfl⟩
  | complete source t verdict => exact ⟨rfl, rfl⟩
  | endRest source t => exact ⟨rfl, rfl⟩

omit [Compression] in
theorem receive_eq (p : Pipeline) (whole : Assembled) :
    (p.receive whole).1.assembler = p.assembler ∧
      (p.receive whole).1.aggregator = match bundle? whole.message with
        | some e => (p.aggregator.insert e whole.position whole.lastOffset).1
        | none => p.aggregator := by
  rw [receive]
  cases bundle? whole.message with
  | none => exact ⟨rfl, rfl⟩
  | some e => exact ⟨rfl, rfl⟩

omit [Compression] in
theorem fragment?_eq_some {p : Pipeline} {datagram : Bytes} {f : Fragment}
    (h : p.fragment? datagram = some f) :
    Fragment.ofBytes datagram = .ok f ∧ p.takes f.header = true := by
  rw [fragment?] at h
  split at h
  · next d hd =>
      split at h
      · next htakes =>
          obtain rfl := Option.some.inj h
          exact ⟨hd, htakes⟩
      · cases h
  · cases h

theorem deliver_of_none {p : Pipeline} {datagram : Bytes} (h : p.fragment? datagram = none)
    (now : Nat) (position : Position) :
    (p.deliver now datagram position).1.assembler = p.assembler ∧
      (p.deliver now datagram position).1.aggregator = p.aggregator := by
  rw [fragment?] at h
  rw [deliver]
  split at h
  · next f hf =>
      have hnot : ¬ (p.count .receiveFragment).takes f.header = true := by
        intro htakes
        rw [if_pos (show p.takes f.header = true from htakes)] at h
        cases h
      simp only [hf, if_neg hnot]
      exact ⟨rfl, rfl⟩
  · next e he =>
      rw [he]
      exact ⟨rfl, rfl⟩

theorem deliver_of_fragment {p : Pipeline} {datagram : Bytes} {f : Fragment}
    (h : p.fragment? datagram = some f) (now : Nat) (position : Position) :
    (p.deliver now datagram position).1.assembler = (p.assembler.add now f position).1 ∧
      (p.deliver now datagram position).1.aggregator = match p.arrival? now f position with
        | some (e, whole) => (p.aggregator.insert e whole.position whole.lastOffset).1
        | none => p.aggregator := by
  obtain ⟨hbytes, htakes⟩ := fragment?_eq_some h
  have hcount : (p.count .receiveFragment).takes f.header = true := htakes
  rw [deliver, arrival?]
  simp only [hbytes, hcount, if_true]
  rw [show (p.count .receiveFragment).assembler = p.assembler from rfl]
  obtain ⟨assembler, result⟩ := p.assembler.add now f position
  cases result with
  | error e => exact ⟨rfl, rfl⟩
  | ok whole? =>
      cases whole? with
      | none => exact ⟨rfl, rfl⟩
      | some whole =>
          obtain ⟨hassembler, haggregator⟩ :=
            receive_eq { p.count .receiveFragment with assembler } whole
          refine ⟨hassembler, haggregator.trans ?_⟩
          dsimp only
          cases bundle? whole.message <;> rfl

/-- What the assembler answers to a datagram, if it is asked at all. -/
def reply? (p : Pipeline) (now : Nat) (datagram : Bytes) (position : Position) :
    Option (Except AssemblyError (Option Assembled)) :=
  (p.fragment? datagram).map fun f => (p.assembler.add now f position).2

/-- The exits of a delivery: the pipeline it leaves, and its answer. -/
inductive Delivered (p : Pipeline) (now : Nat) (datagram : Bytes) (position : Position) :
    Pipeline → Option Admission → Prop where
  | dropped (assembler : Assembler)
      (h : ∀ result, p.reply? now datagram position = some result →
        ∃ e, result = .error e ∧ e.isBenign = true) :
      Delivered p now datagram position
        { p with assembler, counters := p.counters.receiveFragment.dropFragment } none
  | failed (assembler : Assembler) {e : AssemblyError}
      (h : p.reply? now datagram position = some (.error e)) (he : e.isBenign = false) :
      Delivered p now datagram position
        { p with assembler, counters := p.counters.receiveFragment.failAssembly } none
  | stored (assembler : Assembler) (h : p.reply? now datagram position = some (.ok none)) :
      Delivered p now datagram position
        { p with assembler, counters := p.counters.receiveFragment } none
  | malformed (assembler : Assembler) {whole : Assembled}
      (h : p.reply? now datagram position = some (.ok (some whole)))
      (he : bundle? whole.message = none) :
      Delivered p now datagram position
        { p with
          assembler
          counters := p.counters.receiveFragment.assembleMessage.refuseEnvelope } none
  | inserted (assembler : Assembler) {whole : Assembled} {e : Envelope}
      (h : p.reply? now datagram position = some (.ok (some whole)))
      (he : bundle? whole.message = some e) {aggregator : Aggregator} {insertion : Insertion}
      (hinsert : p.aggregator.insert e whole.position whole.lastOffset =
        (aggregator, insertion)) :
      Delivered p now datagram position
        { p with
          assembler
          aggregator
          counters := p.counters.receiveFragment.assembleMessage.insert insertion }
        (some insertion.admission)

theorem delivered (p : Pipeline) (now : Nat) (datagram : Bytes) (position : Position) :
    Delivered p now datagram position (p.deliver now datagram position).1
      (p.deliver now datagram position).2 := by
  cases hbytes : Fragment.ofBytes datagram with
  | error x =>
      have hreply : p.reply? now datagram position = none := by rw [reply?, fragment?, hbytes]; rfl
      rw [deliver, hbytes]
      exact .dropped p.assembler (by simp [hreply])
  | ok f =>
      by_cases htakes : p.takes f.header = true
      · have hreply : p.reply? now datagram position =
            some (p.assembler.add now f position).2 := by
          rw [reply?, fragment?, hbytes]
          simp only [htakes, if_true, Option.map_some]
        have hcount : (p.count .receiveFragment).takes f.header = true := htakes
        rw [deliver, hbytes]
        simp only [hcount, if_true]
        rw [show (p.count .receiveFragment).assembler = p.assembler from rfl]
        generalize p.assembler.add now f position = added at hreply
        match added with
        | (assembler, .ok none) => exact .stored assembler hreply
        | (assembler, .ok (some whole)) =>
            simp only [receive]
            cases he : bundle? whole.message with
            | none => exact .malformed assembler hreply he
            | some e => exact .inserted assembler hreply he rfl
        | (assembler, .error e) =>
            simp only
            cases he : e.isBenign with
            | true => exact .dropped assembler (by simp [hreply, he])
            | false => exact .failed assembler hreply he
      · have hreply : p.reply? now datagram position = none := by
          rw [reply?, fragment?, hbytes]
          simp only [htakes, Bool.false_eq_true, if_false, Option.map_none]
        have hcount : ¬ (p.count .receiveFragment).takes f.header = true := htakes
        rw [deliver, hbytes]
        simp only [if_neg hcount]
        exact .dropped p.assembler (by simp [hreply])

theorem aggregator_step (p : Pipeline) (o : Operation) :
    (p.step o).aggregator = match p.request? o with
      | some r => p.aggregator.step r
      | none => p.aggregator := by
  match o with
  | .deliver now datagram position =>
      rw [step, request?]
      cases hf : p.fragment? datagram with
      | none => exact (deliver_of_none hf now position).2
      | some f =>
          rw [(deliver_of_fragment hf now position).2]
          dsimp only
          cases p.arrival? now f position <;> rfl
  | .chore (.work w) => exact (p.work_eq w).1
  | .chore (.sweep now) => rfl

theorem assembler_chore (p : Pipeline) (c : Chore) :
    (p.step (.chore c)).assembler = p.assembler ∨
      ∃ now, (p.step (.chore c)).assembler = p.assembler.evict now := by
  cases c with
  | work w => exact .inl (p.work_eq w).2
  | sweep now => exact .inr ⟨now, rfl⟩

end Conflux.Pipeline
