import Conflux.Proofs.Pipeline.LogEnd
import Conflux.Proofs.Reach
import Conflux.Zstd.Plain

/-!
Two commits of one run. As long as something waits on a partition, a commit is at the first
place of what waits, and nothing that comes later lies before it. If nothing waits any more,
a commit is behind all that was processed. So the later of two commits could only be behind
the earlier one if what waited then went away without a trace.

The content of a slot does not. It is processed or given up in the end, or other content
stands for it that reaches as far (`Slot.reach?`). An incomplete message does, though: it
expires, or it turns out to be nothing for a slot. Then the commit falls back, but only to
the place behind what was processed when it was made first.
-/

namespace Conflux

theorem Leaf.mem_slotCheckpoints_iff {source t : String} {s : Slot} {c : Checkpoint} :
    c ∈ slotCheckpoints source t s ↔
      (∃ p v, s.settled = some (p, v) ∧ ⟨source, t, p, v, true⟩ = c) ∨
      (∃ r, s.running = some r ∧ ⟨source, t, r.position, r.envelope.version, false⟩ = c) ∨
      ∃ b, s.buffered = some b ∧ ⟨source, t, b.position, b.envelope.version, false⟩ = c := by
  simp [slotCheckpoints]

theorem Aggregator.Sound.mem_checkpoints_iff {a : Aggregator} (h : a.Sound) {c : Checkpoint} :
    c ∈ a.checkpoints ↔ ∃ source bundleType,
      c ∈ Leaf.slotCheckpoints source bundleType (a.slot source bundleType) := by
  have hslot {source bundleType : String} {l : Leaf} {s : Slot} (hl : a.leaf? source = some l)
      (hs : l.slot? bundleType = some s) : a.slot source bundleType = s := by
    rw [slot, leaf, hl, Option.getD_some, Leaf.slot_of_slot? hs]
  simp only [checkpoints, List.mem_flatMap, Table.mem_values_iff, Leaf.mem_checkpoints_iff]
  constructor
  · rintro ⟨l, ⟨source, hl⟩, bundleType, s, hs, hc⟩
    refine ⟨source, bundleType, ?_⟩
    rwa [hslot hl hs, ← h.source source l hl]
  · rintro ⟨source, bundleType, hc⟩
    cases hl : a.leaf? source with
    | none =>
        rw [slot, leaf, hl, Option.getD_none, Leaf.slot_fresh] at hc
        cases hc
    | some l =>
        cases hs : l.slot? bundleType with
        | none =>
            rw [slot, leaf, hl, Option.getD_some, Leaf.slot, hs] at hc
            cases hc
        | some s =>
            refine ⟨l, ⟨source, hl⟩, bundleType, s, hs, ?_⟩
            rwa [h.source source l hl, ← hslot hl hs]

namespace Pipeline

variable {home : Digest → Partition} {delivered : List Position} {t : Traced} {o : Operation}

/-! ### One slot of a pipeline -/

variable [Compression]

def happening (p : Pipeline) (source bundleType : String) (o : Operation) : Slot.Happening :=
  match p.request? o with
  | some r => p.aggregator.happening source bundleType r
  | none => .nothing

theorem slot_step {p : Pipeline} (h : p.aggregator.Sound) (o : Operation)
    (source bundleType : String) :
    ∃ core n, Slot.Step (p.aggregator.registry.mode bundleType)
        (p.aggregator.slot source bundleType) (p.happening source bundleType o) core ∧
      Slot.Woken core n ((p.step o).aggregator.slot source bundleType) := by
  rw [aggregator_step, happening]
  cases p.request? o with
  | none => exact ⟨_, 0, .keep, .asleep⟩
  | some r => exact h.step_slot r source bundleType

/-- A bundle comes into a slot with the last fragment of its message. -/
theorem happening_eq_accepted {p : Pipeline} {source bundleType : String} {e : Envelope}
    {position : Position} {lastOffset : UInt64}
    (h : p.happening source bundleType o = .accepted e position lastOffset) :
    ∃ now datagram place f whole, o = .deliver now datagram place ∧
      p.fragment? datagram = some f ∧ (p.assembler.add now f place).2 = .ok (some whole) ∧
      bundle? whole.message = some e ∧ position = whole.position ∧
      lastOffset = whole.lastOffset ∧ e.source = source ∧ e.bundleType = bundleType := by
  rw [happening] at h
  split at h
  · next r hr =>
      obtain ⟨rfl, hsource, htype⟩ := Aggregator.happening_eq_accepted h
      obtain ⟨now, datagram, place, f, whole, ho, hf, hadd, hbundle, hposition, hlast⟩ :=
        request?_eq_insert hr
      exact ⟨now, datagram, place, f, whole, ho, hf, hadd, hbundle, hposition, hlast, hsource,
        htype⟩
  · cases h

end Pipeline

/-! ### Where content begins -/

theorem Position.earlier_of_both {P : Position → Prop} {p q : Position} (hp : P p) (hq : P q) :
    P (p.earlier q) := by
  rcases p.earlier_eq_or q with he | he
  · rwa [he]
  · rwa [he]

/-- The content of the slot begins at places with the property. -/
structure Slot.Begins (P : Position → Prop) (s : Slot) : Prop where
  running : ∀ r, s.running = some r → P r.position
  buffered : ∀ b, s.buffered = some b → P b.position

theorem Slot.Begins.step {P : Position → Prop} {mode : SyncMode} {s core : Slot}
    {seen : Slot.Happening} (h : s.Begins P) (hstep : Slot.Step mode s seen core)
    (hnew : ∀ e position lastOffset, seen = .accepted e position lastOffset → P position) :
    core.Begins P := by
  cases hstep with
  | keep | refuse | rest => exact ⟨h.running, h.buffered⟩
  | accept =>
      refine ⟨h.running, fun b hb => ?_⟩
      have hnew := hnew _ _ _ rfl
      obtain rfl := Option.some.inj hb
      cases hwaits : s.buffered with
      | none => exact hnew
      | some b =>
          cases mode with
          | complete => exact hnew
          | delta key? => exact Position.earlier_of_both (h.buffered b hwaits) hnew
  | start hb =>
      refine ⟨?_, nofun⟩
      rintro _ ⟨⟩
      exact h.buffered _ hb
  | succeed | drop | supersede => exact ⟨nofun, h.buffered⟩
  | putBack hr =>
      refine ⟨nofun, ?_⟩
      rintro _ ⟨⟩
      exact h.running _ hr
  | putBeneath hr hb =>
      refine ⟨nofun, ?_⟩
      rintro _ ⟨⟩
      exact Position.earlier_of_both (h.running _ hr) (h.buffered _ hb)

theorem Slot.Begins.woken {P : Position → Prop} {core s : Slot} {n : Nat} (h : core.Begins P)
    (hwoken : Slot.Woken core n s) : s.Begins P := by
  cases hwoken with
  | asleep => exact h
  | woken => exact ⟨h.running, h.buffered⟩

theorem Slot.Lineage.Fits.reach {delivered : List Position} {l : Slot.Lineage} {s : Slot}
    {q : Partition} (h : l.Fits delivered q s) {x : UInt64} (hx : s.reach? = some x) :
    q.at x ∈ delivered := by
  cases hb : s.buffered with
  | some b =>
      rw [Slot.reach?_of_buffered hb] at hx
      obtain rfl := Option.some.inj hx
      exact (h.buffered.stretch hb).ends
  | none =>
      cases hr : s.running with
      | some r =>
          rw [Slot.reach?_of_running hb hr] at hx
          obtain rfl := Option.some.inj hx
          exact (h.running.stretch hr).ends
      | none =>
          rw [Slot.reach?_of_settled hb hr] at hx
          obtain ⟨⟨p, v⟩, hp, rfl⟩ := Option.map_eq_some_iff.1 hx
          obtain ⟨rfl, hmem⟩ := h.settled p v hp
          exact hmem

theorem Assembler.span_of_opened {P : Position → Prop} {a : Assembler}
    (h : ∀ k r, a.opened.get? k = some r → P r.position) {now : Nat} {f : Fragment}
    {position : Position} (hposition : P position) : P (a.span now f position).1 := by
  rw [span]
  cases hfound : a.found? now f with
  | none => exact hposition
  | some r => exact Position.earlier_of_both (h _ r (get?_of_found? hfound)) hposition

namespace Pipeline

/-- All that waits to be processed begins at places with the property. -/
structure Begins (P : Position → Prop) (p : Pipeline) : Prop where
  records : ∀ k r, p.assembler.opened.get? k = some r → P r.position
  slots : ∀ source bundleType, (p.aggregator.slot source bundleType).Begins P

variable {home : Digest → Partition} {delivered : List Position} {t : Traced} {o : Operation}
  {P : Position → Prop}

/-! ### What waits, and what is settled -/

def waiting (p : Pipeline) : List Position := Commit.waiting p.checkpoints p.openPositions

theorem mem_waiting_iff {p : Pipeline} (h : p.aggregator.Sound) {position : Position} :
    position ∈ p.waiting ↔ position ∈ p.openPositions ∨ ∃ source bundleType,
      (∃ r, (p.aggregator.slot source bundleType).running = some r ∧ r.position = position) ∨
        ∃ b, (p.aggregator.slot source bundleType).buffered = some b ∧ b.position = position := by
  rw [waiting, Commit.waiting, List.mem_append, or_comm]
  refine or_congr Iff.rfl ?_
  simp only [List.mem_map, List.mem_filter, Bool.not_eq_true', checkpoints, h.mem_checkpoints_iff,
    Leaf.mem_slotCheckpoints_iff]
  constructor
  · rintro ⟨k, ⟨⟨source, bundleType, hk⟩, hopen⟩, rfl⟩
    refine ⟨source, bundleType, ?_⟩
    rcases hk with ⟨p, v, _, rfl⟩ | ⟨r, hr, rfl⟩ | ⟨b, hb, rfl⟩
    · cases hopen
    · exact .inl ⟨r, hr, rfl⟩
    · exact .inr ⟨b, hb, rfl⟩
  · rintro ⟨source, bundleType, ⟨r, hr, rfl⟩ | ⟨b, hb, rfl⟩⟩
    · exact ⟨_, ⟨⟨source, bundleType, .inr (.inl ⟨r, hr, rfl⟩)⟩, rfl⟩, rfl⟩
    · exact ⟨_, ⟨⟨source, bundleType, .inr (.inr ⟨b, hb, rfl⟩)⟩, rfl⟩, rfl⟩

theorem mem_waiting_of_running {p : Pipeline} (h : p.aggregator.Sound) {source bundleType : String}
    {r : Running} (hr : (p.aggregator.slot source bundleType).running = some r) :
    r.position ∈ p.waiting :=
  (mem_waiting_iff h).2 (.inr ⟨source, bundleType, .inl ⟨r, hr, rfl⟩⟩)

theorem mem_waiting_of_buffered {p : Pipeline} (h : p.aggregator.Sound) {source bundleType : String}
    {b : Buffered} (hb : (p.aggregator.slot source bundleType).buffered = some b) :
    b.position ∈ p.waiting :=
  (mem_waiting_iff h).2 (.inr ⟨source, bundleType, .inr ⟨b, hb, rfl⟩⟩)

theorem mem_checkpoints_of_settled {p : Pipeline} (h : p.aggregator.Sound)
    {source bundleType : String} {place : Position} {v : Version}
    (hleft : (p.aggregator.slot source bundleType).settled = some (place, v)) :
    ∃ k ∈ p.checkpoints, k.position = place := by
  refine ⟨⟨source, bundleType, place, v, true⟩,
    h.mem_checkpoints_iff.2 ⟨source, bundleType, ?_⟩, rfl⟩
  exact Leaf.mem_slotCheckpoints_iff.2 (.inl ⟨place, v, hleft, rfl⟩)

theorem processed_of_not_waiting {p : Pipeline} {k : Checkpoint} (hk : k ∈ p.checkpoints)
    (hnone : k.position ∉ p.waiting) : k.processed = true := by
  by_contra hopen
  refine hnone (List.mem_append_left _ (List.mem_map.2 ⟨k, List.mem_filter.2 ⟨hk, ?_⟩, rfl⟩))
  simpa using hopen

section

variable [Compression]

theorem Begins.step (h : Begins P t.pipeline) (hsound : t.pipeline.aggregator.Sound)
    (hP : ∀ τ ∈ o.delivered, P τ) : Begins P (t.step o).pipeline where
  records k r hr := by
    rcases Traced.opened_step hr with ⟨hopen, _⟩ | ⟨now, datagram, place, f, rfl, _, _, _, hspan⟩
    · exact h.records k r hopen
    · rw [show r.position = _ from congrArg Prod.fst hspan]
      exact Assembler.span_of_opened h.records (hP place (List.mem_singleton_self _))
  slots source bundleType := by
    obtain ⟨core, n, hstep, hwoken⟩ := slot_step hsound o source bundleType
    refine ((h.slots source bundleType).step hstep ?_).woken hwoken
    intro e position lastOffset hseen
    obtain ⟨now, datagram, place, f, whole, rfl, _, hadd, _, rfl, _⟩ := happening_eq_accepted hseen
    have hspan := ((Assembler.takes_add (Assembler.refuses_of_add hadd) now place).out whole hadd).1
    rw [show whole.position = _ from congrArg Prod.fst hspan]
    exact Assembler.span_of_opened h.records (hP place (List.mem_singleton_self _))

/-! ### How far content reaches -/

/-- A bundle that comes in reaches from the delivery of its last fragment, or from before
that, up to that delivery or beyond. -/
theorem Traced.Covered.accepted_place (h : t.Covered home delivered) (hhome : o.AtHome home)
    {source bundleType : String} {e : Envelope} {position : Position} {lastOffset : UInt64}
    (hseen : t.pipeline.happening source bundleType o = .accepted e position lastOffset) :
    ∃ place ∈ o.delivered,
      place.partitionKey = home (streamId (Envelope.streamKey source bundleType)) ∧
        position.offset ≤ place.offset ∧ place.offset ≤ lastOffset := by
  obtain ⟨now, datagram, place, f, whole, rfl, hf, hadd, hbundle, rfl, rfl, rfl, rfl⟩ :=
    happening_eq_accepted hseen
  have hplace := hhome f (fragment?_eq_some hf).1
  have htakes := Assembler.takes_add (Assembler.refuses_of_add hadd) now place
  obtain ⟨hspan, hstream⟩ := htakes.out whole hadd
  refine ⟨place, List.mem_singleton_self _, ?_, ?_⟩
  · rw [hplace, ← hstream, key_of_bundle? hbundle]
  · rw [show whole.position = _ from congrArg Prod.fst hspan,
      show whole.lastOffset = _ from congrArg Prod.snd hspan, Assembler.span]
    cases hfound : t.pipeline.assembler.found? now f with
    | none => exact ⟨UInt64.le_refl _, UInt64.le_refl _⟩
    | some r =>
        have hrecord := (h.records _ r (Assembler.get?_of_found? hfound)).at_home
        exact ⟨(Position.earlier_offset_le (hrecord.trans hplace.symm)).2,
          (le_max_offset r.lastOffset place.offset).2⟩

/-- The pipeline of an account after some deliveries, each behind those before it on its
partition. -/
structure Ranked (home : Digest → Partition) (delivered : List Position) (t : Traced) : Prop where
  covered : t.Covered home delivered
  within : ∀ source bundleType, (t.pipeline.aggregator.slot source bundleType).Within

def Operation.Follows (delivered : List Position) (o : Operation) : Prop :=
  ∀ p ∈ delivered, ∀ τ ∈ o.delivered, p.partitionKey = τ.partitionKey → p.offset < τ.offset

theorem Ranked.late (h : Ranked home delivered t) (hhome : o.AtHome home)
    (hfollows : o.Follows delivered) (source bundleType : String) {floor : UInt64}
    (hfloor : ∀ τ ∈ o.delivered,
      τ.partitionKey = home (streamId (Envelope.streamKey source bundleType)) →
        floor ≤ τ.offset) :
    (t.pipeline.aggregator.slot source bundleType).Late floor
      (t.pipeline.happening source bundleType o) := by
  intro e position lastOffset hseen
  obtain ⟨place, hplace, hpartition, hle, hle'⟩ := h.covered.accepted_place hhome hseen
  refine ⟨UInt64.le_trans hle hle', UInt64.le_trans (hfloor place hplace hpartition) hle', ?_⟩
  intro x hx
  have hmem := (h.covered.slots source bundleType).reach hx
  have hlt := hfollows _ hmem place hplace hpartition.symm
  exact UInt64.le_trans (UInt64.le_of_lt hlt) hle'

theorem Ranked.step (h : Ranked home delivered t) (hhome : o.AtHome home)
    (hfollows : o.Follows delivered) : Ranked home (delivered ++ o.delivered) (t.step o) where
  covered := h.covered.step hhome
  within source bundleType := by
    obtain ⟨core, n, hstep, hwoken⟩ := slot_step h.covered.sound o source bundleType
    have hlate := h.late hhome hfollows source bundleType fun _ _ _ => UInt64.zero_le
    exact ((h.within source bundleType).step hstep hlate).woken hwoken

/-- The operations deliver the fragments of a stream on its partition, and on each partition
in ascending order, behind what was delivered before. -/
structure InOrder (home : Digest → Partition) (delivered : List Position) (ops : List Operation) :
    Prop where
  at_home : ∀ o ∈ ops, o.AtHome home
  ascending : (delivered ++ ops.flatMap Operation.delivered).Pairwise
    fun p q => p.partitionKey = q.partitionKey → p.offset < q.offset

omit [Compression] in
theorem InOrder.cons {ops : List Operation} (h : InOrder home delivered (o :: ops)) :
    o.AtHome home ∧ o.Follows delivered ∧ InOrder home (delivered ++ o.delivered) ops := by
  have hascending := h.ascending
  rw [List.flatMap_cons, ← List.append_assoc] at hascending
  have hprefix := (List.pairwise_append.1 hascending).1
  exact ⟨h.at_home o List.mem_cons_self, (List.pairwise_append.1 hprefix).2.2,
    fun o' ho' => h.at_home o' (List.mem_cons_of_mem o ho'), hascending⟩

/-- What every operation of a run keeps, the run keeps. -/
theorem Ranked.induction {Q : Traced → Prop} {ops : List Operation}
    (h : Ranked home delivered t) (horder : InOrder home delivered ops) (hstart : Q t)
    (hstep : ∀ u past, Ranked home past u → ∀ o ∈ ops, o.AtHome home → o.Follows past →
      Q u → Q (u.step o)) :
    Ranked home (delivered ++ ops.flatMap Operation.delivered) (t.run ops) ∧ Q (t.run ops) := by
  induction ops generalizing t delivered with
  | nil =>
      rw [List.flatMap_nil, List.append_nil]
      exact ⟨h, hstart⟩
  | cons o ops ih =>
      obtain ⟨hhome, hfollows, hrest⟩ := horder.cons
      rw [List.flatMap_cons, ← List.append_assoc]
      refine ih (h.step hhome hfollows) hrest ?_ ?_
      · exact hstep t delivered h o List.mem_cons_self hhome hfollows hstart
      · intro u past hu o' ho'
        exact hstep u past hu o' (List.mem_cons_of_mem o ho')

theorem Ranked.run {ops : List Operation} (h : Ranked home delivered t)
    (horder : InOrder home delivered ops) :
    Ranked home (delivered ++ ops.flatMap Operation.delivered) (t.run ops) :=
  (h.induction (Q := fun _ => True) horder trivial fun _ _ _ _ _ _ _ _ => trivial).1

/-! ### From one commit to a later one -/

variable {q : Partition} {floor : UInt64} {ops : List Operation}

/-- What every step of a slot keeps, the run of the pipeline keeps. -/
theorem Ranked.slot_induction {Q : Slot → Prop} (h : Ranked home delivered t)
    (horder : InOrder home delivered ops) {source bundleType : String}
    (hlater : ∀ τ ∈ ops.flatMap Operation.delivered,
      τ.partitionKey = home (streamId (Envelope.streamKey source bundleType)) → floor ≤ τ.offset)
    (hstep : ∀ {mode s core seen}, Q s → Slot.Step mode s seen core → s.Late floor seen → Q core)
    (hwoken : ∀ {core n s}, Q core → Slot.Woken core n s → Q s)
    (hstart : Q (t.pipeline.aggregator.slot source bundleType)) :
    Q ((t.run ops).pipeline.aggregator.slot source bundleType) := by
  refine (h.induction (Q := fun u => Q (u.pipeline.aggregator.slot source bundleType)) horder
    hstart ?_).2
  intro u past hu o ho hhome hfollows hQ
  obtain ⟨core, n, hmove, hwake⟩ := slot_step hu.covered.sound o source bundleType
  have hlate := hu.late hhome hfollows source bundleType fun τ hτ =>
    hlater τ (List.mem_flatMap.2 ⟨o, ho, hτ⟩)
  exact hwoken (hstep hQ hmove hlate) hwake

/-- A slot does not lose its reach. -/
theorem Ranked.reaches (h : Ranked home delivered t) (horder : InOrder home delivered ops)
    {source bundleType : String} {o : UInt64}
    (ho : (t.pipeline.aggregator.slot source bundleType).Reaches o) :
    ((t.run ops).pipeline.aggregator.slot source bundleType).Reaches o :=
  h.slot_induction horder (fun _ _ _ => UInt64.zero_le) Slot.Reaches.step Slot.Reaches.woken ho

omit [Compression] in
/-- Where nothing waits on the partition of a slot, a checkpoint lies at its reach. -/
theorem Ranked.checkpoint (h : Ranked home delivered t) {source bundleType : String}
    (hq : home (streamId (Envelope.streamKey source bundleType)) = q)
    (hnone : ∀ p ∈ t.pipeline.waiting, p.partitionKey ≠ q) {o : UInt64}
    (ho : (t.pipeline.aggregator.slot source bundleType).Reaches o) :
    ∃ k ∈ t.pipeline.checkpoints, k.position.partitionKey = q ∧ o ≤ k.position.offset := by
  have hfits := h.covered.slots source bundleType
  rw [hq] at hfits
  have hbuffered : (t.pipeline.aggregator.slot source bundleType).buffered = none := by
    cases hb : (t.pipeline.aggregator.slot source bundleType).buffered with
    | none => rfl
    | some b =>
        have hwaits := mem_waiting_of_buffered h.covered.sound hb
        exact absurd (hfits.buffered.stretch hb).at_home (hnone _ hwaits)
  have hrunning : (t.pipeline.aggregator.slot source bundleType).running = none := by
    cases hr : (t.pipeline.aggregator.slot source bundleType).running with
    | none => rfl
    | some r =>
        have hwaits := mem_waiting_of_running h.covered.sound hr
        exact absurd (hfits.running.stretch hr).at_home (hnone _ hwaits)
  obtain ⟨x, hx, hle⟩ := ho
  rw [Slot.reach?_of_settled hbuffered hrunning] at hx
  obtain ⟨⟨p, v⟩, hsettled, rfl⟩ := Option.map_eq_some_iff.1 hx
  obtain ⟨k, hk, rfl⟩ := mem_checkpoints_of_settled h.covered.sound hsettled
  exact ⟨k, hk, (hfits.settled _ v hsettled).1, hle⟩

omit [Compression] in
/-- A slot that does not reach as far as all that waits has nothing that waits. -/
theorem Ranked.idle (h : Ranked home delivered t) {source bundleType : String}
    (hq : home (streamId (Envelope.streamKey source bundleType)) = q)
    (hfloor : ∀ p ∈ t.pipeline.waiting, p.partitionKey = q → floor ≤ p.offset)
    (hnot : ¬ (t.pipeline.aggregator.slot source bundleType).Reaches floor) :
    (t.pipeline.aggregator.slot source bundleType).buffered = none ∧
      (t.pipeline.aggregator.slot source bundleType).running = none := by
  have hfits := h.covered.slots source bundleType
  have hwithin := h.within source bundleType
  rw [hq] at hfits
  constructor
  · cases hb : (t.pipeline.aggregator.slot source bundleType).buffered with
    | none => rfl
    | some b =>
        have hwaits := mem_waiting_of_buffered h.covered.sound hb
        have hle := hfloor _ hwaits (hfits.buffered.stretch hb).at_home
        have hle' := hwithin.buffered b hb
        exact absurd ⟨_, Slot.reach?_of_buffered hb, UInt64.le_trans hle hle'⟩ hnot
  · cases hr : (t.pipeline.aggregator.slot source bundleType).running with
    | none => rfl
    | some r =>
        have hwaits := mem_waiting_of_running h.covered.sound hr
        have hle := hfloor _ hwaits (hfits.running.stretch hr).at_home
        obtain ⟨hle', hreaches⟩ := hwithin.running r hr
        exact absurd (hreaches.trans (UInt64.le_trans hle hle')) hnot

omit [Compression] in
/-- Where something waits or left a slot, the slot reaches as far. -/
theorem Ranked.reaches_of_checkpoint (h : Ranked home delivered t) {k : Checkpoint}
    (hk : k ∈ t.pipeline.checkpoints) :
    ∃ source bundleType,
      home (streamId (Envelope.streamKey source bundleType)) = k.position.partitionKey ∧
        (t.pipeline.aggregator.slot source bundleType).Reaches k.position.offset := by
  obtain ⟨source, bundleType, hk⟩ := h.covered.sound.mem_checkpoints_iff.1 hk
  have hfits := h.covered.slots source bundleType
  have hwithin := h.within source bundleType
  refine ⟨source, bundleType, ?_⟩
  rcases Leaf.mem_slotCheckpoints_iff.1 hk with
    ⟨place, v, hleft, rfl⟩ | ⟨r, hr, rfl⟩ | ⟨b, hb, rfl⟩
  · exact ⟨(hfits.settled place v hleft).1.symm, hwithin.settled place v hleft⟩
  · obtain ⟨hle, hreaches⟩ := hwithin.running r hr
    exact ⟨(hfits.running.stretch hr).at_home.symm, hreaches.trans hle⟩
  · exact ⟨(hfits.buffered.stretch hb).at_home.symm, _, Slot.reach?_of_buffered hb,
      hwithin.buffered b hb⟩

/-- The slots of a partition get as far as `o` nowhere. -/
def Short (home : Digest → Partition) (q : Partition) (p : Pipeline) (o : UInt64) : Prop :=
  ∀ source bundleType, home (streamId (Envelope.streamKey source bundleType)) = q →
    ¬ (p.aggregator.slot source bundleType).Reaches o

omit [Compression] in
/-- Where no slot got as far as what waits, only incomplete messages wait. -/
theorem Ranked.held (h : Ranked home delivered t) {c : Position} (hc : c ∈ t.pipeline.waiting)
    (hleast : ∀ p ∈ t.pipeline.waiting, p.partitionKey = c.partitionKey → c.offset ≤ p.offset)
    (hshort : Short home c.partitionKey t.pipeline c.offset) :
    c ∈ t.pipeline.openPositions ∧ ∀ k ∈ t.pipeline.checkpoints,
      k.position.partitionKey = c.partitionKey → k.processed = true := by
  have hno {k : Checkpoint} (hk : k ∈ t.pipeline.checkpoints)
      (hkq : k.position.partitionKey = c.partitionKey) : k.position ∉ t.pipeline.waiting := by
    intro hwaits
    obtain ⟨source, bundleType, hhome, hreaches⟩ := h.reaches_of_checkpoint hk
    exact hshort source bundleType (hhome.trans hkq) (hreaches.trans (hleast _ hwaits hkq))
  refine ⟨?_, fun k hk hkq => processed_of_not_waiting hk (hno hk hkq)⟩
  rcases List.mem_append.1 hc with hwaits | hopen
  · obtain ⟨k, hk, rfl⟩ := List.mem_map.1 hwaits
    exact absurd (List.mem_append_left _ hwaits) (hno (List.mem_filter.1 hk).1 rfl)
  · exact hopen

end

open scoped Zstd

end Pipeline

end Conflux
