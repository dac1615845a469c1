import Conflux.Proofs.Pipeline.Snapshot
import Conflux.Zstd.Plain

/-!
No commit runs ahead of the log, as far as the log is keyed. A bundle may also come from
elsewhere than a message, with a position and a last offset of its own. As long as the
content of each slot and of each stream lies on one partition, a committed offset is at
most the one behind an offset that was delivered on the same partition.

It has to be assumed. A slot keeps one position for its content and beside it a bare
offset, the greatest of all that came, and the offset is taken to be on the partition of
the position. Where one slot is fed from two partitions, the end of the one is put down
for the other.
-/

namespace Conflux.Pipeline

inductive Input where
  /-- A bundle whose content reaches from `position` to `lastOffset`. -/
  | insert (e : Envelope) (position : Position) (lastOffset : UInt64)
  | operation (o : Operation)

section

variable [Compression]

def feed (p : Pipeline) : Input → Pipeline
  | .insert e position lastOffset => (p.insert e position lastOffset).1
  | .operation o => p.step o

def feedAll (p : Pipeline) (inputs : List Input) : Pipeline := inputs.foldl feed p

namespace Input

/-- Where the content came from, as far as the input says. -/
def delivered : Input → List Position
  | .insert _ position lastOffset => [position, position.partitionKey.at lastOffset]
  | .operation o => o.delivered

/-- The bundles of a slot come on the home partition of their stream, as fragments do. -/
def AtHome (home : Digest → Partition) : Input → Prop
  | .insert e position _ =>
      position.partitionKey = home (streamId (Envelope.streamKey e.source e.bundleType))
  | .operation o => o.AtHome home

end Input

variable {home : Digest → Partition} {delivered : List Position} {p : Pipeline}

/-- The positions in the pipeline speak for some deliveries. -/
def Rooted (home : Digest → Partition) (delivered : List Position) (p : Pipeline) : Prop :=
  ∃ origins, Traced.Covered home delivered ⟨p, origins⟩

omit [Compression] in
theorem rooted_fresh (home : Digest → Partition) (hub : Digest) (ttl remembered : Nat)
    (calls : List Registration) :
    Rooted home [] (fresh hub (.fresh ttl remembered) (Registry.ofCalls calls)) :=
  ⟨_, Traced.covered_fresh home hub ttl remembered (Registry.named_ofCalls calls)⟩

omit [Compression] in
/-- A bundle from elsewhere is an operation on the aggregator, with a delivery of its own. -/
theorem Rooted.insert (h : Rooted home delivered p) {e : Envelope} {position : Position}
    {lastOffset : UInt64}
    (hhome : position.partitionKey = home (streamId (Envelope.streamKey e.source e.bundleType))) :
    Rooted home (delivered ++ [position, position.partitionKey.at lastOffset])
      (p.insert e position lastOffset).1 := by
  obtain ⟨origins, hcovered⟩ := h
  let o : Aggregator.Operation := .insert e position lastOffset
  let bundles (s u : String) : Slot.Lineage := (origins.bundles s u).next
    (p.aggregator.registry.mode u) [position] (p.aggregator.happening s u o)
  have hsub : delivered ⊆ delivered ++ [position, position.partitionKey.at lastOffset] :=
    List.subset_append_left _ _
  refine ⟨⟨origins.records, bundles⟩, hcovered.sound.step o, ?_, ?_⟩
  · intro k r hr
    exact (hcovered.records k r hr).mono hsub
  · intro s u
    obtain ⟨core, n, hstep, hwoken⟩ := hcovered.sound.step_slot o s u
    refine (((hcovered.slots s u).mono hsub).step hstep ?_).woken hwoken
    intro d place last hseen
    obtain ⟨hinsert, rfl, rfl⟩ := Aggregator.happening_eq_accepted hseen
    obtain ⟨rfl, rfl, rfl⟩ := Aggregator.Operation.insert.inj hinsert
    refine ⟨hhome, ?_, ?_, ?_⟩
    · exact List.mem_append_right _ (List.mem_cons_self ..)
    · rw [← hhome]
      exact List.mem_append_right _ (List.mem_cons_of_mem _ (List.mem_singleton_self _))
    · intro τ hτ
      obtain rfl := List.mem_singleton.1 hτ
      exact ⟨hhome, UInt64.le_refl _⟩

theorem Rooted.feed (h : Rooted home delivered p) {i : Input} (hhome : i.AtHome home) :
    Rooted home (delivered ++ i.delivered) (p.feed i) := by
  cases i with
  | insert e position lastOffset => exact h.insert hhome
  | operation o =>
      obtain ⟨origins, hcovered⟩ := h
      exact ⟨_, hcovered.step hhome⟩

theorem Rooted.feedAll (h : Rooted home delivered p) (inputs : List Input)
    (hhome : ∀ i ∈ inputs, i.AtHome home) :
    Rooted home (delivered ++ inputs.flatMap Input.delivered) (p.feedAll inputs) := by
  induction inputs generalizing p delivered with
  | nil =>
      rw [List.flatMap_nil, List.append_nil]
      exact h
  | cons i inputs ih =>
      have hrest := ih (h.feed (hhome i List.mem_cons_self))
        fun j hj => hhome j (List.mem_cons_of_mem i hj)
      rwa [List.append_assoc, ← List.flatMap_cons] at hrest

theorem Rooted.commit_le_succ (h : Rooted home delivered p) {positions : List Position}
    (hpositions : p.commit? = some positions) {c : Position} (hc : c ∈ positions) :
    ∃ q ∈ delivered, q.partitionKey = c.partitionKey ∧ c.offset.toNat ≤ q.offset.toNat + 1 := by
  obtain ⟨origins, hcovered⟩ := h
  -- What the pipeline commits is made of a snapshot during which nothing is done.
  have hquiet : Commit.positions?
      (p.snapshot (p.aggregator.leaves.keys.map (⟨[], ·⟩)) []).1
      (p.snapshot (p.aggregator.leaves.keys.map (⟨[], ·⟩)) []).2 = some positions := by
    rw [snapshot_quiet]
    exact hpositions
  exact hcovered.commit_le_succ hquiet hc

/-- Content and fragments come on their home partitions, and workers and sweeper do what
they like. Then whatever the pipeline commits, the offset of a partition is at most the
one behind an offset that was delivered on it. -/
theorem commit_within_log (hub : Digest) (ttl remembered : Nat) (calls : List Registration)
    (home : Digest → Partition) (inputs : List Input) (positions : List Position)
    (hhome : ∀ i ∈ inputs, i.AtHome home)
    (hpositions : ((fresh hub (.fresh ttl remembered) (Registry.ofCalls calls)).feedAll
      inputs).commit? = some positions) :
    ∀ c ∈ positions, ∃ q ∈ inputs.flatMap Input.delivered,
      q.partitionKey = c.partitionKey ∧ c.offset.toNat ≤ q.offset.toNat + 1 := by
  intro c hc
  have hrooted := (rooted_fresh home hub ttl remembered calls).feedAll inputs hhome
  exact hrooted.commit_le_succ hpositions hc

end

open scoped Zstd

/-- Two bundles of a slot, from one partition, of which the first is processed; then the
second is processed, too. -/
theorem commit_within_log_one_partition :
    let bundle (value : UInt64) : Envelope :=
      ⟨"1.0", "clusters", "hub", "bundle", ⟨0, 0, 0⟩, ⟨0, value⟩, none, []⟩
    let inputs : List Input :=
      [.insert (bundle 1) ⟨"status", 1, 3⟩ 5, .operation (.chore (.work .pop)),
        .operation (.chore (.work (.claim "hub" "clusters"))),
        .operation (.chore (.work (.complete "hub" "clusters" .succeeded))),
        .insert (bundle 2) ⟨"status", 1, 8⟩ 9, .operation (.chore (.work .pop)),
        .operation (.chore (.work (.claim "hub" "clusters"))),
        .operation (.chore (.work (.complete "hub" "clusters" .succeeded)))]
    let start := fresh anyDestination (.fresh 100 100) (Registry.ofCalls
      [.complete "clusters" 0 none])
    (start.feedAll inputs).commit? = some [⟨"status", 1, 10⟩] ∧
      ∃ q ∈ inputs.flatMap Input.delivered, q.partitionKey = ⟨"status", 1⟩ ∧
        10 ≤ q.offset.toNat + 1 := by
  intro bundle inputs start
  have hpositions : (start.feedAll inputs).commit? = some [⟨"status", 1, 10⟩] := by
    decide +kernel
  have hhome : ∀ i ∈ inputs, i.AtHome fun _ => ⟨"status", 1⟩ := by
    intro i hi
    simp only [inputs, List.mem_cons, List.not_mem_nil, or_false] at hi
    rcases hi with rfl | rfl | rfl | rfl | rfl | rfl | rfl | rfl <;> first | rfl | trivial
  exact ⟨hpositions, commit_within_log anyDestination 100 100 _ _ inputs _ hhome hpositions _
    (List.mem_singleton_self _)⟩

/-- One slot fed from two partitions: the hundred that was delivered on the first is
committed for the second, which got to three. -/
theorem commit_beyond_log :
    let bundle (value : UInt64) : Envelope :=
      ⟨"1.0", "clusters", "hub", "bundle", ⟨0, 0, 0⟩, ⟨0, value⟩, none, []⟩
    let inputs : List Input :=
      [.insert (bundle 1) ⟨"status", 0, 100⟩ 100, .insert (bundle 2) ⟨"status", 1, 3⟩ 3,
        .operation (.chore (.work .pop)),
        .operation (.chore (.work (.claim "hub" "clusters"))),
        .operation (.chore (.work (.complete "hub" "clusters" .succeeded)))]
    let start := fresh anyDestination (.fresh 100 100) (Registry.ofCalls
      [.complete "clusters" 0 none])
    (start.feedAll inputs).commit? = some [⟨"status", 1, 101⟩] ∧
      ∀ q ∈ inputs.flatMap Input.delivered, q.partitionKey = ⟨"status", 1⟩ →
        q.offset.toNat + 1 = 4 := by
  decide +kernel

end Conflux.Pipeline
