import Conflux.Proofs.Commit
import Conflux.Proofs.Pipeline.Origins
import Conflux.Zstd.Plain

/-!
What is read for a commit. The leaves are read one after the other, and the open records
last; deliveries are kept out meanwhile, but the workers go on, and so does the sweeper.
So the checkpoints may belong together in no state that the pipeline ever was in. That
does no harm: while nothing is delivered, content only leaves. What is outstanding at
the end was so when its leaf was read.
-/

namespace Conflux

theorem Table.mem_values_iff {κ α : Type} [DecidableEq κ] {t : Table κ α} {v : α} :
    v ∈ t.values ↔ ∃ k, t.get? k = some v := by
  simp [values, get?_eq_some_iff]

theorem Table.mem_keys_of_get? {κ α : Type} [DecidableEq κ] {t : Table κ α} {k : κ} {v : α}
    (h : t.get? k = some v) : k ∈ t.keys :=
  List.mem_map.2 ⟨(k, v), get?_eq_some_iff.1 h, rfl⟩

/-! ### The checkpoints of a slot -/

theorem Leaf.mem_checkpoints_iff {l : Leaf} {c : Checkpoint} :
    c ∈ l.checkpoints ↔ ∃ t s, l.slot? t = some s ∧ c ∈ slotCheckpoints l.source t s := by
  simp only [checkpoints, List.mem_flatMap, slot?, Table.get?_eq_some_iff, Prod.exists]

namespace Slot.Lineage

variable {delivered : List Position} {home : Partition} {l : Lineage} {s : Slot} {τ : Position}

/-- A delivery that went into a bundle of the slot has a checkpoint that speaks for it. -/
theorem Fits.checkpoint (h : l.Fits delivered home s) (hτ : l.Has τ) (source t : String) :
    ∃ c ∈ Leaf.slotCheckpoints source t s, c.processed = false ∧
      c.position.partitionKey = τ.partitionKey ∧ c.position.offset ≤ τ.offset := by
  rcases hτ with hτ | hτ
  · cases hr : s.running with
    | none =>
        rw [h.running.nil hr] at hτ
        cases hτ
    | some r =>
        have hrunning := h.running.stretch hr
        obtain ⟨hhome, hle⟩ := hrunning.covers τ hτ
        refine ⟨⟨source, t, r.position, r.envelope.version, false⟩, ?_, rfl, ?_, hle⟩
        · simp [Leaf.slotCheckpoints, hr]
        · exact hrunning.at_home.trans hhome.symm
  · cases hb : s.buffered with
    | none =>
        rw [h.buffered.nil hb] at hτ
        cases hτ
    | some b =>
        have hbuffered := h.buffered.stretch hb
        obtain ⟨hhome, hle⟩ := hbuffered.covers τ hτ
        refine ⟨⟨source, t, b.position, b.envelope.version, false⟩, ?_, rfl, ?_, hle⟩
        · simp [Leaf.slotCheckpoints, hb]
        · exact hbuffered.at_home.trans hhome.symm

/-- A checkpoint is at a place where something was delivered. -/
theorem Fits.delivered_of_checkpoint (h : l.Fits delivered home s) {source t : String}
    {c : Checkpoint} (hc : c ∈ Leaf.slotCheckpoints source t s) : c.position ∈ delivered := by
  simp only [Leaf.slotCheckpoints, List.mem_append, Option.mem_toList, Option.map_eq_some_iff] at hc
  rcases hc with (⟨p, hp, rfl⟩ | ⟨r, hr, rfl⟩) | ⟨b, hb, rfl⟩
  · exact (h.settled p.1 p.2 hp).2
  · exact (h.running.stretch hr).begins
  · exact (h.buffered.stretch hb).begins

end Slot.Lineage

namespace Pipeline

/-! ### Reading -/

section

variable [Compression]

/-- The reading of one leaf, and what is done before it. -/
structure Look where
  meanwhile : List Chore
  source : String

def look (p : Pipeline) (source : String) : List Checkpoint :=
  match p.aggregator.leaf? source with
  | some l => l.checkpoints
  | none => []

def readLeaves (p : Pipeline) : List Look → Pipeline × List Checkpoint
  | [] => (p, [])
  | first :: looks =>
      let p := p.run (first.meanwhile.map .chore)
      let (after, rest) := p.readLeaves looks
      (after, p.look first.source ++ rest)

/-- The checkpoints of the leaves, read in the order of the looks, then the positions of
the open records. -/
def snapshot (p : Pipeline) (looks : List Look) (meanwhile : List Chore) :
    List Checkpoint × List Position :=
  let (p, checkpoints) := p.readLeaves looks
  (checkpoints, (p.run (meanwhile.map .chore)).openPositions)

def choresOf (looks : List Look) (meanwhile : List Chore) : List Operation :=
  (looks.flatMap (·.meanwhile)).map .chore ++ meanwhile.map .chore

theorem readLeaves_fst (p : Pipeline) (looks : List Look) :
    (p.readLeaves looks).1 = p.run ((looks.flatMap (·.meanwhile)).map .chore) := by
  induction looks generalizing p with
  | nil => rfl
  | cons first looks ih =>
      rw [List.flatMap_cons, List.map_append, run, List.foldl_append]
      exact ih _

/-- Where nothing is done meanwhile, the snapshot is what the pipeline itself commits. -/
theorem snapshot_quiet (p : Pipeline) :
    p.snapshot (p.aggregator.leaves.keys.map (⟨[], ·⟩)) [] = (p.checkpoints, p.openPositions) := by
  have hread (keys : List String) :
      p.readLeaves (keys.map (⟨[], ·⟩)) = (p, keys.flatMap p.look) := by
    induction keys with
    | nil => rfl
    | cons key keys ih =>
        rw [List.map_cons, readLeaves, List.map_nil, run, List.foldl_nil, ih]
        rfl
  have hlook (e : String × Leaf) (he : e ∈ p.aggregator.leaves.entries) :
      p.look e.1 = e.2.checkpoints := by
    rw [look, Aggregator.leaf?, Table.get?_eq_some_iff.2 he]
  rw [snapshot, hread]
  refine Prod.ext ?_ rfl
  change p.aggregator.leaves.keys.flatMap p.look = p.aggregator.leaves.values.flatMap _
  rw [Table.keys, Table.values, List.flatMap_map, List.flatMap_map]
  exact List.flatMap_congr hlook

theorem snapshot_snd (p : Pipeline) (looks : List Look) (meanwhile : List Chore) :
    (p.snapshot looks meanwhile).2 = (p.run (choresOf looks meanwhile)).openPositions := by
  rw [choresOf, run, List.foldl_append]
  change ((p.readLeaves looks).1.run _).openPositions = _
  rw [readLeaves_fst]
  rfl

namespace Traced

variable {home : Digest → Partition} {delivered : List Position} {t : Traced} {τ : Position}

theorem Covered.chores (h : t.Covered home delivered) (chores : List Chore) :
    (t.run (chores.map .chore)).Covered home delivered := by
  have hrun := h.run (chores.map .chore) fun o ho => by
    obtain ⟨c, _, rfl⟩ := List.mem_map.1 ho
    trivial
  have hnone : (chores.map Operation.chore).flatMap Operation.delivered = [] := by
    simp [List.flatMap_map, Operation.delivered]
  rwa [hnone, List.append_nil] at hrun

omit [Compression] in
/-- The leaf of an outstanding bundle is there, and says where it begins. -/
theorem Covered.look (h : t.Covered home delivered) {source bundleType : String}
    (hτ : (t.origins.bundles source bundleType).Has τ) :
    source ∈ t.pipeline.aggregator.leaves.keys ∧
      ∃ c ∈ t.pipeline.look source, c.processed = false ∧
        c.position.partitionKey = τ.partitionKey ∧ c.position.offset ≤ τ.offset := by
  obtain ⟨c, hc, hopen, hpartition, hle⟩ :=
    (h.slots source bundleType).checkpoint hτ source bundleType
  rw [Aggregator.slot, Aggregator.leaf] at hc
  cases hl : t.pipeline.aggregator.leaf? source with
  | none =>
      rw [hl, Option.getD_none, Leaf.slot_fresh] at hc
      cases hc
  | some l =>
      rw [hl, Option.getD_some] at hc
      refine ⟨Table.mem_keys_of_get? hl, c, ?_, hopen, hpartition, hle⟩
      rw [Pipeline.look, hl]
      refine Leaf.mem_checkpoints_iff.2 ⟨bundleType, l.slot bundleType, ?_, ?_⟩
      · cases hs : l.slot? bundleType with
        | none =>
            rw [Leaf.slot, hs] at hc
            cases hc
        | some s => rw [Leaf.slot_of_slot? hs]
      · rw [h.sound.source source l hl]
        exact hc

omit [Compression] in
theorem Covered.delivered_of_look (h : t.Covered home delivered) {source : String}
    {c : Checkpoint} (hc : c ∈ t.pipeline.look source) : c.position ∈ delivered := by
  rw [Pipeline.look] at hc
  cases hl : t.pipeline.aggregator.leaf? source with
  | none =>
      rw [hl] at hc
      cases hc
  | some l =>
      rw [hl] at hc
      obtain ⟨u, s, hs, hmem⟩ := Leaf.mem_checkpoints_iff.1 hc
      have hslot : t.pipeline.aggregator.slot source u = s := by
        rw [Aggregator.slot, Aggregator.leaf, hl, Option.getD_some, Leaf.slot_of_slot? hs]
      exact (hslot ▸ h.slots source u).delivered_of_checkpoint hmem

/-- What is outstanding in a leaf when all leaves have been read is spoken for by a
checkpoint, however early the leaf was read. -/
theorem Covered.readLeaves (h : t.Covered home delivered) (looks : List Look)
    {source bundleType : String} (hsource : ∃ look ∈ looks, look.source = source)
    (hτ : ((t.run ((looks.flatMap (·.meanwhile)).map .chore)).origins.bundles source
      bundleType).Has τ) :
    ∃ c ∈ (t.pipeline.readLeaves looks).2, c.processed = false ∧
      c.position.partitionKey = τ.partitionKey ∧ c.position.offset ≤ τ.offset := by
  induction looks generalizing t with
  | nil =>
      obtain ⟨look, hlook, _⟩ := hsource
      cases hlook
  | cons first looks ih =>
      rw [List.flatMap_cons, List.map_append, run_append] at hτ
      have hnow := h.chores first.meanwhile
      rw [Pipeline.readLeaves, ← pipeline_run]
      obtain ⟨look, hlook, rfl⟩ := hsource
      rcases List.mem_cons.1 hlook with rfl | hlook
      -- Content only leaves: what is there when all is read was there at this look.
      · obtain ⟨_, c, hc, hrest⟩ := hnow.look (has_chores hτ)
        exact ⟨c, List.mem_append_left _ hc, hrest⟩
      · obtain ⟨c, hc, hrest⟩ := ih hnow ⟨look, hlook, rfl⟩ hτ
        exact ⟨c, List.mem_append_right _ hc, hrest⟩

theorem Covered.delivered_of_readLeaves (h : t.Covered home delivered) (looks : List Look)
    {c : Checkpoint} (hc : c ∈ (t.pipeline.readLeaves looks).2) : c.position ∈ delivered := by
  induction looks generalizing t with
  | nil => cases hc
  | cons first looks ih =>
      have hnow := h.chores first.meanwhile
      rw [Pipeline.readLeaves, ← pipeline_run] at hc
      rcases List.mem_append.1 hc with hc | hc
      · exact hnow.delivered_of_look hc
      · exact ih hnow hc

/-! ### What a commit leaves behind -/

omit [Compression] in
theorem mem_openPositions {p : Pipeline} {position : Position} :
    position ∈ p.openPositions ↔
      ∃ k r, p.assembler.opened.get? k = some r ∧ r.position = position := by
  simp only [openPositions, Assembler.openPositions, List.mem_map, Table.mem_values_iff]
  constructor
  · rintro ⟨r, ⟨k, hr⟩, hposition⟩
    exact ⟨k, r, hr, hposition⟩
  · rintro ⟨k, r, hr, hposition⟩
    exact ⟨r, ⟨k, hr⟩, hposition⟩

/-- No offset that is made of a snapshot lies behind what is outstanding at its end. -/
theorem Covered.commit_le (h : t.Covered home delivered) {looks : List Look}
    {meanwhile : List Chore}
    (hlooks : ∀ source ∈ t.pipeline.aggregator.leaves.keys, ∃ look ∈ looks, look.source = source)
    {positions : List Position} (hpositions : Commit.positions?
      (t.pipeline.snapshot looks meanwhile).1 (t.pipeline.snapshot looks meanwhile).2 =
        some positions)
    {c : Position} (hc : c ∈ positions) (hτ : (t.run (choresOf looks meanwhile)).Outstanding τ)
    (hpartition : τ.partitionKey = c.partitionKey) : c.offset ≤ τ.offset := by
  have hread := h.chores (looks.flatMap (·.meanwhile))
  have hend := hread.chores meanwhile
  rw [choresOf, run_append] at hτ
  rcases hτ with ⟨k, r, hr, hτ⟩ | ⟨source, bundleType, hτ⟩
  · have hrecord := hend.records k r hr
    obtain ⟨hhome, hle⟩ := hrecord.covers τ hτ
    have hopen : r.position ∈ (t.pipeline.snapshot looks meanwhile).2 := by
      rw [snapshot_snd, ← pipeline_run, choresOf, run_append]
      exact mem_openPositions.2 ⟨k, r, hr, rfl⟩
    refine UInt64.le_trans (Commit.positions?_le_unfinished hpositions hc hopen ?_) hle
    rw [← hpartition, hhome, hrecord.at_home]
  · -- No leaf comes to be meanwhile, so the leaf was among those to be read.
    have hbefore := has_chores hτ
    have hsource := hlooks source (h.look (has_chores hbefore)).1
    obtain ⟨point, hpoint, hopen, hhome, hle⟩ := h.readLeaves looks hsource hbefore
    have hle' := Commit.positions?_le_checkpoint hpositions hc hpoint hopen (hhome.trans hpartition)
    exact UInt64.le_trans hle' hle

/-- An offset that is made of a snapshot is at most the one behind a delivery. -/
theorem Covered.commit_le_succ (h : t.Covered home delivered) {looks : List Look}
    {meanwhile : List Chore} {positions : List Position} (hpositions : Commit.positions?
      (t.pipeline.snapshot looks meanwhile).1 (t.pipeline.snapshot looks meanwhile).2 =
        some positions)
    {c : Position} (hc : c ∈ positions) :
    ∃ p ∈ delivered, p.partitionKey = c.partitionKey ∧ c.offset.toNat ≤ p.offset.toNat + 1 := by
  obtain ⟨p, hp, hpartition, hle⟩ := Commit.positions?_le_succ hpositions hc
  refine ⟨p, ?_, hpartition, hle⟩
  rcases List.mem_append.1 hp with hp | hp
  · obtain ⟨point, hpoint, rfl⟩ := List.mem_map.1 hp
    exact h.delivered_of_readLeaves looks hpoint
  · rw [snapshot_snd, ← pipeline_run, choresOf, run_append] at hp
    obtain ⟨k, r, hr, rfl⟩ := mem_openPositions.1 hp
    exact (((h.chores _).chores meanwhile).records k r hr).begins

end Traced

/-- A commit skips nothing that is still to be processed. Deliveries come one at a time,
with ascending offsets on each partition, and the fragments of a stream on one partition;
workers and sweeper do what they like, also while the leaves are read one by one. Then
whatever offset the commit makes of the snapshot, nothing before it is outstanding at
the end of the snapshot, and nothing before it will be later. -/
theorem commit_skips_nothing (hub : Digest) (ttl remembered : Nat) (calls : List Registration)
    (home : Digest → Partition) (before after : List Operation) (looks : List Look)
    (meanwhile : List Chore) (positions : List Position) :
    let start := Traced.fresh hub (.fresh ttl remembered) (Registry.ofCalls calls)
    let reader := (start.run before).pipeline
    (∀ o ∈ before ++ after, o.AtHome home) →
    ((before ++ after).flatMap Operation.delivered).Pairwise
      (fun p q => p.partitionKey = q.partitionKey → p.offset < q.offset) →
    (∀ source ∈ reader.aggregator.leaves.keys, ∃ look ∈ looks, look.source = source) →
    Commit.positions? (reader.snapshot looks meanwhile).1 (reader.snapshot looks meanwhile).2 =
      some positions →
    ∀ c ∈ positions, ∀ τ, (start.run (before ++ choresOf looks meanwhile ++ after)).Outstanding τ →
      τ.partitionKey = c.partitionKey → c.offset ≤ τ.offset := by
  intro start reader hhome hascending hlooks hpositions c hc τ hτ hpartition
  have hcovered : (start.run before).Covered home (before.flatMap Operation.delivered) := by
    have hstart := Traced.covered_fresh home hub ttl remembered (Registry.named_ofCalls calls)
    exact hstart.run before fun o ho => hhome o (List.mem_append_left after ho)
  rw [Traced.run_append, Traced.run_append] at hτ
  rcases hτ.of_run with hτ | hτ
  · exact hcovered.commit_le hlooks hpositions hc hτ hpartition
  · obtain ⟨p, hp, hhere, hle⟩ := hcovered.commit_le_succ hpositions hc
    -- What comes later lies behind all that was there to make the offset of.
    rw [List.flatMap_append, List.pairwise_append] at hascending
    have hlt := hascending.2.2 p hp τ hτ (hhere.trans hpartition.symm)
    rw [UInt64.lt_iff_toNat_lt] at hlt
    rw [UInt64.le_iff_toNat_le]
    omega

end

/-! ### A look at two leaves

A delta of the first source is at work, one of the other source waits, and of a message a piece
has come. The run ends after the first leaf was read and before the second one is, and at last the
sweeper comes round. -/

open scoped Zstd

def deltaMessage (source : String) : Message :=
  .ofEnvelope ⟨"1.0", "changes", source, "bundle", ⟨0, 0, 0⟩, ⟨0, 1⟩, none, []⟩ ""

/-- The message in one datagram. -/
def deltaDatagram (source : String) : Bytes :=
  (Fragment.ofMessage (deltaMessage source) .identity 2000 1).toOption.elim []
    fun fs => fs.flatMap (·.toBytes)

/-- A piece of a message that has two. -/
def pieceDatagram : Bytes := List.replicate 71 0 ++ [1, 0, 0, 0, 2, 0, 0, 0, 0, 0, 1, 0, 0, 65]

def twoSources : List Operation :=
  [.deliver 0 (deltaDatagram "hub1") ⟨"status", 0, 3⟩, .chore (.work .pop),
    .chore (.work (.claim "hub1" "changes")),
    .deliver 1 (deltaDatagram "hub2") ⟨"status", 0, 5⟩, .deliver 2 pieceDatagram ⟨"status", 0, 9⟩]

def laterPiece : Operation := .deliver 60 pieceDatagram ⟨"status", 0, 12⟩

def looksAtTwo : List Look :=
  [⟨[], "hub1"⟩, ⟨[.work (.complete "hub1" "changes" .succeeded)], "hub2"⟩]

theorem commit_skips_nothing_between_looks :
    let start := Traced.fresh anyDestination (.fresh 100 100)
      (Registry.ofCalls [⟨"changes", 0, none, .delta none⟩])
    let reader := (start.run twoSources).pipeline
    let after := start.run (twoSources ++ choresOf looksAtTwo [.sweep 40] ++ [laterPiece])
    (reader.aggregator.slot "hub1" "changes").running.isSome = true ∧
      (reader.aggregator.slot "hub2" "changes").buffered.isSome = true ∧
      Commit.positions? (reader.snapshot looksAtTwo [.sweep 40]).1
        (reader.snapshot looksAtTwo [.sweep 40]).2 = some [⟨"status", 0, 3⟩] ∧
      ∀ τ, after.Outstanding τ → τ.partitionKey = ⟨"status", 0⟩ → 3 ≤ τ.offset := by
  intro start reader after
  have hhome : ∀ o ∈ twoSources ++ [laterPiece], o.AtHome fun _ => ⟨"status", 0⟩ := by
    intro o ho
    simp only [twoSources, laterPiece, List.mem_append, List.mem_cons, List.not_mem_nil,
      or_false] at ho
    rcases ho with (rfl | rfl | rfl | rfl | rfl) | rfl
    all_goals first
      | exact fun _ _ => rfl
      | trivial
  have hascending : ((twoSources ++ [laterPiece]).flatMap Operation.delivered).Pairwise
      (fun p q => p.partitionKey = q.partitionKey → p.offset < q.offset) := by
    simp only [twoSources, laterPiece, List.cons_append, List.nil_append, List.flatMap_cons,
      List.flatMap_nil, Operation.delivered]
    decide
  obtain ⟨hrunning, hwaiting, hpositions, hlooks⟩ :
      (reader.aggregator.slot "hub1" "changes").running.isSome = true ∧
      (reader.aggregator.slot "hub2" "changes").buffered.isSome = true ∧
      Commit.positions? (reader.snapshot looksAtTwo [.sweep 40]).1
        (reader.snapshot looksAtTwo [.sweep 40]).2 = some [⟨"status", 0, 3⟩] ∧
      ∀ source ∈ ((Traced.fresh anyDestination (.fresh 100 100)
        (Registry.ofCalls [⟨"changes", 0, none, .delta none⟩])).run
          twoSources).pipeline.aggregator.leaves.keys,
        ∃ look ∈ looksAtTwo, look.source = source := by
    decide +kernel
  have hgeneral := commit_skips_nothing anyDestination 100 100
    [⟨"changes", 0, none, .delta none⟩] (fun _ => ⟨"status", 0⟩) twoSources [laterPiece] looksAtTwo
    [.sweep 40] [⟨"status", 0, 3⟩] hhome hascending
  exact ⟨hrunning, hwaiting, hpositions,
    hgeneral hlooks hpositions _ (List.mem_singleton_self _)⟩

end Pipeline

end Conflux
