import Conflux.Committer
import Conflux.Proofs.Commit
import Conflux.StatusApi
import Mathlib.Data.List.Sort

/-!
What is committed depends on what there is, and neither on the order in which it is read nor on how
often something is read. For each partition of which something is known there is one position, and
the positions stand in the order of their partitions; so two commits that look at the same state of
affairs can be compared as they are, and what is shown from outside is what would be committed.
-/

namespace Conflux

namespace Commit

variable {checkpoints : List Checkpoint} {unfinished positions : List Position} {c : Position}
  {q : Partition}

/-! ### Where work is resumed -/

def offsetsIn (q : Partition) (ps : List Position) : List Nat :=
  (ps.filter fun p => p.partitionKey = q).map (·.offset.toNat)

/-- The lowest offset in the partition that waits to be processed, or, where nothing waits, the
one behind the highest that is processed. -/
def resumption? (checkpoints : List Checkpoint) (unfinished : List Position) (q : Partition) :
    Option Nat :=
  match (offsetsIn q (waiting checkpoints unfinished)).min? with
  | some lowest => some lowest
  | none => (offsetsIn q (settled checkpoints)).max?.map (· + 1)

theorem mem_offsetsIn {ps : List Position} {n : Nat} :
    n ∈ offsetsIn q ps ↔ ∃ o : UInt64, q.at o ∈ ps ∧ o.toNat = n := by
  constructor
  · intro h
    obtain ⟨p, hp, rfl⟩ := List.mem_map.1 h
    obtain ⟨hp, hq⟩ := List.mem_filter.1 hp
    obtain rfl := of_decide_eq_true hq
    exact ⟨p.offset, by rwa [Partition.at_partitionKey], rfl⟩
  · rintro ⟨o, ho, rfl⟩
    exact List.mem_map.2 ⟨q.at o, List.mem_filter.2 ⟨ho, decide_eq_true rfl⟩, rfl⟩

theorem offsetsIn_congr {ps ps' : List Position} (h : ∀ p, p ∈ ps ↔ p ∈ ps') (n : Nat) :
    n ∈ offsetsIn q ps ↔ n ∈ offsetsIn q ps' := by
  simp only [mem_offsetsIn, h]

theorem min?_congr {ns ns' : List Nat} (h : ∀ n, n ∈ ns ↔ n ∈ ns') : ns.min? = ns'.min? := by
  ext n
  simp only [List.min?_eq_some_iff, h]

theorem max?_congr {ns ns' : List Nat} (h : ∀ n, n ∈ ns ↔ n ∈ ns') : ns.max? = ns'.max? := by
  ext n
  simp only [List.max?_eq_some_iff, h]

/-- It is the same for all lists that have the same in them. -/
theorem resumption?_congr {checkpoints' : List Checkpoint} {unfinished' : List Position}
    (hpoints : ∀ k, k ∈ checkpoints' ↔ k ∈ checkpoints)
    (hopen : ∀ p, p ∈ unfinished' ↔ p ∈ unfinished) (q : Partition) :
    resumption? checkpoints' unfinished' q = resumption? checkpoints unfinished q := by
  have hwaiting (p : Position) :
      p ∈ waiting checkpoints' unfinished' ↔ p ∈ waiting checkpoints unfinished := by
    simp only [waiting, List.mem_append, List.mem_map, List.mem_filter, hpoints, hopen]
  have hsettled (p : Position) : p ∈ settled checkpoints' ↔ p ∈ settled checkpoints := by
    simp only [settled, List.mem_map, List.mem_filter, hpoints]
  rw [resumption?, resumption?, min?_congr (offsetsIn_congr hwaiting),
    max?_congr (offsetsIn_congr hsettled)]

/-! ### What the marks say of it -/

/-- The offset at which work is resumed. There may be none that is as high. -/
def Mark.resumption : Mark → Nat
  | processed highest => highest.toNat + 1
  | outstanding lowest => lowest.toNat

theorem Mark.resumeAt?_eq_some_iff {m : Mark} {o : UInt64} :
    m.resumeAt? = some o ↔ m.resumption = o.toNat := by
  cases m with
  | outstanding lowest => simp [resumeAt?, resumption, UInt64.toNat_inj]
  | processed highest =>
      rw [resumption, resumeAt?]
      refine ⟨fun h => (toNat_of_successor? h).symm, fun h => ?_⟩
      have hlt : highest.toNat + 1 < UInt64.size := h ▸ o.toNat_lt
      rw [successor?, if_pos hlt, Option.some.injEq, ← UInt64.toNat_inj, ← h, UInt64.toNat_add]
      exact Nat.mod_eq_of_lt hlt

theorem resumption?_eq (checkpoints : List Checkpoint) (unfinished : List Position)
    (q : Partition) :
    resumption? checkpoints unfinished q =
      ((marks checkpoints unfinished).get? q).map Mark.resumption := by
  have hsums := sums_foldl (checkpoints.map checkpointMark ++ unfinished.map openMark) q
  rw [← marks] at hsums
  -- Without an entry of the kind there is no offset of the kind.
  have hnone {ps : List Position} (h : ∀ o, q.at o ∉ ps) : offsetsIn q ps = [] := by
    refine List.eq_nil_iff_forall_not_mem.2 fun n hn => ?_
    obtain ⟨o, ho, _⟩ := mem_offsetsIn.1 hn
    exact h o ho
  rw [resumption?]
  cases hm : (marks checkpoints unfinished).get? q with
  | none =>
      rw [hm] at hsums
      rw [hnone fun o ho => hsums _ (outstanding_mem_iff (p := q.at o) |>.2 ho),
        hnone fun o ho => hsums _ (processed_mem_iff.2 ho)]
      rfl
  | some m =>
      rw [hm] at hsums
      cases hsums with
      | @outstanding lowest hmem hleast =>
          have hmin : (offsetsIn q (waiting checkpoints unfinished)).min? = some lowest.toNat := by
            refine List.min?_eq_some_iff.2 ⟨mem_offsetsIn.2 ⟨lowest, ?_, rfl⟩, fun n hn => ?_⟩
            · exact (outstanding_mem_iff (p := q.at lowest)).1 hmem
            · obtain ⟨o, ho, rfl⟩ := mem_offsetsIn.1 hn
              exact hleast o ((outstanding_mem_iff (p := q.at o)).2 ho)
          rw [hmin]
          rfl
      | @processed highest hmem hall =>
          have hwaits : offsetsIn q (waiting checkpoints unfinished) = [] := by
            refine hnone fun o ho => ?_
            obtain ⟨_, hno, _⟩ := hall _ ((outstanding_mem_iff (p := q.at o)).2 ho)
            cases hno
          have hmax : (offsetsIn q (settled checkpoints)).max? = some highest.toNat := by
            refine List.max?_eq_some_iff.2 ⟨mem_offsetsIn.2 ⟨highest, ?_, rfl⟩, fun n hn => ?_⟩
            · exact processed_mem_iff.1 hmem
            · obtain ⟨o, ho, rfl⟩ := mem_offsetsIn.1 hn
              obtain ⟨_, heq, hle⟩ := hall _ (processed_mem_iff.2 ho)
              cases heq
              exact hle
          rw [hwaits, hmax]
          rfl

/-! ### The positions -/

theorem mem_positions?_iff (h : positions? checkpoints unfinished = some positions) :
    c ∈ positions ↔
      resumption? checkpoints unfinished c.partitionKey = some c.offset.toNat := by
  have hentries := mapM_eq_some_iff.1 h
  calc c ∈ positions
    _ ↔ some c ∈ positions.map some := by simp
    _ ↔ ∃ e ∈ (marks checkpoints unfinished).entries, e.2.resumeAt?.map e.1.at = some c := by
        rw [← hentries, List.mem_map]
    _ ↔ ∃ m, (c.partitionKey, m) ∈ (marks checkpoints unfinished).entries ∧
          m.resumeAt? = some c.offset := by
        constructor
        · rintro ⟨⟨q, m⟩, hmem, hc⟩
          obtain ⟨o, ho, hc⟩ := Option.map_eq_some_iff.1 hc
          obtain ⟨rfl, rfl⟩ := Partition.eq_at_iff.1 hc.symm
          exact ⟨m, hmem, ho⟩
        · rintro ⟨m, hmem, ho⟩
          exact ⟨_, hmem, Option.map_eq_some_iff.2 ⟨_, ho, Partition.at_partitionKey c⟩⟩
    _ ↔ resumption? checkpoints unfinished c.partitionKey = some c.offset.toNat := by
        simp only [resumption?_eq, Option.map_eq_some_iff, ByPartition.get?_eq_some_iff,
          Mark.resumeAt?_eq_some_iff]

theorem partitionKeys_eq (h : positions? checkpoints unfinished = some positions) :
    positions.map (·.partitionKey) = (marks checkpoints unfinished).entries.map (·.1) := by
  refine map_of_mapM h fun e c hc => ?_
  obtain ⟨o, _, rfl⟩ := Option.map_eq_some_iff.1 hc
  rfl

/-- The positions stand in the order of their partitions, and there is one for each. -/
theorem positions?_ascending (h : positions? checkpoints unfinished = some positions) :
    positions.Pairwise fun a b => a.partitionKey < b.partitionKey := by
  have hascending : (positions.map (·.partitionKey)).Pairwise (· < ·) := by
    rw [partitionKeys_eq h, List.pairwise_map]
    exact (marks checkpoints unfinished).ascending
  exact List.pairwise_map.1 hascending

theorem exists_mem_positions?_iff (h : positions? checkpoints unfinished = some positions) :
    (∃ c ∈ positions, c.partitionKey = q) ↔ (resumption? checkpoints unfinished q).isSome := by
  rw [← List.mem_map, partitionKeys_eq h, resumption?_eq, Option.isSome_map,
    Option.isSome_iff_exists]
  simp [ByPartition.get?_eq_some_iff]

theorem resumption?_eq_some_iff (h : positions? checkpoints unfinished = some positions) {n : Nat} :
    resumption? checkpoints unfinished q = some n ↔
      ∃ c ∈ positions, c.partitionKey = q ∧ c.offset.toNat = n := by
  constructor
  · intro hn
    obtain ⟨c, hc, rfl⟩ := (exists_mem_positions?_iff h).2 (Option.isSome_of_eq_some hn)
    exact ⟨c, hc, rfl, Option.some.inj (((mem_positions?_iff h).1 hc).symm.trans hn)⟩
  · rintro ⟨c, hc, rfl, rfl⟩
    exact (mem_positions?_iff h).1 hc

/-- Work can be resumed where anything is known. -/
theorem isSome_resumption?_iff : (resumption? checkpoints unfinished q).isSome ↔
    ∃ p ∈ given checkpoints unfinished, p.partitionKey = q := by
  have hkeys : (given checkpoints unfinished).map (·.partitionKey) =
      (checkpoints.map checkpointMark ++ unfinished.map openMark).map (·.1) := by
    simp [given, checkpointMark, openMark, Function.comp_def]
  have hsums := sums_foldl (checkpoints.map checkpointMark ++ unfinished.map openMark) q
  rw [← marks] at hsums
  rw [← List.mem_map, hkeys, resumption?_eq, Option.isSome_map]
  cases hm : (marks checkpoints unfinished).get? q with
  | none =>
      rw [hm] at hsums
      refine iff_of_false Bool.false_ne_true fun hq => ?_
      obtain ⟨⟨q, m⟩, hmem, rfl⟩ := List.mem_map.1 hq
      exact hsums m hmem
  | some m =>
      rw [hm] at hsums
      refine iff_of_true rfl (List.mem_map.2 ?_)
      cases hsums with
      | outstanding hmem => exact ⟨_, hmem, rfl⟩
      | processed hmem => exact ⟨_, hmem, rfl⟩

/-- There are positions, if there is an offset behind every one that is processed. -/
theorem exists_positions? (unfinished : List Position)
    (hbelow : ∀ k ∈ checkpoints, k.processed = true → k.position.offset.toNat + 1 < UInt64.size) :
    ∃ positions, positions? checkpoints unfinished = some positions := by
  refine Option.isSome_iff_exists.1 (isSome_mapM_iff.2 fun e he => ?_)
  obtain ⟨q, m⟩ := e
  have hsums := sums_foldl (checkpoints.map checkpointMark ++ unfinished.map openMark) q
  rw [← marks, ByPartition.get?_eq_some_iff.2 he] at hsums
  cases hsums with
  | outstanding => rfl
  | @processed highest hmem =>
      obtain ⟨k, hk, hplace⟩ := List.mem_map.1 (processed_mem_iff.1 hmem)
      obtain ⟨hk, hprocessed⟩ := List.mem_filter.1 hk
      have hlt := hbelow k hk hprocessed
      rw [hplace] at hlt
      have hsucc : highest.toNat + 1 < UInt64.size := hlt
      simp [Mark.resumeAt?, Mark.successor?, hsucc]

/-- Commits agree if and only if they resume every partition at the same offset. -/
theorem positions?_eq_iff {checkpoints' : List Checkpoint} {unfinished' positions' : List Position}
    (h : positions? checkpoints unfinished = some positions)
    (h' : positions? checkpoints' unfinished' = some positions') :
    positions' = positions ↔
      ∀ q, resumption? checkpoints' unfinished' q = resumption? checkpoints unfinished q := by
  constructor
  · rintro rfl q
    ext n
    rw [resumption?_eq_some_iff h', resumption?_eq_some_iff h]
  · intro hsame
    have : Std.Irrefl fun a b : Position => a.partitionKey < b.partitionKey :=
      ⟨fun a => Partition.lt_irrefl _⟩
    have : Std.Antisymm fun a b : Position => a.partitionKey < b.partitionKey :=
      ⟨fun a b hab hba => absurd (Partition.lt_trans hab hba) (Partition.lt_irrefl _)⟩
    refine (positions?_ascending h').eq_of_mem_iff (positions?_ascending h) fun c => ?_
    rw [mem_positions?_iff h', mem_positions?_iff h, hsame]

def shown (checkpoints : List Checkpoint) (positions : List Position) : StatusApi.Response :=
  let entries := checkpoints.mergeSort StatusApi.inOrder
  ⟨200, some (.object [("entries", .array (entries.map StatusApi.checkpoint)),
    ("commit", .array (positions.map (·.toJson)))])⟩

theorem respond?_metadata (p : Pipeline) :
    StatusApi.respond? p "GET" "/api/metadata" =
      (positions? (p.checkpoints.mergeSort StatusApi.inOrder) p.openPositions).map
        (shown p.checkpoints) := by
  have htopic : StatusApi.Topic.ofPath? (StatusApi.withoutQuery "/api/metadata") =
      some .metadata := by decide +kernel
  rw [StatusApi.respond?, htopic]
  change (StatusApi.metadata? p).map _ = _
  rw [StatusApi.metadata?, Option.map_map]
  rfl

/-- The positions to commit are what they are meant to be, whatever order they are made of. If
there is an offset behind every one that is processed, then there are positions; they stand in the
order of topic and partition, one for each partition of which something is given, and each has the
lowest offset of its partition that waits or is incomplete, or, where there is none, the one behind
the highest that is processed. Lists with the same in them give the same positions, in whatever
order and however often it is in them. So a pipeline that reads its leaves in any order commits
these positions, and shows them from outside beside the entries that it has put in order; and a
committer that has committed them commits again if and only if there is something to commit and
some partition has to be resumed elsewhere. -/
theorem commit_canonical (checkpoints : List Checkpoint) (unfinished : List Position)
    (hbelow : ∀ k ∈ checkpoints, k.processed = true → k.position.offset.toNat + 1 < UInt64.size) :
    ∃ positions, positions? checkpoints unfinished = some positions ∧
      positions.Pairwise (fun a b => a.partitionKey < b.partitionKey) ∧
      (∀ q, (∃ c ∈ positions, c.partitionKey = q) ↔
        ∃ p ∈ given checkpoints unfinished, p.partitionKey = q) ∧
      (∀ c ∈ positions,
        resumption? checkpoints unfinished c.partitionKey = some c.offset.toNat) ∧
      (∀ checkpoints' unfinished', (∀ k, k ∈ checkpoints' ↔ k ∈ checkpoints) →
        (∀ p, p ∈ unfinished' ↔ p ∈ unfinished) →
        positions? checkpoints' unfinished' = some positions) ∧
      (∀ p : Pipeline, (∀ k, k ∈ p.checkpoints ↔ k ∈ checkpoints) →
        (∀ x, x ∈ p.openPositions ↔ x ∈ unfinished) →
        p.commit? = some positions ∧
        StatusApi.respond? p "GET" "/api/metadata" = some (shown p.checkpoints positions)) ∧
      ∀ (committer : Committer) checkpoints' unfinished' positions',
        positions? checkpoints' unfinished' = some positions' →
        ((committer.done positions).due positions' = true ↔ positions' ≠ [] ∧
          ∃ q, resumption? checkpoints' unfinished' q ≠ resumption? checkpoints unfinished q) := by
  obtain ⟨positions, hpositions⟩ := exists_positions? unfinished hbelow
  have hsame : ∀ checkpoints' unfinished', (∀ k, k ∈ checkpoints' ↔ k ∈ checkpoints) →
      (∀ p, p ∈ unfinished' ↔ p ∈ unfinished) →
      positions? checkpoints' unfinished' = some positions := by
    intro checkpoints' unfinished' hpoints hopen
    obtain ⟨positions', hpositions'⟩ :=
      exists_positions? unfinished' fun k hk => hbelow k ((hpoints k).1 hk)
    rw [hpositions', (positions?_eq_iff hpositions hpositions').2 (resumption?_congr hpoints hopen)]
  refine ⟨positions, hpositions, positions?_ascending hpositions, fun q => ?_, fun c hc => ?_,
    hsame, fun p hpoints hopen => ⟨hsame _ _ hpoints hopen, ?_⟩,
    fun committer _ _ positions' h' => ?_⟩
  · rw [exists_mem_positions?_iff hpositions, isSome_resumption?_iff]
  · exact (mem_positions?_iff hpositions).1 hc
  · have hsorted : ∀ k, k ∈ p.checkpoints.mergeSort StatusApi.inOrder ↔ k ∈ checkpoints := by
      intro k
      rw [List.mem_mergeSort, hpoints]
    rw [respond?_metadata, hsame _ _ hsorted hopen, Option.map_some]
  · rw [Committer.due, Committer.done, Bool.and_eq_true, bne_iff_ne, Ne,
      positions?_eq_iff hpositions h', not_forall]
    simp

/-- Two partitions, one of them with content that waits. The lists are read backwards, and what is
open is read twice. -/
theorem commit_canonical_two_partitions :
    let point (partition : UInt32) (offset : UInt64) (processed : Bool) : Checkpoint :=
      ⟨"hub1", "clusters", ⟨"status", partition, offset⟩, ⟨0, 1⟩, processed⟩
    let checkpoints := [point 1 9 true, point 0 7 false, point 0 12 true, point 1 4 true]
    let unfinished : List Position := [⟨"status", 0, 8⟩, ⟨"status", 0, 5⟩]
    (∀ k ∈ checkpoints, k.processed = true → k.position.offset.toNat + 1 < UInt64.size) ∧
      positions? checkpoints.reverse (unfinished ++ unfinished) =
        some [⟨"status", 0, 5⟩, ⟨"status", 1, 10⟩] := by
  intro point checkpoints unfinished
  have hbelow : ∀ k ∈ checkpoints, k.processed = true →
      k.position.offset.toNat + 1 < UInt64.size := by decide +kernel
  have hcommit : positions? checkpoints unfinished =
      some [⟨"status", 0, 5⟩, ⟨"status", 1, 10⟩] := by decide +kernel
  obtain ⟨positions, hpositions, -, -, -, hsame, -⟩ :=
    commit_canonical checkpoints unfinished hbelow
  have htwice := hsame checkpoints.reverse (unfinished ++ unfinished) (by simp) (by simp)
  exact ⟨hbelow, by rw [htwice, ← hpositions, hcommit]⟩

end Commit

end Conflux
