import Conflux.Commit
import Conflux.Proofs.Extent
import Conflux.Proofs.Traversal
import Mathlib.Data.List.Induction

/-!
What a commit makes of the checkpoints it is given and of the positions of what is
unfinished. Of every partition the mark keeps the least offset that is outstanding, so a
committed offset is no higher than any of these; and a mark has its offset from
something that was given, so a committed offset is that of an entry or the one behind
it.
-/

namespace Conflux

theorem ByPartition.get?_of_mem {α : Type} {t : ByPartition α} {p : Partition} {v : α}
    (h : (p, v) ∈ t.entries) : t.get? p = some v := by
  have hfind (es : List (Partition × α)) (hes : es.Pairwise fun a b => a.1 < b.1)
      (hmem : (p, v) ∈ es) : find? p es = some v := by
    induction es with
    | nil => cases hmem
    | cons e es ih =>
        obtain ⟨he, hrest⟩ := List.pairwise_cons.1 hes
        rcases List.mem_cons.1 hmem with rfl | hmem
        · rw [find?, if_pos rfl]
        · have hlt : e.1 < p := he _ hmem
          have hne : p ≠ e.1 := by
            intro hp
            rw [hp] at hlt
            exact Partition.lt_irrefl _ hlt
          rw [find?, if_neg hne, ih hrest hmem]
  exact hfind t.entries t.ascending h

theorem ByPartition.get?_eq_some_iff {α : Type} {t : ByPartition α} {q : Partition} {v : α} :
    t.get? q = some v ↔ (q, v) ∈ t.entries := by
  refine ⟨fun h => ?_, get?_of_mem⟩
  rw [get?] at h
  generalize t.entries = es at h ⊢
  induction es with
  | nil => cases h
  | cons e es ih =>
      rw [find?] at h
      split at h
      · next hq =>
          rw [hq, ← Option.some.inj h]
          exact List.mem_cons_self
      · exact List.mem_cons_of_mem e (ih h)

namespace Commit

namespace Mark

def offset : Mark → UInt64
  | processed highest => highest
  | outstanding lowest => lowest

/-- Something is outstanding, and no later than at `o`. -/
def OutstandingBy (o : UInt64) (m : Mark) : Prop := ∃ lowest, m = outstanding lowest ∧ lowest ≤ o

theorem OutstandingBy.join_left {o : UInt64} {a : Mark} (h : a.OutstandingBy o) (b : Mark) :
    (a.join b).OutstandingBy o := by
  obtain ⟨lowest, rfl, hle⟩ := h
  cases b with
  | processed highest => exact ⟨lowest, rfl, hle⟩
  | outstanding other => exact ⟨_, rfl, UInt64.le_trans Std.min_le_left hle⟩

theorem OutstandingBy.join_right {o : UInt64} {b : Mark} (h : b.OutstandingBy o) (a : Mark) :
    (a.join b).OutstandingBy o := by
  obtain ⟨lowest, rfl, hle⟩ := h
  cases a with
  | processed highest => exact ⟨lowest, rfl, hle⟩
  | outstanding other => exact ⟨_, rfl, UInt64.le_trans Std.min_le_right hle⟩

theorem offset_join (a b : Mark) : (a.join b).offset = a.offset ∨ (a.join b).offset = b.offset := by
  cases a with
  | processed x =>
      cases b with
      | processed y => exact max_offset_eq_or x y
      | outstanding y => exact .inr rfl
  | outstanding x =>
      cases b with
      | processed y => exact .inl rfl
      | outstanding y => exact Std.min_eq_or

theorem resumeAt?_le {o c : UInt64} {m : Mark} (h : m.OutstandingBy o)
    (hc : m.resumeAt? = some c) : c ≤ o := by
  obtain ⟨lowest, rfl, hle⟩ := h
  obtain rfl : lowest = c := Option.some.inj hc
  exact hle

theorem resumeAt?_le_succ {c : UInt64} {m : Mark} (hc : m.resumeAt? = some c) :
    c.toNat ≤ m.offset.toNat + 1 := by
  cases m with
  | processed highest =>
      rw [resumeAt?, successor?] at hc
      split at hc
      · next hlt =>
          obtain rfl : highest + 1 = c := Option.some.inj hc
          rw [UInt64.toNat_add]
          exact Nat.mod_le _ _
      · cases hc
  | outstanding lowest =>
      obtain rfl : lowest = c := Option.some.inj hc
      exact Nat.le_succ _

end Mark

/-! ### The marks of a row of entries -/

theorem get?_addMark (t : ByPartition Mark) (e : Partition × Mark) (q : Partition) :
    (addMark t e).get? q =
      if e.1 = q then some (match t.get? e.1 with
        | some known => known.join e.2
        | none => e.2)
      else t.get? q :=
  ByPartition.get?_update t e.1 q _

theorem outstandingBy_addMark {t : ByPartition Mark} {q : Partition} {o : UInt64} {m : Mark}
    (hm : t.get? q = some m) (h : m.OutstandingBy o) (e : Partition × Mark) :
    ∃ m, (addMark t e).get? q = some m ∧ m.OutstandingBy o := by
  rw [get?_addMark]
  split
  · next hq =>
      rw [hq, hm]
      exact ⟨_, rfl, h.join_left e.2⟩
  · exact ⟨m, hm, h⟩

theorem outstandingBy_foldl {es : List (Partition × Mark)} {t : ByPartition Mark} {q : Partition}
    {o : UInt64} (h : (∃ m, t.get? q = some m ∧ m.OutstandingBy o) ∨
      ∃ m, (q, m) ∈ es ∧ m.OutstandingBy o) :
    ∃ m, (es.foldl addMark t).get? q = some m ∧ m.OutstandingBy o := by
  induction es generalizing t with
  | nil =>
      rcases h with h | ⟨m, hm, _⟩
      · exact h
      · cases hm
  | cons e es ih =>
      refine ih ?_
      -- A mark that is there is only joined; an entry is joined when its turn comes.
      rcases h with ⟨m, hm, h⟩ | ⟨m, hm, h⟩
      · exact .inl (outstandingBy_addMark hm h e)
      · rcases List.mem_cons.1 hm with rfl | hm
        · refine .inl ?_
          rw [get?_addMark, if_pos rfl]
          split
          · exact ⟨_, rfl, h.join_right _⟩
          · exact ⟨_, rfl, h⟩
        · exact .inr ⟨m, hm, h⟩

/-- A mark has its offset from an entry of its partition. -/
theorem offset_foldl {es : List (Partition × Mark)} {t : ByPartition Mark} {q : Partition}
    {m : Mark} (h : (es.foldl addMark t).get? q = some m) :
    (∃ k, t.get? q = some k ∧ m.offset = k.offset) ∨ ∃ k, (q, k) ∈ es ∧ m.offset = k.offset := by
  induction es generalizing t with
  | nil => exact .inl ⟨m, h, rfl⟩
  | cons e es ih =>
      rcases ih h with ⟨k, hk, ho⟩ | ⟨k, hk, ho⟩
      · rw [get?_addMark] at hk
        split at hk
        · next hq =>
            cases hq
            have hhead : (e.1, e.2) ∈ e :: es := List.mem_cons_self
            split at hk
            · next known hknown =>
                obtain rfl := Option.some.inj hk
                rcases known.offset_join e.2 with hj | hj
                · exact .inl ⟨known, hknown, ho.trans hj⟩
                · exact .inr ⟨e.2, hhead, ho.trans hj⟩
            · obtain rfl := Option.some.inj hk
              exact .inr ⟨e.2, hhead, ho⟩
        · exact .inl ⟨k, hk, ho⟩
      · exact .inr ⟨k, List.mem_cons_of_mem e hk, ho⟩

/-! ### The positions to commit -/

def given (checkpoints : List Checkpoint) (unfinished : List Position) : List Position :=
  checkpoints.map (·.position) ++ unfinished

variable {checkpoints : List Checkpoint} {unfinished positions : List Position} {c : Position}

theorem mark_of_mem_positions? (h : positions? checkpoints unfinished = some positions)
    (hc : c ∈ positions) :
    ∃ m, (marks checkpoints unfinished).get? c.partitionKey = some m ∧
      m.resumeAt? = some c.offset := by
  obtain ⟨⟨q, m⟩, hmem, hm⟩ := mem_of_mapM h hc
  obtain ⟨o, ho, rfl⟩ := Option.map_eq_some_iff.1 hm
  exact ⟨m, ByPartition.get?_of_mem hmem, ho⟩

theorem positions?_le_entry (h : positions? checkpoints unfinished = some positions)
    (hc : c ∈ positions) {o : UInt64} (hentry : (c.partitionKey, Mark.outstanding o) ∈
      checkpoints.map checkpointMark ++ unfinished.map openMark) : c.offset ≤ o := by
  obtain ⟨m, hm, hresume⟩ := mark_of_mem_positions? h hc
  obtain ⟨m', hm', hby⟩ := outstandingBy_foldl (t := .empty)
    (.inr ⟨_, hentry, _, rfl, UInt64.le_refl _⟩)
  obtain rfl : m' = m := Option.some.inj (hm'.symm.trans hm)
  exact Mark.resumeAt?_le hby hresume

/-- No committed offset is higher than that of a checkpoint of content that is not yet
processed. -/
theorem positions?_le_checkpoint (h : positions? checkpoints unfinished = some positions)
    (hc : c ∈ positions) {k : Checkpoint} (hk : k ∈ checkpoints) (hopen : k.processed = false)
    (hpartition : k.position.partitionKey = c.partitionKey) : c.offset ≤ k.position.offset := by
  refine positions?_le_entry h hc (List.mem_append_left _ (List.mem_map.2 ⟨k, hk, ?_⟩))
  rw [checkpointMark, hopen, hpartition]
  rfl

theorem positions?_le_unfinished (h : positions? checkpoints unfinished = some positions)
    (hc : c ∈ positions) {p : Position} (hp : p ∈ unfinished)
    (hpartition : p.partitionKey = c.partitionKey) : c.offset ≤ p.offset := by
  refine positions?_le_entry h hc (List.mem_append_right _ (List.mem_map.2 ⟨p, hp, ?_⟩))
  rw [openMark, hpartition]

/-- A committed offset is at most the one behind a position that the commit looked at. -/
theorem positions?_le_succ (h : positions? checkpoints unfinished = some positions)
    (hc : c ∈ positions) :
    ∃ p ∈ given checkpoints unfinished, p.partitionKey = c.partitionKey ∧
      c.offset.toNat ≤ p.offset.toNat + 1 := by
  obtain ⟨m, hm, hresume⟩ := mark_of_mem_positions? h hc
  have hle := Mark.resumeAt?_le_succ hresume
  -- The fold began without marks, so the offset is from an entry.
  rcases offset_foldl hm with ⟨k, hk, _⟩ | ⟨k, hk, ho⟩
  · cases hk
  · rw [ho] at hle
    rcases List.mem_append.1 hk with hk | hk
    · obtain ⟨point, hpoint, hentry⟩ := List.mem_map.1 hk
      obtain ⟨hq, hmark⟩ := Prod.mk.inj hentry
      refine ⟨point.position, List.mem_append_left _ (List.mem_map_of_mem hpoint), hq, ?_⟩
      have hoffset : k.offset = point.position.offset := by
        rw [← hmark]
        split <;> rfl
      rwa [hoffset] at hle
    · obtain ⟨p, hp, hentry⟩ := List.mem_map.1 hk
      obtain ⟨hq, rfl⟩ := Prod.mk.inj hentry
      exact ⟨p, List.mem_append_right _ hp, hq, hle⟩

/-! ### What a mark says -/

/-- The mark says of some others where the lowest is that is outstanding, or, if none is,
which is the highest that is processed. -/
inductive Mark.Sums (others : Mark → Prop) : Mark → Prop where
  | processed {highest : UInt64} (hmem : others (.processed highest))
      (hall : ∀ m, others m → ∃ o, m = .processed o ∧ o ≤ highest) :
      Sums others (.processed highest)
  | outstanding {lowest : UInt64} (hmem : others (.outstanding lowest))
      (hleast : ∀ o, others (.outstanding o) → lowest ≤ o) : Sums others (.outstanding lowest)

namespace Mark.Sums

variable {others : Mark → Prop} {m : Mark}

theorem single (m : Mark) : Sums (· = m) m := by
  cases m with
  | processed highest => exact .processed rfl fun m hm => ⟨highest, hm, UInt64.le_refl _⟩
  | outstanding lowest =>
      refine .outstanding rfl fun o ho => ?_
      cases ho
      exact UInt64.le_refl _

theorem congr {others' : Mark → Prop} (h : Sums others m) (hsame : ∀ n, others n ↔ others' n) :
    Sums others' m := by
  have heq : others = others' := funext fun n => propext (hsame n)
  exact heq ▸ h

/-- One more mark is joined. -/
theorem join (h : Sums others m) (n : Mark) : Sums (fun k => others k ∨ k = n) (m.join n) := by
  cases h with
  | @processed highest hmem hall =>
      cases n with
      | outstanding lowest =>
          refine .outstanding (.inr rfl) ?_
          rintro o (ho | ho)
          · obtain ⟨_, hno, _⟩ := hall _ ho
            cases hno
          · cases ho
            exact UInt64.le_refl _
      | processed other =>
          have hmax : others (.processed (max highest other)) ∨
              Mark.processed (max highest other) = .processed other := by
            rcases max_offset_eq_or highest other with h | h
            · rw [h]
              exact .inl hmem
            · exact .inr (congrArg _ h)
          refine .processed hmax ?_
          rintro k (hk | rfl)
          · obtain ⟨o, rfl, hle⟩ := hall k hk
            exact ⟨o, rfl, UInt64.le_trans hle (le_max_offset highest other).1⟩
          · exact ⟨other, rfl, (le_max_offset highest other).2⟩
  | @outstanding lowest hmem hleast =>
      cases n with
      | processed other =>
          refine .outstanding (.inl hmem) ?_
          rintro o (ho | ho)
          · exact hleast o ho
          · cases ho
      | outstanding other =>
          have hmin : others (.outstanding (min lowest other)) ∨
              Mark.outstanding (min lowest other) = .outstanding other := by
            rcases Std.min_eq_or (a := lowest) (b := other) with h | h
            · rw [h]
              exact .inl hmem
            · exact .inr (congrArg _ h)
          refine .outstanding hmin ?_
          rintro o (ho | ho)
          · exact UInt64.le_trans Std.min_le_left (hleast o ho)
          · cases ho
            exact Std.min_le_right

end Mark.Sums

/-- The mark of a partition says what its entries are, and without a mark there are none. -/
theorem sums_foldl (es : List (Partition × Mark)) (q : Partition) :
    match (es.foldl addMark .empty).get? q with
    | some m => m.Sums fun n => (q, n) ∈ es
    | none => ∀ n, (q, n) ∉ es := by
  induction es using List.reverseRecOn with
  | nil => exact fun n hn => nomatch hn
  | append_singleton es e ih =>
      have hmem (n : Mark) : (q, n) ∈ es ++ [e] ↔ (q, n) ∈ es ∨ (q, n) = e := by
        rw [List.mem_append, List.mem_singleton]
      rw [List.foldl_append, List.foldl_cons, List.foldl_nil, get?_addMark]
      by_cases hq : e.1 = q
      · subst hq
        rw [if_pos rfl]
        dsimp only
        cases hm : (es.foldl addMark .empty).get? e.1 with
        | some known =>
            rw [hm] at ih
            refine (Mark.Sums.join ih e.2).congr fun n => ?_
            rw [hmem, Prod.ext_iff]
            simp
        | none =>
            rw [hm] at ih
            refine (Mark.Sums.single e.2).congr fun n => ?_
            rw [hmem, Prod.ext_iff]
            simp [ih n]
      · rw [if_neg hq]
        have hsame (n : Mark) : (q, n) ∈ es ↔ (q, n) ∈ es ++ [e] := by
          rw [hmem, or_iff_left]
          rintro rfl
          exact hq rfl
        cases hm : (es.foldl addMark .empty).get? q with
        | some m =>
            rw [hm] at ih
            exact Mark.Sums.congr ih hsame
        | none =>
            rw [hm] at ih
            exact fun n hn => ih n ((hsame n).2 hn)

def waiting (checkpoints : List Checkpoint) (unfinished : List Position) : List Position :=
  (checkpoints.filter fun k => !k.processed).map (·.position) ++ unfinished

theorem outstanding_mem_iff {p : Position} :
    (p.partitionKey, Mark.outstanding p.offset) ∈
        checkpoints.map checkpointMark ++ unfinished.map openMark ↔
      p ∈ waiting checkpoints unfinished := by
  have hplace (a : Position) : a = p ↔ a.partitionKey = p.partitionKey ∧ a.offset = p.offset := by
    rw [← Partition.eq_at_iff, Partition.at_partitionKey]
  rw [waiting, List.mem_append, List.mem_append, List.mem_map, List.mem_map, List.mem_map]
  refine or_congr ?_ ?_
  · refine exists_congr fun k => ?_
    rw [List.mem_filter, checkpointMark, hplace, and_assoc, Prod.mk.injEq]
    cases k.processed <;> simp
  · constructor
    · rintro ⟨a, ha, hmark⟩
      obtain ⟨hq, ho⟩ := Prod.mk.inj hmark
      rwa [← (hplace a).2 ⟨hq, Mark.outstanding.inj ho⟩]
    · intro hp
      exact ⟨p, hp, rfl⟩

def settled (checkpoints : List Checkpoint) : List Position :=
  (checkpoints.filter (·.processed)).map (·.position)

theorem processed_mem_iff {q : Partition} {o : UInt64} :
    (q, Mark.processed o) ∈ checkpoints.map checkpointMark ++ unfinished.map openMark ↔
      q.at o ∈ settled checkpoints := by
  rw [settled, List.mem_append, List.mem_map, List.mem_map, List.mem_map, or_iff_left]
  · refine exists_congr fun k => ?_
    rw [List.mem_filter, checkpointMark, Partition.eq_at_iff, and_assoc, Prod.mk.injEq]
    cases k.processed <;> simp
  · rintro ⟨a, _, hmark⟩
    cases (Prod.mk.inj hmark).2

theorem toNat_of_successor? {o c : UInt64} (h : Mark.successor? o = some c) :
    c.toNat = o.toNat + 1 := by
  rw [Mark.successor?] at h
  split at h
  · next hlt =>
      obtain rfl := Option.some.inj h
      rw [UInt64.toNat_add]
      exact Nat.mod_eq_of_lt hlt
  · cases h

end Commit

end Conflux
