import Conflux.Partition

/-!
A stretch of one partition: the deliveries that some content came with, kept as the
position where they begin and the offset where they end. Content is put together from
fragments and merged from bundles, and each time the beginning is the earlier one and
the end the later one. Both are always those of a delivery, and no delivery of the
content lies before the beginning.
-/

namespace Conflux

theorem max_offset_eq_or (a b : UInt64) : max a b = a ∨ max a b = b := by
  change (if a ≤ b then b else a) = a ∨ (if a ≤ b then b else a) = b
  split
  · exact .inr rfl
  · exact .inl rfl

theorem Partition.at_partitionKey (p : Position) : p.partitionKey.at p.offset = p := rfl

theorem Partition.eq_at_iff {p : Position} {q : Partition} {o : UInt64} :
    p = q.at o ↔ p.partitionKey = q ∧ p.offset = o := by
  constructor
  · rintro rfl
    exact ⟨rfl, rfl⟩
  · rintro ⟨rfl, rfl⟩
    exact (at_partitionKey p).symm

theorem Position.earlier_eq_or (a b : Position) : a.earlier b = a ∨ a.earlier b = b := by
  rw [earlier]
  split
  · exact .inr rfl
  · exact .inl rfl

/-- On one partition the earlier position has the lower offset. -/
theorem Position.earlier_offset_le {a b : Position} (h : a.partitionKey = b.partitionKey) :
    (a.earlier b).offset ≤ a.offset ∧ (a.earlier b).offset ≤ b.offset := by
  obtain ⟨htopic, hpartition⟩ := Partition.mk.inj h
  have hlt : b < a ↔ b.offset < a.offset := by
    rw [lt_iff, htopic, hpartition]
    constructor
    · rintro (hs | ⟨_, hp | ⟨_, ho⟩⟩)
      · exact absurd hs (String.lt_irrefl _)
      · exact absurd hp (UInt32.lt_irrefl _)
      · exact ho
    · intro ho
      exact .inr ⟨rfl, .inr ⟨rfl, ho⟩⟩
  rw [earlier]
  split
  · next hba => exact ⟨UInt64.le_of_lt (hlt.1 hba), UInt64.le_refl _⟩
  · next hba => exact ⟨UInt64.le_refl _, UInt64.not_lt.1 fun ho => hba (hlt.2 ho)⟩

/-- The deliveries `tags` on the partition `home` begin at `position` or later; that and
the end were delivered. -/
structure Stretch (delivered : List Position) (home : Partition) (tags : List Position)
    (position : Position) (lastOffset : UInt64) : Prop where
  at_home : position.partitionKey = home
  begins : position ∈ delivered
  ends : home.at lastOffset ∈ delivered
  covers : ∀ τ ∈ tags, τ.partitionKey = home ∧ position.offset ≤ τ.offset

namespace Stretch

variable {delivered tags tags' : List Position} {home : Partition} {position position' : Position}
  {lastOffset lastOffset' : UInt64}

theorem single (hhome : position.partitionKey = home) (h : position ∈ delivered) :
    Stretch delivered home [position] position position.offset where
  at_home := hhome
  begins := h
  ends := by
    rw [← hhome, Partition.at_partitionKey]
    exact h
  covers τ hτ := by
    rw [List.mem_singleton.1 hτ]
    exact ⟨hhome, UInt64.le_refl _⟩

theorem mono (h : Stretch delivered home tags position lastOffset) {later : List Position}
    (hsub : delivered ⊆ later) : Stretch later home tags position lastOffset :=
  ⟨h.at_home, hsub h.begins, hsub h.ends, h.covers⟩

theorem ends_max {a b : UInt64} (ha : home.at a ∈ delivered) (hb : home.at b ∈ delivered) :
    home.at (max a b) ∈ delivered := by
  rcases max_offset_eq_or a b with h | h
  · rw [h]
    exact ha
  · rw [h]
    exact hb

/-- The content of two stretches together. -/
theorem join (h : Stretch delivered home tags position lastOffset)
    (h' : Stretch delivered home tags' position' lastOffset') :
    Stretch delivered home (tags ++ tags') (position.earlier position')
      (max lastOffset lastOffset') := by
  obtain ⟨hle, hle'⟩ := Position.earlier_offset_le (h.at_home.trans h'.at_home.symm)
  refine ⟨?_, ?_, ends_max h.ends h'.ends, ?_⟩
  · rcases position.earlier_eq_or position' with he | he
    · rw [he]
      exact h.at_home
    · rw [he]
      exact h'.at_home
  · rcases position.earlier_eq_or position' with he | he
    · rw [he]
      exact h.begins
    · rw [he]
      exact h'.begins
  · intro τ hτ
    rcases List.mem_append.1 hτ with hτ | hτ
    · obtain ⟨hhome, hτle⟩ := h.covers τ hτ
      exact ⟨hhome, UInt64.le_trans hle hτle⟩
    · obtain ⟨hhome, hτle⟩ := h'.covers τ hτ
      exact ⟨hhome, UInt64.le_trans hle' hτle⟩

/-- The stretch reaches on over content that it does not speak for. -/
theorem reach (h : Stretch delivered home tags position lastOffset)
    (hend : home.at lastOffset' ∈ delivered) :
    Stretch delivered home tags position (max lastOffset' lastOffset) :=
  ⟨h.at_home, h.begins, ends_max hend h.ends, h.covers⟩

theorem of_subset (h : Stretch delivered home tags position lastOffset) (hsub : tags' ⊆ tags) :
    Stretch delivered home tags' position lastOffset :=
  ⟨h.at_home, h.begins, h.ends, fun τ hτ => h.covers τ (hsub hτ)⟩

end Stretch

end Conflux
