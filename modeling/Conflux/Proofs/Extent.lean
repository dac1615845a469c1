import Conflux.Proofs.Stretch
import Mathlib.Order.Defs.LinearOrder

/-!
The extent of some places in the log: the first of them, and the highest offset that one of
them has. The order of positions is linear, so there is a first one whatever partitions the
places are on; on a single partition it is the one with the lowest offset.
-/

namespace Conflux

namespace Position

/-- The partition decides, then the offset. -/
theorem lt_iff_partitionKey {a b : Position} :
    a < b ↔ a.partitionKey < b.partitionKey ∨
      a.partitionKey = b.partitionKey ∧ a.offset < b.offset := by
  rw [lt_iff, Partition.lt_iff, partitionKey, partitionKey, Partition.mk.injEq]
  constructor
  · rintro (ht | ⟨ht, hp | ⟨hp, ho⟩⟩)
    · exact .inl (.inl ht)
    · exact .inl (.inr ⟨ht, hp⟩)
    · exact .inr ⟨⟨ht, hp⟩, ho⟩
  · rintro ((ht | ⟨ht, hp⟩) | ⟨⟨ht, hp⟩, ho⟩)
    · exact .inl ht
    · exact .inr ⟨ht, .inl hp⟩
    · exact .inr ⟨ht, .inr ⟨hp, ho⟩⟩

theorem lt_irrefl (a : Position) : ¬ a < a := by
  rw [lt_iff_partitionKey]
  rintro (h | ⟨_, h⟩)
  · exact Partition.lt_irrefl _ h
  · exact UInt64.lt_irrefl _ h

theorem lt_trans {a b c : Position} (hab : a < b) (hbc : b < c) : a < c := by
  rw [lt_iff_partitionKey] at *
  rcases hab with h | ⟨heq, h⟩ <;> rcases hbc with h' | ⟨heq', h'⟩
  · exact .inl (Partition.lt_trans h h')
  · exact .inl (heq' ▸ h)
  · exact .inl (heq ▸ h')
  · exact .inr ⟨heq.trans heq', UInt64.lt_trans h h'⟩

theorem lt_of_not_lt {a b : Position} (hab : ¬ a < b) (hne : a ≠ b) : b < a := by
  rw [lt_iff_partitionKey, not_or, not_and] at hab
  rw [lt_iff_partitionKey]
  by_cases hpartition : a.partitionKey = b.partitionKey
  · refine .inr ⟨hpartition.symm, ?_⟩
    have hle : b.offset ≤ a.offset := UInt64.not_lt.1 (hab.2 hpartition)
    refine UInt64.lt_of_le_of_ne hle fun hoffset => hne ?_
    rw [← Partition.at_partitionKey a, ← Partition.at_partitionKey b, hpartition, hoffset]
  · exact .inl (Partition.lt_of_not_lt hab.1 hpartition)

instance : LinearOrder Position where
  le_refl := lt_irrefl
  le_trans a b c hab hbc := by
    intro hca
    by_cases heq : a = b
    · exact hbc (heq ▸ hca)
    · exact hbc (lt_trans hca (lt_of_not_lt hab (Ne.symm heq)))
  le_antisymm a b hab hba := by
    by_contra hne
    exact hab (lt_of_not_lt hba hne)
  le_total a b := by
    by_cases hba : b < a
    · exact .inr fun hab => lt_irrefl _ (lt_trans hab hba)
    · exact .inl hba
  lt_iff_le_not_ge a b := by
    constructor
    · intro hab
      exact ⟨fun hba => lt_irrefl _ (lt_trans hab hba), fun hno => hno hab⟩
    · rintro ⟨_, hab⟩
      exact Decidable.not_not.1 hab
  toDecidableLE := decidableLE
  toDecidableLT := decidableLT
  toDecidableEq := inferInstance

theorem earlier_le_left (a b : Position) : a.earlier b ≤ a := by
  rw [earlier]
  split
  · next h => exact le_of_lt h
  · exact le_refl a

theorem earlier_le_right (a b : Position) : a.earlier b ≤ b := by
  rw [earlier]
  split
  · exact le_refl b
  · next h => exact not_lt.1 h

end Position

theorem le_max_offset (a b : UInt64) : a ≤ max a b ∧ b ≤ max a b := by
  change a ≤ (if a ≤ b then b else a) ∧ b ≤ (if a ≤ b then b else a)
  split
  · next h => exact ⟨h, UInt64.le_refl b⟩
  · next h => exact ⟨UInt64.le_refl a, UInt64.le_of_lt (UInt64.not_le.1 h)⟩

/-- The first of the places, and the highest offset of one of them. -/
structure Extent (places : Position → Prop) (position : Position) (lastOffset : UInt64) :
    Prop where
  begins : places position
  least : ∀ p, places p → position ≤ p
  ends : ∃ p, places p ∧ p.offset = lastOffset
  greatest : ∀ p, places p → p.offset ≤ lastOffset

namespace Extent

variable {places places' : Position → Prop} {position : Position} {lastOffset : UInt64}

theorem single (position : Position) : Extent (· = position) position position.offset where
  begins := rfl
  least p hp := le_of_eq hp.symm
  ends := ⟨position, rfl, rfl⟩
  greatest p hp := by
    rw [hp]
    exact UInt64.le_refl _

theorem extend (h : Extent places position lastOffset) (p : Position) :
    Extent (fun q => places q ∨ q = p) (position.earlier p) (max lastOffset p.offset) where
  begins := by
    rcases position.earlier_eq_or p with he | he
    · rw [he]
      exact .inl h.begins
    · exact .inr he
  least := by
    rintro q (hq | rfl)
    · exact le_trans (position.earlier_le_left p) (h.least q hq)
    · exact position.earlier_le_right q
  ends := by
    rcases max_offset_eq_or lastOffset p.offset with he | he
    · obtain ⟨q, hq, hoffset⟩ := h.ends
      exact ⟨q, .inl hq, hoffset.trans he.symm⟩
    · exact ⟨p, .inr rfl, he.symm⟩
  greatest := by
    obtain ⟨hleft, hright⟩ := le_max_offset lastOffset p.offset
    rintro q (hq | rfl)
    · exact UInt64.le_trans (h.greatest q hq) hleft
    · exact hright

theorem congr (h : Extent places position lastOffset) (hsame : ∀ p, places p ↔ places' p) :
    Extent places' position lastOffset := by
  have heq : places = places' := funext fun p => propext (hsame p)
  exact heq ▸ h

end Extent

end Conflux
