import Conflux.Position

/-!
Partitions of the transport log, in the order of topic and number, and values kept
for some of them. The entries of such a map stand in that order, each partition
once; `update` is the one way to write.
-/

namespace Conflux

structure Partition where
  topic : String
  number : UInt32
deriving DecidableEq, Repr

namespace Partition

def Less (a b : Partition) : Prop :=
  a.topic < b.topic ∨ a.topic = b.topic ∧ a.number < b.number

instance : LT Partition := ⟨Less⟩

instance decidableLT (a b : Partition) : Decidable (a < b) :=
  inferInstanceAs (Decidable (_ ∨ _))

theorem lt_iff {a b : Partition} :
    a < b ↔ a.topic < b.topic ∨ a.topic = b.topic ∧ a.number < b.number :=
  Iff.rfl

theorem lt_irrefl (a : Partition) : ¬ a < a := by
  rw [lt_iff]
  rintro (h | ⟨_, h⟩)
  · exact String.lt_irrefl _ h
  · exact UInt32.lt_irrefl _ h

theorem lt_trans {a b c : Partition} (hab : a < b) (hbc : b < c) : a < c := by
  rw [lt_iff] at *
  rcases hab with h | ⟨e, h⟩ <;> rcases hbc with h' | ⟨e', h'⟩
  · exact .inl (String.lt_trans h h')
  · exact .inl (e' ▸ h)
  · exact .inl (e ▸ h')
  · exact .inr ⟨e.trans e', UInt32.lt_trans h h'⟩

theorem lt_of_not_lt {a b : Partition} (hab : ¬ a < b) (hne : a ≠ b) : b < a := by
  rw [lt_iff] at *
  have hs := String.le_antisymm (a := a.topic) (b := b.topic)
  cases a
  cases b
  grind

end Partition

def Position.partitionKey (p : Position) : Partition := ⟨p.topic, p.partition⟩

def Partition.at (p : Partition) (offset : UInt64) : Position := ⟨p.topic, p.number, offset⟩

/-- A value for each of some partitions. -/
structure ByPartition (α : Type) where
  entries : List (Partition × α)
  ascending : entries.Pairwise fun a b => a.1 < b.1
deriving Repr

namespace ByPartition

variable {α : Type}

def empty : ByPartition α := ⟨[], .nil⟩

instance : Inhabited (ByPartition α) := ⟨empty⟩

/-- Gives `p` the value that `f` makes of the one it has. -/
def place (p : Partition) (f : Option α → α) : List (Partition × α) → List (Partition × α)
  | [] => [(p, f none)]
  | e :: es =>
      if p < e.1 then (p, f none) :: e :: es
      else if p = e.1 then (p, f (some e.2)) :: es
      else e :: place p f es

def find? (p : Partition) : List (Partition × α) → Option α
  | [] => none
  | e :: es => if p = e.1 then some e.2 else find? p es

theorem mem_place {p : Partition} {f : Option α → α} {es : List (Partition × α)}
    {e : Partition × α} (h : e ∈ place p f es) : e.1 = p ∨ e ∈ es := by
  induction es with
  | nil => simp_all [place]
  | cons d es ih =>
      simp only [place] at h
      split at h
      · rcases List.mem_cons.1 h with rfl | h
        · exact .inl rfl
        · exact .inr h
      · split at h
        · rcases List.mem_cons.1 h with rfl | h
          · exact .inl rfl
          · exact .inr (.tail _ h)
        · rcases List.mem_cons.1 h with rfl | h
          · exact .inr (.head _)
          · exact (ih h).imp id (.tail _)

theorem pairwise_place {p : Partition} {f : Option α → α} {es : List (Partition × α)}
    (h : es.Pairwise fun a b => a.1 < b.1) : (place p f es).Pairwise fun a b => a.1 < b.1 := by
  induction es with
  | nil => exact List.pairwise_singleton _ _
  | cons e es ih =>
      have ⟨he, hes⟩ := List.pairwise_cons.1 h
      simp only [place]
      split
      · next hp =>
          refine List.pairwise_cons.2 ⟨fun d hd => ?_, h⟩
          rcases List.mem_cons.1 hd with rfl | hd
          · exact hp
          · exact Partition.lt_trans hp (he d hd)
      · next hp =>
          split
          · next heq => exact List.pairwise_cons.2 ⟨fun d hd => heq ▸ he d hd, hes⟩
          · next hne =>
              refine List.pairwise_cons.2 ⟨fun d hd => ?_, ih hes⟩
              rcases mem_place hd with hd | hd
              · exact hd ▸ Partition.lt_of_not_lt hp hne
              · exact he d hd

theorem find?_eq_none_of_lt {p : Partition} {es : List (Partition × α)}
    (h : ∀ e ∈ es, p < e.1) : find? p es = none := by
  induction es with
  | nil => rfl
  | cons e es ih =>
      have hne : p ≠ e.1 := fun heq =>
        Partition.lt_irrefl p (by simpa [← heq] using h e (.head _))
      rw [find?, if_neg hne]
      exact ih fun d hd => h d (.tail _ hd)

theorem find?_place (p q : Partition) (f : Option α → α) {es : List (Partition × α)}
    (h : es.Pairwise fun a b => a.1 < b.1) :
    find? q (place p f es) = if p = q then some (f (find? p es)) else find? q es := by
  induction es with
  | nil =>
      by_cases hq : q = p
      · simp [place, find?, hq]
      · simp [place, find?, hq, Ne.symm hq]
  | cons e es ih =>
      have ⟨he, hes⟩ := List.pairwise_cons.1 h
      simp only [place]
      split
      · next hp =>
          have hnone : find? p (e :: es) = none := find?_eq_none_of_lt fun d hd => by
            rcases List.mem_cons.1 hd with rfl | hd
            · exact hp
            · exact Partition.lt_trans hp (he d hd)
          rw [hnone]
          by_cases hq : q = p
          · rw [find?, if_pos hq, if_pos hq.symm]
          · rw [find?, if_neg hq, if_neg (Ne.symm hq)]
      · split
        · next heq =>
            by_cases hq : q = p
            · simp [find?, hq, heq]
            · have hqe : q ≠ e.1 := fun h' => hq (h'.trans heq.symm)
              rw [find?, if_neg hq, if_neg (Ne.symm hq), find?, if_neg hqe]
        · next hne =>
            by_cases hqe : q = e.1
            · have hpq : p ≠ q := fun h' => hne (h'.trans hqe)
              rw [find?, if_pos hqe, if_neg hpq, find?, if_pos hqe]
            · rw [find?, if_neg hqe, ih hes, find?, if_neg hne, find?, if_neg hqe]

def get? (t : ByPartition α) (p : Partition) : Option α := find? p t.entries

def update (t : ByPartition α) (p : Partition) (f : Option α → α) : ByPartition α :=
  ⟨place p f t.entries, pairwise_place t.ascending⟩

theorem get?_update (t : ByPartition α) (p q : Partition) (f : Option α → α) :
    (t.update p f).get? q = if p = q then some (f (t.get? p)) else t.get? q :=
  find?_place p q f t.ascending

end ByPartition

end Conflux
