import Conflux.Version
import Mathlib.Order.MinMax
import Mathlib.Order.Defs.LinearOrder

/-!
The order of versions is linear, and an absent version stands below all others. What a
slot knows about versions is the maximum of optional versions, so its laws are stated
for these. A version is read back from its text.
-/

namespace Conflux

namespace Decimal

theorem digits?_append (left : Nat) (cs ds : List Char) :
    digits? left (cs ++ ds) = (digits? left cs).bind fun n => digits? n ds := by
  induction cs generalizing left with
  | nil => rfl
  | cons c cs ih =>
      rw [List.cons_append, digits?, digits?]
      cases digit? c with
      | none => rfl
      | some d => exact ih (left * 10 + d)

theorem digit?_digitChar : ∀ d, d < 10 →
    digit? d.digitChar = some d ∧ d.digitChar ≠ '+' ∧ d.digitChar ≠ '.' := by
  decide

/-- The digits that are written for a number. -/
theorem toList_write (n : Nat) : ∃ c cs, (write n).toList = c :: cs ∧
    digits? 0 (c :: cs) = some n ∧ ∀ d ∈ c :: cs, d ≠ '+' ∧ d ≠ '.' := by
  induction n using Nat.strongRecOn with
  | ind n ih =>
      by_cases hn : n < 10
      · obtain ⟨hdigit, hne⟩ := digit?_digitChar n hn
        refine ⟨n.digitChar, [], ?_, ?_, ?_⟩
        · rw [write, Nat.repr_of_lt hn, String.toList_singleton]
        · simp [digits?, hdigit]
        · intro d hd
          rw [List.mem_singleton.1 hd]
          exact hne
      · obtain ⟨c, cs, hcs, hvalue, hmarks⟩ := ih (n / 10) (by omega)
        obtain ⟨hdigit, hne⟩ := digit?_digitChar (n % 10) (Nat.mod_lt n (by decide))
        refine ⟨c, cs ++ [(n % 10).digitChar], ?_, ?_, ?_⟩
        · rw [write, Nat.repr_of_ge (by omega), String.toList_append, ← write, hcs,
            String.toList_singleton]
          rfl
        · rw [← List.cons_append, digits?_append, hvalue]
          simp only [Option.bind_some, digits?, hdigit, Option.some.injEq]
          omega
        · intro d hd
          rw [← List.cons_append] at hd
          rcases List.mem_append.1 hd with hd | hd
          · exact hmarks d hd
          · rw [List.mem_singleton.1 hd]
            exact hne

theorem readUInt64?_write (n : UInt64) : readUInt64? (write n.toNat).toList = some n := by
  obtain ⟨c, cs, hcs, hvalue, hmarks⟩ := toList_write n.toNat
  have hbound : n.toNat ≤ maxUInt64 := by
    have hlt := n.toNat_lt
    have hmax : maxUInt64 = 2 ^ 64 - 1 := rfl
    omega
  have hunsigned : unsigned? (c :: cs) = some n.toNat := by
    rw [unsigned?, numeral?, hvalue]
    intro _ h
    exact (hmarks c List.mem_cons_self).1 (List.head_eq_of_cons_eq h)
  rw [readUInt64?, read?, hcs, hunsigned, Option.filter_some_pos (by simpa using hbound),
    Option.map_some, UInt64.ofNat_toNat]

end Decimal

namespace Version

theorem le_iff {a b : Version} :
    a ≤ b ↔ a.generation < b.generation ∨ a.generation = b.generation ∧ a.value ≤ b.value := by
  change ¬ (b.generation < a.generation ∨ b.generation = a.generation ∧ b.value < a.value) ↔ _
  rw [UInt64.lt_iff_toNat_lt, UInt64.lt_iff_toNat_lt, UInt64.lt_iff_toNat_lt,
    UInt64.le_iff_toNat_le, ← UInt64.toNat_inj, ← UInt64.toNat_inj]
  omega

theorem le_antisymm {a b : Version} (hab : a ≤ b) (hba : b ≤ a) : a = b := by
  obtain ⟨ag, av⟩ := a
  obtain ⟨bg, bv⟩ := b
  rw [le_iff] at hab hba
  simp only [UInt64.lt_iff_toNat_lt, UInt64.le_iff_toNat_le, ← UInt64.toNat_inj] at hab hba
  have hg : ag = bg := UInt64.toNat_inj.1 (by omega)
  have hv : av = bv := UInt64.toNat_inj.1 (by omega)
  rw [hg, hv]

instance : LinearOrder Version where
  le_refl a := by
    rw [le_iff]
    exact .inr ⟨rfl, UInt64.le_refl _⟩
  le_trans a b c hab hbc := by
    rw [le_iff] at *
    simp only [UInt64.lt_iff_toNat_lt, UInt64.le_iff_toNat_le, ← UInt64.toNat_inj] at *
    omega
  le_antisymm _ _ := le_antisymm
  le_total a b := by
    rw [le_iff, le_iff]
    simp only [UInt64.lt_iff_toNat_lt, UInt64.le_iff_toNat_le, ← UInt64.toNat_inj]
    omega
  lt_iff_le_not_ge a b := by
    rw [le_iff, le_iff, lt_iff]
    simp only [UInt64.lt_iff_toNat_lt, UInt64.le_iff_toNat_le, ← UInt64.toNat_inj]
    omega
  toDecidableLE := decidableLE
  toDecidableLT := decidableLT
  toDecidableEq := inferInstance

/-! ### The later one -/

theorem max_eq (a b : Version) : Version.max a b = Max.max a b := by
  rw [Version.max]
  split
  · next h => exact (max_eq_right h.le).symm
  · next h => exact (max_eq_left (not_lt.1 h)).symm

theorem maxOption_assoc (a b c : Option Version) :
    maxOption (maxOption a b) c = maxOption a (maxOption b c) := by
  cases a <;> cases b <;> cases c <;> simp only [maxOption]
  rw [max_eq, max_eq, max_eq, max_eq, max_assoc]

/-- The optional version is there and no earlier than `v`. -/
def ReachedBy (v : Version) (known : Option Version) : Prop := ∃ w, known = some w ∧ v ≤ w

theorem ReachedBy.maxOption_left {v : Version} {known : Option Version} (h : v.ReachedBy known)
    (later : Option Version) : v.ReachedBy (maxOption known later) := by
  obtain ⟨w, rfl, hv⟩ := h
  cases later with
  | none => exact ⟨w, rfl, hv⟩
  | some x =>
      refine ⟨Version.max w x, rfl, ?_⟩
      rw [max_eq]
      exact hv.trans (le_max_left w x)

theorem reachedBy_some {v w : Version} : v.ReachedBy (some w) ↔ v ≤ w := by
  simp [ReachedBy]

theorem not_reachedBy_none (v : Version) : ¬ v.ReachedBy none := by
  rintro ⟨w, hw, _⟩
  cases hw

theorem reachedBy_maxOption_iff {v : Version} {a b : Option Version} :
    v.ReachedBy (maxOption a b) ↔ v.ReachedBy a ∨ v.ReachedBy b := by
  cases a <;> cases b <;>
    simp [maxOption, reachedBy_some, not_reachedBy_none, max_eq]

/-- The version is later than the optional one, if there is one. -/
def Above (v : Version) (known : Option Version) : Prop := ∀ w, known = some w → w < v

theorem above_some {v w : Version} : v.Above (some w) ↔ w < v := by
  simp [Above]

theorem above_none (v : Version) : v.Above none := nofun

theorem above_iff {v : Version} {known : Option Version} :
    v.Above known ↔ ¬ v.ReachedBy known := by
  cases known with
  | none => simp [above_none, not_reachedBy_none]
  | some w => rw [above_some, reachedBy_some, not_le]

theorem above_maxOption_iff {v : Version} {a b : Option Version} :
    v.Above (maxOption a b) ↔ v.Above a ∧ v.Above b := by
  rw [above_iff, above_iff, above_iff, reachedBy_maxOption_iff, not_or]

/-- The maximum is one of the two. -/
theorem maxOption_eq_some {a b : Option Version} {w : Version} (h : maxOption a b = some w) :
    a = some w ∨ b = some w := by
  cases a with
  | none => exact .inr h
  | some u =>
      cases b with
      | none => exact .inl h
      | some v =>
          have hw : Version.max u v = w := Option.some.inj h
          rw [Version.max] at hw
          split at hw
          · exact .inr (congrArg some hw)
          · exact .inl (congrArg some hw)

/-! ### Text -/

theorem splitPoint_append {cs : List Char} (hcs : '.' ∉ cs) (ds : List Char) :
    splitPoint (cs ++ '.' :: ds) = some (cs, ds) := by
  induction cs with
  | nil => rfl
  | cons c cs ih =>
      rw [List.mem_cons, not_or] at hcs
      rw [List.cons_append, splitPoint, if_neg (Ne.symm hcs.1), ih hcs.2]
      rfl

/-- A version is read back from its text. -/
theorem parse_text (v : Version) : parse v.text = .ok v := by
  have hpoint : '.' ∉ (Decimal.write v.generation.toNat).toList := by
    obtain ⟨c, cs, hcs, _, hmarks⟩ := Decimal.toList_write v.generation.toNat
    rw [hcs]
    exact fun hmem => (hmarks '.' hmem).2 rfl
  have htext : v.text.toList = (Decimal.write v.generation.toNat).toList ++
      '.' :: (Decimal.write v.value.toNat).toList := by
    simp [text]
  simp only [parse, htext, splitPoint_append hpoint, Decimal.readUInt64?_write]

end Version

end Conflux
