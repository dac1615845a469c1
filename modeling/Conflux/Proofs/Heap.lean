import Conflux.Heap
import Mathlib.Data.List.Basic
import Mathlib.Order.Lattice

/-!
What rises or sinks leaves a heap in order. On the way a single entry is out of its place, and all
that is wrong is between it and the entry above it, if it rises, or those below it, if it sinks;
past it everything is in order, which is what lets its neighbours move up or down into its place.
Entries only change places, so none is lost or made; and the first entry of a heap in order is the
greatest.
-/

namespace Conflux.Heap

variable {α κ : Type} [LinearOrder κ] {less : α → α → Bool} {key : α → κ} {n : Nat}
  {v : Vector α n} {i j k : Nat}

def Above (k j : Nat) : Prop := j ≠ 0 ∧ parent j = k

theorem Above.lt (h : Above k j) : k < j := by
  obtain ⟨hj, rfl⟩ := h
  exact parent_lt hj

theorem above_parent (hj : j ≠ 0) : Above (parent j) j := ⟨hj, rfl⟩

theorem Above.unique (h : Above k j) (h' : Above i j) : k = i := h.2.symm.trans h'.2

theorem Above.eq_or (h : Above k j) : j = 2 * k + 1 ∨ j = 2 * k + 2 := by
  obtain ⟨hj, rfl⟩ := h
  rw [parent]
  omega

def Ordered (key : α → κ) (v : Vector α n) : Prop :=
  ∀ j k (hj : j < n) (hk : k < n), Above k j → key v[j] ≤ key v[k]

/-- The entries are in order, but for the one at `i` and those at the `loose` places with the ones
above them. -/
structure Nearly (key : α → κ) (v : Vector α n) (i : Nat) (loose : Nat → Prop) : Prop where
  edge : ∀ j k (hj : j < n) (hk : k < n), Above k j → ¬ loose j → key v[j] ≤ key v[k]
  past : ∀ j k (hj : j < n) (hk : k < n), Above i j → Above k i → key v[j] ≤ key v[k]

/-! ### Rising -/

theorem Nearly.rise (h : Nearly key v i (· = i)) (hi : i < n) (hk : k < n) (habove : Above k i)
    (hup : key v[k] < key v[i]) : Nearly key (v.swap i k) k (· = k) := by
  have hki := habove.lt
  constructor
  case edge =>
    intro j l hj hl hjl hjk
    -- the cases are the edges that meet one of the two places; all others are as they were
    rw [Vector.getElem_swap, Vector.getElem_swap]
    by_cases hji : j = i
    · subst hji
      obtain rfl := hjl.unique habove
      simp [Nat.ne_of_lt hki, hup.le]
    · rw [if_neg hji, if_neg hjk]
      by_cases hli : l = i
      · subst hli
        rw [if_pos rfl]
        exact h.past j k hj hk hjl habove
      · rw [if_neg hli]
        by_cases hlk : l = k
        · subst hlk
          rw [if_pos rfl]
          exact (h.edge j l hj hl hjl hji).trans hup.le
        · rw [if_neg hlk]
          exact h.edge j l hj hl hjl hji
  case past =>
    intro j l hj hl hjk hkl
    have hlk := hkl.lt
    have hkj := hjk.lt
    have hkl' : key v[k] ≤ key v[l] := h.edge k l hk hl hkl (Nat.ne_of_lt hki)
    rw [Vector.getElem_swap, Vector.getElem_swap, if_neg (by omega : l ≠ i),
      if_neg (Nat.ne_of_lt hlk)]
    by_cases hji : j = i
    · rwa [if_pos hji]
    · rw [if_neg hji, if_neg (Nat.ne_of_gt hkj)]
      exact (h.edge j k hj hk hjk hji).trans hkl'

theorem Nearly.ordered_of_rise (h : Nearly key v i (· = i))
    (hstop : ∀ k (hi : i < n) (hk : k < n), Above k i → key v[i] ≤ key v[k]) : Ordered key v := by
  intro j k hj hk hjk
  by_cases hji : j = i
  · subst hji
    exact hstop k hj hk hjk
  · exact h.edge j k hj hk hjk hji

theorem swap_toList_perm (v : Vector α n) (hi : i < n) (hj : j < n) :
    (v.swap i j).toList.Perm v.toList :=
  Vector.perm_iff_toList_perm.mp (Vector.swap_perm hi hj)

theorem rise_perm (less : α → α → Bool) (v : Vector α n) (i : Nat) (hi : i < n) :
    (Heap.rise less v i hi).toList.Perm v.toList := by
  induction v, i, hi using Heap.rise.induct less with
  | case1 v hi =>
      rw [Heap.rise, dif_pos rfl]
  | case2 v i hi hzero hparent hup ih =>
      rw [Heap.rise, dif_neg hzero]
      simp only [hup, if_true]
      exact ih.trans (swap_toList_perm v hi _)
  | case3 v i hi hzero hparent hup =>
      rw [Heap.rise, dif_neg hzero]
      simp only [hup]
      exact .refl _

section
variable (hless : ∀ x y, less x y = true ↔ key x < key y)
include hless

theorem ordered_rise (hi : i < n) (h : Nearly key v i (· = i)) :
    Ordered key (Heap.rise less v i hi) := by
  induction v, i, hi using Heap.rise.induct less with
  | case1 v hi =>
      rw [Heap.rise, dif_pos rfl]
      exact h.ordered_of_rise fun k _ _ hk => absurd rfl hk.1
  | case2 v i hi hzero hparent hup ih =>
      rw [Heap.rise, dif_neg hzero]
      simp only [hup, if_true]
      exact ih (h.rise hi _ (above_parent hzero) ((hless _ _).mp hup))
  | case3 v i hi hzero hparent hup =>
      rw [Heap.rise, dif_neg hzero]
      simp only [hup]
      refine h.ordered_of_rise fun k _ hk hki => ?_
      obtain rfl := (above_parent hzero).unique hki
      exact not_lt.mp fun hlt => hup ((hless _ _).mpr hlt)

end

/-! ### Sinking -/

theorem Nearly.sink (h : Nearly key v i (Above i)) (hi : i < n) (hk : k < n) (habove : Above i k)
    (hdown : key v[i] < key v[k])
    (hgreatest : ∀ j (hj : j < n), Above i j → key v[j] ≤ key v[k]) :
    Nearly key (v.swap i k) k (Above k) := by
  have hik := habove.lt
  constructor
  case edge =>
    intro j l hj hl hlj hkj
    have hlk : l ≠ k := by
      rintro rfl
      exact hkj hlj
    have hjl := hlj.lt
    rw [Vector.getElem_swap, Vector.getElem_swap, if_neg hlk]
    by_cases hji : j = i
    · subst hji
      rw [if_pos rfl, if_neg (Nat.ne_of_lt hjl)]
      exact h.past k l hk hl habove hlj
    · rw [if_neg hji]
      by_cases hjk : j = k
      · subst hjk
        obtain rfl := hlj.unique habove
        rw [if_pos rfl, if_pos rfl]
        exact hdown.le
      · rw [if_neg hjk]
        by_cases hli : l = i
        · subst hli
          rw [if_pos rfl]
          exact hgreatest j hj hlj
        · rw [if_neg hli]
          exact h.edge j l hj hl hlj fun hij => hli (hlj.unique hij)
  case past =>
    intro j l hj hl hkj hlk
    have hkj' := hkj.lt
    obtain rfl := hlk.unique habove
    rw [Vector.getElem_swap, Vector.getElem_swap, if_pos rfl, if_neg (by omega : j ≠ l),
      if_neg (Nat.ne_of_gt hkj')]
    exact h.edge j k hj hk hkj fun hlj => Nat.ne_of_lt hik (hlj.unique hkj)

theorem Nearly.ordered_of_sink (h : Nearly key v i (Above i))
    (hstop : ∀ j (hi : i < n) (hj : j < n), Above i j → key v[j] ≤ key v[i]) : Ordered key v := by
  intro j k hj hk hkj
  by_cases hij : Above i j
  · obtain rfl := hkj.unique hij
    exact hstop j hk hj hkj
  · exact h.edge j k hj hk hkj hij

theorem not_above_of_below?_eq_none (h : below? less v i = none) (hj : j < n) : ¬ Above i j := by
  intro hij
  have hcases := hij.eq_or
  unfold below? at h
  split at h
  · split at h
    · split at h <;> cases h
    · cases h
  · omega

theorem sink_perm (less : α → α → Bool) (v : Vector α n) (i : Nat) (hi : i < n) :
    (Heap.sink less v i hi).toList.Perm v.toList := by
  induction v, i, hi using Heap.sink.induct less with
  | case1 v i hi hnone =>
      rw [sink_eq, hnone]
  | case2 v i hi c hc hbelow hdown ih =>
      rw [sink_eq, hc]
      simp only [hdown, if_true]
      exact ih.trans (swap_toList_perm v hi _)
  | case3 v i hi c hc hbelow hdown =>
      rw [sink_eq, hc]
      simp only [hdown]
      exact .refl _

section
variable (hless : ∀ x y, less x y = true ↔ key x < key y)
include hless

theorem of_below?_eq_some {c : Fin n} (h : below? less v i = some c) :
    Above i c ∧ ∀ j (hj : j < n), Above i j → key v[j] ≤ key v[c] := by
  have hleft : Above i (2 * i + 1) := ⟨by omega, by rw [parent]; omega⟩
  have hright : Above i (2 * i + 2) := ⟨by omega, by rw [parent]; omega⟩
  unfold below? at h
  split at h
  · split at h
    · split at h
      · rename_i hlt
        cases h
        refine ⟨hright, fun j hj hij => ?_⟩
        obtain rfl | rfl := hij.eq_or
        · exact ((hless _ _).mp hlt).le
        · exact le_rfl
      · rename_i hlt
        cases h
        refine ⟨hleft, fun j hj hij => ?_⟩
        obtain rfl | rfl := hij.eq_or
        · exact le_rfl
        · exact not_lt.mp fun hlt' => hlt ((hless _ _).mpr hlt')
    · rename_i hlast
      cases h
      refine ⟨hleft, fun j hj hij => ?_⟩
      obtain rfl | rfl := hij.eq_or
      · exact le_rfl
      · exact absurd hj hlast
  · cases h

theorem ordered_sink (hi : i < n) (h : Nearly key v i (Above i)) :
    Ordered key (Heap.sink less v i hi) := by
  induction v, i, hi using Heap.sink.induct less with
  | case1 v i hi hnone =>
      rw [sink_eq, hnone]
      exact h.ordered_of_sink fun j _ hj hij =>
        absurd hij (not_above_of_below?_eq_none hnone hj)
  | case2 v i hi c hc hbelow hdown ih =>
      obtain ⟨habove, hgreatest⟩ := of_below?_eq_some hless hc
      rw [sink_eq, hc]
      simp only [hdown, if_true]
      exact ih (h.sink hi c.isLt habove ((hless _ _).mp hdown) hgreatest)
  | case3 v i hi c hc hbelow hdown =>
      obtain ⟨habove, hgreatest⟩ := of_below?_eq_some hless hc
      rw [sink_eq, hc]
      simp only [hdown]
      refine h.ordered_of_sink fun j _ hj hij => (hgreatest j hj hij).trans ?_
      exact not_lt.mp fun hlt => hdown ((hless _ _).mpr hlt)

end

theorem settle_perm (less : α → α → Bool) (v : Vector α n) :
    (settle less v).toList.Perm v.toList := by
  rw [settle]
  split
  · exact sink_perm less v 0 _
  · exact .refl _

/-! ### Putting in and taking out -/

theorem Ordered.le_first {v : Vector α (n + 1)} (h : Ordered key v) (hi : i < n + 1) :
    key v[i] ≤ key (first v) := by
  induction i using Nat.strongRecOn with
  | ind i ih =>
      by_cases hzero : i = 0
      · subst hzero
        exact le_rfl
      · have hparent := parent_lt hzero
        exact (h i (parent i) hi (by omega) (above_parent hzero)).trans (ih _ hparent (by omega))

/-- An entry put behind the others is the only one that may be out of its place. -/
theorem Ordered.nearly_push (h : Ordered key v) (x : α) : Nearly key (v.push x) n (· = n) := by
  constructor
  case edge =>
    intro j k hj hk hkj hjn
    have hlt := hkj.lt
    rw [Vector.getElem_push, Vector.getElem_push, dif_pos (by omega), dif_pos (by omega)]
    exact h j k _ _ hkj
  case past =>
    intro j k hj hk hnj hkn
    have hlt := hnj.lt
    omega

theorem getElem_replaceFirst {v : Vector α (n + 1)} (hj : j < n) (hj0 : j ≠ 0) :
    (replaceFirst v)[j] = v[j] := by
  have hpop : (replaceFirst v)[j] = (v.swap 0 n)[j] := Vector.getElem_pop hj
  rw [hpop, Vector.getElem_swap, if_neg hj0, if_neg (Nat.ne_of_lt hj)]

/-- When the last entry has come into the place of the first, it is the only one that may be out of
its place. -/
theorem Ordered.nearly_replaceFirst {v : Vector α (n + 1)} (h : Ordered key v) :
    Nearly key (replaceFirst v) 0 (Above 0) := by
  constructor
  case edge =>
    intro j k hj hk hkj hj0
    have hk0 : k ≠ 0 := by
      rintro rfl
      exact hj0 hkj
    have hlt := hkj.lt
    rw [getElem_replaceFirst hj (by omega), getElem_replaceFirst hk hk0]
    exact h j k _ _ hkj
  case past =>
    intro j k hj hk h0j hk0
    exact absurd rfl hk0.1

theorem replaceFirst_perm (v : Vector α (n + 1)) :
    (first v :: (replaceFirst v).toList).Perm v.toList := by
  obtain ⟨rest, last, hrest⟩ : ∃ (rest : Vector α n) (last : α), v.swap 0 n = rest.push last :=
    Vector.exists_push
  have hpop : replaceFirst v = rest := by
    rw [replaceFirst, hrest]
    exact Vector.pop_push
  have hlast : last = first v := by
    have hswap : (v.swap 0 n)[n] = first v := Vector.getElem_swap_right _ _
    rw [← hswap, getElem_congr_coll hrest, Vector.getElem_push_last]
  have hfront := (List.perm_append_singleton last rest.toList).symm
  rw [← Vector.toList_push, ← hrest] at hfront
  rw [hpop, ← hlast]
  exact hfront.trans (swap_toList_perm v _ _)

theorem push_perm (h : Heap less) (x : α) :
    (h.push x).entries.toList.Perm (x :: h.entries.toList) := by
  have hpush : (h.entries.push x).toList = h.entries.toList ++ [x] := Vector.toList_push
  refine (rise_perm less _ _ _).trans ?_
  exact hpush ▸ List.perm_append_singleton x _

theorem pop?_eq_none {h : Heap less} : h.pop? = none ↔ h.size = 0 := by
  obtain ⟨_ | n, v⟩ := h
  · exact ⟨fun _ => rfl, fun _ => rfl⟩
  · constructor <;> intro hnone <;> cases hnone

theorem pop?_perm {h rest : Heap less} {x : α} (hpop : h.pop? = some (x, rest)) :
    (x :: rest.entries.toList).Perm h.entries.toList := by
  obtain ⟨_ | n, v⟩ := h
  · cases hpop
  · cases hpop
    exact ((settle_perm less _).cons _).trans (replaceFirst_perm v)

theorem greatest_of_pop? {h rest : Heap less} {x y : α} (hordered : Ordered key h.entries)
    (hpop : h.pop? = some (x, rest)) (hy : y ∈ h.entries.toList) : key y ≤ key x := by
  obtain ⟨_ | n, v⟩ := h
  · cases hpop
  · cases hpop
    obtain ⟨i, hi, rfl⟩ := Vector.mem_iff_getElem.mp (Vector.mem_toList_iff.mp hy)
    exact hordered.le_first hi

section
variable (hless : ∀ x y, less x y = true ↔ key x < key y)
include hless

theorem ordered_settle (h : Nearly key v 0 (Above 0)) : Ordered key (settle less v) := by
  rw [settle]
  split
  · exact ordered_sink hless _ h
  · rename_i hn
    intro j k hj
    exact absurd (Nat.zero_lt_of_lt hj) hn

theorem ordered_push {h : Heap less} (hordered : Ordered key h.entries) (x : α) :
    Ordered key (h.push x).entries :=
  ordered_rise hless _ (hordered.nearly_push x)

theorem ordered_of_pop? {h rest : Heap less} {x : α} (hordered : Ordered key h.entries)
    (hpop : h.pop? = some (x, rest)) : Ordered key rest.entries := by
  obtain ⟨_ | n, v⟩ := h
  · cases hpop
  · cases hpop
    exact ordered_settle hless hordered.nearly_replaceFirst

end

end Conflux.Heap
