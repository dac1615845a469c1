/-!
Tables: finite maps as lists of entries, one entry for each key. A new key goes to
the end and a known key keeps its place, so the entries stand in the order in which
their keys first came. Reading a table is `get?`, and the other operations are told
apart by what they do to it.
-/

namespace Conflux

structure Table (κ α : Type) where
  entries : List (κ × α)
  distinct : (entries.map Prod.fst).Nodup
deriving DecidableEq, Repr

namespace Table

variable {κ α β : Type} [DecidableEq κ]

omit [DecidableEq κ] in
@[ext] theorem ext {t u : Table κ α} (h : t.entries = u.entries) : t = u := by
  cases t
  cases u
  cases h
  rfl

def empty : Table κ α := ⟨[], List.nodup_nil⟩

instance : Inhabited (Table κ α) := ⟨empty⟩

instance : EmptyCollection (Table κ α) := ⟨empty⟩

def keys (t : Table κ α) : List κ := t.entries.map Prod.fst

def values (t : Table κ α) : List α := t.entries.map Prod.snd

def size (t : Table κ α) : Nat := t.entries.length

/-! ### Entry lists -/

def find? (k : κ) : List (κ × α) → Option α
  | [] => none
  | e :: es => if e.1 = k then some e.2 else find? k es

/-- Gives `k` the value `v`, at the end if the key is new. -/
def place (k : κ) (v : α) : List (κ × α) → List (κ × α)
  | [] => [(k, v)]
  | e :: es => if e.1 = k then (k, v) :: es else e :: place k v es

def without (k : κ) (es : List (κ × α)) : List (κ × α) := es.filter fun e => e.1 ≠ k

theorem map_fst_place (k : κ) (v : α) (es : List (κ × α)) :
    (place k v es).map Prod.fst =
      if k ∈ es.map Prod.fst then es.map Prod.fst else es.map Prod.fst ++ [k] := by
  induction es with
  | nil => simp [place]
  | cons e es ih =>
      by_cases h : e.1 = k
      · simp [place, h]
      · have h' : ¬ k = e.1 := fun e' => h e'.symm
        simp only [place, h, if_false, List.map_cons, ih, List.mem_cons, h', false_or]
        split <;> simp

theorem nodup_place {k : κ} {v : α} {es : List (κ × α)} (h : (es.map Prod.fst).Nodup) :
    ((place k v es).map Prod.fst).Nodup := by
  rw [map_fst_place]
  split
  · exact h
  · next hk =>
      rw [List.nodup_append]
      refine ⟨h, by simp, ?_⟩
      intro a ha b hb
      rw [List.mem_singleton] at hb
      subst hb
      intro he
      exact hk (he ▸ ha)

theorem nodup_without {k : κ} {es : List (κ × α)} (h : (es.map Prod.fst).Nodup) :
    ((without k es).map Prod.fst).Nodup :=
  h.sublist (List.filter_sublist.map _)

theorem find?_place (k l : κ) (v : α) (es : List (κ × α)) :
    find? l (place k v es) = if k = l then some v else find? l es := by
  induction es with
  | nil => simp [place, find?]
  | cons e es ih =>
      by_cases h : e.1 = k
      · by_cases hl : k = l <;> simp [place, find?, h, hl]
      · by_cases hl : e.1 = l
        · have hk : k ≠ l := fun hk => h (hl.trans hk.symm)
          simp [place, find?, hl, hk, hk.symm]
        · simp [place, find?, h, hl, ih]

/-- To put what is there changes nothing. -/
theorem place_of_find? {k : κ} {v : α} {es : List (κ × α)} (h : find? k es = some v) :
    place k v es = es := by
  induction es with
  | nil => cases h
  | cons e es ih =>
      rw [find?] at h
      rw [place]
      by_cases he : e.1 = k
      · rw [if_pos he, Option.some.injEq] at h
        rw [if_pos he, ← he, ← h]
      · rw [if_neg he] at h
        rw [if_neg he, ih h]

theorem place_place (k : κ) (v w : α) (es : List (κ × α)) :
    place k w (place k v es) = place k w es := by
  induction es with
  | nil => simp [place]
  | cons e es ih => by_cases he : e.1 = k <;> simp [place, he, ih]

theorem without_place (k : κ) (v : α) (es : List (κ × α)) :
    without k (place k v es) = without k es := by
  induction es with
  | nil => simp [place, without]
  | cons e es ih =>
      by_cases he : e.1 = k
      · simp [place, without, he]
      · rw [place, if_neg he, without, List.filter_cons, ← without, ih, without, without,
          List.filter_cons]

theorem find?_without (k l : κ) (es : List (κ × α)) :
    find? l (without k es) = if k = l then none else find? l es := by
  induction es with
  | nil => simp [without, find?]
  | cons e es ih =>
      simp only [without] at ih
      by_cases h : e.1 = k
      · by_cases hl : k = l
        · simpa [without, find?, h, hl] using ih
        · have : e.1 ≠ l := fun he => hl (h.symm.trans he)
          simpa [without, find?, h, hl, this] using ih
      · by_cases hl : e.1 = l
        · have hk : k ≠ l := fun hk => h (hl.trans hk.symm)
          simp [without, find?, hl, hk, hk.symm]
        · simpa [without, find?, h, hl] using ih

theorem find?_eq_some_iff {k : κ} {v : α} {es : List (κ × α)} (h : (es.map Prod.fst).Nodup) :
    find? k es = some v ↔ (k, v) ∈ es := by
  induction es with
  | nil => simp [find?]
  | cons e es ih =>
      rw [List.map_cons, List.nodup_cons] at h
      by_cases he : e.1 = k
      · subst he
        simp only [find?, if_true, Option.some.injEq, List.mem_cons]
        constructor
        · intro hv
          exact .inl (by rw [← hv])
        · rintro (hv | hv)
          · rw [← hv]
          · exact absurd (List.mem_map.2 ⟨_, hv, rfl⟩) h.1
      · rw [find?, if_neg he, ih h.2, List.mem_cons]
        constructor
        · exact .inr
        · rintro (hv | hv)
          · exact absurd (by rw [← hv]) he
          · exact hv

/-! ### Operations -/

def get? (t : Table κ α) (k : κ) : Option α := find? k t.entries

def contains (t : Table κ α) (k : κ) : Bool := (t.get? k).isSome

def put (t : Table κ α) (k : κ) (v : α) : Table κ α := ⟨place k v t.entries, nodup_place t.distinct⟩

def erase (t : Table κ α) (k : κ) : Table κ α := ⟨without k t.entries, nodup_without t.distinct⟩

omit [DecidableEq κ] in
/-- Keeps the entries whose value passes. -/
def filter (t : Table κ α) (p : α → Bool) : Table κ α :=
  ⟨t.entries.filter fun e => p e.2, t.distinct.sublist (List.filter_sublist.map _)⟩

@[simp] theorem get?_empty (k : κ) : (empty : Table κ α).get? k = none := rfl

theorem get?_put (t : Table κ α) (k l : κ) (v : α) :
    (t.put k v).get? l = if k = l then some v else t.get? l :=
  find?_place k l v t.entries

@[simp] theorem get?_put_self (t : Table κ α) (k : κ) (v : α) : (t.put k v).get? k = some v := by
  simp [get?_put]

theorem get?_put_of_ne {k l : κ} (h : k ≠ l) (t : Table κ α) (v : α) :
    (t.put k v).get? l = t.get? l := by
  simp [get?_put, h]

theorem put_eq_self {t : Table κ α} {k : κ} {v : α} (h : t.get? k = some v) : t.put k v = t :=
  ext (place_of_find? h)

theorem get?_erase (t : Table κ α) (k l : κ) :
    (t.erase k).get? l = if k = l then none else t.get? l :=
  find?_without k l t.entries

@[simp] theorem get?_erase_self (t : Table κ α) (k : κ) : (t.erase k).get? k = none := by
  simp [get?_erase]

theorem put_put (t : Table κ α) (k : κ) (v w : α) : (t.put k v).put k w = t.put k w :=
  ext (place_place k v w t.entries)

theorem erase_put (t : Table κ α) (k : κ) (v : α) : (t.put k v).erase k = t.erase k :=
  ext (without_place k v t.entries)

theorem get?_eq_some_iff {t : Table κ α} {k : κ} {v : α} :
    t.get? k = some v ↔ (k, v) ∈ t.entries :=
  find?_eq_some_iff t.distinct

end Table

end Conflux
