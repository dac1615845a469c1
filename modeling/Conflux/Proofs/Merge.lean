import Conflux.Proofs.Json.Equality
import Conflux.Proofs.Version
import Conflux.SyncMode
import Mathlib.Data.List.Induction

/-!
Merging is associative in every mode, so a row of bundles means one bundle however the
merges are grouped: `mergeAll` takes them from the left, and merging two rows gives the
bundle of the joined row. This is what lets a failed delta go back beneath newer ones.
-/

namespace Conflux.SyncMode

/-! ### Outdated records -/

theorem keyValues_append (field : String) (xs ys : List Json) :
    keyValues field (xs ++ ys) = keyValues field xs ++ keyValues field ys :=
  List.filterMap_append

theorem outdated_append (field : String) (xs ys : List Json) (record : Json) :
    outdated field (xs ++ ys) record = (outdated field xs record || outdated field ys record) := by
  rw [outdated, outdated, outdated]
  split
  · rw [keyValues_append, List.any_append]
  · rfl

theorem outdated_iff {field : String} {later : List Json} {record : Json} :
    outdated field later record = true ↔
      ∃ key, record.field? field = some key ∧
        ∃ r ∈ later, ∃ k, r.field? field = some k ∧ k.eqv key = true := by
  cases hkey : record.field? field with
  | none => simp [outdated, hkey]
  | some key =>
      simp only [outdated, hkey, keyValues, List.any_eq_true, List.mem_filterMap,
        Option.some.injEq, exists_eq_left']
      constructor
      · rintro ⟨k, ⟨r, hr, hk⟩, he⟩
        exact ⟨r, hr, k, hk, he⟩
      · rintro ⟨r, hr, k, hk, he⟩
        exact ⟨k, ⟨r, hr, hk⟩, he⟩

theorem surviving_nil (key? : Option String) (earlier : List Json) :
    surviving key? earlier [] = earlier := by
  cases key? with
  | none => rfl
  | some field =>
      have hnone (record : Json) : outdated field [] record = false := by
        rw [outdated]
        split <;> rfl
      rw [surviving, List.filter_eq_self]
      intro record _
      rw [hnone, Bool.not_false]

theorem surviving_append_left (key? : Option String) (xs ys later : List Json) :
    surviving key? (xs ++ ys) later = surviving key? xs later ++ surviving key? ys later := by
  cases key? with
  | none => rfl
  | some field => exact List.filter_append xs ys

theorem surviving_append_right (key? : Option String) (earlier xs ys : List Json) :
    surviving key? earlier (xs ++ ys) = surviving key? (surviving key? earlier xs) ys := by
  cases key? with
  | none => rfl
  | some field =>
      rw [surviving, surviving, surviving, List.filter_filter]
      congr 1
      funext record
      rw [outdated_append]
      cases outdated field xs record <;> cases outdated field ys record <;> rfl

/-- Records that are themselves outdated need not be looked at: what has an equal key
to theirs is outdated as well. -/
theorem surviving_surviving (key? : Option String) (earlier middle later : List Json) :
    surviving key? earlier (surviving key? middle later ++ later) =
      surviving key? earlier (middle ++ later) := by
  cases key? with
  | none => rfl
  | some field =>
      simp only [surviving]
      congr 1
      funext record
      congr 1
      rw [outdated_append, outdated_append, Bool.eq_iff_iff, Bool.or_eq_true, Bool.or_eq_true]
      constructor
      · rintro (h | h)
        · obtain ⟨key, hkey, r, hr, k, hk, he⟩ := outdated_iff.1 h
          exact .inl (outdated_iff.2 ⟨key, hkey, r, (List.mem_filter.1 hr).1, k, hk, he⟩)
        · exact .inr h
      · rintro (h | h)
        · obtain ⟨key, hkey, r, hr, k, hk, he⟩ := outdated_iff.1 h
          by_cases hout : outdated field later r = true
          · obtain ⟨k', hk', r', hr', l, hl, hlk⟩ := outdated_iff.1 hout
            -- The record `r` is gone, and the one that replaced it replaces this one, too.
            obtain rfl : k = k' := Option.some.inj (hk.symm.trans hk')
            exact .inr (outdated_iff.2 ⟨key, hkey, r', hr', l, hl, Json.eqv_trans hlk he⟩)
          · have hkept : r ∈ middle.filter fun record => !outdated field later record :=
              List.mem_filter.2 ⟨hr, by simpa using hout⟩
            exact .inl (outdated_iff.2 ⟨key, hkey, r, hkept, k, hk, he⟩)
        · exact .inr h

/-! ### Merging -/

theorem merge_assoc (mode : SyncMode) (a b c : Envelope) :
    mode.merge (mode.merge a b) c = mode.merge a (mode.merge b c) := by
  cases mode with
  | complete => rfl
  | delta key? =>
      have hdata : surviving key? (surviving key? a.data b.data ++ b.data) c.data ++ c.data =
          surviving key? a.data (surviving key? b.data c.data ++ c.data) ++
            (surviving key? b.data c.data ++ c.data) := by
        rw [surviving_append_left, surviving_surviving, surviving_append_right,
          List.append_assoc]
      simp only [merge, hdata, Version.maxOption_assoc]

/-- The bundle that a row of bundles stands for. -/
def mergeAll (mode : SyncMode) : List Envelope → Option Envelope
  | [] => none
  | e :: es => some (es.foldl mode.merge e)

@[simp] theorem mergeAll_nil (mode : SyncMode) : mode.mergeAll [] = none := rfl

@[simp] theorem mergeAll_singleton (mode : SyncMode) (e : Envelope) :
    mode.mergeAll [e] = some e := rfl

theorem mergeAll_eq_none_iff {mode : SyncMode} {es : List Envelope} :
    mode.mergeAll es = none ↔ es = [] := by
  cases es with
  | nil => simp
  | cons e es => simp [mergeAll]

theorem mergeAll_concat {mode : SyncMode} {es : List Envelope} {b : Envelope}
    (h : mode.mergeAll es = some b) (e : Envelope) :
    mode.mergeAll (es ++ [e]) = some (mode.merge b e) := by
  cases es with
  | nil => cases h
  | cons d es =>
      obtain rfl : es.foldl mode.merge d = b := Option.some.inj h
      rw [List.cons_append, mergeAll, List.foldl_append, List.foldl_cons, List.foldl_nil]

theorem foldl_merge (mode : SyncMode) (a b : Envelope) (es : List Envelope) :
    es.foldl mode.merge (mode.merge a b) = mode.merge a (es.foldl mode.merge b) := by
  induction es generalizing b with
  | nil => rfl
  | cons e es ih => rw [List.foldl_cons, merge_assoc, ih, List.foldl_cons]

theorem mergeAll_append {mode : SyncMode} {es fs : List Envelope} {a b : Envelope}
    (ha : mode.mergeAll es = some a) (hb : mode.mergeAll fs = some b) :
    mode.mergeAll (es ++ fs) = some (mode.merge a b) := by
  cases es with
  | nil => cases ha
  | cons d es =>
      cases fs with
      | nil => cases hb
      | cons e fs =>
          obtain rfl : es.foldl mode.merge d = a := Option.some.inj ha
          obtain rfl : fs.foldl mode.merge e = b := Option.some.inj hb
          rw [List.cons_append, mergeAll, List.foldl_append, List.foldl_cons, foldl_merge]

/-! ### What a row means -/

theorem mergeAll_complete (es : List Envelope) : complete.mergeAll es = es.getLast? := by
  induction es using List.reverseRecOn with
  | nil => rfl
  | append_singleton es e ih =>
      rw [List.getLast?_concat]
      cases h : complete.mergeAll es with
      | none => rw [mergeAll_eq_none_iff.1 h, List.nil_append, mergeAll_singleton]
      | some b => rw [mergeAll_concat h, merge]

/-- The records of a row of change sets that no later change set has replaced. -/
def standing (key? : Option String) : List (List Json) → List Json
  | [] => []
  | records :: later => surviving key? records later.flatten ++ standing key? later

theorem standing_concat (key? : Option String) (rows : List (List Json)) (last : List Json) :
    standing key? (rows ++ [last]) = surviving key? (standing key? rows) last ++ last := by
  induction rows with
  | nil =>
      have hnil : surviving key? [] last = [] := by cases key? <;> rfl
      rw [List.nil_append, standing, standing, standing, List.flatten_nil, surviving_nil, hnil,
        List.append_nil, List.nil_append]
  | cons row rows ih =>
      rw [List.cons_append, standing, ih, standing, List.flatten_append, List.flatten_singleton,
        surviving_append_right, surviving_append_left, List.append_assoc]

theorem mergeAll_delta_data {key? : Option String} {es : List Envelope} {b : Envelope}
    (h : (delta key?).mergeAll es = some b) : b.data = standing key? (es.map (·.data)) := by
  induction es using List.reverseRecOn generalizing b with
  | nil => cases h
  | append_singleton es e ih =>
      rw [List.map_append, List.map_singleton, standing_concat]
      cases hes : (delta key?).mergeAll es with
      | none =>
          rw [mergeAll_eq_none_iff.1 hes] at h ⊢
          obtain rfl : e = b := Option.some.inj h
          cases key? <;> rfl
      | some a =>
          rw [mergeAll_concat hes] at h
          obtain rfl : (delta key?).merge a e = b := Option.some.inj h
          rw [← ih hes, merge]

end Conflux.SyncMode
