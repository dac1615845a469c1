import Conflux.Proofs.Merge
import Mathlib.Logic.Function.Basic

/-!
What change sets leave behind with a reader who takes up their records one after the other: of
each key the last record that has it, and all the records that have none. Merging change sets
leaves records out, but only such as are replaced anyhow by the time the last record is taken
up. So a reader who is handed the merged change set ends up with the same as one who was handed
the change sets one by one.
-/

namespace Conflux

/-- The last record of every key, and the records without a key in the order in which they
came. -/
structure Holdings where
  keyed : Json.Key → Option Json
  keyless : List Json

/-- The key of a record, where there is a key field and the record has it. -/
def Json.keyIn? (record : Json) (key? : Option String) : Option Json.Key :=
  key?.bind fun field => (record.field? field).map Json.key

namespace Holdings

variable {key? : Option String} {t : Holdings} {record later : Json} {k : Json.Key}

def take (key? : Option String) (t : Holdings) (record : Json) : Holdings :=
  match record.keyIn? key? with
  | some k => { t with keyed := Function.update t.keyed k (some record) }
  | none => { t with keyless := t.keyless ++ [record] }

def takeAll (key? : Option String) (t : Holdings) (records : List Json) : Holdings :=
  records.foldl (take key?) t

theorem takeAll_append (key? : Option String) (t : Holdings) (xs ys : List Json) :
    t.takeAll key? (xs ++ ys) = (t.takeAll key? xs).takeAll key? ys :=
  List.foldl_append

/-! ### Two records -/

theorem take_of_key (h : record.keyIn? key? = some k) (t : Holdings) :
    t.take key? record = { t with keyed := Function.update t.keyed k (some record) } := by
  rw [take, h]

theorem take_of_keyless (h : record.keyIn? key? = none) (t : Holdings) :
    t.take key? record = { t with keyless := t.keyless ++ [record] } := by
  rw [take, h]

/-- Of a record nothing is left once another one of its key is taken up. -/
theorem take_take_of_same (h : record.keyIn? key? = some k) (hlater : later.keyIn? key? = some k) :
    (t.take key? record).take key? later = t.take key? later := by
  rw [take_of_key h, take_of_key hlater, take_of_key hlater]
  simp only [Function.update_idem]

theorem take_take_of_ne (h : record.keyIn? key? = some k) (hlater : later.keyIn? key? ≠ some k) :
    (t.take key? record).take key? later = (t.take key? later).take key? record := by
  cases hl : later.keyIn? key? with
  | none =>
      rw [take_of_key h, take_of_keyless hl, take_of_keyless hl, take_of_key h]
  | some l =>
      have hne : l ≠ k := by
        rintro rfl
        exact hlater hl
      rw [take_of_key h, take_of_key hl, take_of_key hl, take_of_key h]
      simp only [Function.update_comm hne]

/-! ### Rows of records -/

/-- A record need not be taken up if one of its key comes later. -/
theorem takeAll_take_of_mem {laters : List Json} (h : record.keyIn? key? = some k)
    (hlater : ∃ later ∈ laters, later.keyIn? key? = some k) :
    (t.take key? record).takeAll key? laters = t.takeAll key? laters := by
  induction laters generalizing t with
  | nil =>
      obtain ⟨later, hmem, _⟩ := hlater
      cases hmem
  | cons next laters ih =>
      change ((t.take key? record).take key? next).takeAll key? laters =
        (t.take key? next).takeAll key? laters
      by_cases hnext : next.keyIn? key? = some k
      · rw [take_take_of_same h hnext]
      · have hrest : ∃ later ∈ laters, later.keyIn? key? = some k := by
          obtain ⟨later, hmem, hl⟩ := hlater
          rcases List.mem_cons.1 hmem with rfl | hmem
          · exact absurd hl hnext
          · exact ⟨later, hmem, hl⟩
        -- The two change places, so that the record stands in front of the rest.
        rw [take_take_of_ne h hnext, ih hrest]

theorem exists_key_of_outdated {field : String} {laters : List Json}
    (h : SyncMode.outdated field laters record = true) :
    ∃ k, record.keyIn? (some field) = some k ∧
      ∃ later ∈ laters, later.keyIn? (some field) = some k := by
  obtain ⟨x, hx, later, hmem, y, hy, heqv⟩ := SyncMode.outdated_iff.1 h
  refine ⟨x.key, ?_, later, hmem, ?_⟩
  · rw [Json.keyIn?, Option.bind_some, hx, Option.map_some]
  · rw [Json.keyIn?, Option.bind_some, hy, Option.map_some, Json.key_eq_iff.2 heqv]

/-- Records that later ones outdate make no difference. -/
theorem takeAll_surviving (key? : Option String) (t : Holdings) (earlier laters : List Json) :
    t.takeAll key? (SyncMode.surviving key? earlier laters ++ laters) =
      (t.takeAll key? earlier).takeAll key? laters := by
  rw [← takeAll_append]
  cases key? with
  | none => rfl
  | some field =>
      rw [SyncMode.surviving]
      induction earlier generalizing t with
      | nil => rfl
      | cons record earlier ih =>
          rw [List.filter_cons]
          cases hout : SyncMode.outdated field laters record with
          | false => exact ih (t.take (some field) record)
          | true =>
              obtain ⟨k, hk, later, hmem, hl⟩ := exists_key_of_outdated hout
              have hdropped := takeAll_take_of_mem (t := t) hk
                ⟨later, List.mem_append_right earlier hmem, hl⟩
              exact (ih t).trans hdropped.symm

end Holdings

/-- However three change sets are merged, the bundle is the same; and whoever takes up the
records of two merged ones holds the same as after those of the older one and then those of the
newer one. -/
theorem SyncMode.merge_keeps_holdings (key? : Option String) (a b c : Envelope) (t : Holdings) :
    let mode := delta key?
    mode.merge (mode.merge a b) c = mode.merge a (mode.merge b c) ∧
      t.takeAll key? (mode.merge a b).data = (t.takeAll key? a.data).takeAll key? b.data :=
  ⟨merge_assoc (delta key?) a b c, t.takeAll_surviving key? a.data b.data⟩

end Conflux
