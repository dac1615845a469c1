import Conflux.Json.Reader

/-!
Records in JSON text: an object with known field names, each at most once, or an
array with the fields in their order, of which the last ones may be missing. What an
object has besides is passed over; an array must not go on.
-/

namespace Conflux.Json

/-- The named fields of a record. A field reader is looked up by name. -/
def record? {α : Type} (names : List String) (field : String → Scan α) : Scan (List (String × α)) :=
  fun s =>
    match skipBlank s with
    | 0x7b :: r =>
        (sequence? 0x7d
          (fun _ => member? fun k r =>
            if k ∈ names then (field k r).map fun p => (some p.1, p.2)
            else (skipValue? r).map fun p => (none, p.2)) r).map fun p =>
          (p.1.filterMap fun m => m.2.map fun x => (m.1, x), p.2)
    | 0x5b :: r =>
        (sequence? 0x5d
          (fun i r =>
            match names[i]? with
            | some k => (field k r).map fun p => ((k, p.1), p.2)
            | none => none) r)
    | _ => none

/-- Every name occurs once at most. -/
def distinctNames {α : Type} (fields : List (String × α)) : Bool :=
  decide (fields.map (·.1)).Nodup

/-! ### Readers of single fields -/

/-- A field that may be `null`. -/
def nullable? {α : Type} (scan : Scan α) : Scan (Option α) := fun s =>
  match skipBlank s with
  | 0x6e :: r => (word? [0x75, 0x6c, 0x6c] r).map fun r => (none, r)
  | r => (scan r).map fun p => (some p.1, p.2)

/-- A natural number up to a bound, written as an integer. -/
def natural? (bound : Nat) : Scan Nat := fun s =>
  match scalar? s with
  | some (int i, r) => if 0 ≤ i ∧ i.toNat ≤ bound then some (i.toNat, r) else none
  | _ => none

/-- An array of any values, nested at most `room` deep in themselves. -/
def values? (room : Nat) : Scan (List Json) := fun s =>
  match skipBlank s with
  | 0x5b :: r => sequence? 0x5d (fun _ => value? room) r
  | _ => none

/-- An array of items. -/
def list? {α : Type} (item : Scan α) : Scan (List α) := fun s =>
  match skipBlank s with
  | 0x5b :: r => sequence? 0x5d (fun _ => item) r
  | _ => none

end Conflux.Json
