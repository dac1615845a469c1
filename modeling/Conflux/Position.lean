import Conflux.Decimal
import Conflux.Json.Record

/-!
Positions in a transport log. Positions are ordered by topic, partition and offset.
-/

namespace Conflux

structure Position where
  topic : String
  partition : UInt32
  offset : UInt64
deriving DecidableEq, Repr, Inhabited

namespace Position

def Less (a b : Position) : Prop :=
  a.topic < b.topic ∨ a.topic = b.topic ∧
    (a.partition < b.partition ∨ a.partition = b.partition ∧ a.offset < b.offset)

instance : LT Position := ⟨Less⟩
instance : LE Position := ⟨fun a b => ¬ b < a⟩

instance decidableLT (a b : Position) : Decidable (a < b) :=
  inferInstanceAs (Decidable (_ ∨ _))

instance decidableLE (a b : Position) : Decidable (a ≤ b) :=
  inferInstanceAs (Decidable (¬ _))

theorem lt_iff {a b : Position} :
    a < b ↔ a.topic < b.topic ∨ a.topic = b.topic ∧
      (a.partition < b.partition ∨ a.partition = b.partition ∧ a.offset < b.offset) :=
  Iff.rfl

/-- The earlier of two positions. -/
def earlier (a b : Position) : Position := if b < a then b else a

/-! ### JSON form -/

def toJson (p : Position) : Json :=
  .object [("topic", .string p.topic), ("partition", .int p.partition.toNat),
    ("offset", .int p.offset.toNat)]

inductive Field where
  | topic (s : String)
  | partition (n : Nat)
  | offset (n : Nat)

def fieldNames : List String := ["topic", "partition", "offset"]

def field (name : String) : Json.Scan Field :=
  if name = "topic" then fun s => (Json.string? s).map fun p => (.topic p.1, p.2)
  else if name = "partition" then fun s =>
    (Json.natural? Decimal.maxUInt32 s).map fun p => (.partition p.1, p.2)
  else fun s => (Json.natural? Decimal.maxUInt64 s).map fun p => (.offset p.1, p.2)

/-- All three fields, once each. -/
def ofFields? (fields : List (String × Field)) : Option Position :=
  if Json.distinctNames fields then
    match fields.lookup "topic", fields.lookup "partition", fields.lookup "offset" with
    | some (.topic t), some (.partition p), some (.offset o) =>
        some ⟨t, UInt32.ofNat p, UInt64.ofNat o⟩
    | _, _, _ => none
  else none

def read? : Json.Scan Position := fun s => do
  let (fields, r) ← Json.record? fieldNames field s
  let p ← ofFields? fields
  some (p, r)

end Position

end Conflux
