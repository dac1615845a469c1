import Conflux.Decimal
import Conflux.Text.Quoted

/-!
Bundle versions. A version is a pair compared lexicographically: `value` moves on
every change of content, and `generation` catches up with it once the bundle has
been handed to the transport, so `generation < value` says "changed but not sent".
-/

namespace Conflux

structure Version where
  generation : UInt64
  value : UInt64
deriving DecidableEq, Hashable, Inhabited, Repr

namespace Version

def zero : Version := ⟨0, 0⟩

/-! ### Order -/

/-- Lexicographic: the generation decides, then the value. -/
def Less (a b : Version) : Prop :=
  a.generation < b.generation ∨ a.generation = b.generation ∧ a.value < b.value

instance : LT Version := ⟨Less⟩
instance : LE Version := ⟨fun a b => ¬ b < a⟩

instance decidableLT (a b : Version) : Decidable (a < b) :=
  inferInstanceAs (Decidable (_ ∨ _))

instance decidableLE (a b : Version) : Decidable (a ≤ b) :=
  inferInstanceAs (Decidable (¬ _))

theorem lt_iff {a b : Version} :
    a < b ↔ a.generation < b.generation ∨ a.generation = b.generation ∧ a.value < b.value :=
  Iff.rfl

def newerThan (a b : Version) : Bool := decide (b < a)

def max (a b : Version) : Version := if a < b then b else a

/-- The later of two optional versions; an absent one is earlier than any other. -/
def maxOption : Option Version → Option Version → Option Version
  | none, b => b
  | some a, none => some a
  | some a, some b => some (max a b)

def compare (a b : Version) : Ordering :=
  if a < b then .lt else if b < a then .gt else .eq

/-! ### The producer's two moves -/

/-- The content changed: one more value. There is none after the greatest word. -/
def bump? (v : Version) : Option Version :=
  if v.value.toNat + 1 < UInt64.size then some { v with value := v.value + 1 } else none

/-- The bundle was handed over: the generation catches up. -/
def catchUp (v : Version) : Version := { v with generation := v.value }

/-- Changed since it was last handed over. -/
def unsent (v : Version) : Bool := decide (v.generation < v.value)

/-! ### Text -/

/-- `<generation>.<value>` in decimal. -/
def text (v : Version) : String :=
  Decimal.write v.generation.toNat ++ "." ++ Decimal.write v.value.toNat

inductive ParseError where
  /-- There is no point that parts the two numbers. -/
  | malformed (text : String)
  /-- One of the two parts is no 64-bit numeral. -/
  | notNumeric (text : String)
deriving DecidableEq, Repr

def ParseError.message : ParseError → String
  | malformed s => "version " ++ Text.quoted s ++ " is not of the form <generation>.<value>"
  | notNumeric s => "version " ++ Text.quoted s ++ " has a non-numeric component"

/-- What stands before the first point and what stands after it. -/
def splitPoint : List Char → Option (List Char × List Char)
  | [] => none
  | c :: cs => if c = '.' then some ([], cs) else (splitPoint cs).map fun p => (c :: p.1, p.2)

def parse (s : String) : Except ParseError Version :=
  match splitPoint s.toList with
  | none => .error (.malformed s)
  | some (before, after) =>
      match Decimal.readUInt64? before, Decimal.readUInt64? after with
      | some g, some v => .ok ⟨g, v⟩
      | _, _ => .error (.notNumeric s)

end Version

/-! ### When to send -/

/-- A producer's stamp: the current version, and the version current right after
the last hand-over. -/
structure Outbox where
  current : Version
  lastSent : Option Version
deriving DecidableEq, Repr

namespace Outbox

def fresh : Outbox := ⟨.zero, none⟩

def markChanged? (o : Outbox) : Option Outbox :=
  o.current.bump?.map fun v => { o with current := v }

/-- The stamp that a bundle sent now carries. -/
def stamp (o : Outbox) : Version := o.current

/-- Nothing was sent yet, or the content changed since. -/
def due (o : Outbox) : Bool :=
  match o.lastSent with
  | some sent => o.current.newerThan sent
  | none => true

def markSent (o : Outbox) : Outbox :=
  { current := o.current.catchUp, lastSent := some o.current.catchUp }

def sendIfDue (o : Outbox) : Outbox := if o.due then o.markSent else o

end Outbox

end Conflux
