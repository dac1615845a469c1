import Conflux.Double

/-!
JSON values. An object lists its members; reading keeps them sorted by key with
one member for each key, and writing follows the list. Equality of values
(`Json.eqv`) tells an integer from a double, takes the two zeros as equal and goes
through arrays and objects item by item.
-/

namespace Conflux

inductive Json where
  | null
  | bool (b : Bool)
  | int (i : Int)
  | double (x : Double)
  | string (s : String)
  | array (items : List Json)
  | object (members : List (String × Json))
deriving Inhabited, Repr

namespace Json

def isNull : Json → Bool
  | null => true
  | _ => false

mutual

def eqv : Json → Json → Bool
  | null, null => true
  | bool a, bool b => a == b
  | int a, int b => a == b
  | double a, double b => a.eqv b
  | string a, string b => a == b
  | array xs, array ys => eqvItems xs ys
  | object xs, object ys => eqvMembers xs ys
  | _, _ => false

def eqvItems : List Json → List Json → Bool
  | [], [] => true
  | x :: xs, y :: ys => eqv x y && eqvItems xs ys
  | _, _ => false

def eqvMembers : List (String × Json) → List (String × Json) → Bool
  | [], [] => true
  | (k, x) :: xs, (l, y) :: ys => k == l && eqv x y && eqvMembers xs ys
  | _, _ => false

end

/-- The value of a field, if the value is an object that has it. -/
def field? (name : String) : Json → Option Json
  | object members => members.lookup name
  | _ => none

/-- Puts a member at its place in a list sorted by key; a member of the same key is
replaced. -/
def putMember (k : String) (v : Json) : List (String × Json) → List (String × Json)
  | [] => [(k, v)]
  | (l, w) :: rest =>
      if k < l then (k, v) :: (l, w) :: rest
      else if k = l then (k, v) :: rest
      else (l, w) :: putMember k v rest

/-- The object with the given members, of which the last one of each key counts. -/
def ofMembers (members : List (String × Json)) : Json :=
  object (members.foldl (fun sorted m => putMember m.1 m.2 sorted) [])

end Json

end Conflux
