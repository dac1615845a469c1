/-!
Values of a configuration text. Numbers with a fraction and moments in time mean
nothing to the settings and are kept as they were written.
-/

namespace Conflux.Toml

inductive Value where
  | string (s : String)
  | integer (i : Int)
  | float (written : String)
  | moment (written : String)
  | bool (b : Bool)
  | array (items : List Value)
  | table (entries : List (String × Value))
deriving Inhabited, Repr

namespace Value

/-- An array or a table without anything in it. -/
def isEmpty : Value → Bool
  | array [] => true
  | table [] => true
  | _ => false

end Value

end Conflux.Toml
