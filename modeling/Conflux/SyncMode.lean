import Conflux.Envelope

/-!
How bundles of one type combine while they wait. A complete bundle stands for
everything before it. A delta bundle is a list of changes, and changes add up; where
the changes carry a key, a later record takes the place of the earlier ones with
an equal key.
-/

namespace Conflux

inductive SyncMode where
  | complete
  | delta (key? : Option String)
deriving DecidableEq, Repr

namespace SyncMode

def isDelta : SyncMode → Bool
  | complete => false
  | delta _ => true

/-- The values that some records have in a field. -/
def keyValues (field : String) (records : List Json) : List Json :=
  records.filterMap (·.field? field)

/-- A record is outdated by records that have an equal value in its key field. A
record without that field never is. -/
def outdated (field : String) (later : List Json) (record : Json) : Bool :=
  match record.field? field with
  | some key => (keyValues field later).any (·.eqv key)
  | none => false

/-- The earlier records that stay when later ones come. -/
def surviving (key? : Option String) (earlier later : List Json) : List Json :=
  match key? with
  | some field => earlier.filter fun record => !outdated field later record
  | none => earlier

/-- The bundle that stands for `base` and the newer `incoming` together. -/
def merge (mode : SyncMode) (base incoming : Envelope) : Envelope :=
  match mode with
  | complete => incoming
  | delta key? =>
      { incoming with
        data := surviving key? base.data incoming.data ++ incoming.data
        dependencyVersion :=
          Version.maxOption incoming.dependencyVersion base.dependencyVersion }

@[simp] theorem merge_version (mode : SyncMode) (base incoming : Envelope) :
    (mode.merge base incoming).version = incoming.version := by
  cases mode <;> rfl

end SyncMode

end Conflux
