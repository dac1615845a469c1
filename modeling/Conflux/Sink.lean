import Conflux.Envelope
import Conflux.Files.Replace
import Conflux.Position

/-!
The sink keeps the last bundle of every source and type in a file of its own: a
directory for the source, and in it a file for the type. Neither name is ever two points;
the root of the sink should have none either.
-/

namespace Conflux.Sink

/-! ### Where a bundle is kept -/

/-- Letters and digits, and the three signs that mean nothing in a name. -/
def plain (c : Char) : Bool := c.isAlphanum || c == '-' || c == '_' || c == '.'

/-- A name for a file: what is not plain becomes a low line, and a name that would
mean a directory gets one in front. -/
def safeName (s : String) : String :=
  let cleaned := String.ofList (s.toList.map fun c => if plain c then c else '_')
  if cleaned = "" ∨ cleaned = "." ∨ cleaned = ".." then "_" ++ cleaned else cleaned

/-- The place of a bundle below the root of the sink. -/
def place (source bundleType : String) : Files.Path :=
  [safeName source, safeName bundleType ++ ".json"]

/-! ### What is kept -/

structure Stored where
  version : Version
  dependencyVersion : Option Version
  position : Position
  bundle : Envelope
deriving Repr

namespace Stored

def toJson (s : Stored) : Json :=
  .object ([("version", .string s.version.text)] ++
    (match s.dependencyVersion with
      | some v => [("dependency_version", .string v.text)]
      | none => []) ++
    [("position", s.position.toJson), ("bundle", s.bundle.toJson)])

def encode (s : Stored) : Bytes := s.toJson.pretty

end Stored

/-- Keeps a bundle below `root`, in the place of the one before it. -/
def store (t : Files.Tree) (root : Files.Path) (s : Stored) (fault : Option Files.Tree.Fault) :
    Files.Tree × Except Files.WriteError Unit :=
  t.replaceWith (root ++ place s.bundle.source s.bundle.bundleType) s.encode fault

end Conflux.Sink
