import Conflux.Bytes
import Conflux.Files.Path
import Conflux.Table

/-!
A tree of files. Every path names a directory, a file or nothing, and the root is a
directory. A name is looked up only in a directory, and no name is longer than 255
bytes. An operation that fails leaves the tree as it was. There are no links, so a path
without two points in it is the only way to what it names.
-/

namespace Conflux.Files

inductive Node where
  | directory
  | file (content : Bytes)
deriving DecidableEq, Repr

structure Tree where
  nodes : Table Path Node
deriving DecidableEq, Repr

/-- Why a file cannot be read. -/
inductive ReadError where
  | notFound
  | isDirectory
  /-- What is on the way is no directory, or a name is too long. -/
  | noWay
deriving DecidableEq, Repr

namespace Tree

def empty : Tree := ⟨.empty⟩

instance : Inhabited Tree := ⟨empty⟩

def node? (t : Tree) (p : Path) : Option Node := if p = [] then some .directory else t.nodes.get? p

def put (t : Tree) (p : Path) (n : Node) : Tree := ⟨t.nodes.put p n⟩

def remove (t : Tree) (p : Path) : Tree := ⟨t.nodes.erase p⟩

/-- The longest name that a directory can hold, in bytes. -/
def longestName : Nat := 255

def fits (name : String) : Bool := decide (name.utf8ByteSize ≤ longestName)

/-- The last name can be looked up: it stands in a directory and is not too long. -/
def reachable (t : Tree) (p : Path) : Bool :=
  match p.getLast? with
  | none => true
  | some name => fits name && decide (t.node? p.parent = some .directory)

/-! ### Reading -/

/-- Follows a path name by name from the directory `here`. -/
def walk (t : Tree) (here : Path) : Path → Except ReadError Bytes
  | [] =>
      match t.node? here with
      | some (.file content) => .ok content
      | some .directory => .error .isDirectory
      | none => .error .notFound
  | name :: rest =>
      match t.node? here with
      | some .directory => if fits name then t.walk (here ++ [name]) rest else .error .noWay
      | some (.file _) => .error .noWay
      | none => .error .notFound

def read? (t : Tree) (p : Path) : Except ReadError Bytes := t.walk [] p

/-- The files with their contents. -/
def files (t : Tree) : List (Path × Bytes) :=
  t.nodes.entries.filterMap fun e =>
    match e.2 with
    | .file content => some (e.1, content)
    | .directory => none

/-! ### Writing -/

/-- Makes a directory, unless there is one. -/
def makeDirectory? (t : Tree) (p : Path) : Option Tree :=
  if t.reachable p then
    match t.node? p with
    | some .directory => some t
    | some (.file _) => none
    | none => some (t.put p .directory)
  else none

/-- Makes an empty file; a file that is there loses its content. -/
def create? (t : Tree) (p : Path) : Option Tree :=
  if t.reachable p then
    match t.node? p with
    | some .directory => none
    | _ => some (t.put p (.file []))
  else none

/-- Appends to a file. -/
def append? (t : Tree) (p : Path) (data : Bytes) : Option Tree :=
  match t.node? p with
  | some (.file content) => some (t.put p (.file (content ++ data)))
  | _ => none

/-- Gives a file another path; a file that is there is replaced. -/
def rename? (t : Tree) (source target : Path) : Option Tree :=
  match t.node? source with
  | some (.file content) =>
      if target = source then some t
      else if t.reachable target then
        match t.node? target with
        | some .directory => none
        | _ => some ((t.put target (.file content)).remove source)
      else none
  | _ => none

end Tree

end Conflux.Files
