/-!
Paths in a tree of files: the names on the way from the root. As text, a path stands
behind the name of the directory it starts from. Two points are taken for a name like
any other, though a file system goes back up at them; so what is said here of trees
holds of a file system for the paths without them.
-/

namespace Conflux.Files

abbrev Path := List String

namespace Path

/-- Where the last name of a path is looked up. -/
def parent (p : Path) : Path := p.dropLast

/-- The directories on the way to the last name, the outermost first. -/
def ancestors (p : Path) : List Path :=
  (List.range p.dropLast.length).map fun i => p.take (i + 1)

/-- The length of what stands before the last point, if there is one. -/
def lastPoint? : List Char → Option Nat
  | [] => none
  | c :: cs =>
      match lastPoint? cs with
      | some n => some (n + 1)
      | none => if c = '.' then some 0 else none

/-- A name without its extension, which begins at the last point. A point at the start
begins no extension. -/
def stem (name : String) : String :=
  if name = ".." then name
  else
    match lastPoint? name.toList with
    | none => name
    | some 0 => name
    | some n => String.ofList (name.toList.take n)

/-- A name with another extension. -/
def retype (name extension : String) : String := stem name ++ "." ++ extension

/-- The path with another extension at its last name, if it has one. -/
def withExtension (p : Path) (extension : String) : Path :=
  match p.getLast? with
  | none => p
  | some name => if name = ".." then p else p.parent ++ [retype name extension]

/-! ### Text -/

/-- What `part` means below `base`: an absolute path stands for itself. -/
def join (base part : String) : String :=
  match part.toList.head?, base.toList.getLast? with
  | some '/', _ => part
  | _, none => part
  | _, some '/' => base ++ part
  | _, some _ => base ++ "/" ++ part

/-- The path as text, behind the directory it starts from. -/
def text (base : String) (p : Path) : String := p.foldl join base

end Path

end Conflux.Files
