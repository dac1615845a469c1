import Conflux.Files.Tree

/-!
Replacing a file in one stroke. The new content is first written to a temporary file
beside the target and put in its place by a rename, which happens or does not. The
work is a list of steps, each of which succeeds or leaves the tree alone, so that a
run can be looked at wherever it stops. The directories that are missing on the way to
the target are made first; so a path with two points behind one of them leads nowhere
before, and to something else afterwards.
-/

namespace Conflux.Files

/-- What a replacement failed to do. -/
inductive WriteError where
  | createDirectory
  | createTemporary
  | writeData
  | syncData
  | rename
deriving DecidableEq, Repr

def WriteError.message : WriteError → String
  | createDirectory => "failed to create directory"
  | createTemporary => "failed to create temp file"
  | writeData => "failed to write data"
  | syncData => "failed to sync to disk"
  | rename => "failed to rename"

inductive Step where
  | makeDirectory (path : Path)
  | create (path : Path)
  | append (path : Path) (data : Bytes)
  /-- Nothing that a reader of the tree could see. -/
  | sync (path : Path)
  | rename (source target : Path)
deriving DecidableEq, Repr

namespace Step

def error : Step → WriteError
  | makeDirectory _ => .createDirectory
  | create _ => .createTemporary
  | append _ _ => .writeData
  | sync _ => .syncData
  | rename _ _ => .rename

def run? (t : Tree) : Step → Option Tree
  | makeDirectory p => t.makeDirectory? p
  | create p => t.create? p
  | append p data => t.append? p data
  | sync _ => some t
  | rename source target => t.rename? source target

/-- As much of a step as is done when only `written` bytes can be written. -/
def part (written : Nat) : Step → List Step
  | append p data => [append p (data.take written)]
  | _ => []

end Step

namespace Tree

/-- Runs steps up to the first that fails. -/
def runSteps (t : Tree) : List Step → Tree × Except WriteError Unit
  | [] => (t, .ok ())
  | s :: ss =>
      match s.run? t with
      | some t => t.runSteps ss
      | none => (t, .error s.error)

def temporary (path : Path) : Path := path.withExtension "tmp"

def replaceSteps (path : Path) (data : Bytes) : List Step :=
  path.ancestors.map .makeDirectory ++
    [.create (temporary path), .append (temporary path) data, .sync (temporary path),
      .rename (temporary path) path]

/-- Replaces the content of a file, or makes the file. -/
def replace (t : Tree) (path : Path) (data : Bytes) : Tree × Except WriteError Unit :=
  t.runSteps (replaceSteps path data)

/-- Something from outside that breaks a replacement off. -/
structure Fault where
  /-- The step that fails. -/
  step : Nat
  /-- How much is written if that step writes. -/
  written : Nat
deriving DecidableEq, Repr

/-- A replacement that breaks off, unless it has failed before or is through. -/
def replaceUntil (t : Tree) (path : Path) (data : Bytes) (fault : Fault) :
    Tree × Except WriteError Unit :=
  match (replaceSteps path data)[fault.step]? with
  | none => t.replace path data
  | some failing =>
      match t.runSteps ((replaceSteps path data).take fault.step ++ failing.part fault.written) with
      | (t, .ok ()) => (t, .error failing.error)
      | (t, .error e) => (t, .error e)

/-- A replacement, with or without a fault. -/
def replaceWith (t : Tree) (path : Path) (data : Bytes) : Option Fault →
    Tree × Except WriteError Unit
  | none => t.replace path data
  | some fault => t.replaceUntil path data fault

end Tree

end Conflux.Files
