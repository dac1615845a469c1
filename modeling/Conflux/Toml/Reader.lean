import Conflux.Toml.Numeral

/-!
Reading a configuration text into statements: headers that open a table or one more
table of a list, and pairs of a key and a value. Inline tables are put together from
pairs by the rules that hold for all tables, which are the first thing here.
-/

namespace Conflux.Toml

/-! ### Tables under construction -/

/-- How a table came to be. -/
inductive Origin where
  /-- It has a header of its own, or it is the whole text. -/
  | header
  /-- A header named it on the way to another table. -/
  | implied
  /-- A key with dots named it. -/
  | dotted
deriving DecidableEq, Repr

inductive Node where
  | value (v : Value)
  | table (origin : Origin) (entries : List (String × Node))
  /-- A list of tables, of which the last one can still grow. -/
  | tables (before : List (List (String × Node))) (last : List (String × Node))
deriving Inhabited

abbrev Entries := List (String × Node)

namespace Entries

def find? (k : String) : Entries → Option Node
  | [] => none
  | e :: es => if e.1 = k then some e.2 else find? k es

def put (k : String) (n : Node) : Entries → Entries
  | [] => [(k, n)]
  | e :: es => if e.1 = k then (k, n) :: es else e :: put k n es

/-- Changes the table at the end of a path, and makes those that are missing on the
way. A key with dots does not go into a table that has a header. -/
def alter? (dotted : Bool) (f : Origin → Entries → Option Entries) :
    (path : List String) → (origin : Origin) → Entries → Option Entries
  | [], origin, es => f origin es
  | k :: ks, _, es =>
      match find? k es with
      | none =>
          let origin := if dotted then Origin.dotted else Origin.implied
          (alter? dotted f ks origin []).map fun t => put k (.table origin t) es
      | some (.value _) => none
      | some (.tables before last) =>
          (alter? dotted f ks .header last).map fun t => put k (.tables before t) es
      | some (.table origin t) =>
          if dotted ∧ origin = .header then none
          else (alter? dotted f ks origin t).map fun t => put k (.table origin t) es

/-- Puts a value at a path. A new key is all it may make in a table, and behind dots
that table must have come to be by dots. -/
def define? (path : List String) (k : String) (v : Value) (origin : Origin) (es : Entries) :
    Option Entries :=
  alter? true
    (fun origin es =>
      if decide (origin = .dotted) = path.isEmpty then none
      else match find? k es with
      | some _ => none
      | none => some (put k (.value v) es))
    path origin es

/-- Opens a table by its header. One that was only implied gets its header now. -/
def openTable? (path : List String) (k : String) (es : Entries) : Option Entries :=
  alter? false
    (fun _ es =>
      match find? k es with
      | none => some (put k (.table .header []) es)
      | some (.table .implied t) => some (put k (.table .header t) es)
      | some _ => none)
    path .header es

/-- Opens one more table in a list of tables. -/
def openNext? (path : List String) (k : String) (es : Entries) : Option Entries :=
  alter? false
    (fun _ es =>
      match find? k es with
      | none => some (put k (.tables [] []) es)
      | some (.tables before last) => some (put k (.tables (before ++ [last]) []) es)
      | some _ => none)
    path .header es

end Entries

mutual

def Node.toValue : Node → Value
  | .value v => v
  | .table _ es => .table (entryValues es)
  | .tables before last => .array (tableValues before ++ [.table (entryValues last)])

def entryValues : List (String × Node) → List (String × Value)
  | [] => []
  | (k, n) :: es => (k, n.toValue) :: entryValues es

def tableValues : List (List (String × Node)) → List Value
  | [] => []
  | es :: ts => .table (entryValues es) :: tableValues ts

end

/-! ### Keys -/

def isBare (c : Char) : Bool := c.isAlphanum || c == '-' || c == '_'

def simpleKey? : Scan String := fun s =>
  match s with
  | '"' :: _ => lineString? s
  | '\'' :: _ => lineString? s
  | _ =>
      match s.takeWhile isBare with
      | [] => none
      | cs => some (String.ofList cs, s.dropWhile isBare)

/-- Names parted by dots, with blanks around them. The fuel is a text no shorter than
the input. -/
def namesFrom? : (fuel : List Char) → Scan (List String)
  | [], _ => none
  | _ :: fuel, s => do
      let (k, r) ← simpleKey? (skipBlank s)
      match skipBlank r with
      | '.' :: r =>
          let (ks, r) ← namesFrom? fuel r
          some (k :: ks, r)
      | r => some ([k], r)

/-- How deep tables and lists may be nested, and more than the names in a key. -/
def roomLimit : Nat := 79

/-- A key: the names on the way, and the last one. -/
def key? : Scan (List String × String) := fun s => do
  let (ks, r) ← namesFrom? s s
  let last ← ks.getLast?
  if ks.length ≤ roomLimit then some ((ks.dropLast, last), r) else none

/-! ### Values -/

def scalar? : Scan Value
  | '"' :: r => (string? ('"' :: r)).map fun p => (.string p.1, p.2)
  | '\'' :: r => (string? ('\'' :: r)).map fun p => (.string p.1, p.2)
  | 't' :: r => (word? "rue".toList r).map fun r => (.bool true, r)
  | 'f' :: r => (word? "alse".toList r).map fun r => (.bool false, r)
  | s => numeral? s

/-- The items of a list from here on. The fuel is a text no shorter than the input. -/
def itemsFrom? (item : Scan Value) : (fuel : List Char) → Scan (List Value)
  | [], _ => none
  | _ :: fuel, s => do
      let r ← skipLines? s
      match r with
      | ']' :: r => some ([], r)
      | r =>
          let (x, r) ← item r
          let r ← skipLines? r
          match r with
          | ']' :: r => some ([x], r)
          | ',' :: r =>
              let (xs, r) ← itemsFrom? item fuel r
              some (x :: xs, r)
          | _ => none

structure Pair where
  path : List String
  key : String
  value : Value

def pair? (item : Scan Value) : Scan Pair := fun s => do
  let ((path, key), r) ← key? s
  match skipBlank r with
  | '=' :: r =>
      let (value, r) ← item (skipBlank r)
      some (⟨path, key, value⟩, r)
  | _ => none

/-- The pairs of an inline table from here on, one at least. The fuel is a text no
shorter than the input. -/
def pairsFrom? (item : Scan Value) : (fuel : List Char) → Scan (List Pair)
  | [], _ => none
  | _ :: fuel, s => do
      let (x, r) ← pair? item s
      match skipBlank r with
      | '}' :: r => some ([x], r)
      | ',' :: r =>
          let (xs, r) ← pairsFrom? item fuel r
          some (x :: xs, r)
      | _ => none

def pairs? (item : Scan Value) : Scan (List Pair) := fun s =>
  match skipBlank s with
  | '}' :: r => some ([], r)
  | r => pairsFrom? item s r

def inlineTable? (pairs : List Pair) : Option Value :=
  (pairs.foldlM (fun es p => Entries.define? p.path p.key p.value .header es) []).map fun es =>
    .table (entryValues es)

/-- A value in which tables and lists are nested at most `room` deep. -/
def value? : (room : Nat) → Scan Value
  | 0, s => scalar? s
  | _ + 1, [] => none
  | room + 1, c :: r =>
      if c = '[' then (itemsFrom? (value? room) (c :: r) r).map fun p => (.array p.1, p.2)
      else if c = '{' then do
        let (ps, r) ← pairs? (value? room) r
        let t ← inlineTable? ps
        some (t, r)
      else scalar? (c :: r)

/-! ### Statements -/

inductive Statement where
  | openTable (path : List String) (key : String)
  | openNext (path : List String) (key : String)
  | define (p : Pair)

def statement? : Scan Statement
  | '[' :: '[' :: r => do
      let ((path, key), r) ← key? r
      let r ← word? [']', ']'] r
      let r ← endLine? r
      some (.openNext path key, r)
  | '[' :: r => do
      let ((path, key), r) ← key? r
      let r ← word? [']'] r
      let r ← endLine? r
      some (.openTable path key, r)
  | s => do
      let (p, r) ← pair? (value? roomLimit) s
      let r ← endLine? r
      some (.define p, r)

/-- The statements of a text. The fuel is a text longer than the input. -/
def statementsFrom? : (fuel : List Char) → List Char → Option (List Statement)
  | [], _ => none
  | _ :: fuel, s =>
      match skipBlank s with
      | [] => some []
      | '#' :: r => (endLine? ('#' :: r)).bind (statementsFrom? fuel)
      | c :: r =>
          match newline? (c :: r) with
          | some r => statementsFrom? fuel r
          | none => do
              let (x, r) ← statement? (c :: r)
              let xs ← statementsFrom? fuel r
              some (x :: xs)

/-! ### Documents -/

/-- The tables so far, and the path of the one that pairs go to. -/
structure Draft where
  entries : Entries
  current : List String

def Draft.empty : Draft := ⟨[], []⟩

/-- Only the last of a list of tables grows, so a path names one table at any time. -/
def Draft.add? (d : Draft) : Statement → Option Draft
  | .openTable path key =>
      (Entries.openTable? path key d.entries).map fun es => ⟨es, path ++ [key]⟩
  | .openNext path key =>
      (Entries.openNext? path key d.entries).map fun es => ⟨es, path ++ [key]⟩
  | .define p =>
      (Entries.alter? false (Entries.define? p.path p.key p.value) d.current .header
        d.entries).map fun es => ⟨es, d.current⟩

/-- A text may begin with a mark of its byte order. -/
def withoutMark : List Char → List Char
  | '\ufeff' :: r => r
  | s => s

/-- The table that a whole text stands for. -/
def parse? (text : String) : Option (List (String × Value)) := do
  let s := withoutMark text.toList
  let statements ← statementsFrom? ('\n' :: s) s
  let d ← statements.foldlM Draft.add? Draft.empty
  some (entryValues d.entries)

end Conflux.Toml
