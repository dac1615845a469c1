import Conflux.Fragment
import Conflux.Position
import Conflux.RecentKeys
import Conflux.Table

/-!
The assembler puts messages together from their fragments. It keeps one record for
every message of which some fragments have come and some are missing, and it
remembers the messages it completed last, so that their fragments are not taken
twice. A record that stays incomplete for too long expires. Times are ticks of the
caller's clock.
-/

namespace Conflux

/-- What the fragments of one message have in common. -/
structure MessageKey where
  stream : Digest
  timestamp : UInt64
deriving DecidableEq, Repr

def Header.messageKey (h : Header) : MessageKey := ⟨h.stream, h.timestamp⟩

/-- The fragments of a message that have come so far. -/
structure Assembly where
  total : UInt32
  encoding : Encoding
  /-- Payloads by their offset, in ascending order. -/
  pieces : List (UInt32 × Bytes)
  /-- How many bytes there are. -/
  received : Nat
  /-- The earliest position that a fragment had. -/
  position : Position
  /-- The highest offset that a fragment had. -/
  lastOffset : UInt64
  startedAt : Nat
deriving Repr

/-- A whole message, and the stretch of the log that it came from. -/
structure Assembled where
  message : Message
  position : Position
  lastOffset : UInt64
deriving DecidableEq, Repr

inductive AssemblyError where
  | sizeConflict (declared expected : UInt32)
  | overflow (offset : UInt32) (length : Nat) (total : UInt32)
  | gap (offset : Nat)
  | alreadyAssembled
  | streamMismatch (key : String)
  | unknownEncoding (code : UInt8)
  /-- The content cannot be decoded. -/
  | undecodable
  /-- The content is no message. -/
  | document
deriving DecidableEq, Repr

namespace AssemblyError

/-- A repeated fragment is nothing to worry about. -/
def isBenign : AssemblyError → Bool
  | alreadyAssembled => true
  | _ => false

/-- The wording; bad content has none of its own. -/
def message? : AssemblyError → Option String
  | sizeConflict declared expected =>
      some ("fragment declares total " ++ Decimal.write declared.toNat ++
        " but the open record expects " ++ Decimal.write expected.toNat)
  | overflow offset length total =>
      some ("fragment at offset " ++ Decimal.write offset.toNat ++ " with " ++
        Decimal.write length ++ " bytes overruns total " ++ Decimal.write total.toNat)
  | gap offset => some ("reassembled bytes have a gap at offset " ++ Decimal.write offset)
  | alreadyAssembled => some "message already assembled"
  | streamMismatch key =>
      some ("stream id does not match the reassembled message key " ++ Text.quoted key)
  | unknownEncoding code => some (Encoding.unknownMessage code)
  | undecodable => none
  | document => none

end AssemblyError

namespace Assembly

/-- A record that waits for its first fragment. -/
def start (total : UInt32) (encoding : Encoding) (position : Position) (now : Nat) : Assembly :=
  { total, encoding, position
    pieces := []
    received := 0
    lastOffset := position.offset
    startedAt := now }

/-- Notes where a fragment came from, whether it is new or not. -/
def extend (a : Assembly) (position : Position) : Assembly :=
  { a with
    position := a.position.earlier position
    lastOffset := max a.lastOffset position.offset }

def placePiece (offset : UInt32) (payload : Bytes) : List (UInt32 × Bytes) → List (UInt32 × Bytes)
  | [] => [(offset, payload)]
  | p :: ps =>
      if offset < p.1 then (offset, payload) :: p :: ps else p :: placePiece offset payload ps

def holds (a : Assembly) (offset : UInt32) : Bool := a.pieces.any fun p => p.1 == offset

/-- Stores a payload, unless there is one at its offset. -/
def store (a : Assembly) (offset : UInt32) (payload : Bytes) : Assembly :=
  if a.holds offset then a
  else
    { a with
      pieces := placePiece offset payload a.pieces
      received := a.received + payload.length }

/-- As many bytes have come as the message has. -/
def isFull (a : Assembly) : Bool := decide (a.total.toNat ≤ a.received)

/-- The pieces one after the other from `start` on, or the offset at which one should
begin and none does. -/
def joinFrom (start : Nat) : List (UInt32 × Bytes) → Except Nat Bytes
  | [] => .ok []
  | p :: ps =>
      if p.1.toNat = start then (joinFrom (start + p.2.length) ps).map (p.2 ++ ·)
      else .error start

def join (a : Assembly) : Except Nat Bytes :=
  match joinFrom 0 a.pieces with
  | .ok b => if b.length = a.total.toNat then .ok b else .error b.length
  | .error gap => .error gap

/-- It was opened more than `ttl` ticks ago. -/
def expired (a : Assembly) (ttl now : Nat) : Bool := decide (ttl < now - a.startedAt)

end Assembly

structure Assembler where
  opened : Table MessageKey Assembly
  completed : RecentKeys MessageKey
  ttl : Nat
  /-- How many records have expired. -/
  expired : Nat
deriving Repr

namespace Assembler

def fresh (ttl remembered : Nat) : Assembler := ⟨.empty, .empty remembered, ttl, 0⟩

/-- How many messages are incomplete. -/
def inProgress (a : Assembler) : Nat := a.opened.size

/-- The earliest position of every incomplete message. -/
def openPositions (a : Assembler) : List Position := a.opened.values.map (·.position)

/-- How many records an eviction drops now. -/
def overdue (a : Assembler) (now : Nat) : Nat :=
  (a.opened.values.filter (·.expired a.ttl now)).length

/-- Drops the records that have expired. -/
def evict (a : Assembler) (now : Nat) : Assembler :=
  { a with
    opened := a.opened.filter fun r => !r.expired a.ttl now
    expired := a.expired + a.overdue now }

def close (a : Assembler) (k : MessageKey) : Assembler := { a with opened := a.opened.erase k }

def putRecord (a : Assembler) (k : MessageKey) (r : Assembly) : Assembler :=
  { a with opened := a.opened.put k r }

/-- The message that the bytes of a stream stand for. -/
def readMessage [Compression] (stream : Digest) (encoding : Encoding) (encoded : Bytes) :
    Except AssemblyError Message :=
  match encoding.decode? encoded with
  | none => .error .undecodable
  | some decoded =>
      match Message.decode? decoded with
      | none => .error .document
      | some m => if streamId m.key = stream then .ok m else .error (.streamMismatch m.key)

/-- All bytes are there: the message is completed and remembered. -/
def finish [Compression] (a : Assembler) (k : MessageKey) (encoding : Encoding) (encoded : Bytes)
    (position : Position) (lastOffset : UInt64) :
    Assembler × Except AssemblyError (Option Assembled) :=
  match readMessage k.stream encoding encoded with
  | .ok m =>
      ({ a with completed := (a.completed.insert k).1 }, .ok (some ⟨m, position, lastOffset⟩))
  | .error e => (a, .error e)

/-- Puts a fragment into the record of its message, which is opened if need be. -/
def addToRecord [Compression] (a : Assembler) (now : Nat) (f : Fragment) (encoding : Encoding)
    (position : Position) : Assembler × Except AssemblyError (Option Assembled) :=
  let k := f.header.messageKey
  let known := (a.opened.get? k).getD (.start f.header.total encoding position now)
  if known.total ≠ f.header.total then
    (a.close k, .error (.sizeConflict f.header.total known.total))
  else
    let r := known.extend position
    if r.holds f.header.offset then (a.putRecord k r, .ok none)
    else
      let r := r.store f.header.offset f.payload
      if r.isFull then
        match r.join with
        | .ok encoded => (a.close k).finish k r.encoding encoded r.position r.lastOffset
        | .error gap => (a.close k, .error (.gap gap))
      else (a.putRecord k r, .ok none)

/-- Takes a fragment. A message comes out with its last missing fragment. -/
def add [Compression] (a : Assembler) (now : Nat) (f : Fragment) (position : Position) :
    Assembler × Except AssemblyError (Option Assembled) :=
  let h := f.header
  match Encoding.ofCode? h.encoding with
  | none => (a, .error (.unknownEncoding h.encoding))
  | some encoding =>
      if a.completed.contains h.messageKey then (a, .error .alreadyAssembled)
      else if h.total.toNat < h.offset.toNat + f.payload.length then
        (a, .error (.overflow h.offset f.payload.length h.total))
      else if h.offset = 0 ∧ f.payload.length = h.total.toNat then
        (a.close h.messageKey).finish h.messageKey encoding f.payload position position.offset
      else (a.evict now).addToRecord now f encoding position

end Assembler

end Conflux
