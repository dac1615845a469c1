import Conflux.Encoding
import Conflux.Hash
import Conflux.Message

/-!
Fragments and datagrams. A message is encoded and cut into fragments; a datagram is a
header of 84 bytes with numbers in network order, followed by the fragment's payload.

    0   stream id        32
    32  destination      32
    64  timestamp         8
    72  total size        4
    76  offset            4
    80  encoding          1
    81  wire version      1
    82  reserved          2
-/

namespace Conflux

structure Header where
  /-- The hash of the key of the message. -/
  stream : Digest
  destination : Digest
  timestamp : UInt64
  total : UInt32
  offset : UInt32
  encoding : UInt8
  version : UInt8
  reserved : UInt8 × UInt8
deriving DecidableEq, Repr, Inhabited

structure Fragment where
  header : Header
  payload : Bytes
deriving DecidableEq, Repr, Inhabited

/-- The stream of a message key. -/
def streamId (key : String) : Digest := Hash.digestText key

/-- The destination that every hub takes for its own. -/
def anyDestination : Digest := Digest.zero

/-- The destination of a hub; one without a name is any hub. -/
def hubHash (name : String) : Digest :=
  if name = "" then anyDestination else Hash.digestText name

namespace Header

def length : Nat := 84

def wireVersion : UInt8 := 1

/-- Addressed to every hub or to this one. -/
def isFor (h : Header) (hub : Digest) : Bool :=
  h.destination == anyDestination || h.destination == hub

def toBytes (h : Header) : Bytes :=
  h.stream.bytes ++ h.destination.bytes ++ Bytes.ofNat 8 h.timestamp.toNat ++
    Bytes.ofNat 4 h.total.toNat ++ Bytes.ofNat 4 h.offset.toNat ++
    [h.encoding, h.version, h.reserved.1, h.reserved.2]

/-- The number in a field of the header. -/
def numberAt (b : Bytes) (start width : Nat) : Nat := Bytes.toNat ((b.drop start).take width)

def byteAt (b : Bytes) (i : Nat) : UInt8 := b.getD i 0

def ofBytes (b : Bytes) (h : 84 ≤ b.length) : Header :=
  { stream := Digest.ofBytes b (by omega)
    destination := Digest.ofBytes (b.drop 32) (by rw [List.length_drop]; omega)
    timestamp := UInt64.ofNat (numberAt b 64 8)
    total := UInt32.ofNat (numberAt b 72 4)
    offset := UInt32.ofNat (numberAt b 76 4)
    encoding := byteAt b 80
    version := byteAt b 81
    reserved := (byteAt b 82, byteAt b 83) }

theorem length_toBytes (h : Header) : h.toBytes.length = 84 := by
  simp [toBytes, h.stream.length_eq, h.destination.length_eq]

end Header

/-- Why a datagram is no fragment. -/
inductive DatagramError where
  | truncated (length : Nat)
  | unsupportedVersion (version : UInt8)
deriving DecidableEq, Repr

def DatagramError.message : DatagramError → String
  | truncated n => "datagram too short: " ++ Decimal.write n ++ " bytes"
  | unsupportedVersion v => "unsupported wire version " ++ Decimal.write v.toNat

/-- Why a message is not cut. -/
inductive CuttingError where
  /-- A ceiling or a message that the wire cannot carry. -/
  | tooLarge (size : Nat)
  | compression
deriving DecidableEq, Repr

/-- The wording; that of the compressor is its own. -/
def CuttingError.message? : CuttingError → Option String
  | tooLarge size => some ("fragment size " ++ Decimal.write size ++ " exceeds the wire limit")
  | compression => none

namespace Fragment

/-! ### Datagrams -/

def toBytes (f : Fragment) : Bytes := f.header.toBytes ++ f.payload

def ofBytes (b : Bytes) : Except DatagramError Fragment :=
  if h : 84 ≤ b.length then
    let header := Header.ofBytes b h
    if header.version = Header.wireVersion then .ok ⟨header, b.drop 84⟩
    else .error (.unsupportedVersion header.version)
  else .error (.truncated b.length)

/-! ### Cutting a message -/

/-- The largest payload that a fragment may have. -/
def maxPayload : Nat := 65000

/-- Fragments of a message never carry more than `ceiling` bytes and leave no gap. A
message always has one. -/
def ofMessage [Compression] (m : Message) (encoding : Encoding) (ceiling : Nat)
    (timestamp : UInt64) : Except CuttingError (List Fragment) :=
  if ceiling = 0 ∨ maxPayload < ceiling then .error (.tooLarge ceiling)
  else
    match encoding.encode? m.encode with
    | none => .error .compression
    | some encoded =>
        if UInt32.size ≤ encoded.length then .error (.tooLarge encoded.length)
        else
          let stream := streamId m.key
          let destination := hubHash m.destination
          let total := UInt32.ofNat encoded.length
          .ok ((Bytes.pieces ceiling encoded).mapIdx fun i payload =>
            { header :=
                { stream, destination, timestamp, total
                  offset := UInt32.ofNat (i * ceiling)
                  encoding := encoding.code
                  version := Header.wireVersion
                  reserved := (0, 0) }
              payload })

end Fragment

/-- How a producer cuts its messages. -/
structure Fragmenter where
  encoding : Encoding
  ceiling : Nat
deriving DecidableEq, Repr

def Fragmenter.fragment [Compression] (f : Fragmenter) (m : Message) (timestamp : UInt64) :
    Except CuttingError (List Fragment) :=
  Fragment.ofMessage m f.encoding f.ceiling timestamp

end Conflux
