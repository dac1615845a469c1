import Conflux.Compression
import Conflux.Decimal

/-!
How the content of a message is encoded on the wire.
-/

namespace Conflux

inductive Encoding where
  | identity
  | zstd
deriving DecidableEq, Repr, Inhabited

namespace Encoding

def code : Encoding → UInt8
  | identity => 0
  | zstd => 1

def ofCode? (c : UInt8) : Option Encoding :=
  if c = 0 then some identity else if c = 1 then some zstd else none

def unknownMessage (c : UInt8) : String :=
  "unknown content encoding " ++ Decimal.write c.toNat

def name : Encoding → String
  | identity => "identity"
  | zstd => "zstd"

def ofName? (s : String) : Option Encoding :=
  if s = "identity" then some identity else if s = "zstd" then some zstd else none

@[simp] theorem ofCode?_code (e : Encoding) : ofCode? e.code = some e := by
  cases e <;> rfl

variable [Compression]

def encode? : Encoding → Bytes → Option Bytes
  | identity, b => some b
  | zstd, b => Compression.compress? b

def decode? : Encoding → Bytes → Option Bytes
  | identity, b => some b
  | zstd, b => Compression.decompress? b

/-- What was encoded can be decoded. -/
theorem decode?_of_encode? {e : Encoding} {b encoded : Bytes} (h : e.encode? b = some encoded) :
    e.decode? encoded = some b := by
  cases e with
  | identity => exact h.symm
  | zstd => exact Compression.decompress?_of_compress? h

theorem ne_nil_of_encode? {e : Encoding} {b encoded : Bytes} (hb : b ≠ [])
    (h : e.encode? b = some encoded) : encoded ≠ [] := by
  cases e with
  | identity =>
      obtain rfl := Option.some.inj h
      exact hb
  | zstd => exact Compression.ne_nil_of_compress? h

end Encoding

end Conflux
