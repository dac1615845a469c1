import Conflux.Bytes

/-!
The compressor behind an encoding. What it makes of a content is its own affair, and it may give
up; but what it makes is never empty, and the content comes out of it again.
-/

namespace Conflux

class Compression where
  compress? : Bytes → Option Bytes
  decompress? : Bytes → Option Bytes
  ne_nil_of_compress? : ∀ {b c}, compress? b = some c → c ≠ []
  decompress?_of_compress? : ∀ {b c}, compress? b = some c → decompress? c = some b

end Conflux
