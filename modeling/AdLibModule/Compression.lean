/-!
The compression schemes of the blocks of a module. Two of them are known by name only: nothing here
unpacks them.
-/
namespace AdLibModule

/-- How the blocks of a module are packed. -/
inductive Compression where
  | sixpack
  | lzw
  | lzss
  | raw
  | aplib
  deriving DecidableEq

namespace Compression

def name : Compression → String
  | sixpack => "sixpack"
  | lzw => "lzw"
  | lzss => "lzss"
  | raw => "raw"
  | aplib => "aplib"

/-- Blocks packed with `lzw` and `lzss` cannot be read. -/
def isSupported : Compression → Bool
  | lzw | lzss => false
  | sixpack | raw | aplib => true

end Compression
end AdLibModule
