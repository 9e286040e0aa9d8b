import AdLibModule.Aplib.Decoder
import AdLibModule.Sixpack.Decoder

/-!
Unpacking a block to the size that the format declares for it. A packed stream may end early, as the
last patterns of a song do; what is missing is zero. A block that is stored as it is has no such
freedom.
-/
namespace AdLibModule

/-- The `size` bytes of a block that was packed into `source`. -/
def Compression.unpack (scheme : Compression) (source : Array UInt8) (size : Nat) :
    Except DecodeError (Array UInt8) :=
  match scheme with
  | .sixpack => (Sixpack.decode source size).map (Output.zeroFill · size)
  | .aplib => (Aplib.decode source size).map (Output.zeroFill · size)
  | .raw =>
    if source.size = size then .ok source else .error (.sizeMismatch size source.size)
  | .lzw | .lzss => .error (.unsupportedCompression scheme)

end AdLibModule
