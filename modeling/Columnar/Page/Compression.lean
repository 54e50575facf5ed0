import Columnar.Decoder
import Columnar.Lz4.Compressor

/-! Compressing whole pages. An LZ4 block stands behind the length that it expands to, in four
bytes. -/

namespace Columnar.Compression

def compress [Lz4.Compressor] : Compression → Bytes → Bytes
  | none, data => data
  | lz4, data => Bytes.little 4 data.length ++ Lz4.Compressor.compress data

/-- No block expands by a larger factor. -/
def maxRatio : Nat := 255

def decompress (c : Compression) (data : Bytes) : Except Error Bytes :=
  match c with
  | none => .ok data
  | lz4 =>
    match Decoder.word 4 "lz4 size prefix" data with
    | .error (.corruption cause) _ => .error (.compression (.noSize cause))
    | .error e _ => .error e
    | .ok claimed block =>
      if block.length * maxRatio + 16 < claimed then
        .error (.compression (.unreachable block.length claimed))
      else (Lz4.expand claimed block).mapError .compression

end Columnar.Compression
