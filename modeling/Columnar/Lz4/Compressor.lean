import Columnar.Lz4.Block

/-! Compressors. What a block stands for is settled, but not which matches it has: the bytes that a
writer stores are those of its compressor. -/

namespace Columnar.Lz4

/-- Makes a block of some data. -/
class Compressor where
  compress : Bytes → Bytes

/-- Blocks expand to the data that they were made of, if it has less than 4 GiB. -/
class LawfulCompressor [Compressor] : Prop where
  expand_compress {data : Bytes} (h : data.length < 2 ^ 32) :
    expand data.length (Compressor.compress data) = .ok data

end Columnar.Lz4
