import Columnar.Bytes

/-! The CRC-32C checksum: reflected Castagnoli polynomial, with the register started at
and finally combined with all ones. -/

namespace Columnar.Crc32c

def polynomial : UInt32 := 0x82F63B78

def shiftBit (register : UInt32) : UInt32 :=
  if register &&& 1 = 1 then (register >>> 1) ^^^ polynomial else register >>> 1

def shiftByte (register : UInt32) (b : UInt8) : UInt32 :=
  let r := register ^^^ b.toUInt32
  shiftBit (shiftBit (shiftBit (shiftBit (shiftBit (shiftBit (shiftBit (shiftBit r)))))))

/-- The register after the bytes have passed through it. -/
def run (register : UInt32) (bytes : Bytes) : UInt32 := bytes.foldl shiftByte register

@[simp] theorem run_nil (register : UInt32) : run register [] = register := rfl

theorem run_append (register : UInt32) (xs ys : Bytes) :
    run register (xs ++ ys) = run (run register xs) ys := List.foldl_append

end Columnar.Crc32c

namespace Columnar

/-- The CRC-32C of a byte string. -/
def crc32c (bytes : Bytes) : UInt32 := Crc32c.run 0xFFFFFFFF bytes ^^^ 0xFFFFFFFF

/-- The published check value. -/
example : crc32c [49, 50, 51, 52, 53, 54, 55, 56, 57] = 0xE3069283 := by decide +kernel

end Columnar
