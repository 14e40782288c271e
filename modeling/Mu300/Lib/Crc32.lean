import Mathlib.Data.List.Basic

/-!
# CRC-32

The CRC of zip, gzip and PNG: reflected polynomial `0xEDB88320`, register started
at all ones and inverted at the end. Bit by bit, so that it can be compared with
any other way of computing it.
-/

namespace Crc32

/-- One bit: shift right, and take the polynomial off when a one falls out. -/
def bit (c : UInt32) : UInt32 :=
  if c &&& 1 = 1 then (c >>> 1) ^^^ 0xEDB88320 else c >>> 1

/-- One byte: into the low end of the register, then eight bits. -/
def byte (c : UInt32) (b : UInt8) : UInt32 :=
  bit (bit (bit (bit (bit (bit (bit (bit (c ^^^ b.toUInt32))))))))

def crc32 (bs : List UInt8) : UInt32 := bs.foldl byte 0xFFFFFFFF ^^^ 0xFFFFFFFF

/-- The published check value: the CRC of the digits one to nine. -/
example : crc32 [49, 50, 51, 52, 53, 54, 55, 56, 57] = 0xCBF43926 := by decide +kernel

end Crc32
