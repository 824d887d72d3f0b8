/-
# Checksums

CRC-32C of a text in UTF-8: the remainder of the bytes, read as a polynomial over two
elements with the lowest bit first, after division by the Castagnoli polynomial.
-/

namespace Moore.Checksum

/-- The divisor, lowest bit first. -/
def polynomial : UInt32 := 0x82F63B78

/-- Divides out one bit. -/
def shift (r : UInt32) : UInt32 :=
  if r &&& 1 = 1 then (r >>> 1) ^^^ polynomial else r >>> 1

/-- Adds a byte to a remainder. -/
def addByte (r : UInt32) (b : UInt8) : UInt32 :=
  (List.range 8).foldl (fun r _ => shift r) (r ^^^ b.toUInt32)

/-- The checksum of a sequence of bytes. -/
def crc32c (bytes : ByteArray) : UInt32 :=
  bytes.foldl addByte 0xFFFFFFFF ^^^ 0xFFFFFFFF

/-- The checksum of a text, as eight hexadecimal digits. -/
def text (s : String) : String :=
  let digits := Nat.toDigits 16 (crc32c s.toUTF8).toNat
  String.ofList (List.replicate (8 - digits.length) '0' ++ digits)

end Moore.Checksum
