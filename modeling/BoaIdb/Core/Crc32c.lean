import BoaIdb.Core.Types

/-!
The CRC-32C checksum that closes every frame and file of the filesystem backend.
-/

namespace BoaIdb

namespace Crc32c

/-- Reflected Castagnoli polynomial. -/
def polyReflected : UInt32 := 0x82F63B78

def shiftBit (crc : UInt32) : UInt32 :=
  if crc &&& 1 = 1 then (crc >>> 1) ^^^ polyReflected else crc >>> 1

/-- An entry of the lookup table: eight shifts of its index. -/
def tableEntry (i : UInt32) : UInt32 :=
  Nat.iterate shiftBit 8 i

end Crc32c

/-- The CRC32C (Castagnoli) checksum of `data`. -/
def crc32c (data : Bytes) : UInt32 :=
  ~~~ data.foldl (fun crc b => (crc >>> 8) ^^^ Crc32c.tableEntry ((crc ^^^ b.toUInt32) &&& 0xFF))
    0xFFFFFFFF

-- The standard check value: the checksum of "123456789".
example : crc32c [0x31, 0x32, 0x33, 0x34, 0x35, 0x36, 0x37, 0x38, 0x39] = 0xE3069283 := by
  decide

end BoaIdb
