/-!
# The checksum of a class file

The 32-bit cyclic redundancy check with the reflected polynomial `0xEDB88320`: the register starts
with all bits set, takes in one byte at a time from its low end, and is inverted at the end.
-/

namespace Resumable.Binary

/-- One bit leaves the register at its low end. -/
def checksumBit (register : UInt32) : UInt32 :=
  if register &&& 1 = 1 then (register >>> 1) ^^^ 0xEDB88320 else register >>> 1

/-- Takes in one byte. -/
def checksumByte (register : UInt32) (byte : UInt8) : UInt32 :=
  let bit := checksumBit
  bit (bit (bit (bit (bit (bit (bit (bit (register ^^^ byte.toUInt32))))))))

/-- The checksum of some bytes. -/
def checksum (bytes : List UInt8) : UInt32 :=
  bytes.foldl checksumByte 0xFFFFFFFF ^^^ 0xFFFFFFFF

end Resumable.Binary
