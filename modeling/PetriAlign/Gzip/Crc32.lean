import PetriAlign.Text.Utf8

/-!
# CRC-32

The checksum of gzip: the remainder of the data as a polynomial over two elements, with the bits of
each byte in reverse.
-/

namespace PetriAlign.Gzip

/-- One division step. -/
def crcBit (r : UInt32) : UInt32 := if r &&& 1 = 1 then (r >>> 1) ^^^ 0xEDB88320 else r >>> 1

def crcByte (r : UInt32) (b : UInt8) : UInt32 :=
  let r := r ^^^ b.toUInt32
  crcBit (crcBit (crcBit (crcBit (crcBit (crcBit (crcBit (crcBit r)))))))

def crc32 (bytes : Bytes) : UInt32 := bytes.foldl crcByte 0xFFFFFFFF ^^^ 0xFFFFFFFF

end PetriAlign.Gzip
