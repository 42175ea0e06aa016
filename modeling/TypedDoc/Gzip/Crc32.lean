/-
  TypedDoc.Gzip.Crc32 — the 32-bit cyclic redundancy check of a gzip member: reflected
  polynomial EDB88320, all bits inverted before and after.
-/

namespace TypedDoc.Gzip

def crcBit (r : UInt32) : UInt32 := if r &&& 1 = 1 then (r >>> 1) ^^^ 0xEDB88320 else r >>> 1

def crcByte (r : UInt32) (b : UInt8) : UInt32 :=
  crcBit (crcBit (crcBit (crcBit (crcBit (crcBit (crcBit (crcBit (r ^^^ b.toUInt32))))))))

def crc32 (bs : List UInt8) : UInt32 := bs.foldl crcByte 0xFFFFFFFF ^^^ 0xFFFFFFFF

end TypedDoc.Gzip
