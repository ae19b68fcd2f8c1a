import AegonKV.LittleEndian

/-!
# CRC-32C over byte strings

The Castagnoli table `table_crc32c[0]` of the kernel and `table0_` of the base DB have the same
256 entries: entry `b` is eight reflected polynomial steps of `b`. Both implementations consume one
byte per table step and complement the register before and after.
-/

namespace Crc32c
open LittleEndian

def polyStep (crc : BitVec 32) : BitVec 32 :=
  if crc.getLsbD 0 then (crc >>> 1) ^^^ 0x82f63b78#32 else crc >>> 1

def table (b : BitVec 8) : BitVec 32 := polyStep^[8] (b.setWidth 32)

def tableStep (crc : BitVec 32) (b : UInt8) : BitVec 32 :=
  (crc >>> 8) ^^^ table (crc.setWidth 8 ^^^ b.toBitVec)

def extend (initCrc : BitVec 32) (data : Bytes) : BitVec 32 :=
  data.foldl tableStep (initCrc ^^^ 0xffffffff#32) ^^^ 0xffffffff#32

def value (data : Bytes) : BitVec 32 := extend 0 data

theorem extend_append (c : BitVec 32) (as bs : Bytes) :
    extend c (as ++ bs) = extend (extend c as) bs := by
  simp [extend, List.foldl_append, BitVec.xor_assoc]

end Crc32c
