/-! `subsys/crc/crc8_sw.c`. -/

namespace ZephyrRtos.Sys

def crc8CcittSmallTable : List UInt8 :=
  [0x00, 0x07, 0x0e, 0x09, 0x1c, 0x1b, 0x12, 0x15, 0x38, 0x3f, 0x36, 0x31, 0x24, 0x23, 0x2a, 0x2d]

def crc8Ccitt (val : UInt8) (bs : List UInt8) : UInt8 :=
  let nibble (val : UInt8) : UInt8 := (val <<< 4) ^^^ crc8CcittSmallTable.getD (val >>> 4).toNat 0
  bs.foldl (fun val b => nibble (nibble (val ^^^ b))) val

theorem crc8Ccitt_append (val : UInt8) (bs cs : List UInt8) :
    crc8Ccitt val (bs ++ cs) = crc8Ccitt (crc8Ccitt val bs) cs := List.foldl_append

end ZephyrRtos.Sys
