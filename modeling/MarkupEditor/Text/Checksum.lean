import MarkupEditor.Text.Utf8

namespace MarkupEditor.Text

def crcBit (r : UInt32) : UInt32 := if r &&& 1 = 1 then (r >>> 1) ^^^ 0xedb88320 else r >>> 1

def crcByte (r : UInt32) (b : UInt8) : UInt32 :=
  let s := r ^^^ b.toUInt32
  crcBit (crcBit (crcBit (crcBit (crcBit (crcBit (crcBit (crcBit s)))))))

-- The CRC-32 of the UTF-8 form, by the reflected polynomial 0xEDB88320.
def crc32 (s : String) : UInt32 := (encode s).foldl crcByte 0xffffffff ^^^ 0xffffffff

def hexadecimal (n : Nat) : String := String.ofList (Nat.toDigits 16 n)

end MarkupEditor.Text
