/-! Words of 32 bits as four bytes, in either byte order. -/
namespace SpeechDecoder.Word32

def join (a b c d : UInt8) : UInt32 :=
  a.toUInt32 ||| (b.toUInt32 <<< 8) ||| (c.toUInt32 <<< 16) ||| (d.toUInt32 <<< 24)

/-- The word of four bytes, lowest first unless `swapped`. -/
def read (swapped : Bool) (a b c d : UInt8) : UInt32 :=
  if swapped then join d c b a else join a b c d

def bytes (w : UInt32) : List UInt8 :=
  [w.toUInt8, (w >>> 8).toUInt8, (w >>> 16).toUInt8, (w >>> 24).toUInt8]

def toInteger (w : UInt32) : Int :=
  if w.toNat < 0x80000000 then w.toNat else w.toNat - UInt32.size

def ofInteger (n : Int) : UInt32 := UInt32.ofNat (n % UInt32.size).toNat

def digit (n : Nat) : Char := Nat.digitChar n

def hex (w : UInt32) : String :=
  String.ofList ('0' :: 'x' :: (List.range 8).map fun i => digit (w.toNat / Nat.pow 16 (7 - i) % 16))

end SpeechDecoder.Word32
