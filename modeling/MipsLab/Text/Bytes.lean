/-! Words, which are compared as unsigned numbers, and the bytes of texts. Text is stored as
UTF-8; a single byte is shown as the character that has the byte's value as its code point. -/
namespace MipsLab

abbrev Word := BitVec 32

abbrev Byte := BitVec 8

instance : Std.TransOrd Word := BitVec.instTransOrd

instance : Std.LawfulEqOrd Word := BitVec.instLawfulEqOrd

namespace Text

def utf8Bytes (text : String) : List Byte :=
  text.toUTF8.toList.map (·.toBitVec)

/-- The text that a list of bytes encodes, if the bytes are valid UTF-8. -/
def ofUtf8? (bytes : List Byte) : Option String :=
  String.fromUTF8? ⟨(bytes.map UInt8.ofBitVec).toArray⟩

def byteChar (b : Byte) : Char := Char.ofNat b.toNat

def byteText (bytes : List Byte) : String := String.ofList (bytes.map byteChar)

/-- The byte that stores a character in one byte; characters past the byte range are stored as
question marks. -/
def charByte (c : Char) : Byte :=
  if c.toNat < 256 then BitVec.ofNat 8 c.toNat else BitVec.ofNat 8 '?'.toNat

end Text

/-- The number that `bytes` hold with the least significant byte first. -/
def ofLittleEndian : List Byte → Nat
  | [] => 0
  | b :: rest => b.toNat + 256 * ofLittleEndian rest

/-- The `count` lowest bytes of a number, least significant first. -/
def littleEndian : (count value : Nat) → List Byte
  | 0, _ => []
  | count + 1, value => BitVec.ofNat 8 value :: littleEndian count (value / 256)

end MipsLab
