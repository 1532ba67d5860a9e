import PickleShading.Chunks
import PickleShading.Error

/-!
# Seven-bit packing

Signature bytes are stored as text whose characters all lie below U+0080. The bytes are read
as one stream of bits, each byte least significant bit first, and the stream is cut into units
of seven bits; a last unit that is short is filled with zero bits. A unit `u` is written as the
character `(u + 1) mod 128`, so that the unit 127 becomes U+0000 and no other unit does.

Unpacking reverses this: each character gives back the unit `(c + 127) mod 128`, the units'
bits form one stream, and the stream is cut into bytes; bits left over after the last whole
byte form one more byte, filled with zero bits. A character from U+0080 on cannot stand for a
unit and is refused.

A `TextCodec` is any way of writing signature bytes as annotation text and reading them back;
the packing is the one annotations use (`TextCodec.sevenBit`).
-/

namespace PickleShading

namespace Packing

/-- The lowest `width` bits of `v`, least significant first. -/
def bitsOf (width v : Nat) : List Bool := (List.range width).map v.testBit

/-- The number whose bits, least significant first, are `bs`. -/
def ofBits : List Bool → Nat
  | [] => 0
  | b :: bs => (if b then 1 else 0) + 2 * ofBits bs

/-- The bit stream of `bytes`. -/
def byteBits (bytes : List UInt8) : List Bool := bytes.flatMap fun b => bitsOf 8 b.toNat

/-- The character that stands for a seven-bit unit. -/
def unitChar (u : Nat) : Char := Char.ofNat ((u + 1) % 128)

/-- The unit that a character below U+0080 stands for. -/
def charUnit (c : Char) : Nat := (c.toNat + 127) % 128

/-- The text of `bytes`: their bit stream in units of seven bits, one character per unit. -/
def pack (bytes : List UInt8) : String :=
  String.ofList ((Chunks.cut 7 (byteBits bytes)).map fun unit => unitChar (ofBits unit))

/-- The units of `cs`, whose first character stands at offset `offset`; fails at the first
character from U+0080 on. -/
def unitsFrom : List Char → Nat → Except Error (List Nat)
  | [], _ => pure []
  | c :: cs, offset =>
    if c.toNat < 128 then do
      let rest ← unitsFrom cs (offset + 1)
      pure (charUnit c :: rest)
    else throw (.invalidEncoding c offset)

/-- The bytes that `text` stands for. A refused character is named with its offset, which
counts bytes and characters alike, since every character before it is a single byte. -/
def unpack (text : String) : Except Error (List UInt8) := do
  let units ← unitsFrom text.toList 0
  let bits := units.flatMap (bitsOf 7)
  pure ((Chunks.cut 8 bits).map fun byte => (ofBits byte).toUInt8)

end Packing

/-- How signature bytes are written as annotation text and read back. -/
structure TextCodec where
  /-- The text that stands for signature bytes. -/
  encode : List UInt8 → String
  /-- The bytes a text stands for, or why it stands for none. -/
  decode : String → Except Error (List UInt8)

/-- The seven-bit packing that signature annotations use. -/
def TextCodec.sevenBit : TextCodec where
  encode := Packing.pack
  decode := Packing.unpack

@[simp]
theorem TextCodec.sevenBit_encode : TextCodec.sevenBit.encode = Packing.pack := rfl

@[simp]
theorem TextCodec.sevenBit_decode : TextCodec.sevenBit.decode = Packing.unpack := rfl

end PickleShading
