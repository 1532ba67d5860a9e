/-!
# UTF-8 bytes of a name

Names in a signature are stored as UTF-8. Decoding accepts exactly the byte strings that are
the encoding of some sequence of characters: no overlong forms, no surrogate halves, nothing
past U+10FFFF. This is the validity that `String` itself carries, so decoding what was encoded
gives the text back (`Utf8.decode?_encode`).
-/

namespace PickleShading

namespace Utf8

/-- The UTF-8 bytes of `s`. -/
def encode (s : String) : List UInt8 := s.toUTF8.data.toList

/-- A text has as many UTF-8 bytes as its byte size says, which is known without encoding it. -/
@[simp]
theorem length_encode (s : String) : (encode s).length = s.utf8ByteSize := by
  simp [encode]

/-- The text whose UTF-8 bytes are `bytes`, if they are a valid encoding. -/
def decode? (bytes : List UInt8) : Option String := String.fromUTF8? ⟨bytes.toArray⟩

/-- Decoding the bytes of a text gives the text back. -/
@[simp]
theorem decode?_encode (s : String) : decode? (encode s) = some s := by
  simp only [decode?, encode, Array.toArray_toList]
  simp [String.fromUTF8?, s.isValidUTF8, String.fromUTF8]

/-- A decoded text encodes to the bytes it came from. -/
theorem encode_of_decode? {bytes : List UInt8} {s : String} (h : decode? bytes = some s) :
    encode s = bytes := by
  simp only [decode?, String.fromUTF8?] at h
  split at h
  · cases h
    simp [encode, String.fromUTF8]
  · cases h

end Utf8

end PickleShading
