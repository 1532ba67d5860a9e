/-!
# Failures

Every way reading, rewriting or writing a signature can fail, as data. Lemmas speak of the
constructors; the wording that a user sees is given once, by `Error.message`.
-/

namespace PickleShading

/-- Why an operation on signature data failed. -/
inductive Error where
  /-- The bytes ended before a complete value could be read. -/
  | endOfData
  /-- The pickle header names a version other than 5.0. -/
  | unsupportedVersion (major minor : Nat)
  /-- Bytes are left after the entries and the optional zero trailer: `remaining` of them,
  starting at `offset`. -/
  | trailingData (offset remaining : Nat)
  /-- Following parent links from a namespace link did not reach a root within as many steps
  as the table has entries; `index` is the parent reference at which the walk gave up. -/
  | cyclicReference (index : Nat)
  /-- A framed number would grow past 32 bits; `offset` is the byte at which this showed. -/
  | numberOverflow (offset : Nat)
  /-- A count, length or index to be written does not fit 32 bits. -/
  | numberTooWide (value : Nat)
  /-- A namespace is empty or has an empty component. -/
  | invalidNamespace (text : String)
  /-- A link was to be repointed at an index that holds no namespace link. -/
  | notALink (index : Nat)
  /-- SignatureText text holds a character outside the seven-bit range, at a byte offset. -/
  | invalidEncoding (character : Char) (offset : Nat)
  /-- A failure reported by the format that carries the annotation. -/
  | artifact (text : String)
deriving DecidableEq, Repr

namespace Error

/-- Upper-case hexadecimal digits of `n`, most significant first, padded with zeros to at least
`width` of them. -/
def hexDigits (width n : Nat) : List Char :=
  let digits := (Nat.toDigits 16 n).map Char.toUpper
  List.replicate (width - digits.length) '0' ++ digits

/-- The text of each failure. A width error names no value: its text holds the word `value`
between braces, as users of the format have always seen it. -/
def message : Error → String
  | endOfData => "Unexpected end of signature data"
  | unsupportedVersion major minor =>
    "Unexpected signature version found: " ++ toString major ++ "." ++ toString minor
  | trailingData offset remaining =>
    "Unexpected additional data at offset " ++ toString offset ++ " (" ++ toString remaining ++
      " bytes) at end of signature"
  | cyclicReference index => "Cyclic namespace reference starting at entry " ++ toString index
  | numberOverflow offset =>
    "NAT value overflow at offset " ++ toString offset ++ " - exceeds u32 capacity"
  | numberTooWide _ => "Signature value \x7bvalue\x7d exceeds u32::MAX"
  | invalidNamespace text => "Invalid namespace - '" ++ text ++ "'"
  | notALink index => "Entry " ++ toString index ++ " is not a namespace link"
  | invalidEncoding character offset =>
    "Invalid signature encoding - character U+" ++ String.ofList (hexDigits 4 character.toNat) ++
      " at offset " ++ toString offset ++ " is outside the 7-bit range"
  | artifact text => text

end Error

end PickleShading
