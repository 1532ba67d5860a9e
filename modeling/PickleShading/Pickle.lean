import PickleShading.Table.Basic

/-!
# Signature pickles

A pickle is the whole signature as bytes:

    major  minor  count  (code length payload){count}  [00]

The version, two framed numbers, must be 5.0; it is judged before anything else is read.
The framed count is followed by that many entries, each a code byte, a framed length and that
many payload bytes. After the entries a single zero byte may stand; anything else left over
is refused, naming the offset where the entries ended and how many bytes follow.

Reading accepts padded numbers. Writing (`Pickle.serialize`) gives every number in its
shortest form and no trailing byte.
-/

namespace PickleShading

/-- A signature: its version and its entries. -/
structure Pickle where
  /-- Major version; 5 for every pickle that was read. -/
  major : Nat
  /-- Minor version; 0 for every pickle that was read. -/
  minor : Nat
  /-- The entries. -/
  table : Table
deriving DecidableEq, Repr

namespace Pickle

/-- The only version that is read. -/
def supportedVersion : Nat × Nat := (5, 0)

/-- Reads `n` entries and appends them to `t`, each decoded by `Entry.ofRaw`. -/
def readEntries : Nat → Table → ReadM Table
  | 0, t => pure t
  | n + 1, t => do
    let code ← Cursor.readByte
    let length ← Cursor.readVarint
    let payload ← Cursor.readBytes length
    readEntries n (t.addRaw code payload).1

/-- Accepts the end of the bytes, or a single zero byte before it; anything else is trailing
data starting at the cursor. -/
def readEnd : ReadM Unit := fun c =>
  match c.rest with
  | [] => .ok () c
  | [0] => .ok () ⟨c.pos + 1, []⟩
  | _ => .error (.trailingData c.pos c.rest.length) c

/-- Reads a whole pickle. -/
def read : ReadM Pickle := do
  let major ← Cursor.readVarint
  let minor ← Cursor.readVarint
  if (major, minor) ≠ supportedVersion then throw (.unsupportedVersion major minor)
  let count ← Cursor.readVarint
  let table ← readEntries count Table.empty
  readEnd
  pure ⟨major, minor, table⟩

/-- The pickle that `bytes` hold, or why they hold none. -/
def parse (bytes : List UInt8) : Except Error Pickle :=
  match read (Cursor.start bytes) with
  | .ok p _ => .ok p
  | .error e _ => .error e

/-- The bytes of the pickle: the version and the table, every number in its shortest form. -/
def serialize (p : Pickle) : Except Error (List UInt8) := do
  let body ← p.table.write
  pure (Varint.encode p.major ++ Varint.encode p.minor ++ body)

/-- The version lines followed by one line per entry. -/
def display (p : Pickle) : String :=
  "Major version: " ++ toString p.major ++ "\nMinor version: " ++ toString p.minor ++ "\n" ++
    p.table.display

end Pickle

end PickleShading
