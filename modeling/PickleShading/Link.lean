import PickleShading.Cursor

/-!
# Namespace links

A namespace link is one component of a dotted namespace: a reference to the entry holding the
component's name and, unless the component is outermost, a reference to the link of the
enclosing namespace. Its payload is the framed name reference followed by the framed parent
reference, if any.

Only the canonical payload of a link is read as a link (`Link.ofPayload?`): both numbers in
their shortest form and nothing after them, so that writing the link back gives the payload
byte for byte. Reading does not compare the bytes again; it refuses bytes left after the
second number, and then compares the payload length with the sizes of the shortest forms of
the numbers read. Anything else is not a link payload.
-/

namespace PickleShading

/-- One namespace component: where its name is, and where the enclosing component's link is. -/
structure Link where
  /-- Index of the term name of this component. -/
  nameRef : Nat
  /-- Index of the link of the enclosing namespace; none for an outermost component. -/
  parentRef : Option Nat
deriving DecidableEq, Repr

namespace Link

/-- The payload of a link: the framed name reference, then the framed parent reference. -/
def payload (l : Link) : List UInt8 :=
  Varint.encode l.nameRef ++ (l.parentRef.map Varint.encode).getD []

/-- The number of payload bytes a link is written with: the sizes of the shortest forms of its
references. -/
def payloadSize (l : Link) : Nat :=
  Varint.size l.nameRef + (l.parentRef.map Varint.size).getD 0

/-- The link a payload stands for. One number is read, and a second if bytes are left; then no
byte may be left, and the payload must be exactly as long as the shortest forms of the numbers
read, which refuses padded numbers. Truncated and overflowing numbers fail to read. -/
def ofPayload? (bytes : List UInt8) : Option Link :=
  match Cursor.readVarint (Cursor.start bytes) with
  | .error _ _ => none
  | .ok name c =>
    let parent : Option (Option Nat × Cursor) :=
      if c.hasMore then
        match Cursor.readVarint c with
        | .ok parent c' => some (some parent, c')
        | .error _ _ => none
      else some (none, c)
    match parent with
    | none => none
    | some (parent, c') =>
      if c'.hasMore then none
      else if (Link.mk name parent).payloadSize = bytes.length then some ⟨name, parent⟩
      else none

/-- The failure of writing a link whose references do not both fit 32 bits; the name
reference is judged first. -/
def checkRefs (l : Link) : Except Error Unit := do
  let _ ← Varint.word l.nameRef
  match l.parentRef with
  | some p => let _ ← Varint.word p
  | none => pure ()

end Link

end PickleShading
