import PickleShading.Varint

/-!
# Reading position

A `Cursor` is a position in a byte string together with the bytes from that position on.
Reads are actions of `ReadM`, which keeps the cursor also when a read fails, so that a failed
read still reports where it stopped:

* a byte or a run of bytes that is not there fails and leaves the cursor where it was;
* a framed number consumes every byte it looks at, so a truncated one leaves the cursor at
  the end and an overflowing one leaves it after the byte that showed the overflow;
* `Cursor.atomic` makes a group of reads all-or-nothing.

The length of the whole string, `pos + rest.length`, is the same before and after every read.
-/

namespace PickleShading

/-- A position in a byte string: `pos` bytes lie behind it and `rest` lies ahead. -/
structure Cursor where
  /-- How many bytes have been read. -/
  pos : Nat
  /-- The bytes not read yet. -/
  rest : List UInt8
deriving DecidableEq, Repr

/-- Reads over a byte string: they may fail with an `Error`, and keep their cursor either way. -/
abbrev ReadM := EStateM Error Cursor

namespace Cursor

/-- A cursor at the start of `bytes`. -/
def start (bytes : List UInt8) : Cursor := ⟨0, bytes⟩

/-- The length of the whole string. -/
def len (c : Cursor) : Nat := c.pos + c.rest.length

/-- The number of bytes ahead of the cursor. -/
def remaining (c : Cursor) : Nat := c.rest.length

/-- Whether any byte lies ahead of the cursor. -/
def hasMore (c : Cursor) : Bool := !c.rest.isEmpty

/-- The next byte, without moving. -/
def peek : ReadM UInt8 := fun c =>
  match c.rest with
  | [] => .error .endOfData c
  | b :: _ => .ok b c

/-- The next byte, moving past it. -/
def readByte : ReadM UInt8 := fun c =>
  match c.rest with
  | [] => .error .endOfData c
  | b :: bs => .ok b ⟨c.pos + 1, bs⟩

/-- A framed number accumulates at most this much before its next group: one more group of
seven bits then still fits 32 bits. -/
def varintHeadroom : Nat := Varint.maxWord / 128

/-- The rest of a framed number whose groups so far make `acc`, the next byte being at offset
`pos`. Each byte is consumed before it is judged: the string ending fails at its end, and an
accumulated value above `varintHeadroom` fails naming the offset of the byte just taken. -/
def varintFrom (acc pos : Nat) : List UInt8 → EStateM.Result Error Cursor Nat
  | [] => .error .endOfData ⟨pos, []⟩
  | b :: bs =>
    if varintHeadroom < acc then .error (.numberOverflow pos) ⟨pos + 1, bs⟩
    else if b < 128 then .ok (acc * 128 + b.toNat) ⟨pos + 1, bs⟩
    else varintFrom (acc * 128 + (b.toNat - 128)) (pos + 1) bs

/-- A framed number. Padded forms, with leading groups of zero, are read as well. -/
def readVarint : ReadM Nat := fun c => varintFrom 0 c.pos c.rest

/-- Whether `xs` has at least `n` elements, looking at no more than `n` of them. -/
def atLeast {α : Type} : Nat → List α → Bool
  | 0, _ => true
  | _ + 1, [] => false
  | n + 1, _ :: xs => atLeast n xs

@[simp]
theorem atLeast_iff {α : Type} (n : Nat) (xs : List α) : atLeast n xs = true ↔ n ≤ xs.length := by
  induction n generalizing xs with
  | zero => simp [atLeast]
  | succ n ih =>
    cases xs with
    | nil => simp [atLeast]
    | cons x xs => simp [atLeast, ih]

/-- The offset `n` bytes ahead, failing when that passes the end of the string. -/
def endPosition (n : Nat) : ReadM Nat := fun c =>
  if atLeast n c.rest then .ok (c.pos + n) c else .error .endOfData c

/-- The next `n` bytes, moving past them; fails without moving when fewer are left. -/
def readBytes (n : Nat) : ReadM (List UInt8) := fun c =>
  if atLeast n c.rest then .ok (c.rest.take n) ⟨c.pos + n, c.rest.drop n⟩
  else .error .endOfData c

/-- The framed number at the start of `bytes`, if one is complete there and fits 32 bits;
whatever follows it is ignored. -/
def leadingVarint? (bytes : List UInt8) : Option Nat :=
  match readVarint (start bytes) with
  | .ok n _ => some n
  | .error _ _ => none

/-- Runs `x`, and when it fails puts the cursor back where it stood before `x`. -/
def atomic {α : Type} (x : ReadM α) : ReadM α := fun c =>
  match x c with
  | .ok a c' => .ok a c'
  | .error e _ => .error e c

end Cursor

end PickleShading
