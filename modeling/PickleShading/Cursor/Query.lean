import PickleShading.Cursor

/-!
# Reads as data

A `Query` names one read of a cursor, or an all-or-nothing group of them, so that a whole
script of reads is a value that can be run (`Query.run`) and reasoned about. Running a script
with `Query.runEach` runs every query in turn, a failure not stopping the ones after it, and
records each query's outcome with the cursor position after it.
-/

namespace PickleShading

/-- One read of a cursor. -/
inductive Query where
  /-- The length of the whole string. -/
  | length
  /-- Whether the whole string is empty. -/
  | isEmpty
  /-- Whether bytes lie ahead. -/
  | hasMore
  /-- The position. -/
  | position
  /-- The number of bytes ahead. -/
  | remaining
  /-- The next byte, without moving. -/
  | peek
  /-- The next byte. -/
  | readByte
  /-- A framed number. -/
  | readVarint
  /-- The next `n` bytes. -/
  | readBytes (n : Nat)
  /-- The offset `n` bytes ahead. -/
  | endPosition (n : Nat)
  /-- The queries in order, stopping at the first failure, and all-or-nothing. -/
  | atomic (steps : List Query)
deriving Repr

/-- What a query gives. -/
inductive Answer where
  | nat (n : Nat)
  | bool (b : Bool)
  | bytes (bs : List UInt8)
  | list (answers : List Answer)
deriving Repr

namespace Query

mutual

/-- The read that a query names. -/
def run : Query → ReadM Answer
  | length => fun c => .ok (.nat c.len) c
  | isEmpty => fun c => .ok (.bool (c.len == 0)) c
  | hasMore => fun c => .ok (.bool c.hasMore) c
  | position => fun c => .ok (.nat c.pos) c
  | remaining => fun c => .ok (.nat c.remaining) c
  | peek => do return .nat (← Cursor.peek).toNat
  | readByte => do return .nat (← Cursor.readByte).toNat
  | readVarint => do return .nat (← Cursor.readVarint)
  | readBytes n => do return .bytes (← Cursor.readBytes n)
  | endPosition n => do return .nat (← Cursor.endPosition n)
  | atomic steps => Cursor.atomic (do return .list (← runAll steps))

/-- The reads of `qs` in order; the first that fails fails the whole. -/
def runAll : List Query → ReadM (List Answer)
  | [] => pure []
  | q :: qs => do
    let a ← run q
    let rest ← runAll qs
    pure (a :: rest)

end

/-- Runs every query of `qs` from `c` in turn, each from where the one before left the cursor,
also after a failure; gives each outcome with the position after it. -/
def runEach : List Query → Cursor → List (Except Error Answer × Nat)
  | [], _ => []
  | q :: qs, c =>
    match run q c with
    | .ok a c' => (.ok a, c'.pos) :: runEach qs c'
    | .error e c' => (.error e, c'.pos) :: runEach qs c'

end Query

end PickleShading
