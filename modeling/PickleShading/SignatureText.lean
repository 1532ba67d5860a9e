
/-!
# Stored signature text

The packed text of a signature is stored in an annotation, either whole or, when it is longer
than a limit, as a list of chunks whose concatenation is the text. Lengths and limits count
characters. A limit of zero is taken as one.
-/

namespace PickleShading

/-- Packed signature text as it is stored: whole, or cut into chunks. -/
inductive SignatureText where
  /-- The text in one piece. -/
  | single (text : String)
  /-- The text as consecutive chunks. -/
  | chunked (chunks : List String)
deriving DecidableEq, Repr

namespace SignatureText

/-- The longest text stored in one piece unless a caller chooses otherwise. -/
def defaultLimit : Nat := 65493

/-- The state of the chunking loop: the chunks flushed so far, the chunk being filled, and how
many characters it holds. -/
structure ChunkLoop where
  /-- The chunks already complete. -/
  chunks : Array String
  /-- The chunk being filled. -/
  current : String
  /-- The number of characters in `current`. -/
  count : Nat

/-- One character of the chunking loop. A full chunk is flushed only when the next character
arrives, so the loop never leaves an empty chunk behind. -/
def ChunkLoop.step (limit : Nat) (loop : ChunkLoop) (c : Char) : ChunkLoop :=
  let loop : ChunkLoop :=
    if loop.count = limit then ⟨loop.chunks.push loop.current, "", 0⟩ else loop
  ⟨loop.chunks, loop.current.push c, loop.count + 1⟩

/-- `text` cut into chunks of `limit` characters, the last holding what is left; the empty
text gives one empty chunk. The characters are taken one by one, and the chunk being filled
is flushed at the end. -/
def splitChunks (text : String) (limit : Nat) : List String :=
  let limit := max limit 1
  if text.isEmpty then [""]
  else
    let last := text.foldl (ChunkLoop.step limit) ⟨#[], "", 0⟩
    (last.chunks.push last.current).toList

/-- The stored form of `text`: whole when it has at most `limit` characters, else chunked. -/
def ofEncoded (text : String) (limit : Nat) : SignatureText :=
  if text.length ≤ limit then single text else chunked (splitChunks text limit)

/-- The whole text of an annotation. -/
def encoded : SignatureText → String
  | single text => text
  | chunked chunks => String.join chunks

/-- Whether the annotation is stored in chunks. -/
def isChunked : SignatureText → Bool
  | single _ => false
  | chunked _ => true

end SignatureText

end PickleShading
