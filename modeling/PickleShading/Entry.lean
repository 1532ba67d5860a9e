import PickleShading.Link
import PickleShading.Text.Utf8

/-!
# Entries

A signature pickle is a table of entries, each written `[code][length][payload]`: a one-byte
type code, the framed payload length, then the payload. Four kinds of entry are understood:

* term names (code 1) and type names (code 2), whose payload is UTF-8 text;
* namespace links (code 10), see `Link`;
* constant wrappers (code 15), whose payload starts with the framed index of a literal entry.

Every other entry, and every entry of those codes whose payload does not decode, is kept as
raw bytes. Decoding never fails (`Entry.ofRaw`), and writing an entry gives back the code and
payload it was decoded from.
-/

namespace PickleShading

/-- Whether a name entry names a term or a type. -/
inductive NameKind where
  | term
  | type
deriving DecidableEq, Repr

namespace NameKind

/-- The entry code of a name of this kind. -/
def code : NameKind → UInt8
  | term => 1
  | type => 2

end NameKind

/-- The kinds of literal that a pickle stores, each under its own entry code, 24 to 36 in
this order. -/
inductive LiteralKind where
  | unit
  | boolean
  | byte
  | short
  | char
  | int
  | long
  | float
  | double
  | string
  | null
  | classOf
  | enumValue
deriving DecidableEq, Repr

namespace LiteralKind

/-- Every literal kind, in the order of their codes. -/
def all : List LiteralKind :=
  [unit, boolean, byte, short, char, int, long, float, double, string, null, classOf, enumValue]

/-- The entry code of a literal of this kind. -/
def code : LiteralKind → UInt8
  | unit => 24
  | boolean => 25
  | byte => 26
  | short => 27
  | char => 28
  | int => 29
  | long => 30
  | float => 31
  | double => 32
  | string => 33
  | null => 34
  | classOf => 35
  | enumValue => 36

/-- The literal kind stored under entry code `c`, if any. -/
def ofCode? (c : UInt8) : Option LiteralKind :=
  all.find? fun k => k.code == c

end LiteralKind

/-- One entry of a signature's table. -/
inductive Entry where
  /-- An entry kept as its code and payload bytes. -/
  | raw (code : UInt8) (payload : List UInt8)
  /-- A term or type name. -/
  | name (kind : NameKind) (text : String)
  /-- A namespace component. -/
  | link (link : Link)
  /-- A constant wrapping the literal at `literalRef`; `payload` is the whole payload, the
  framed reference included. -/
  | constant (literalRef : Nat) (payload : List UInt8)
deriving DecidableEq, Repr

namespace Entry

/-- The entry code of namespace links. -/
def linkCode : UInt8 := 10

/-- The entry code of constant wrappers. -/
def constantCode : UInt8 := 15

/-- The entry that a code and payload stand for, if the code is one of the understood kinds
and the payload decodes as that kind. -/
def decode? (code : UInt8) (payload : List UInt8) : Option Entry :=
  if code = NameKind.term.code then (Utf8.decode? payload).map (name .term)
  else if code = NameKind.type.code then (Utf8.decode? payload).map (name .type)
  else if code = linkCode then (Link.ofPayload? payload).map link
  else if code = constantCode then
    (Cursor.leadingVarint? payload).map fun r => constant r payload
  else none

/-- The entry for a code and payload: decoded when it can be, raw otherwise. -/
def ofRaw (code : UInt8) (payload : List UInt8) : Entry :=
  (decode? code payload).getD (raw code payload)

/-- The code written in front of the entry. -/
def code : Entry → UInt8
  | raw c _ => c
  | name k _ => k.code
  | link _ => linkCode
  | constant _ _ => constantCode

/-- The payload written for the entry: stored bytes, the UTF-8 text of a name, or the
references of a link. -/
def payload : Entry → List UInt8
  | raw _ p => p
  | name _ t => Utf8.encode t
  | link l => l.payload
  | constant _ p => p

/-- The length of the payload, read off without building it: a name's UTF-8 size is kept with
its text. -/
def payloadLength : Entry → Nat
  | name _ t => t.utf8ByteSize
  | e => e.payload.length

@[simp]
theorem payloadLength_eq (e : Entry) : e.payloadLength = e.payload.length := by
  cases e <;> simp [payloadLength, payload]

/-- The bytes of the entry, `[code][length][payload]`. Fails when a link's reference or the
payload length does not fit 32 bits; a link's name reference is judged before its parent. -/
def write (e : Entry) : Except Error (List UInt8) := do
  match e with
  | link l => l.checkRefs
  | _ => pure ()
  let n ← Varint.word e.payloadLength
  pure (e.code :: Varint.encode n ++ e.payload)

/-- Whether the entry is a namespace link. -/
def isLink : Entry → Bool
  | link _ => true
  | _ => false

/-- Whether the entry is a constant wrapper. -/
def isConstant : Entry → Bool
  | constant _ _ => true
  | _ => false

/-- How one payload byte is shown: visible ASCII as itself, anything else as a dot. -/
def shownByte (b : UInt8) : Char :=
  if 32 < b ∧ b < 127 then Char.ofNat b.toNat else '.'

/-- One line describing the entry. A raw entry shows at most its first 64 payload bytes. -/
def display : Entry → String
  | raw c p => "Type=" ++ toString c.toNat ++ " Raw=" ++ String.ofList ((p.take 64).map shownByte)
  | name .term t => "Type=termName name=" ++ t
  | name .type t => "Type=typeName name=" ++ t
  | link ⟨n, none⟩ => "Type=extModClassRef nameRef=" ++ toString n
  | link ⟨n, some p⟩ => "Type=extModClassRef nameRef=" ++ toString n ++ " parentRef=" ++ toString p
  | constant r _ => "Type=constantType literalRef=" ++ toString r

end Entry

end PickleShading
