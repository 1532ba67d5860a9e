import PickleShading.Proofs.Framing
import PickleShading.Entry

/-!
# Entries keep their framing

Decoding an entry never changes what is written for it: whatever kind `Entry.ofRaw` gives, its
code is the code read and its payload the payload read, and its references fit 32 bits, so
writing it frames the same payload again. Conversely a name, or a link whose references fit 32
bits, decodes from what is written for it. Together these make an entry *stable*: decoding its
own code and payload gives it back, the property that a written pickle reads back entry by
entry.

The two kinds that carry references are read exactly. A link payload is a link exactly when it
is the shortest form of one or two numbers that fit 32 bits, and a constant payload is a
constant exactly when it starts with a complete framed number that fits 32 bits, padded or
not; every other payload of these codes stays raw (`Entry.ofRaw_link_constant_exact`).
-/

namespace PickleShading

namespace Link

/-- Both references of the link fit 32 bits. -/
def Fits (l : Link) : Prop := l.nameRef ≤ Varint.maxWord ∧ ∀ p ∈ l.parentRef, p ≤ Varint.maxWord

/-- A shortest form is never empty. -/
theorem encode_ne_nil (v : Nat) : Varint.encode v ≠ [] := by
  simp [Varint.encode_eq]

/-- A link decoded from a payload writes that payload, and its references fit 32 bits. The
payload is the name reference and the parent reference, each behind some zero groups, with
nothing after them; its length is the shortest sizes plus those groups, so the length check
leaves no room for any. -/
theorem ofPayload?_eq_some {bytes : List UInt8} {l : Link} (decoded : ofPayload? bytes = some l) :
    l.payload = bytes ∧ l.Fits := by
  unfold ofPayload? at decoded
  split at decoded
  · cases decoded
  · rename_i name c readName
    obtain ⟨k, nameBytes, -, nameFits⟩ := Cursor.readVarint_eq_ok readName
    simp only [Cursor.start] at nameBytes
    by_cases more : c.hasMore
    · cases readParent : c.readVarint with
      | error e c' => simp [more, readParent] at decoded
      | ok parent c' =>
        obtain ⟨k', parentBytes, -, parentFits⟩ := Cursor.readVarint_eq_ok readParent
        simp only [more, readParent, if_true] at decoded
        split_ifs at decoded with trailing sized
        cases decoded
        have ended : c'.rest = [] := by simpa [Cursor.hasMore] using trailing
        rw [ended, List.append_nil] at parentBytes
        rw [parentBytes] at nameBytes
        have lengths := congrArg List.length nameBytes
        simp only [payloadSize, Option.map_some, Option.getD_some, List.length_append,
          Varint.length_padded] at sized lengths
        obtain rfl : k = 0 := by omega
        obtain rfl : k' = 0 := by omega
        refine ⟨?_, nameFits, by simpa using parentFits⟩
        simp [payload, nameBytes]
    · simp only [more, Bool.false_eq_true, if_false] at decoded
      split_ifs at decoded with sized
      cases decoded
      have ended : c.rest = [] := by simpa [Cursor.hasMore] using more
      rw [ended, List.append_nil] at nameBytes
      have lengths := congrArg List.length nameBytes
      simp only [payloadSize, Option.map_none, Option.getD_none, Nat.add_zero,
        Varint.length_padded] at sized lengths
      obtain rfl : k = 0 := by omega
      exact ⟨by simp [payload, nameBytes], nameFits, by simp⟩

/-- A link whose references fit 32 bits is decoded from its own payload. -/
theorem ofPayload?_payload {l : Link} (fits : l.Fits) : ofPayload? l.payload = some l := by
  obtain ⟨name, parent⟩ := l
  obtain ⟨nameFits, parentFits⟩ := fits
  unfold ofPayload?
  cases parent with
  | none =>
    have readName := Cursor.readVarint_encode_append name nameFits []
    simp only [payload, Option.map_none, Option.getD_none, List.append_nil] at readName ⊢
    simp [readName, Cursor.hasMore, payloadSize, Varint.length_encode]
  | some parent =>
    have parentFits : parent ≤ Varint.maxWord := parentFits parent rfl
    have readName := Cursor.readVarint_encode_append name nameFits (Varint.encode parent)
    have readParent := Cursor.readVarint_padded_append 0 parent parentFits (Varint.size name) []
    simp only [Varint.padded_zero, List.append_nil] at readParent
    simp only [payload, Option.map_some, Option.getD_some] at readName ⊢
    simp [readName, readParent, Cursor.hasMore, encode_ne_nil, payloadSize, Varint.length_encode]

/-- Writing a link's references succeeds exactly when both fit 32 bits. -/
theorem checkRefs_eq_ok (l : Link) : l.checkRefs = .ok () ↔ l.Fits := by
  obtain ⟨name, parent⟩ := l
  by_cases nameFits : name ≤ Varint.maxWord
  · cases parent with
    | none => simp [checkRefs, Fits, Varint.word, nameFits, pure, Except.pure, bind, Except.bind]
    | some parent =>
      by_cases parentFits : parent ≤ Varint.maxWord
      · simp [checkRefs, Fits, Varint.word, nameFits, parentFits, pure, Except.pure, bind,
          Except.bind]
      · simp [checkRefs, Fits, Varint.word, nameFits, parentFits, bind, Except.bind]
  · simp [checkRefs, Fits, Varint.word, nameFits, bind, Except.bind]

end Link

namespace Entry

/-- What decoding can give: the raw entry, or an entry of the code's kind decoded from the
payload. -/
theorem ofRaw_cases (code : UInt8) (bytes : List UInt8) :
    ofRaw code bytes = raw code bytes ∨
    (∃ k text, code = k.code ∧ Utf8.decode? bytes = some text ∧
      ofRaw code bytes = name k text) ∨
    (∃ l, code = linkCode ∧ Link.ofPayload? bytes = some l ∧ ofRaw code bytes = link l) ∨
    (∃ r, code = constantCode ∧ ofRaw code bytes = constant r bytes) := by
  unfold ofRaw decode?
  split_ifs with term type linked constant
  · cases Utf8.decode? bytes with
    | none => exact Or.inl rfl
    | some text => exact Or.inr (Or.inl ⟨.term, text, term, rfl, rfl⟩)
  · cases Utf8.decode? bytes with
    | none => exact Or.inl rfl
    | some text => exact Or.inr (Or.inl ⟨.type, text, type, rfl, rfl⟩)
  · cases Link.ofPayload? bytes with
    | none => exact Or.inl rfl
    | some l => exact Or.inr (Or.inr (Or.inl ⟨l, linked, rfl, rfl⟩))
  · cases Cursor.leadingVarint? bytes with
    | none => exact Or.inl rfl
    | some r => exact Or.inr (Or.inr (Or.inr ⟨r, constant, rfl⟩))
  · exact Or.inl rfl

/-- Decoding keeps the code it was given, for every kind it may give. -/
@[simp]
theorem code_ofRaw (code : UInt8) (bytes : List UInt8) : (ofRaw code bytes).code = code := by
  rcases ofRaw_cases code bytes with isRaw | ⟨k, text, kind, -, isName⟩ |
      ⟨l, kind, -, isLink⟩ | ⟨r, kind, isConstant⟩
  · rw [isRaw, Entry.code]
  · rw [isName, Entry.code, kind]
  · rw [isLink, Entry.code, kind]
  · rw [isConstant, Entry.code, kind]

/-- Decoding keeps the payload it was given: a name writes the UTF-8 text it was decoded
from, a link the canonical references it was decoded from, and a constant or a raw entry its
stored bytes. -/
@[simp]
theorem payload_ofRaw (code : UInt8) (bytes : List UInt8) : (ofRaw code bytes).payload = bytes := by
  rcases ofRaw_cases code bytes with isRaw | ⟨k, text, -, decoded, isName⟩ |
      ⟨l, -, decoded, isLink⟩ | ⟨r, -, isConstant⟩
  · rw [isRaw, Entry.payload]
  · rw [isName, Entry.payload, Utf8.encode_of_decode? decoded]
  · rw [isLink, Entry.payload, (Link.ofPayload?_eq_some decoded).1]
  · rw [isConstant, Entry.payload]

/-- What writing an entry needs: its payload length and, for a link, its references fit 32
bits. -/
def Fits (e : Entry) : Prop :=
  e.payload.length ≤ Varint.maxWord ∧ ∀ l, e = link l → l.Fits

/-- An entry whose numbers fit is written as its code, its framed payload length and its
payload. -/
theorem write_of_fits {e : Entry} (fits : e.Fits) :
    e.write = .ok (e.code :: Varint.encode e.payload.length ++ e.payload) := by
  obtain ⟨lengthFits, refsFit⟩ := fits
  have lengthChecked : Varint.word e.payloadLength = .ok e.payload.length := by
    simp [Varint.word, lengthFits]
  cases e with
  | link l =>
    have refsChecked := (Link.checkRefs_eq_ok l).mpr (refsFit l rfl)
    simp only [write, bind, Except.bind, refsChecked, lengthChecked, pure, Except.pure]
  | raw | name | constant =>
    simp only [write, bind, Except.bind, lengthChecked, pure, Except.pure]

/-- Every decoded entry whose payload length fits 32 bits fits: a decoded link's references
come from framed numbers, which fit by construction. -/
theorem fits_ofRaw (code : UInt8) {bytes : List UInt8}
    (lengthFits : bytes.length ≤ Varint.maxWord) : (ofRaw code bytes).Fits := by
  refine ⟨by simpa using lengthFits, ?_⟩
  intro l isLink
  rcases ofRaw_cases code bytes with isRaw | ⟨k, text, -, -, isName⟩ |
      ⟨l', -, decoded, isLink'⟩ | ⟨r, -, isConstant⟩
  · rw [isRaw] at isLink; cases isLink
  · rw [isName] at isLink; cases isLink
  · rw [isLink'] at isLink
    cases isLink
    exact (Link.ofPayload?_eq_some decoded).2
  · rw [isConstant] at isLink; cases isLink

/-- A decoded entry is written as the code, the framed length and the payload it was decoded
from, whatever kind decoding gave, as long as the payload length fits 32 bits. -/
theorem write_ofRaw (code : UInt8) {bytes : List UInt8}
    (lengthFits : bytes.length ≤ Varint.maxWord) :
    (ofRaw code bytes).write = .ok (code :: Varint.encode bytes.length ++ bytes) := by
  rw [write_of_fits (fits_ofRaw code lengthFits), code_ofRaw, payload_ofRaw]

/-- An entry is stable when decoding its own code and payload gives it back. -/
def Stable (e : Entry) : Prop := ofRaw e.code e.payload = e

/-- Every decoded entry is stable. -/
theorem stable_ofRaw (code : UInt8) (bytes : List UInt8) : (ofRaw code bytes).Stable := by
  rw [Stable, code_ofRaw, payload_ofRaw]

/-- Every name is stable: its UTF-8 text decodes back to it. -/
theorem stable_name (k : NameKind) (text : String) : (name k text).Stable := by
  cases k <;> simp [Stable, ofRaw, decode?, Entry.code, Entry.payload, NameKind.code]

/-- A link whose references fit 32 bits is stable. -/
theorem stable_link {l : Link} (fits : l.Fits) : (link l).Stable := by
  simp [Stable, ofRaw, decode?, Entry.code, Entry.payload, linkCode, NameKind.code,
    Link.ofPayload?_payload fits]

end Entry

/-! ## Exact acceptance of references -/

namespace Link

/-- A payload is decoded as a link exactly when the link's references fit 32 bits and the
payload is what the link writes. -/
theorem ofPayload?_eq_some_iff {bytes : List UInt8} {l : Link} :
    ofPayload? bytes = some l ↔ l.Fits ∧ l.payload = bytes := by
  constructor
  · intro decoded
    exact ⟨(ofPayload?_eq_some decoded).2, (ofPayload?_eq_some decoded).1⟩
  · rintro ⟨fits, rfl⟩
    exact ofPayload?_payload fits

/-- What links whose references fit write: the shortest form of a name reference, alone or
followed by the shortest form of a parent reference. -/
theorem exists_payload_iff {bytes : List UInt8} :
    (∃ l : Link, l.Fits ∧ l.payload = bytes) ↔
      (∃ a ≤ Varint.maxWord, bytes = Varint.encode a) ∨
      ∃ a ≤ Varint.maxWord, ∃ b ≤ Varint.maxWord, bytes = Varint.encode a ++ Varint.encode b := by
  constructor
  · rintro ⟨⟨a, parent⟩, ⟨nameFits, parentFits⟩, rfl⟩
    cases parent with
    | none => exact Or.inl ⟨a, nameFits, by simp [payload]⟩
    | some b => exact Or.inr ⟨a, nameFits, b, parentFits b rfl, by simp [payload]⟩
  · rintro (⟨a, nameFits, rfl⟩ | ⟨a, nameFits, b, parentFits, rfl⟩)
    · exact ⟨⟨a, none⟩, ⟨nameFits, by simp⟩, by simp [payload]⟩
    · exact ⟨⟨a, some b⟩, ⟨nameFits, by simpa using parentFits⟩, by simp [payload]⟩

end Link

namespace Cursor

/-- A payload starts with a complete framed number of value `v` exactly when `v` fits 32 bits
and the payload starts with a padded form of `v`. -/
theorem leadingVarint?_eq_some_iff {bytes : List UInt8} {v : Nat} :
    leadingVarint? bytes = some v ↔
      v ≤ Varint.maxWord ∧ ∃ k rest, bytes = Varint.padded k v ++ rest := by
  unfold leadingVarint?
  split
  · rename_i n c read
    obtain ⟨k, consumed, -, fits⟩ := readVarint_eq_ok read
    constructor
    · rintro ⟨⟩
      exact ⟨fits, k, c.rest, consumed⟩
    · rintro ⟨vFits, k', rest, padded⟩
      have again := readVarint_padded_append k' v vFits 0 rest
      rw [← padded] at again
      simp only [start] at read
      rw [read] at again
      cases again
      rfl
  · rename_i e c failed
    simp only [reduceCtorEq, false_iff]
    rintro ⟨fits, k, rest, padded⟩
    have read := readVarint_padded_append k v fits 0 rest
    rw [← padded] at read
    simp only [start] at failed
    rw [failed] at read
    cases read

end Cursor

namespace Entry

/-- The code of namespace links decodes the payload as a link, or keeps it raw. -/
theorem ofRaw_linkCode (bytes : List UInt8) :
    ofRaw linkCode bytes = ((Link.ofPayload? bytes).map link).getD (raw linkCode bytes) := by
  simp [ofRaw, decode?, linkCode, NameKind.code]

/-- The code of constant wrappers decodes the reference at the start of the payload and keeps
the whole payload, or keeps it raw. -/
theorem ofRaw_constantCode (bytes : List UInt8) :
    ofRaw constantCode bytes =
      ((Cursor.leadingVarint? bytes).map fun r => constant r bytes).getD (raw constantCode bytes) := by
  simp [ofRaw, decode?, linkCode, constantCode, NameKind.code]

/-- A link payload decodes to `l` exactly when `l` fits and writes the payload. -/
theorem ofRaw_linkCode_eq_link {bytes : List UInt8} {l : Link} :
    ofRaw linkCode bytes = link l ↔ l.Fits ∧ l.payload = bytes := by
  rw [ofRaw_linkCode, ← Link.ofPayload?_eq_some_iff]
  cases Link.ofPayload? bytes <;> simp

/-- A link payload stays raw exactly when no link that fits writes it. -/
theorem ofRaw_linkCode_eq_raw {bytes : List UInt8} :
    ofRaw linkCode bytes = raw linkCode bytes ↔ ¬ ∃ l : Link, l.Fits ∧ l.payload = bytes := by
  simp only [ofRaw_linkCode, ← Link.ofPayload?_eq_some_iff, not_exists]
  cases Link.ofPayload? bytes <;> simp

/-- A constant payload decodes to a constant referring to `v` exactly when its leading framed
number is `v`. -/
theorem ofRaw_constantCode_eq_constant {bytes : List UInt8} {v : Nat} :
    ofRaw constantCode bytes = constant v bytes ↔ Cursor.leadingVarint? bytes = some v := by
  rw [ofRaw_constantCode]
  cases Cursor.leadingVarint? bytes <;> simp

/-- A constant payload stays raw exactly when it does not start with a complete framed
number. -/
theorem ofRaw_constantCode_eq_raw {bytes : List UInt8} :
    ofRaw constantCode bytes = raw constantCode bytes ↔ Cursor.leadingVarint? bytes = none := by
  rw [ofRaw_constantCode]
  cases Cursor.leadingVarint? bytes <;> simp

/-- Exact acceptance of the kinds that carry references. A link payload is a root link exactly
when it is the shortest form of a number that fits 32 bits, a link with a parent exactly when
it is the shortest forms of two such numbers one after the other, and raw otherwise: empty,
truncated, overflowing, padded or followed by more bytes. A constant payload is a constant
referring to `v`, its whole payload kept, exactly when it starts with a complete framed number
of value `v` below 2^32, padded or not, and raw otherwise. -/
theorem ofRaw_link_constant_exact (bytes : List UInt8) :
    (∀ a, ofRaw linkCode bytes = link ⟨a, none⟩ ↔ a ≤ Varint.maxWord ∧ bytes = Varint.encode a) ∧
    (∀ a b, ofRaw linkCode bytes = link ⟨a, some b⟩ ↔
      a ≤ Varint.maxWord ∧ b ≤ Varint.maxWord ∧ bytes = Varint.encode a ++ Varint.encode b) ∧
    (ofRaw linkCode bytes = raw linkCode bytes ↔
      ¬ ((∃ a ≤ Varint.maxWord, bytes = Varint.encode a) ∨
        ∃ a ≤ Varint.maxWord, ∃ b ≤ Varint.maxWord, bytes = Varint.encode a ++ Varint.encode b)) ∧
    (∀ v, ofRaw constantCode bytes = constant v bytes ↔
      v ≤ Varint.maxWord ∧ ∃ k rest, bytes = Varint.padded k v ++ rest) ∧
    (ofRaw constantCode bytes = raw constantCode bytes ↔
      ¬ ∃ v ≤ Varint.maxWord, ∃ k rest, bytes = Varint.padded k v ++ rest) := by
  refine ⟨fun a => ?_, fun a b => ?_, ?_, fun v => ?_, ?_⟩
  · rw [ofRaw_linkCode_eq_link]
    simp [Link.Fits, Link.payload, eq_comm]
  · rw [ofRaw_linkCode_eq_link]
    simp [Link.Fits, Link.payload, eq_comm, and_assoc]
  · rw [ofRaw_linkCode_eq_raw, Link.exists_payload_iff]
  · rw [ofRaw_constantCode_eq_constant, Cursor.leadingVarint?_eq_some_iff]
  · rw [ofRaw_constantCode_eq_raw, Option.eq_none_iff_forall_ne_some]
    simp only [Ne, Cursor.leadingVarint?_eq_some_iff, not_exists, not_and]

/-- The padded name reference `80 01` stays raw; `81 00 07` is the link with name reference 128
and parent 7. -/
example : ofRaw linkCode [0x80, 0x01] = raw linkCode [0x80, 0x01] ∧
    ofRaw linkCode [0x81, 0x00, 0x07] = link ⟨128, some 7⟩ := by
  decide +kernel

end Entry

end PickleShading
