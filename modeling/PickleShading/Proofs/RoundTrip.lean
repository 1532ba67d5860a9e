import PickleShading.Proofs.Entries
import PickleShading.Proofs.Reads
import PickleShading.Proofs.Appending

/-!
# Reading a pickle and writing it again

A pickle's bytes are framed: the version, the entry count, and for each entry its code, its
framed payload length and its payload, then possibly one zero byte. Reading accepts framed
numbers with groups of zero in front of their shortest form; writing gives every number in its
shortest form and no trailing byte.

Main statement (`Pickle.serialize_parse_reframes`): writing a pickle that was read gives back
the bytes it was read from, with every framed number of the framing written shortest and the
trailing zero byte dropped, whatever the entries hold. The payloads are copied byte for byte,
because an entry keeps the code and payload it was decoded from (`Entry.code_ofRaw`,
`Entry.payload_ofRaw`).

Reading is taken apart by `Pickle.read_eq_ok` and run forwards by `Pickle.parse_frames`: every
framing of entries whose numbers fit 32 bits is read as the pickle of those entries.
-/

namespace PickleShading

/-- One entry as it stands in a pickle: its code, its payload, and how many groups of zero pad
the framed payload length. -/
structure Frame where
  /-- The entry code. -/
  code : UInt8
  /-- Groups of zero in front of the shortest form of the payload length. -/
  pad : Nat
  /-- The payload bytes. -/
  payload : List UInt8
deriving DecidableEq, Repr

namespace Frame

/-- The bytes of the entry as they were read: code, padded length, payload. -/
def bytes (f : Frame) : List UInt8 := f.code :: Varint.padded f.pad f.payload.length ++ f.payload

/-- The bytes of the entry as they are written: code, shortest length, payload. -/
def shortest (f : Frame) : List UInt8 := f.code :: Varint.encode f.payload.length ++ f.payload

/-- The entry that reading the frame adds to the table. -/
def entry (f : Frame) : Entry := Entry.ofRaw f.code f.payload

end Frame

namespace Table

/-- Writing entries that were read gives their frames with every length written shortest. -/
theorem writeEntries_frames :
    ∀ frames : List Frame, (∀ f ∈ frames, f.payload.length ≤ Varint.maxWord) →
      writeEntries (frames.map Frame.entry) = .ok (frames.map Frame.shortest).flatten
  | [], _ => rfl
  | f :: frames, fits => by
    have headWritten := Entry.write_ofRaw f.code (fits f List.mem_cons_self)
    have tailWritten := writeEntries_frames frames fun g mem => fits g (List.mem_cons_of_mem f mem)
    simp only [List.map_cons, writeEntries, Frame.entry] at headWritten ⊢
    rw [headWritten, tailWritten]
    rfl

/-- Writing the table read from frames gives the count and the frames, every number in its
shortest form. -/
theorem write_pushAll_frames (frames : List Frame)
    (fits : ∀ f ∈ frames, f.payload.length ≤ Varint.maxWord)
    (countFits : frames.length ≤ Varint.maxWord) :
    (empty.pushAll (frames.map Frame.entry)).write =
      .ok (Varint.encode frames.length ++ (frames.map Frame.shortest).flatten) := by
  have size : (empty.pushAll (frames.map Frame.entry)).size = frames.length := by
    simp [size, empty]
  have entries : (empty.pushAll (frames.map Frame.entry)).entries.toList =
      frames.map Frame.entry := by
    simp [empty]
  have countChecked : Varint.word frames.length = .ok frames.length := by
    simp [Varint.word, countFits]
  simp only [write, size, entries, countChecked, writeEntries_frames frames fits, bind,
    Except.bind, pure, Except.pure]

end Table

namespace Pickle

/-- What reading `n` entries consumed: `n` frames, each payload length fitting 32 bits, whose
entries were pushed in order. -/
theorem readEntries_eq_ok : ∀ (n : Nat) (t t' : Table) (c c' : Cursor),
    readEntries n t c = .ok t' c' →
    ∃ frames : List Frame, frames.length = n ∧
      c.rest = (frames.map Frame.bytes).flatten ++ c'.rest ∧
      (∀ f ∈ frames, f.payload.length ≤ Varint.maxWord) ∧
      t' = t.pushAll (frames.map Frame.entry)
  | 0, t, t', c, c', read => by
    simp only [readEntries, pure, EStateM.pure, EStateM.Result.ok.injEq] at read
    obtain ⟨rfl, rfl⟩ := read
    exact ⟨[], rfl, rfl, by simp, rfl⟩
  | n + 1, t, t', c, c', read => by
    unfold readEntries at read
    obtain ⟨code, c₁, readCode, read⟩ := bind_eq_ok.mp read
    obtain ⟨length, c₂, readLength, read⟩ := bind_eq_ok.mp read
    obtain ⟨payload, c₃, readPayload, read⟩ := bind_eq_ok.mp read
    obtain ⟨frames, count, consumed, fits, pushed⟩ := readEntries_eq_ok n _ t' c₃ c' read
    obtain ⟨codeHead, -⟩ := Cursor.readByte_eq_ok.mp readCode
    obtain ⟨pad, lengthForm, -, lengthFits⟩ := Cursor.readVarint_eq_ok readLength
    obtain ⟨payloadLength, payloadForm, -⟩ := Cursor.readBytes_eq_ok.mp readPayload
    refine ⟨⟨code, pad, payload⟩ :: frames, by simp [count], ?_, ?_, ?_⟩
    · rw [codeHead, lengthForm, payloadForm, consumed]
      simp [Frame.bytes, payloadLength]
    · intro f mem
      rcases List.mem_cons.mp mem with rfl | mem
      · simpa [payloadLength] using lengthFits
      · exact fits f mem
    · rw [pushed]
      rfl

/-- What reading a whole pickle consumed: the version 5.0 and the entry count as padded
framed numbers, the frames of the entries, and nothing or a single zero byte. The pickle holds
the entries of the frames. -/
theorem read_eq_ok {c c' : Cursor} {p : Pickle} (read : Pickle.read c = .ok p c') :
    ∃ (majorPad minorPad countPad : Nat) (frames : List Frame) (trailer : List UInt8),
      (trailer = [] ∨ trailer = [0]) ∧
      c.rest = Varint.padded majorPad 5 ++ Varint.padded minorPad 0 ++
        Varint.padded countPad frames.length ++ (frames.map Frame.bytes).flatten ++ trailer ∧
      (∀ f ∈ frames, f.payload.length ≤ Varint.maxWord) ∧ frames.length ≤ Varint.maxWord ∧
      p = ⟨5, 0, Table.empty.pushAll (frames.map Frame.entry)⟩ := by
  unfold Pickle.read at read
  obtain ⟨major, c₁, readMajor, read⟩ := bind_eq_ok.mp read
  obtain ⟨minor, c₂, readMinor, read⟩ := bind_eq_ok.mp read
  dsimp only at read
  split at read
  · -- any other version is refused before the count is read
    obtain ⟨_, _, thrown, -⟩ := bind_eq_ok.mp read
    cases thrown
  · rename_i version
    have supported : major = 5 ∧ minor = 0 := by
      simpa [supportedVersion] using version
    obtain ⟨rfl, rfl⟩ := supported
    obtain ⟨count, c₃, readCount, read⟩ := bind_eq_ok.mp read
    obtain ⟨table, c₄, readTable, read⟩ := bind_eq_ok.mp read
    obtain ⟨u, c₅, readTrailer, read⟩ := bind_eq_ok.mp read
    simp only [pure, EStateM.pure, EStateM.Result.ok.injEq] at read
    obtain ⟨rfl, rfl⟩ := read
    obtain ⟨majorPad, majorForm, -, -⟩ := Cursor.readVarint_eq_ok readMajor
    obtain ⟨minorPad, minorForm, -, -⟩ := Cursor.readVarint_eq_ok readMinor
    obtain ⟨countPad, countForm, -, countFits⟩ := Cursor.readVarint_eq_ok readCount
    obtain ⟨frames, rfl, framesForm, fits, rfl⟩ :=
      readEntries_eq_ok _ Table.empty table c₃ c₄ readTable
    obtain ⟨trailer, -⟩ := readEnd_eq_ok.mp readTrailer
    refine ⟨majorPad, minorPad, countPad, frames, c₄.rest, trailer, ?_, fits, countFits, rfl⟩
    rw [majorForm, minorForm, countForm, framesForm]
    simp only [List.append_assoc]

/-- A pickle is parsed exactly when reading from the start succeeds. -/
theorem parse_eq_ok {bytes : List UInt8} {p : Pickle} :
    parse bytes = .ok p ↔ ∃ c, read (Cursor.start bytes) = .ok p c := by
  unfold parse
  split
  · rename_i p' c readOk
    simp only [Except.ok.injEq]
    constructor
    · rintro rfl
      exact ⟨c, readOk⟩
    · rintro ⟨c', readOk'⟩
      rw [readOk] at readOk'
      cases readOk'
      rfl
  · rename_i e c readError
    simp only [reduceCtorEq, false_iff]
    rintro ⟨c', readOk⟩
    rw [readOk] at readError
    cases readError

/-- Reading the entries of frames pushes the frames' entries and stops right behind them. -/
theorem readEntries_frames : ∀ (frames : List Frame) (t : Table) (pos : Nat) (rest : List UInt8),
    (∀ f ∈ frames, f.payload.length ≤ Varint.maxWord) →
      ∃ pos', readEntries frames.length t ⟨pos, (frames.map Frame.bytes).flatten ++ rest⟩ =
        .ok (t.pushAll (frames.map Frame.entry)) ⟨pos', rest⟩
  | [], t, pos, rest, _ => ⟨pos, rfl⟩
  | f :: frames, t, pos, rest, fits => by
    have lengthFits := fits f List.mem_cons_self
    obtain ⟨pos', restRead⟩ := readEntries_frames frames (t.addRaw f.code f.payload).1
      (pos + 1 + f.pad + Varint.size f.payload.length + f.payload.length) rest
      fun g mem => fits g (List.mem_cons_of_mem f mem)
    refine ⟨pos', ?_⟩
    have codeRead : Cursor.readByte ⟨pos, (f :: frames |>.map Frame.bytes).flatten ++ rest⟩ =
        .ok f.code ⟨pos + 1, Varint.padded f.pad f.payload.length ++
          (f.payload ++ ((frames.map Frame.bytes).flatten ++ rest))⟩ :=
      Cursor.readByte_eq_ok.mpr ⟨by simp [Frame.bytes], rfl⟩
    have lengthRead := Cursor.readVarint_padded_append f.pad f.payload.length lengthFits (pos + 1)
      (f.payload ++ ((frames.map Frame.bytes).flatten ++ rest))
    have payloadRead : Cursor.readBytes f.payload.length
        ⟨pos + 1 + f.pad + Varint.size f.payload.length,
          f.payload ++ ((frames.map Frame.bytes).flatten ++ rest)⟩ =
        .ok f.payload ⟨pos + 1 + f.pad + Varint.size f.payload.length + f.payload.length,
          (frames.map Frame.bytes).flatten ++ rest⟩ :=
      Cursor.readBytes_eq_ok.mpr ⟨rfl, rfl, rfl⟩
    simp only [List.length_cons, readEntries]
    rw [bind_of_ok codeRead, bind_of_ok lengthRead, bind_of_ok payloadRead, restRead]
    rfl

/-- Every framing of the version 5.0, an entry count and entries whose lengths fit 32 bits,
followed by nothing or a single zero byte, is read as the pickle of those entries. -/
theorem parse_frames (majorPad minorPad countPad : Nat) (frames : List Frame)
    {trailer : List UInt8} (trailerShape : trailer = [] ∨ trailer = [0])
    (fits : ∀ f ∈ frames, f.payload.length ≤ Varint.maxWord)
    (countFits : frames.length ≤ Varint.maxWord) :
    parse (Varint.padded majorPad 5 ++ Varint.padded minorPad 0 ++
        Varint.padded countPad frames.length ++ (frames.map Frame.bytes).flatten ++ trailer) =
      .ok ⟨5, 0, Table.empty.pushAll (frames.map Frame.entry)⟩ := by
  have fiveFits : 5 ≤ Varint.maxWord := by decide
  have zeroFits : 0 ≤ Varint.maxWord := by decide
  obtain ⟨pos, entriesRead⟩ := readEntries_frames frames Table.empty
    (0 + majorPad + Varint.size 5 + minorPad + Varint.size 0 + countPad +
      Varint.size frames.length) trailer fits
  have endRead : readEnd ⟨pos, trailer⟩ = .ok () ⟨pos + trailer.length, []⟩ :=
    readEnd_eq_ok.mpr ⟨trailerShape, rfl⟩
  apply parse_eq_ok.mpr
  refine ⟨⟨pos + trailer.length, []⟩, ?_⟩
  simp only [Cursor.start, read, List.append_assoc]
  rw [bind_of_ok (Cursor.readVarint_padded_append majorPad 5 fiveFits 0 _),
    bind_of_ok (Cursor.readVarint_padded_append minorPad 0 zeroFits _ _)]
  split
  · rename_i refused
    exact absurd rfl refused
  · rw [bind_of_ok (Cursor.readVarint_padded_append countPad frames.length countFits _ _),
      bind_of_ok entriesRead, bind_of_ok endRead]
    rfl

/-- Writing a pickle that was read gives back the bytes it was read from with every framed
number of the framing (version, count, payload lengths) in its shortest form and without the
trailing zero byte, whatever the entries' codes and payloads are. In particular, when the
framing numbers were read in their shortest form, writing gives the bytes read less the
trailing zero byte. -/
theorem serialize_parse_reframes (bytes : List UInt8) (p : Pickle)
    (parsed : parse bytes = .ok p) :
    ∃ (majorPad minorPad countPad : Nat) (frames : List Frame) (trailer : List UInt8),
      (trailer = [] ∨ trailer = [0]) ∧
      bytes = Varint.padded majorPad 5 ++ Varint.padded minorPad 0 ++
        Varint.padded countPad frames.length ++ (frames.map Frame.bytes).flatten ++ trailer ∧
      p.serialize = .ok (Varint.encode 5 ++ Varint.encode 0 ++ Varint.encode frames.length ++
        (frames.map Frame.shortest).flatten) ∧
      (majorPad = 0 → minorPad = 0 → countPad = 0 → (∀ f ∈ frames, f.pad = 0) →
        p.serialize = .ok (bytes.take (bytes.length - trailer.length))) := by
  obtain ⟨c, readOk⟩ := parse_eq_ok.mp parsed
  obtain ⟨majorPad, minorPad, countPad, frames, trailer, trailerShape, consumed, fits,
    countFits, rfl⟩ := read_eq_ok readOk
  simp only [Cursor.start] at consumed
  have written : (⟨5, 0, Table.empty.pushAll (frames.map Frame.entry)⟩ : Pickle).serialize =
      .ok (Varint.encode 5 ++ Varint.encode 0 ++ Varint.encode frames.length ++
        (frames.map Frame.shortest).flatten) := by
    simp only [serialize, Table.write_pushAll_frames frames fits countFits, bind, Except.bind,
      pure, Except.pure, List.append_assoc]
  refine ⟨majorPad, minorPad, countPad, frames, trailer, trailerShape, consumed, written, ?_⟩
  intro majorShortest minorShortest countShortest framesShortest
  -- with no padding, each frame as read is the frame as written
  have sameFrames : frames.map Frame.bytes = frames.map Frame.shortest := by
    apply List.map_congr_left
    intro f mem
    simp [Frame.bytes, Frame.shortest, framesShortest f mem]
  have shape : bytes = (Varint.encode 5 ++ Varint.encode 0 ++ Varint.encode frames.length ++
      (frames.map Frame.shortest).flatten) ++ trailer := by
    rw [consumed, majorShortest, minorShortest, countShortest, sameFrames]
    simp
  rw [written, shape, List.length_append, Nat.add_sub_cancel, List.take_left]

/-- A pickle whose major version and only entry length are padded with a group of zero, and
which ends in the trailing zero byte. -/
theorem serialize_parse_reframes_padded :
    parse [0x80, 0x05, 0x00, 0x01, 0x21, 0x80, 0x01, 0x07, 0x00] =
      .ok ⟨5, 0, ⟨#[.raw 0x21 [0x07]], [], []⟩⟩ ∧
    ∃ (majorPad minorPad countPad : Nat) (frames : List Frame) (trailer : List UInt8),
      (trailer = [] ∨ trailer = [0]) ∧
      [0x80, 0x05, 0x00, 0x01, 0x21, 0x80, 0x01, 0x07, 0x00] = Varint.padded majorPad 5 ++
        Varint.padded minorPad 0 ++ Varint.padded countPad frames.length ++
        (frames.map Frame.bytes).flatten ++ trailer ∧
      (⟨5, 0, ⟨#[.raw 0x21 [0x07]], [], []⟩⟩ : Pickle).serialize =
        .ok (Varint.encode 5 ++ Varint.encode 0 ++ Varint.encode frames.length ++
          (frames.map Frame.shortest).flatten) ∧
      (majorPad = 0 → minorPad = 0 → countPad = 0 → (∀ f ∈ frames, f.pad = 0) →
        (⟨5, 0, ⟨#[.raw 0x21 [0x07]], [], []⟩⟩ : Pickle).serialize =
          .ok ([0x80, 0x05, 0x00, 0x01, 0x21, 0x80, 0x01, 0x07, 0x00].take
            ([0x80, 0x05, 0x00, 0x01, 0x21, 0x80, 0x01, 0x07, 0x00].length - trailer.length))) :=
  ⟨by decide, serialize_parse_reframes _ _ (by decide)⟩

end Pickle

end PickleShading
