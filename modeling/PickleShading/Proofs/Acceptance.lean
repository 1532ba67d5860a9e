import PickleShading.Proofs.RoundTrip

/-!
# What reading a pickle accepts

A pickle is read from bytes of the shape

    N(5) N(0) N(n) F1 … Fn T

where each `N(v)` is a framed number of value `v` below 2^32, shortest or padded with groups of
zero, each `Fi` is a code byte, a framed length and that many payload bytes, and the trailer
`T` is nothing or a single zero byte. Reading accepts exactly these bytes, and it tells every
other input apart: a version other than 5.0 is refused as such whatever follows it, bytes
left after the entries other than one zero byte are refused naming where the entries ended and
how many bytes follow, and bytes that stop short of a complete pickle run out.

The last is stated for reads in general. A read `Reads` the bytes it consumes, giving the same
value whatever follows; and it `EndsEarly` on them when every strict prefix of them makes it run
out of bytes. Both are kept by sequencing (`Reads.bind`, `EndsEarly.bind`), and the reads of a
pickle are built from a byte, a framed number and a run of bytes, which have both.

Main statement: `Pickle.parse_accepts`.
-/

namespace PickleShading

namespace Cursor

variable {α β : Type} {x : ReadM α} {f : α → ReadM β}

/-- `x` consumes exactly `consumed` and gives `a`, from any position and whatever follows. -/
def Reads (x : ReadM α) (consumed : List UInt8) (a : α) : Prop :=
  ∀ pos rest, x ⟨pos, consumed ++ rest⟩ = .ok a ⟨pos + consumed.length, rest⟩

/-- On every strict prefix of `consumed`, with nothing after it, `x` runs out of bytes. -/
def EndsEarly (x : ReadM α) (consumed : List UInt8) : Prop :=
  ∀ pos k, k < consumed.length → ∃ c, x ⟨pos, consumed.take k⟩ = .error .endOfData c

theorem reads_pure (a : α) : Reads (pure a) [] a := fun _ _ => rfl

theorem endsEarly_nil (x : ReadM α) : EndsEarly x [] := fun _ _ short => absurd short (by simp)

theorem Reads.bind {u v : List UInt8} {a : α} {b : β} (first : Reads x u a)
    (second : Reads (f a) v b) : Reads (x >>= f) (u ++ v) b := by
  intro pos rest
  rw [List.append_assoc, bind_of_ok (first pos (v ++ rest)), second, List.length_append,
    Nat.add_assoc]

/-- A sequence cut short runs out in its first read when the cut falls there, and otherwise in
its second, the first having read what it always reads. -/
theorem EndsEarly.bind {u v : List UInt8} {a : α} (first : EndsEarly x u) (reads : Reads x u a)
    (second : EndsEarly (f a) v) : EndsEarly (x >>= f) (u ++ v) := by
  intro pos k short
  by_cases within : k < u.length
  · obtain ⟨c, failed⟩ := first pos k within
    rw [List.take_append_of_le_length (by omega)]
    exact ⟨c, bind_of_error failed⟩
  · have cut : (u ++ v).take k = u ++ v.take (k - u.length) := by
      rw [List.take_append, List.take_of_length_le (by omega)]
    obtain ⟨c, failed⟩ := second (pos + u.length) (k - u.length)
      (by simp only [List.length_append] at short; omega)
    rw [cut, bind_of_ok (reads pos _)]
    exact ⟨c, failed⟩

theorem reads_readByte (b : UInt8) : Reads readByte [b] b := fun _ _ => rfl

theorem endsEarly_readByte (b : UInt8) : EndsEarly readByte [b] := by
  intro pos k short
  obtain rfl : k = 0 := by simpa using short
  exact ⟨_, rfl⟩

theorem reads_readBytes (bytes : List UInt8) : Reads (readBytes bytes.length) bytes bytes :=
  fun _ _ => readBytes_eq_ok.mpr ⟨rfl, rfl, rfl⟩

theorem endsEarly_readBytes (bytes : List UInt8) : EndsEarly (readBytes bytes.length) bytes := by
  intro pos k short
  have notEnough : atLeast bytes.length (bytes.take k) = false := by
    rw [Bool.eq_false_iff, ne_eq, atLeast_iff, List.length_take]
    omega
  exact ⟨⟨pos, bytes.take k⟩, by simp only [readBytes, notEnough, Bool.false_eq_true, if_false]⟩

theorem reads_readVarint (k : Nat) {v : Nat} (fits : v ≤ Varint.maxWord) :
    Reads readVarint (Varint.padded k v) v := by
  intro pos rest
  rw [readVarint_padded_append k v fits, Nat.add_assoc, Varint.padded, List.length_append,
    List.length_replicate, Varint.length_encode]

/-- A framed number cut short runs out of bytes: on the bytes that are there the read makes the
checks a whole read makes, and those passed. The induction is on the bytes a whole read
consumes, with the groups read so far in `acc`. -/
theorem varintFrom_take : ∀ (bytes rest : List UInt8) (acc pos v : Nat) (c : Cursor),
    varintFrom acc pos (bytes ++ rest) = .ok v c → c.rest = rest →
      ∀ k < bytes.length, ∃ c', varintFrom acc pos (bytes.take k) = .error .endOfData c'
  | [], _, _, _, _, _, _, _, k, short => absurd short (by simp)
  | b :: bytes, rest, acc, pos, v, c, read, stopped, k, short => by
    rw [List.cons_append, varintFrom] at read
    split_ifs at read with overflow last
    · -- the last group: the read consumed `b` alone, so the only strict prefix is empty
      simp only [EStateM.Result.ok.injEq] at read
      obtain ⟨-, rfl⟩ := read
      have single : bytes = [] := by simpa using stopped
      subst single
      obtain rfl : k = 0 := by simpa using short
      exact ⟨_, rfl⟩
    · cases k with
      | zero => exact ⟨_, rfl⟩
      | succ k =>
        obtain ⟨c', failed⟩ := varintFrom_take bytes rest _ (pos + 1) v c read stopped k
          (by simpa using short)
        refine ⟨c', ?_⟩
        rw [List.take_succ_cons, varintFrom, if_neg overflow, if_neg last]
        exact failed

theorem endsEarly_readVarint (k : Nat) {v : Nat} (fits : v ≤ Varint.maxWord) :
    EndsEarly readVarint (Varint.padded k v) := by
  intro pos j short
  have read := reads_readVarint k fits pos []
  rw [List.append_nil] at read
  exact varintFrom_take _ [] 0 pos v _ (by rw [List.append_nil]; exact read) rfl j short

end Cursor

namespace Pickle

open Cursor

/-- Reading entries reads their frames, whatever follows. -/
theorem reads_readEntries : ∀ (frames : List Frame) (t : Table),
    (∀ f ∈ frames, f.payload.length ≤ Varint.maxWord) →
      Reads (readEntries frames.length t) (frames.map Frame.bytes).flatten
        (t.pushAll (frames.map Frame.entry))
  | [], t, _ => reads_pure t
  | f :: frames, t, fits => by
    have rest := reads_readEntries frames (t.addRaw f.code f.payload).1
      fun g mem => fits g (List.mem_cons_of_mem f mem)
    have frame : ((f :: frames).map Frame.bytes).flatten = [f.code] ++
        (Varint.padded f.pad f.payload.length ++ (f.payload ++ (frames.map Frame.bytes).flatten)) := by
      simp [Frame.bytes]
    rw [frame]
    exact (reads_readByte f.code).bind ((reads_readVarint f.pad (fits f List.mem_cons_self)).bind
      ((reads_readBytes f.payload).bind rest))

/-- Reading entries runs out of bytes on every strict prefix of their frames. -/
theorem endsEarly_readEntries : ∀ (frames : List Frame) (t : Table),
    (∀ f ∈ frames, f.payload.length ≤ Varint.maxWord) →
      EndsEarly (readEntries frames.length t) (frames.map Frame.bytes).flatten
  | [], _, _ => endsEarly_nil _
  | f :: frames, t, fits => by
    have lengthFits := fits f List.mem_cons_self
    have restFits : ∀ g ∈ frames, g.payload.length ≤ Varint.maxWord :=
      fun g mem => fits g (List.mem_cons_of_mem f mem)
    have frame : ((f :: frames).map Frame.bytes).flatten = [f.code] ++
        (Varint.padded f.pad f.payload.length ++ (f.payload ++ (frames.map Frame.bytes).flatten)) := by
      simp [Frame.bytes]
    rw [frame]
    exact (endsEarly_readByte f.code).bind (reads_readByte f.code)
      ((endsEarly_readVarint f.pad lengthFits).bind (reads_readVarint f.pad lengthFits)
        ((endsEarly_readBytes f.payload).bind (reads_readBytes f.payload)
          (endsEarly_readEntries frames _ restFits)))

section Framed

variable (majorPad minorPad countPad : Nat) (frames : List Frame)
  (fits : ∀ f ∈ frames, f.payload.length ≤ Varint.maxWord) (countFits : frames.length ≤ Varint.maxWord)
include fits countFits

/-- Reading the framing of a pickle of version 5.0 reads the version, the count and the entries,
and leaves what follows to the end of the read. -/
theorem read_framed (pos : Nat) (rest : List UInt8) :
    read ⟨pos, Varint.padded majorPad 5 ++ Varint.padded minorPad 0 ++
        Varint.padded countPad frames.length ++ (frames.map Frame.bytes).flatten ++ rest⟩ =
      (readEnd >>= fun _ => pure ⟨5, 0, Table.empty.pushAll (frames.map Frame.entry)⟩)
        ⟨pos + (Varint.padded majorPad 5 ++ Varint.padded minorPad 0 ++
          Varint.padded countPad frames.length ++ (frames.map Frame.bytes).flatten).length, rest⟩ := by
  simp only [read, List.append_assoc]
  rw [bind_of_ok (reads_readVarint majorPad (by decide) pos _),
    bind_of_ok (reads_readVarint minorPad (by decide) _ _), if_neg (by simp [supportedVersion]),
    bind_of_ok (reads_readVarint countPad countFits _ _),
    bind_of_ok (reads_readEntries frames Table.empty fits _ _)]
  simp only [List.length_append, Nat.add_assoc]

/-- Reading a strict prefix of the framing of a pickle of version 5.0 runs out of bytes. -/
theorem endsEarly_read :
    EndsEarly read (Varint.padded majorPad 5 ++ Varint.padded minorPad 0 ++
      Varint.padded countPad frames.length ++ (frames.map Frame.bytes).flatten) := by
  have body : Varint.padded majorPad 5 ++ Varint.padded minorPad 0 ++
      Varint.padded countPad frames.length ++ (frames.map Frame.bytes).flatten =
      Varint.padded majorPad 5 ++ (Varint.padded minorPad 0 ++ (Varint.padded countPad frames.length ++
        ((frames.map Frame.bytes).flatten ++ []))) := by
    simp
  rw [body]
  refine (endsEarly_readVarint majorPad (by decide)).bind (reads_readVarint majorPad (by decide)) ?_
  refine (endsEarly_readVarint minorPad (by decide)).bind (reads_readVarint minorPad (by decide)) ?_
  rw [if_neg (by simp [supportedVersion])]
  refine (endsEarly_readVarint countPad countFits).bind (reads_readVarint countPad countFits) ?_
  exact (endsEarly_readEntries frames Table.empty fits).bind
    (reads_readEntries frames Table.empty fits) (endsEarly_nil _)

end Framed

/-- A version other than 5.0 is refused as soon as it is read, whatever follows. -/
theorem parse_unsupported (majorPad minorPad : Nat) {major minor : Nat}
    (majorFits : major ≤ Varint.maxWord) (minorFits : minor ≤ Varint.maxWord)
    (other : (major, minor) ≠ (5, 0)) (rest : List UInt8) :
    parse (Varint.padded majorPad major ++ Varint.padded minorPad minor ++ rest) =
      .error (.unsupportedVersion major minor) := by
  simp only [parse, read, Cursor.start, List.append_assoc]
  rw [bind_of_ok (reads_readVarint majorPad majorFits 0 _),
    bind_of_ok (reads_readVarint minorPad minorFits _ _), if_pos (by simpa [supportedVersion] using other)]
  rfl

/-- Reading a pickle accepts exactly the framings of version 5.0, an entry count and that many
entries, each number below 2^32 and shortest or padded, followed by nothing or a single zero
byte. Any other version is refused as such whatever follows it; bytes left after the entries
other than a single zero byte are refused naming the offset where the entries ended and how
many bytes follow; and every strict prefix of an accepted pickle without the zero byte runs out
of bytes. -/
theorem parse_accepts :
    (∀ bytes, (∃ p, parse bytes = .ok p) ↔
      ∃ (majorPad minorPad countPad : Nat) (frames : List Frame) (trailer : List UInt8),
        (trailer = [] ∨ trailer = [0]) ∧ (∀ f ∈ frames, f.payload.length ≤ Varint.maxWord) ∧
        frames.length ≤ Varint.maxWord ∧
        bytes = Varint.padded majorPad 5 ++ Varint.padded minorPad 0 ++
          Varint.padded countPad frames.length ++ (frames.map Frame.bytes).flatten ++ trailer) ∧
    (∀ bytes (majorPad minorPad major minor : Nat) (rest : List UInt8),
      major ≤ Varint.maxWord → minor ≤ Varint.maxWord → (major, minor) ≠ (5, 0) →
      bytes = Varint.padded majorPad major ++ Varint.padded minorPad minor ++ rest →
      parse bytes = .error (.unsupportedVersion major minor)) ∧
    (∀ bytes (majorPad minorPad countPad : Nat) (frames : List Frame) (rest : List UInt8),
      (∀ f ∈ frames, f.payload.length ≤ Varint.maxWord) → frames.length ≤ Varint.maxWord →
      rest ≠ [] → rest ≠ [0] →
      bytes = Varint.padded majorPad 5 ++ Varint.padded minorPad 0 ++
        Varint.padded countPad frames.length ++ (frames.map Frame.bytes).flatten ++ rest →
      parse bytes = .error (.trailingData (bytes.length - rest.length) rest.length)) ∧
    (∀ (majorPad minorPad countPad : Nat) (frames : List Frame),
      (∀ f ∈ frames, f.payload.length ≤ Varint.maxWord) → frames.length ≤ Varint.maxWord →
      ∀ k, k < (Varint.padded majorPad 5 ++ Varint.padded minorPad 0 ++
          Varint.padded countPad frames.length ++ (frames.map Frame.bytes).flatten).length →
        parse ((Varint.padded majorPad 5 ++ Varint.padded minorPad 0 ++
          Varint.padded countPad frames.length ++ (frames.map Frame.bytes).flatten).take k) =
          .error .endOfData) := by
  refine ⟨fun bytes => ⟨?_, ?_⟩, ?_, ?_, ?_⟩
  · rintro ⟨p, parsed⟩
    obtain ⟨c, readOk⟩ := parse_eq_ok.mp parsed
    obtain ⟨majorPad, minorPad, countPad, frames, trailer, trailerShape, consumed, fits,
      countFits, -⟩ := read_eq_ok readOk
    exact ⟨majorPad, minorPad, countPad, frames, trailer, trailerShape, fits, countFits, consumed⟩
  · rintro ⟨majorPad, minorPad, countPad, frames, trailer, trailerShape, fits, countFits, rfl⟩
    exact ⟨_, parse_frames majorPad minorPad countPad frames trailerShape fits countFits⟩
  · rintro bytes majorPad minorPad major minor rest majorFits minorFits other rfl
    exact parse_unsupported majorPad minorPad majorFits minorFits other rest
  · rintro bytes majorPad minorPad countPad frames rest fits countFits notEmpty notZero rfl
    -- the entries are read in full, and the end of the read meets the bytes left
    have leftOver : ∀ pos, readEnd ⟨pos, rest⟩ = .error (.trailingData pos rest.length) ⟨pos, rest⟩ := by
      intro pos
      unfold readEnd
      split
      · rename_i isEmpty
        exact absurd isEmpty notEmpty
      · rename_i isZero
        exact absurd isZero notZero
      · rfl
    simp only [parse, Cursor.start]
    rw [read_framed majorPad minorPad countPad frames fits countFits 0 rest, bind_of_error (leftOver _)]
    simp only [Except.error.injEq, Error.trailingData.injEq, and_true, List.length_append]
    omega
  · intro majorPad minorPad countPad frames fits countFits k short
    obtain ⟨c, failed⟩ := endsEarly_read majorPad minorPad countPad frames fits countFits 0 k short
    simp only [parse, Cursor.start, failed]

/-- The pickle of one raw entry `21 07`, cut after its code byte, runs out of bytes. -/
theorem parse_accepts_truncated :
    parse ((Varint.padded 0 5 ++ Varint.padded 0 0 ++ Varint.padded 0 [Frame.mk 0x21 0 [7]].length ++
      ([Frame.mk 0x21 0 [7]].map Frame.bytes).flatten).take 4) = .error .endOfData :=
  parse_accepts.2.2.2 0 0 0 [⟨0x21, 0, [7]⟩] (by decide) (by decide) 4 (by decide +kernel)

end Pickle

end PickleShading
