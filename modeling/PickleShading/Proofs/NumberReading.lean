import PickleShading.Proofs.Framing

/-!
# Reading a framed number, byte by byte

A framed number is read one byte at a time. Each byte is consumed before it is judged: when the
bytes run out the read fails at the end of the string; otherwise, if the groups gathered so far
are worth more than `Cursor.varintHeadroom`, one more group would pass 32 bits and the read
fails naming the offset of the byte just taken; otherwise the byte's seven low bits are added,
and a byte without the continuation bit ends the number.

Main statement: `Cursor.readVarint_exact`. For a cursor whose bytes ahead are `rest`, write
`V j` for the value of the seven-bit groups of the first `j` bytes of `rest`, and let `k` be the
offset of the first byte without the continuation bit. If `k` exists and `V (k + 1)` fits 32
bits, the read gives `V (k + 1)` and stops right after offset `k`. Otherwise, if some offset `j`
that the read reaches has `V j` above the headroom, the read fails with an overflow at the
least such `j` and stops right after it. Otherwise it runs out of bytes at the end. No value
that does not fit 32 bits is ever given back.

The run of continuation bytes before the offset where the read decides is taken in one step
(`Cursor.varintFrom_continues`); each case then takes the one byte at that offset.
-/

namespace PickleShading

namespace Varint

/-- The value of `bytes` read as seven-bit groups, most significant first, with the
continuation bits dropped. -/
def groupValue (bytes : List UInt8) : Nat :=
  bytes.foldl (fun acc b => acc * 128 + b.toNat % 128) 0

@[simp]
theorem groupValue_nil : groupValue [] = 0 := rfl

/-- One more byte shifts the value by a group and adds the byte's seven low bits. -/
theorem groupValue_append_singleton (bytes : List UInt8) (b : UInt8) :
    groupValue (bytes ++ [b]) = groupValue bytes * 128 + b.toNat % 128 := by
  simp [groupValue, List.foldl_append]

end Varint

namespace Cursor

open Varint

/-- Offset `k` of `bytes` holds the first byte without the continuation bit. -/
def StopsAt (bytes : List UInt8) (k : Nat) : Prop :=
  (∀ b ∈ bytes.take k, 128 ≤ b.toNat) ∧ ∃ t rest, bytes.drop k = t :: rest ∧ t.toNat < 128

/-- A read from the start of `bytes` reaches offset `j`, every byte before it continuing the
number, and the groups before it are worth more than the headroom. -/
def OverflowsAt (bytes : List UInt8) (j : Nat) : Prop :=
  j < bytes.length ∧ (∀ b ∈ bytes.take j, 128 ≤ b.toNat) ∧
    varintHeadroom < groupValue (bytes.take j)

/-- The byte at offset `j` extends the first `j` bytes by itself. -/
theorem take_succ_of_drop {bytes rest : List UInt8} {j : Nat} {t : UInt8}
    (split : bytes.drop j = t :: rest) : bytes.take (j + 1) = bytes.take j ++ [t] := by
  have atJ : bytes[j]? = some t := by
    have head : (bytes.drop j)[0]? = some t := by rw [split]; rfl
    rwa [List.getElem?_drop, Nat.add_zero] at head
  rw [List.take_add_one, atJ, Option.toList_some]

/-- The byte after offset `j` comes after the byte at it. -/
theorem drop_succ_of_drop {bytes rest : List UInt8} {j : Nat} {t : UInt8}
    (split : bytes.drop j = t :: rest) : bytes.drop (j + 1) = rest := by
  rw [← List.drop_drop, split, List.drop_one, List.tail_cons]

/-- A byte string reaches offset `j` when `j` is within it. -/
theorem exists_drop_cons {bytes : List UInt8} {j : Nat} (within : j < bytes.length) :
    ∃ t rest, bytes.drop j = t :: rest :=
  ⟨_, _, List.drop_eq_getElem_cons within⟩

/-- The value of a prefix grows with the prefix. -/
theorem groupValue_take_mono (bytes : List UInt8) :
    Monotone fun j => groupValue (bytes.take j) := by
  refine monotone_nat_of_le_succ fun j => ?_
  by_cases within : j < bytes.length
  · obtain ⟨t, rest, split⟩ := exists_drop_cons within
    simp only [take_succ_of_drop split, groupValue_append_singleton]
    omega
  · simp only [List.take_of_length_le (Nat.le_of_not_lt within),
      List.take_of_length_le (show bytes.length ≤ j + 1 by omega), le_refl]

/-- A byte string reaches a value that fits 32 bits only from groups within the headroom. -/
theorem groupValue_le_headroom {before : List UInt8} (b : UInt8) :
    groupValue (before ++ [b]) ≤ maxWord ↔ groupValue before ≤ varintHeadroom := by
  rw [groupValue_append_singleton]
  simp only [maxWord, varintHeadroom]
  omega

/-- A run of continuation bytes whose groups stay within the headroom is read without a
decision: the read goes on after them with their value gathered. The induction is on the
length of the run. -/
theorem varintFrom_continues (pos : Nat) (bytes : List UInt8) : ∀ j, j ≤ bytes.length →
    (∀ b ∈ bytes.take j, 128 ≤ b.toNat) → (∀ i < j, groupValue (bytes.take i) ≤ varintHeadroom) →
    varintFrom 0 pos bytes = varintFrom (groupValue (bytes.take j)) (pos + j) (bytes.drop j)
  | 0, _, _, _ => rfl
  | j + 1, within, continues, small => by
    obtain ⟨t, rest, split⟩ := exists_drop_cons (show j < bytes.length by omega)
    have before := varintFrom_continues pos bytes j (by omega)
      (fun b mem => continues b (List.take_subset_take_left _ (by omega) mem))
      (fun i short => small i (by omega))
    have high : 128 ≤ t.toNat := continues t (by simp [take_succ_of_drop split])
    have fits : ¬ varintHeadroom < groupValue (bytes.take j) := Nat.not_lt.mpr (small j (by omega))
    have continued : ¬ t < 128 := by rw [UInt8.lt_iff_toNat_lt]; simpa using high
    have group : t.toNat - 128 = t.toNat % 128 := by
      have := t.toNat_lt
      omega
    rw [before, split, varintFrom, if_neg fits, if_neg continued, take_succ_of_drop split,
      groupValue_append_singleton, drop_succ_of_drop split, Nat.add_assoc, group]

/-- A byte at offset `j` means `j` is within the byte string. -/
theorem lt_length_of_drop {bytes rest : List UInt8} {j : Nat} {t : UInt8}
    (split : bytes.drop j = t :: rest) : j < bytes.length := by
  have lengths := congrArg List.length split
  simp only [List.length_drop, List.length_cons] at lengths
  omega

/-- A byte string holding a byte without the continuation bit has a first one. -/
theorem exists_stopsAt : ∀ {bytes : List UInt8}, (∃ b ∈ bytes, b.toNat < 128) →
    ∃ k, StopsAt bytes k
  | [], ⟨_, mem, _⟩ => absurd mem List.not_mem_nil
  | t :: rest, ⟨b, mem, small⟩ => by
    by_cases last : t.toNat < 128
    · exact ⟨0, by simp, t, rest, rfl, last⟩
    · have later : ∃ b ∈ rest, b.toNat < 128 := by
        rcases List.mem_cons.mp mem with rfl | mem
        · exact absurd small last
        · exact ⟨b, mem, small⟩
      obtain ⟨k, continues, t', rest', split, stop⟩ := exists_stopsAt later
      refine ⟨k + 1, ?_, t', rest', by simpa using split, stop⟩
      simp only [List.take_succ_cons, List.mem_cons]
      rintro b (rfl | mem)
      · omega
      · exact continues b mem

/-- An overflow somewhere means a first one. -/
theorem exists_least_overflowsAt {bytes : List UInt8} (overflow : ∃ j, OverflowsAt bytes j) :
    ∃ j, OverflowsAt bytes j ∧ ∀ i < j, ¬ OverflowsAt bytes i := by
  classical
  exact ⟨Nat.find overflow, Nat.find_spec overflow, fun i short => Nat.find_min overflow short⟩

/-- Before the first overflow, every offset that the read reaches is within the headroom. -/
theorem le_headroom_of_least {bytes : List UInt8} {j : Nat} (within : j ≤ bytes.length)
    (continues : ∀ b ∈ bytes.take j, 128 ≤ b.toNat) (least : ∀ i < j, ¬ OverflowsAt bytes i) :
    ∀ i < j, groupValue (bytes.take i) ≤ varintHeadroom := fun i short =>
  Nat.le_of_not_lt fun large => least i short
    ⟨by omega, fun b mem => continues b (List.take_subset_take_left _ (by omega) mem), large⟩

/-- The read at the first byte without the continuation bit, when the value fits 32 bits:
the number is the value of the bytes up to that one, and the read stops right after it. -/
theorem readVarint_of_stopsAt (c : Cursor) {k : Nat} (stops : StopsAt c.rest k)
    (fits : groupValue (c.rest.take (k + 1)) ≤ maxWord) :
    readVarint c =
      .ok (groupValue (c.rest.take (k + 1))) ⟨c.pos + k + 1, c.rest.drop (k + 1)⟩ := by
  obtain ⟨continues, t, rest, split, last⟩ := stops
  rw [take_succ_of_drop split, groupValue_le_headroom] at fits
  -- the value grows with the prefix, so no earlier offset overflows either
  have small : ∀ i < k, groupValue (c.rest.take i) ≤ varintHeadroom := fun i short =>
    (groupValue_take_mono c.rest (Nat.le_of_lt short)).trans fits
  have notOver : ¬ varintHeadroom < groupValue (c.rest.take k) := Nat.not_lt.mpr fits
  have ends : t < 128 := UInt8.lt_iff_toNat_lt.mpr (by simpa using last)
  have group : t.toNat % 128 = t.toNat := Nat.mod_eq_of_lt last
  show varintFrom 0 c.pos c.rest = _
  rw [varintFrom_continues c.pos c.rest k (Nat.le_of_lt (lt_length_of_drop split)) continues small,
    split, varintFrom, if_neg notOver, if_pos ends, take_succ_of_drop split,
    groupValue_append_singleton, group, drop_succ_of_drop split, Nat.add_assoc]

/-- The read at the first overflow: it fails naming the offset, and stops right after it. -/
theorem readVarint_of_overflowsAt (c : Cursor) {j : Nat} (overflow : OverflowsAt c.rest j)
    (least : ∀ i < j, ¬ OverflowsAt c.rest i) :
    readVarint c =
      .error (.numberOverflow (c.pos + j)) ⟨c.pos + j + 1, c.rest.drop (j + 1)⟩ := by
  obtain ⟨within, continues, large⟩ := overflow
  obtain ⟨t, rest, split⟩ := exists_drop_cons within
  show varintFrom 0 c.pos c.rest = _
  rw [varintFrom_continues c.pos c.rest j (Nat.le_of_lt within) continues
      (le_headroom_of_least (Nat.le_of_lt within) continues least),
    split, varintFrom, if_pos large, drop_succ_of_drop split]

/-- A read that finds neither a byte ending a number that fits nor an overflow runs out of
bytes, at the end of the string. Such a read finds no byte ending a number at all: a first
such byte with a value past 32 bits would put the groups before it past the headroom. -/
theorem readVarint_of_no_decision (c : Cursor)
    (noStop : ¬ ∃ k, StopsAt c.rest k ∧ groupValue (c.rest.take (k + 1)) ≤ maxWord)
    (noOverflow : ¬ ∃ j, OverflowsAt c.rest j) :
    readVarint c = .error .endOfData ⟨c.pos + c.rest.length, []⟩ := by
  have continues : ∀ b ∈ c.rest, 128 ≤ b.toNat := by
    intro b mem
    by_contra small
    obtain ⟨k, stops⟩ := exists_stopsAt ⟨b, mem, Nat.lt_of_not_le small⟩
    obtain ⟨before, t, rest, split, last⟩ := stops
    have tooWide : ¬ groupValue (c.rest.take (k + 1)) ≤ maxWord := fun fits =>
      noStop ⟨k, ⟨before, t, rest, split, last⟩, fits⟩
    rw [take_succ_of_drop split, groupValue_le_headroom] at tooWide
    exact noOverflow ⟨k, lt_length_of_drop split, before, Nat.lt_of_not_le tooWide⟩
  have allContinue : ∀ b ∈ c.rest.take c.rest.length, 128 ≤ b.toNat := by
    rwa [List.take_length]
  have small := le_headroom_of_least le_rfl allContinue fun i _ overflow => noOverflow ⟨i, overflow⟩
  show varintFrom 0 c.pos c.rest = _
  rw [varintFrom_continues c.pos c.rest c.rest.length le_rfl allContinue small, List.drop_length,
    varintFrom]

/-- A framed number is read exactly, and never wraps. For a cursor at offset `pos` whose bytes
ahead are `rest`, with `V j` the value of the seven-bit groups of the first `j` bytes of
`rest`:
* when offset `k` holds the first byte without the continuation bit and `V (k + 1)` fits 32
  bits, the read gives `V (k + 1)` and stops at `pos + k + 1`;
* when `j` is the least offset that the read reaches with `V j` above the headroom
  `0x1FFFFFF`, the read fails with an overflow at offset `pos + j` and stops at `pos + j + 1`;
* when there is neither, the read runs out of bytes and stops at the end of the string;
* whatever the read gives fits 32 bits and is the value of the bytes up to the first byte
  without the continuation bit, so any number of leading `0x80` bytes is read and no value is
  cut down to 32 bits. -/
theorem readVarint_exact (c : Cursor) :
    (∀ k, StopsAt c.rest k → groupValue (c.rest.take (k + 1)) ≤ maxWord →
      readVarint c =
        .ok (groupValue (c.rest.take (k + 1))) ⟨c.pos + k + 1, c.rest.drop (k + 1)⟩) ∧
    (∀ j, OverflowsAt c.rest j → (∀ i < j, ¬ OverflowsAt c.rest i) →
      readVarint c =
        .error (.numberOverflow (c.pos + j)) ⟨c.pos + j + 1, c.rest.drop (j + 1)⟩) ∧
    ((¬ ∃ k, StopsAt c.rest k ∧ groupValue (c.rest.take (k + 1)) ≤ maxWord) →
      (¬ ∃ j, OverflowsAt c.rest j) →
      readVarint c = .error .endOfData ⟨c.pos + c.rest.length, []⟩) ∧
    (∀ v c', readVarint c = .ok v c' →
      v ≤ maxWord ∧ ∃ k, StopsAt c.rest k ∧ v = groupValue (c.rest.take (k + 1))) := by
  refine ⟨fun k => readVarint_of_stopsAt c, fun j => readVarint_of_overflowsAt c,
    readVarint_of_no_decision c, ?_⟩
  intro v c' read
  by_cases decided : ∃ k, StopsAt c.rest k ∧ groupValue (c.rest.take (k + 1)) ≤ maxWord
  · obtain ⟨k, stops, fits⟩ := decided
    rw [readVarint_of_stopsAt c stops fits] at read
    cases read
    exact ⟨fits, k, stops, rfl⟩
  · -- a read with no such byte fails, at its first overflow or at the end
    by_cases overflow : ∃ j, OverflowsAt c.rest j
    · obtain ⟨j, first, least⟩ := exists_least_overflowsAt overflow
      rw [readVarint_of_overflowsAt c first least] at read
      cases read
    · rw [readVarint_of_no_decision c decided overflow] at read
      cases read

/-- Five bytes hold 32 bits when the first group is at most `0x0F`: `8F FF FF FF 7F` is
`2 ^ 32 - 1`, and `90 80 80 80 00` overflows at its last byte. -/
example : readVarint (start [0x8F, 0xFF, 0xFF, 0xFF, 0x7F]) = .ok 4294967295 ⟨5, []⟩ ∧
    readVarint (start [0x90, 0x80, 0x80, 0x80, 0x00]) = .error (.numberOverflow 4) ⟨5, []⟩ := by
  cbv

end Cursor

end PickleShading
