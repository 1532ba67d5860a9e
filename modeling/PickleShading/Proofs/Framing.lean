import Mathlib
import PickleShading.Cursor

/-!
# Framed numbers: the shortest form reads back

Main statement: for every number that fits 32 bits, `Varint.size` is the least count of
seven-bit groups that holds it (so at most five), the shortest form `Varint.encode` has
exactly that many bytes, all of them but the last carrying the continuation bit, appending it
to a buffer keeps the buffer, and a cursor at its start reads the number back and stops right
after it, whatever bytes follow.
-/

namespace PickleShading

namespace Varint

/-- `size v` groups of seven bits hold `v`. -/
theorem lt_pow_size : ∀ v : Nat, v < 128 ^ size v := by
  intro v
  induction v using Nat.strongRecOn with
  | ind v ih =>
    by_cases hsmall : v < 128
    · rw [size_of_lt hsmall]; simpa using hsmall
    · rw [size_of_ge (by omega), Nat.pow_succ]
      have := ih (v / 128) (by omega)
      omega

/-- No fewer groups than `size v` hold `v`. -/
theorem size_le_of_lt_pow : ∀ (v k : Nat), 0 < k → v < 128 ^ k → size v ≤ k := by
  intro v
  induction v using Nat.strongRecOn with
  | ind v ih =>
    intro k hk hv
    by_cases hsmall : v < 128
    · rw [size_of_lt hsmall]; omega
    · rw [size_of_ge (by omega)]
      obtain ⟨j, rfl⟩ : ∃ j, k = j + 1 := ⟨k - 1, by omega⟩
      have hj : 0 < j := by
        rcases Nat.eq_zero_or_pos j with rfl | h
        · simp at hv; omega
        · exact h
      rw [Nat.pow_succ] at hv
      have := ih (v / 128) (by omega) j hj (by omega)
      omega

end Varint

namespace Cursor

/-- Reading the leading groups of `w` after `acc` adds `w` behind `acc`, as long as every
value gathered on the way stays within the headroom. -/
theorem varintFrom_leading_append : ∀ (w acc pos : Nat) (rest : List UInt8),
    acc * 128 ^ (Varint.leading w).length + w ≤ varintHeadroom →
    varintFrom acc pos (Varint.leading w ++ rest) =
      varintFrom (acc * 128 ^ (Varint.leading w).length + w)
        (pos + (Varint.leading w).length) rest := by
  intro w
  induction w using Nat.strongRecOn with
  | ind w ih =>
    intro acc pos rest h
    rcases Nat.eq_zero_or_pos w with rfl | hw
    · simp [Varint.leading_zero]
    · simp only [Varint.leading_of_pos hw, List.length_append, List.length_singleton,
        List.append_assoc, List.singleton_append] at h ⊢
      generalize hm : (Varint.leading (w / 128)).length = m at h ⊢
      have hpow : acc * 128 ^ (m + 1) = acc * 128 ^ m * 128 := by
        rw [Nat.pow_succ, Nat.mul_assoc]
      rw [hpow] at h ⊢
      have hinner : acc * 128 ^ m + w / 128 ≤ varintHeadroom := by omega
      rw [ih (w / 128) (by omega) acc pos _ (hm ▸ hinner), hm, varintFrom]
      have hb : (w % 128 + 128).toUInt8.toNat = w % 128 + 128 := by simp; omega
      have hhigh : ¬ (w % 128 + 128).toUInt8 < 128 := by
        rw [UInt8.lt_iff_toNat_lt, hb]; simp
      have hnot : ¬ varintHeadroom < acc * 128 ^ m + w / 128 := Nat.not_lt.mpr hinner
      rw [if_neg hnot, if_neg hhigh, hb]
      have hval : (acc * 128 ^ m + w / 128) * 128 + (w % 128 + 128 - 128) = acc * 128 ^ m * 128 + w := by
        omega
      have hpos : pos + m + 1 = pos + (m + 1) := by omega
      rw [hval, hpos]
/-- A framed number written in its shortest form is read back at any position, whatever
follows it, and the read stops right after it. -/
theorem varintFrom_encode_append (v : Nat) (hv : v ≤ Varint.maxWord) (pos : Nat)
    (s : List UInt8) : varintFrom 0 pos (Varint.encode v ++ s) = .ok v ⟨pos + Varint.size v, s⟩ := by
  have hlen := Varint.length_encode v
  simp only [Varint.encode_eq, List.length_append, List.length_singleton] at hlen
  simp only [Varint.encode_eq, List.append_assoc, List.singleton_append]
  have hhead : v / 128 ≤ varintHeadroom := by
    simp only [varintHeadroom, Varint.maxWord] at hv ⊢
    omega
  have h0 : 0 * 128 ^ (Varint.leading (v / 128)).length + v / 128 ≤ varintHeadroom := by
    simpa using hhead
  rw [varintFrom_leading_append (v / 128) 0 pos _ h0, varintFrom]
  have hlo : (v % 128).toUInt8.toNat = v % 128 := by simp; omega
  have hnot : ¬ varintHeadroom < 0 * 128 ^ (Varint.leading (v / 128)).length + v / 128 := by
    simpa using hhead
  have hsmall : (v % 128).toUInt8 < 128 := by
    rw [UInt8.lt_iff_toNat_lt, hlo]; simp; omega
  rw [if_neg hnot, if_pos hsmall, hlo]
  have hval : (0 * 128 ^ (Varint.leading (v / 128)).length + v / 128) * 128 + v % 128 = v := by
    simp; omega
  rw [hval, ← hlen, Nat.add_assoc]

/-- A framed number written in its shortest form is read back from the start, whatever follows
it, and the read stops right after it. -/
theorem readVarint_encode_append (v : Nat) (hv : v ≤ Varint.maxWord) (s : List UInt8) :
    readVarint (start (Varint.encode v ++ s)) = .ok v ⟨Varint.size v, s⟩ := by
  simpa [readVarint, start] using varintFrom_encode_append v hv 0 s

end Cursor

namespace Varint

/-- The shortest framed form of a 32-bit number: its length is the least group count that
holds the number, at most five; every byte but the last continues; written after a buffer it
keeps the buffer; and it reads back exactly, stopping right after itself. -/
theorem encode_shortest_readBack (v : Nat) (hv : v ≤ maxWord) (s : List UInt8) :
    (0 < size v ∧ v < 128 ^ size v ∧ ∀ k, 0 < k → v < 128 ^ k → size v ≤ k) ∧
    size v ≤ 5 ∧
    (encode v).length = size v ∧
    (∀ buf : List UInt8, (buf ++ encode v).take buf.length = buf ∧
      (buf ++ encode v).length = buf.length + size v) ∧
    (∃ lead last, encode v = lead ++ [last] ∧ (∀ b ∈ lead, 128 ≤ b.toNat) ∧
      last.toNat < 128) ∧
    Cursor.readVarint (Cursor.start (encode v ++ s)) = .ok v ⟨size v, s⟩ := by
  have hfive : size v ≤ 5 := by
    apply size_le_of_lt_pow v 5 (by decide)
    simp only [maxWord] at hv
    omega
  refine ⟨⟨size_pos v, lt_pow_size v, size_le_of_lt_pow v⟩, hfive, length_encode v, ?_, ?_,
    Cursor.readVarint_encode_append v hv s⟩
  · intro buf
    refine ⟨List.take_left, ?_⟩
    rw [List.length_append, length_encode]
  · refine ⟨leading (v / 128), (v % 128).toUInt8, encode_eq v, high_of_mem_leading (v / 128), ?_⟩
    simp
    omega

/-- At 300, framed as `82 2C` and followed by one more byte. -/
theorem encode_shortest_readBack_three_hundred :
    300 ≤ maxWord ∧
    ((0 < size 300 ∧ 300 < 128 ^ size 300 ∧ ∀ k, 0 < k → 300 < 128 ^ k → size 300 ≤ k) ∧
    size 300 ≤ 5 ∧
    (encode 300).length = size 300 ∧
    (∀ buf : List UInt8, (buf ++ encode 300).take buf.length = buf ∧
      (buf ++ encode 300).length = buf.length + size 300) ∧
    (∃ lead last, encode 300 = lead ++ [last] ∧ (∀ b ∈ lead, 128 ≤ b.toNat) ∧
      last.toNat < 128) ∧
    Cursor.readVarint (Cursor.start (encode 300 ++ [7])) = .ok 300 ⟨size 300, [7]⟩) :=
  ⟨by decide, encode_shortest_readBack 300 (by decide) [7]⟩

end Varint

/-! ## Padded forms

Reading also accepts a number with groups of zero in front of its shortest form. These are all
the forms it accepts: whatever a successful read consumed is the shortest form of its result
with some zero groups in front, and the result fits 32 bits.
-/

namespace Varint

/-- The framed form of `v` behind `k` groups of zero, each the byte `0x80`. -/
def padded (k v : Nat) : List UInt8 := List.replicate k 0x80 ++ encode v

/-- With no padding, the shortest form. -/
@[simp]
theorem padded_zero (v : Nat) : padded 0 v = encode v := rfl

/-- Each group of zero in front adds one byte to the shortest form. -/
@[simp]
theorem length_padded (k v : Nat) : (padded k v).length = k + size v := by
  simp [padded, length_encode]

end Varint

namespace Cursor

/-- Groups of zero read into an empty accumulator leave it empty. -/
theorem varintFrom_replicate (k pos : Nat) (rest : List UInt8) :
    varintFrom 0 pos (List.replicate k 0x80 ++ rest) = varintFrom 0 (pos + k) rest := by
  induction k generalizing pos with
  | zero => rfl
  | succ k ih =>
    have noOverflow : ¬ varintHeadroom < 0 := by decide
    have continues : ¬ (0x80 : UInt8) < 128 := by decide
    have stillZero : 0 * 128 + ((0x80 : UInt8).toNat - 128) = 0 := by decide
    rw [List.replicate_succ, List.cons_append, varintFrom, if_neg noOverflow, if_neg continues,
      stillZero, ih, Nat.add_assoc, Nat.add_comm 1 k]

/-- A padded form of a 32-bit number is read back at any position, whatever follows it, and
the read stops right after it. -/
theorem readVarint_padded_append (k v : Nat) (hv : v ≤ Varint.maxWord) (pos : Nat)
    (s : List UInt8) :
    readVarint ⟨pos, Varint.padded k v ++ s⟩ = .ok v ⟨pos + k + Varint.size v, s⟩ := by
  simp only [readVarint, Varint.padded, List.append_assoc]
  rw [varintFrom_replicate, varintFrom_encode_append v hv]

/-- What a successful read consumed after its groups so far made `acc`: the groups of `acc`
followed by the consumed bytes are the shortest form of the result, with zero groups in front
only while `acc` is zero. The result fits 32 bits, and the cursor moved by what was
consumed. -/
theorem varintFrom_eq_ok : ∀ (bytes : List UInt8) (acc pos v : Nat) (c : Cursor),
    varintFrom acc pos bytes = .ok v c →
    ∃ k, (k = 0 ∨ acc = 0) ∧
      Varint.leading acc ++ bytes = List.replicate k 0x80 ++ Varint.encode v ++ c.rest ∧
      c.pos + c.rest.length = pos + bytes.length ∧ v ≤ Varint.maxWord
  | [], acc, pos, v, c, read => by simp [varintFrom] at read
  | b :: bytes, acc, pos, v, c, read => by
    rw [varintFrom] at read
    split_ifs at read with overflow last
    · simp only [EStateM.Result.ok.injEq] at read
      obtain ⟨rfl, rfl⟩ := read
      have small : b.toNat < 128 := UInt8.lt_iff_toNat_lt.mp last
      have quotient : (acc * 128 + b.toNat) / 128 = acc := by omega
      have lowGroup : ((acc * 128 + b.toNat) % 128).toUInt8 = b := by
        rw [show (acc * 128 + b.toNat) % 128 = b.toNat by omega]
        simp [UInt8.ofNat_toNat]
      refine ⟨0, Or.inl rfl, ?_, ?_, ?_⟩
      · rw [Varint.encode_eq, quotient, lowGroup]
        simp
      · simp only [List.length_cons]
        omega
      · simp only [varintHeadroom, Varint.maxWord] at overflow ⊢
        omega
    · have large : 128 ≤ b.toNat := by
        have := UInt8.lt_iff_toNat_lt.not.mp last
        simpa using this
      have byteBound : b.toNat < 256 := b.toNat_lt_size
      obtain ⟨k, padOrZero, consumed, moved, fits⟩ := varintFrom_eq_ok bytes _ (pos + 1) v c read
      refine ⟨if acc * 128 + (b.toNat - 128) = 0 then k + 1 else 0, ?_, ?_, ?_, fits⟩
      · split_ifs with zero
        · exact Or.inr (by omega)
        · exact Or.inl rfl
      · split_ifs at padOrZero ⊢ with zero
        · -- `acc` and the group are zero: `b` is a zero group of the padding
          have accZero : acc = 0 := by omega
          have zeroGroup : b = 0x80 := by
            apply UInt8.toNat.inj
            simp only [UInt8.reduceToNat]
            omega
          rw [zero, Varint.leading_zero, List.nil_append] at consumed
          rw [accZero, zeroGroup, Varint.leading_zero, List.nil_append, consumed,
            List.replicate_succ]
          rfl
        · -- otherwise `b` is the next group of the shortest form
          obtain rfl : k = 0 := padOrZero.resolve_right zero
          have extended : Varint.leading (acc * 128 + (b.toNat - 128)) =
              Varint.leading acc ++ [b] := by
            rw [Varint.leading_of_pos (by omega)]
            have quotient : (acc * 128 + (b.toNat - 128)) / 128 = acc := by omega
            have group : ((acc * 128 + (b.toNat - 128)) % 128 + 128).toUInt8 = b := by
              rw [show (acc * 128 + (b.toNat - 128)) % 128 + 128 = b.toNat by omega]
              simp [UInt8.ofNat_toNat]
            rw [quotient, group]
          rw [extended, List.append_assoc, List.singleton_append] at consumed
          exact consumed
      · simp only [List.length_cons]
        omega

/-- What a successful read of a framed number consumed is a padded form of the number read,
and that number fits 32 bits. -/
theorem readVarint_eq_ok {c c' : Cursor} {v : Nat} (read : readVarint c = .ok v c') :
    ∃ k, c.rest = Varint.padded k v ++ c'.rest ∧ c'.pos = c.pos + k + Varint.size v ∧
      v ≤ Varint.maxWord := by
  obtain ⟨k, -, consumed, moved, fits⟩ := varintFrom_eq_ok c.rest 0 c.pos v c' read
  rw [Varint.leading_zero, List.nil_append] at consumed
  refine ⟨k, by rw [consumed, Varint.padded, List.append_assoc], ?_, fits⟩
  have lengths := congrArg List.length consumed
  simp only [List.length_append, List.length_replicate, Varint.length_encode] at lengths
  omega

end Cursor

end PickleShading
