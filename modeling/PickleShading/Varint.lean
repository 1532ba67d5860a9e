import PickleShading.Error

/-!
# Framed numbers

Counts, lengths, indices and versions in a signature are framed numbers: the number is cut
into groups of seven bits, most significant group first, and every byte but the last has its
high bit set to say that another group follows. This module writes them in their shortest
form; reading them back, which also accepts padded forms, is `Cursor.readVarint`.

Framed numbers carry 32-bit values. `Varint.word` is the check that a count, length or index
fits before it is written.
-/

namespace PickleShading

namespace Varint

/-- The largest value a framed number carries: `2 ^ 32 - 1`. -/
def maxWord : Nat := 4294967295

/-- The groups of `v` that stand in front of the last one, most significant first, each with
its continuation bit set. Empty when `v` is zero. -/
def leading (v : Nat) : List UInt8 :=
  if v = 0 then [] else leading (v / 128) ++ [(v % 128 + 128).toUInt8]
termination_by v
decreasing_by omega

/-- The shortest framed form of `v`: its leading groups, then its lowest seven bits with the
continuation bit clear. -/
def encode (v : Nat) : List UInt8 :=
  leading (v / 128) ++ [(v % 128).toUInt8]

/-- The number of bytes of `encode v`: the least `k ≥ 1` with `v < 128 ^ k`. -/
def size (v : Nat) : Nat :=
  if v < 128 then 1 else size (v / 128) + 1
termination_by v
decreasing_by omega

/-- `v` itself when it fits 32 bits; otherwise the failure that names it too wide. -/
def word (v : Nat) : Except Error Nat :=
  if v ≤ maxWord then .ok v else .error (.numberTooWide v)

/-- Zero has no leading groups. -/
theorem leading_zero : leading 0 = [] := by
  rw [leading]; simp

/-- A positive number's leading groups are those of its quotient by 128, then its lowest
seven bits with the continuation bit set. -/
theorem leading_of_pos {w : Nat} (hw : 0 < w) :
    leading w = leading (w / 128) ++ [(w % 128 + 128).toUInt8] := by
  rw [leading, if_neg (by omega)]

/-- The shortest form is the leading groups of the quotient by 128, then the lowest seven
bits. -/
theorem encode_eq (v : Nat) : encode v = leading (v / 128) ++ [(v % 128).toUInt8] := rfl

/-- A number below 128 takes one byte. -/
theorem size_of_lt {v : Nat} (hv : v < 128) : size v = 1 := by
  rw [size, if_pos hv]

/-- A number from 128 on takes one byte more than its quotient by 128. -/
theorem size_of_ge {v : Nat} (hv : 128 ≤ v) : size v = size (v / 128) + 1 := by
  rw [size, if_neg (by omega)]

/-- Every leading group carries the continuation bit. -/
theorem high_of_mem_leading : ∀ (w : Nat) (b : UInt8), b ∈ leading w → 128 ≤ b.toNat := by
  intro w
  induction w using Nat.strongRecOn with
  | ind w ih =>
    intro b hb
    rcases Nat.eq_zero_or_pos w with rfl | hw
    · simp [leading_zero] at hb
    · rw [leading_of_pos hw, List.mem_append, List.mem_singleton] at hb
      rcases hb with hb | rfl
      · exact ih (w / 128) (by omega) b hb
      · simp; omega

/-- A positive number has as many leading groups as its shortest form has bytes. -/
theorem length_leading : ∀ w : Nat, 0 < w → (leading w).length = size w := by
  intro w
  induction w using Nat.strongRecOn with
  | ind w ih =>
    intro hw
    rw [leading_of_pos hw, List.length_append, List.length_singleton]
    by_cases hsmall : w < 128
    · have : w / 128 = 0 := by omega
      rw [this, leading_zero, size_of_lt hsmall]; rfl
    · rw [ih (w / 128) (by omega) (by omega), @size_of_ge w (by omega)]

/-- The shortest form of `v` has `size v` bytes. -/
theorem length_encode (v : Nat) : (encode v).length = size v := by
  rw [encode_eq, List.length_append, List.length_singleton]
  by_cases hsmall : v < 128
  · have : v / 128 = 0 := by omega
    rw [this, leading_zero, size_of_lt hsmall]; rfl
  · rw [length_leading (v / 128) (by omega), @size_of_ge v (by omega)]

/-- Every number takes at least one byte. -/
theorem size_pos (v : Nat) : 0 < size v := by
  rw [size]; split <;> omega

example : encode 300 = [0x82, 0x2C] := by simp [encode, leading]
example : encode 128 = [0x81, 0x00] := by simp [encode, leading]

end Varint

end PickleShading
