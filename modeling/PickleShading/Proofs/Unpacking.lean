import PickleShading.Proofs.Framing
import PickleShading.Packing

/-!
# Unpacking what was packed

Packing reads the bytes as one stream of bits and cuts it into units of seven, the last one
filled with zero bits; unpacking cuts the units' bits into bytes, and bits left over after the
last whole byte make one more byte. For `n` bytes the stream has `8 * n` bits, the units hold
them followed by `(7 - 8 * n % 7) % 7` zero bits, and those are a whole byte only when there are
none. So unpacking what was packed gives the bytes back, followed by one zero byte exactly when
`n` is not a multiple of seven (`Packing.unpack_pack`).

The laws behind it are about bit lists: a number's bits read back to the number
(`Packing.ofBits_bitsOf`), bits read as a number and written again are padded with zero bits
(`Packing.bitsOf_ofBits`), and cutting a list into pieces and padding each piece pads only the
last (`Chunks.flatMap_cut_pad`).
-/

namespace PickleShading

namespace Chunks

variable {α : Type}

/-- Every piece holds at most `max n 1` elements. -/
theorem length_le_of_mem_cut (n : Nat) {xs piece : List α} (mem : piece ∈ cut n xs) :
    piece.length ≤ max n 1 := by
  fun_induction cut n xs with
  | case1 => simp at mem
  | case2 x xs ih =>
    rcases List.mem_cons.mp mem with rfl | later
    · exact List.length_take_le _ _
    · exact ih later

/-- Every piece holds at least one element. -/
theorem ne_nil_of_mem_cut (n : Nat) {xs piece : List α} (mem : piece ∈ cut n xs) : piece ≠ [] := by
  fun_induction cut n xs with
  | case1 => simp at mem
  | case2 x xs ih =>
    rcases List.mem_cons.mp mem with rfl | later
    · rw [Ne, List.take_eq_nil_iff]
      simp
    · exact ih later

/-- A piece of exactly `max n 1` elements in front is cut off whole. -/
theorem cut_append_of_length (n : Nat) {piece : List α} (rest : List α)
    (full : piece.length = max n 1) : cut n (piece ++ rest) = piece :: cut n rest := by
  obtain ⟨x, xs, rfl⟩ := List.exists_cons_of_ne_nil
    (List.ne_nil_of_length_pos (by rw [full]; omega))
  rw [List.cons_append, cut, ← List.cons_append, List.take_left' full, List.drop_left' full]

/-- Pieces of exactly `max n 1` elements in front are cut off whole, one after another. -/
theorem cut_flatten_append (n : Nat) (rest : List α) : ∀ pieces : List (List α),
    (∀ piece ∈ pieces, piece.length = max n 1) → cut n (pieces.flatten ++ rest) = pieces ++ cut n rest
  | [], _ => rfl
  | piece :: pieces, full => by
    have tail := cut_flatten_append n rest pieces fun p mem => full p (List.mem_cons_of_mem piece mem)
    rw [List.flatten_cons, List.append_assoc, cut_append_of_length n _ (full piece List.mem_cons_self),
      tail, List.cons_append]

/-- A non-empty list of at most `max n 1` elements is one piece. -/
theorem cut_of_length_le (n : Nat) {xs : List α} (nonEmpty : xs ≠ []) (short : xs.length ≤ max n 1) :
    cut n xs = [xs] := by
  obtain ⟨x, rest, rfl⟩ := List.exists_cons_of_ne_nil nonEmpty
  rw [cut, List.take_of_length_le short, List.drop_eq_nil_of_le short, cut]

/-- Filling every piece up to `n` elements with `a` fills only the last piece, with as many as
the length of the list falls short of a multiple of `n`. The induction follows the cutting. -/
theorem flatMap_cut_pad {n : Nat} (positive : 0 < n) (a : α) (xs : List α) :
    (cut n xs).flatMap (fun piece => piece ++ List.replicate (n - piece.length) a) =
      xs ++ List.replicate ((n - xs.length % n) % n) a := by
  fun_induction cut n xs with
  | case1 => simp
  | case2 x xs ih =>
    have width : max n 1 = n := by omega
    rw [width] at ih ⊢
    rw [List.flatMap_cons, ih]
    by_cases short : (x :: xs).length ≤ n
    · -- the whole list is the last piece
      have filled : (n - (x :: xs).length % n) % n = n - (x :: xs).length := by
        rcases Nat.lt_or_eq_of_le short with less | same
        · rw [Nat.mod_eq_of_lt less, Nat.mod_eq_of_lt (by simp only [List.length_cons] at less ⊢; omega)]
        · rw [same, Nat.mod_self, Nat.sub_zero, Nat.mod_self, Nat.sub_self]
      rw [List.take_of_length_le short, List.drop_eq_nil_of_le short, filled]
      simp
    · -- a full piece in front needs no filling, and the rest is cut the same way
      have full : ((x :: xs).take n).length = n := by
        rw [List.length_take]
        omega
      have sameRest : ((x :: xs).drop n).length % n = (x :: xs).length % n := by
        rw [List.length_drop]
        exact (Nat.mod_eq_sub_mod (by omega)).symm
      rw [full, Nat.sub_self, List.replicate_zero, List.append_nil, sameRest, ← List.append_assoc,
        List.take_append_drop]

end Chunks

namespace Packing

theorem length_bitsOf (width v : Nat) : (bitsOf width v).length = width := by
  simp [bitsOf]

/-- The lowest bit first, then the bits of the rest. -/
theorem bitsOf_succ (width v : Nat) : bitsOf (width + 1) v = v.testBit 0 :: bitsOf width (v / 2) := by
  simp only [bitsOf, List.range_succ_eq_map, List.map_cons, List.map_map]
  congr 1
  apply List.map_congr_left
  intro i _
  exact Nat.testBit_succ v i

@[simp]
theorem ofBits_cons (b : Bool) (bs : List Bool) :
    ofBits (b :: bs) = (if b then 1 else 0) + 2 * ofBits bs := rfl

/-- The number that bits stand for fits as many bits as there are. -/
theorem ofBits_lt : ∀ bs : List Bool, ofBits bs < 2 ^ bs.length
  | [] => by simp [ofBits]
  | b :: bs => by
    have rest := ofBits_lt bs
    rw [ofBits_cons, List.length_cons, Nat.pow_succ]
    cases b <;> simp <;> omega

/-- Reading back the lowest `width` bits of `v` gives `v` modulo `2 ^ width`. -/
theorem ofBits_bitsOf : ∀ width v : Nat, ofBits (bitsOf width v) = v % 2 ^ width
  | 0, v => by simp [bitsOf, ofBits, Nat.mod_one]
  | width + 1, v => by
    rw [bitsOf_succ, ofBits_cons, ofBits_bitsOf width (v / 2), Nat.pow_succ, Nat.mul_comm _ 2,
      Nat.mod_mul, Nat.testBit_zero]
    have low : v % 2 = 0 ∨ v % 2 = 1 := by omega
    rcases low with low | low <;> simp [low]

/-- Writing the number that bits stand for in `width` bits gives the bits back, filled with
zero bits. -/
theorem bitsOf_ofBits : ∀ (bs : List Bool) (width : Nat), bs.length ≤ width →
    bitsOf width (ofBits bs) = bs ++ List.replicate (width - bs.length) false
  | [], width, _ => by
    rw [List.nil_append, List.length_nil, Nat.sub_zero, List.eq_replicate_iff]
    simp [bitsOf, ofBits, Nat.zero_testBit]
  | b :: bs, width + 1, fits => by
    have rest := bitsOf_ofBits bs width (by simpa using fits)
    have low : ((if b then 1 else 0) + 2 * ofBits bs).testBit 0 = b := by
      cases b <;> simp [Nat.testBit_zero]
    have half : ((if b then 1 else 0) + 2 * ofBits bs) / 2 = ofBits bs := by
      split <;> omega
    rw [bitsOf_succ, ofBits_cons, low, half, rest]
    simp
  | _ :: _, 0, fits => absurd fits (by simp)

/-- Zero bits stand for zero. -/
theorem ofBits_replicate_false : ∀ k : Nat, ofBits (List.replicate k false) = 0
  | 0 => rfl
  | k + 1 => by rw [List.replicate_succ, ofBits_cons, ofBits_replicate_false k]; rfl

theorem length_byteBits (bytes : List UInt8) : (byteBits bytes).length = 8 * bytes.length := by
  induction bytes with
  | nil => rfl
  | cons b bytes ih =>
    simp only [byteBits, List.flatMap_cons, List.length_append, length_bitsOf] at ih ⊢
    rw [ih, List.length_cons]
    omega

/-- The bit stream of bytes is cut into bytes again, whatever follows it. -/
theorem cut_byteBits_append (rest : List Bool) (bytes : List UInt8) :
    Chunks.cut 8 (byteBits bytes ++ rest) =
      bytes.map (fun b => bitsOf 8 b.toNat) ++ Chunks.cut 8 rest := by
  rw [byteBits, List.flatMap_def]
  apply Chunks.cut_flatten_append
  intro piece mem
  obtain ⟨b, -, rfl⟩ := List.mem_map.mp mem
  exact length_bitsOf 8 _

/-- The character of a unit has the code one above it, wrapping at 128. -/
theorem toNat_unitChar (u : Nat) : (unitChar u).toNat = (u + 1) % 128 := by
  simp only [unitChar, Char.toNat_ofNat, Nat.isValidChar]
  split <;> omega

/-- A seven-bit unit is written as a character below U+0080 that stands for it again. -/
theorem charUnit_unitChar {u : Nat} (small : u < 128) :
    (unitChar u).toNat < 128 ∧ charUnit (unitChar u) = u := by
  simp only [charUnit, toNat_unitChar]
  omega

/-- Characters below U+0080 are all read as units. -/
theorem unitsFrom_of_lt : ∀ (cs : List Char) (offset : Nat), (∀ c ∈ cs, c.toNat < 128) →
    unitsFrom cs offset = .ok (cs.map charUnit)
  | [], _, _ => rfl
  | c :: cs, offset, small => by
    have rest := unitsFrom_of_lt cs (offset + 1) fun d mem => small d (List.mem_cons_of_mem c mem)
    simp only [unitsFrom, small c List.mem_cons_self, if_true, rest]
    rfl

/-- Unpacking what was packed gives the bytes back, followed by one zero byte exactly when
their number is not a multiple of seven. -/
theorem unpack_pack (bytes : List UInt8) :
    unpack (pack bytes) = .ok (bytes ++ if bytes.length % 7 = 0 then [] else [0]) := by
  have units : ∀ piece ∈ Chunks.cut 7 (byteBits bytes), ofBits piece < 128 := by
    intro piece mem
    have short := Chunks.length_le_of_mem_cut 7 mem
    have := ofBits_lt piece
    have : 2 ^ piece.length ≤ 2 ^ 7 := Nat.pow_le_pow_right (by decide) (by simpa using short)
    omega
  have chars : ∀ c ∈ (Chunks.cut 7 (byteBits bytes)).map (fun unit => unitChar (ofBits unit)),
      c.toNat < 128 := by
    intro c mem
    obtain ⟨piece, isPiece, rfl⟩ := List.mem_map.mp mem
    exact (charUnit_unitChar (units piece isPiece)).1
  -- each unit gives back its seven bits, so the units' bits are the stream with zero bits behind
  have bits : ((Chunks.cut 7 (byteBits bytes)).map fun unit => charUnit (unitChar (ofBits unit))).flatMap
      (bitsOf 7) = byteBits bytes ++ List.replicate ((7 - 8 * bytes.length % 7) % 7) false := by
    rw [List.flatMap_map, ← length_byteBits, ← Chunks.flatMap_cut_pad (by decide) false]
    apply List.flatMap_congr
    intro piece mem
    rw [(charUnit_unitChar (units piece mem)).2,
      bitsOf_ofBits piece 7 (by simpa using Chunks.length_le_of_mem_cut 7 mem)]
  have bytesBack : bytes.map (fun b => (ofBits (bitsOf 8 b.toNat)).toUInt8) = bytes := by
    conv_rhs => rw [← List.map_id bytes]
    apply List.map_congr_left
    intro b _
    rw [ofBits_bitsOf, Nat.mod_eq_of_lt (by simpa using b.toNat_lt_size)]
    exact UInt8.ofNat_toNat
  simp only [unpack, pack, String.toList_ofList, unitsFrom_of_lt _ 0 chars, List.map_map,
    Function.comp_def, bind, Except.bind, pure, Except.pure]
  rw [bits, cut_byteBits_append, List.map_append, List.map_map]
  simp only [Function.comp_def, bytesBack, Except.ok.injEq, List.append_cancel_left_eq]
  by_cases whole : bytes.length % 7 = 0
  · have none : (7 - 8 * bytes.length % 7) % 7 = 0 := by omega
    rw [none, if_pos whole, List.replicate_zero, Chunks.cut]
    rfl
  · -- the zero bits left over make one more byte, a zero
    have some : 0 < (7 - 8 * bytes.length % 7) % 7 := by omega
    rw [if_neg whole, Chunks.cut_of_length_le 8 (by simpa using some.ne') (by simp; omega)]
    simp [ofBits_replicate_false]

/-- Unpacking what was packed gives the bytes back, followed by nothing or a single zero
byte. -/
theorem unpack_pack_trailer (bytes : List UInt8) :
    ∃ trailer, (trailer = [] ∨ trailer = [0]) ∧ unpack (pack bytes) = .ok (bytes ++ trailer) :=
  ⟨_, by split <;> simp, unpack_pack bytes⟩

end Packing

end PickleShading
