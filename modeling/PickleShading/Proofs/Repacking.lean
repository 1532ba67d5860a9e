import PickleShading.Proofs.Unpacking

/-!
# Seven-bit packing: lengths, repacking and refusals

Packing `n` bytes gives one character per seven bits of the stream, the last unit filled with
zero bits: `⌈8n/7⌉` characters, all below U+0080 (`Packing.length_pack`,
`Packing.lt_of_mem_pack`). Unpacking `m` characters below U+0080 gives `⌈7m/8⌉` bytes, and
packing those bytes again gives the text back (`Packing.pack_unpack_of_lt`). The bits that
unpacking filled its last byte with are fewer than eight and more than none exactly when `m` is
not a multiple of eight; packing then holds them, with the filling of its own last unit, in one
more unit of zero bits, the character U+0001.

Unpacking refuses exactly the texts with a character from U+0080 on, and names the first such
character with its byte offset (`Packing.unpack_eq_error`). Every character before it is below
U+0080 and so one byte long, which is why counting characters gives the offset.

Main statement: `Packing.packing_laws`, which gathers these with `Packing.unpack_pack`.
-/

namespace PickleShading

namespace Chunks

variable {α : Type}

/-- Cutting gives as many pieces as the piece size goes into the length, rounded up. -/
theorem length_cut (n : Nat) (xs : List α) :
    (cut n xs).length = (xs.length + max n 1 - 1) / max n 1 := by
  have positive : 0 < max n 1 := by omega
  fun_induction cut n xs with
  | case1 =>
    simp only [List.length_nil, Nat.zero_add]
    exact (Nat.div_eq_of_lt (by omega)).symm
  | case2 x xs ih =>
    simp only [List.length_cons, ih, List.length_drop]
    generalize max n 1 = m at positive ⊢
    by_cases short : xs.length + 1 ≤ m
    · -- the whole list is the last piece
      have one : (xs.length + 1 + m - 1) / m = 1 := Nat.div_eq_of_lt_le (by omega) (by omega)
      rw [Nat.sub_eq_zero_of_le short, Nat.zero_add, Nat.div_eq_of_lt (by omega), one]
    · -- a full piece in front, and the rest is cut the same way
      have shifted : xs.length + 1 + m - 1 = (xs.length + 1 - m + m - 1) + m := by omega
      rw [shifted, Nat.add_div_right _ positive]

end Chunks

namespace Utf8

/-- Characters below U+0080 take one byte each. -/
theorem byteSize_of_lt {cs : List Char} (small : ∀ c ∈ cs, c.toNat < 128) :
    (String.ofList cs).utf8ByteSize = cs.length := by
  rw [String.utf8ByteSize_ofList]
  induction cs with
  | nil => rfl
  | cons c cs ih =>
    have one : c.utf8Size = 1 := by
      rw [Char.utf8Size_eq_one_iff, UInt32.le_iff_toNat_le]
      exact Nat.le_of_lt_succ (small c List.mem_cons_self)
    rw [String.utf8Len_cons, one, ih fun d mem => small d (List.mem_cons_of_mem c mem),
      List.length_cons]

end Utf8

namespace Packing

/-- Every unit is below 128. -/
theorem charUnit_lt (c : Char) : charUnit c < 128 := Nat.mod_lt _ (by decide)

/-- A character below U+0080 is the character of its unit. -/
theorem unitChar_charUnit {c : Char} (small : c.toNat < 128) : unitChar (charUnit c) = c := by
  apply Char.toNat_inj.mp
  rw [toNat_unitChar, charUnit]
  omega

/-- Units of seven bits make seven bits each. -/
theorem length_flatMap_bitsOf (width : Nat) (units : List Nat) :
    (units.flatMap (bitsOf width)).length = width * units.length := by
  induction units with
  | nil => rfl
  | cons u units ih =>
    rw [List.flatMap_cons, List.length_append, length_bitsOf, ih, List.length_cons, Nat.mul_succ,
      Nat.add_comm]

/-- Packing gives `⌈8n/7⌉` characters for `n` bytes. -/
theorem length_pack (bytes : List UInt8) : (pack bytes).length = (8 * bytes.length + 6) / 7 := by
  rw [pack, String.length_ofList, List.length_map, Chunks.length_cut, length_byteBits]
  rfl

/-- Every character of a packed text is below U+0080. -/
theorem lt_of_mem_pack {bytes : List UInt8} {c : Char} (mem : c ∈ (pack bytes).toList) :
    c.toNat < 128 := by
  rw [pack, String.toList_ofList] at mem
  obtain ⟨unit, -, rfl⟩ := List.mem_map.mp mem
  rw [toNat_unitChar]
  exact Nat.mod_lt _ (by decide)

/-- A text of characters below U+0080 unpacks to the bytes its units' bits are cut into. -/
theorem unpack_of_lt {text : String} (small : ∀ c ∈ text.toList, c.toNat < 128) :
    unpack text = .ok ((Chunks.cut 8 ((text.toList.map charUnit).flatMap (bitsOf 7))).map
      fun byte => (ofBits byte).toUInt8) := by
  simp only [unpack, unitsFrom_of_lt _ 0 small, bind, Except.bind, pure, Except.pure]

/-- Bits cut into bytes give back, as a stream, the bits with the last byte filled with zero
bits. -/
theorem byteBits_cut (bits : List Bool) :
    byteBits ((Chunks.cut 8 bits).map fun byte => (ofBits byte).toUInt8) =
      bits ++ List.replicate ((8 - bits.length % 8) % 8) false := by
  rw [← Chunks.flatMap_cut_pad (by decide) false bits, byteBits, List.flatMap_map]
  apply List.flatMap_congr
  intro piece mem
  have short : piece.length ≤ 8 := Chunks.length_le_of_mem_cut 8 mem
  have fits : ofBits piece < 2 ^ 8 :=
    lt_of_lt_of_le (ofBits_lt piece) (Nat.pow_le_pow_right (by decide) short)
  rw [Nat.toUInt8_eq, UInt8.toNat_ofNat', Nat.mod_eq_of_lt fits, bitsOf_ofBits piece 8 short]

/-- The bits of seven-bit units are cut into the units again, whatever follows them. -/
theorem cut_unitBits_append (rest : List Bool) (units : List Nat) :
    Chunks.cut 7 (units.flatMap (bitsOf 7) ++ rest) = units.map (bitsOf 7) ++ Chunks.cut 7 rest := by
  rw [List.flatMap_def]
  apply Chunks.cut_flatten_append
  intro piece mem
  obtain ⟨u, -, rfl⟩ := List.mem_map.mp mem
  exact length_bitsOf 7 u

/-- Characters below U+0080 are written back from the bits of their units. -/
theorem unitChars_unitBits {cs : List Char} (small : ∀ c ∈ cs, c.toNat < 128) :
    ((cs.map charUnit).map (bitsOf 7)).map (fun unit => unitChar (ofBits unit)) = cs := by
  rw [List.map_map, List.map_map]
  conv_rhs => rw [← List.map_id cs]
  apply List.map_congr_left
  intro c mem
  have unit : ofBits (bitsOf 7 (charUnit c)) = charUnit c := by
    rw [ofBits_bitsOf]
    exact Nat.mod_eq_of_lt (charUnit_lt c)
  rw [Function.comp_apply, Function.comp_apply, unit, id]
  exact unitChar_charUnit (small c mem)

/-- Unpacking a text of `m` characters below U+0080 gives `⌈7m/8⌉` bytes, and packing them gives
the text back, followed by the character U+0001 unless `m` is a multiple of eight. -/
theorem pack_unpack_of_lt {text : String} (small : ∀ c ∈ text.toList, c.toNat < 128) :
    ∃ bytes, unpack text = .ok bytes ∧ bytes.length = (7 * text.length + 7) / 8 ∧
      pack bytes = text ++ if text.length % 8 = 0 then "" else "\x01" := by
  have bitCount : ((text.toList.map charUnit).flatMap (bitsOf 7)).length = 7 * text.length := by
    rw [length_flatMap_bitsOf, List.length_map, String.length_toList]
  refine ⟨_, unpack_of_lt small, ?_, ?_⟩
  · rw [List.length_map, Chunks.length_cut, bitCount]
    rfl
  -- the units come back whole, then the zero bits that filled the last byte
  rw [pack, byteBits_cut, bitCount, cut_unitBits_append, List.map_append, unitChars_unitBits small]
  by_cases whole : text.length % 8 = 0
  · have none : (8 - 7 * text.length % 8) % 8 = 0 := by omega
    rw [none, if_pos whole, List.replicate_zero, Chunks.cut, List.map_nil, List.append_nil,
      String.ofList_toList, String.append_empty]
  · -- there are one to seven of them, so they make one unit of zero bits
    have some : 0 < (8 - 7 * text.length % 8) % 8 := by omega
    rw [if_neg whole, Chunks.cut_of_length_le 7 (by simpa using some.ne') (by simp; omega),
      List.map_singleton, ofBits_replicate_false, String.ofList_append, String.ofList_toList]
    rfl

/-- Reading units fails exactly at the first character from U+0080 on, naming it with its
offset: the offset of the first character read, plus the characters read before it. -/
theorem unitsFrom_eq_error {e : Error} : ∀ (cs : List Char) (offset : Nat),
    unitsFrom cs offset = .error e ↔ ∃ pre c post, cs = pre ++ c :: post ∧
      (∀ d ∈ pre, d.toNat < 128) ∧ 128 ≤ c.toNat ∧ e = .invalidEncoding c (offset + pre.length)
  | [], offset => by simp [unitsFrom, pure, Except.pure]
  | c :: cs, offset => by
    by_cases small : c.toNat < 128
    · -- `c` is read, and a failure can only come from the rest, one offset on
      have rest := @unitsFrom_eq_error e cs (offset + 1)
      have passed : unitsFrom (c :: cs) offset = .error e ↔ unitsFrom cs (offset + 1) = .error e := by
        simp only [unitsFrom, if_pos small, bind, Except.bind]
        cases unitsFrom cs (offset + 1) <;> simp [pure, Except.pure]
      rw [passed, rest]
      constructor
      · rintro ⟨pre, wide, post, rfl, before, isWide, rfl⟩
        refine ⟨c :: pre, wide, post, rfl, ?_, isWide, ?_⟩
        · simpa [small] using before
        · simp only [List.length_cons]
          congr 1
          omega
      · rintro ⟨pre, wide, post, split, before, isWide, rfl⟩
        cases pre with
        | nil =>
          obtain ⟨rfl, -⟩ := List.cons.inj split
          omega
        | cons d pre =>
          obtain ⟨rfl, rfl⟩ := List.cons.inj split
          refine ⟨pre, wide, post, rfl, fun d' mem => before d' (List.mem_cons_of_mem _ mem), isWide, ?_⟩
          simp only [List.length_cons]
          congr 1
          omega
    · -- `c` itself is refused, at the offset of the first character
      have refused : unitsFrom (c :: cs) offset = .error (.invalidEncoding c offset) := by
        simp only [unitsFrom, if_neg small]
        rfl
      rw [refused]
      constructor
      · rintro ⟨⟩
        exact ⟨[], c, cs, rfl, by simp, by omega, rfl⟩
      · rintro ⟨pre, wide, post, split, before, -, rfl⟩
        cases pre with
        | nil =>
          obtain ⟨rfl, -⟩ := List.cons.inj split
          rfl
        | cons d pre =>
          obtain ⟨same, -⟩ := List.cons.inj split
          exact absurd (before d List.mem_cons_self) (same ▸ small)

/-- Units are read only from characters below U+0080. -/
theorem lt_of_unitsFrom_eq_ok : ∀ {cs : List Char} {offset : Nat} {units : List Nat},
    unitsFrom cs offset = .ok units → ∀ c ∈ cs, c.toNat < 128
  | [], _, _, _ => by simp
  | c :: cs, offset, units, read => by
    by_cases small : c.toNat < 128
    · simp only [unitsFrom, if_pos small, bind, Except.bind] at read
      cases restRead : unitsFrom cs (offset + 1) with
      | error e => simp [restRead] at read
      | ok rest =>
        intro d mem
        rcases List.mem_cons.mp mem with rfl | later
        · exact small
        · exact lt_of_unitsFrom_eq_ok restRead d later
    · simp only [unitsFrom, if_neg small] at read
      cases read

/-- Unpacking fails exactly as reading the units of the text does: the rest cannot fail. -/
theorem unpack_eq_error_iff_unitsFrom {text : String} {e : Error} :
    unpack text = .error e ↔ unitsFrom text.toList 0 = .error e := by
  simp only [unpack, bind, Except.bind]
  cases unitsFrom text.toList 0 <;> simp [pure, Except.pure]

/-- Unpacking fails exactly on a text with a character from U+0080 on; the failure names the
first such character and its byte offset. -/
theorem unpack_eq_error {text : String} {e : Error} :
    unpack text = .error e ↔ ∃ pre c post, text.toList = pre ++ c :: post ∧
      (∀ d ∈ pre, d.toNat < 128) ∧ 128 ≤ c.toNat ∧
      e = .invalidEncoding c (String.ofList pre).utf8ByteSize := by
  rw [unpack_eq_error_iff_unitsFrom, unitsFrom_eq_error]
  constructor <;> rintro ⟨pre, c, post, split, before, wide, rfl⟩ <;>
    refine ⟨pre, c, post, split, before, wide, ?_⟩ <;> rw [Utf8.byteSize_of_lt before, Nat.zero_add]

/-- Unpacking fails exactly on a text with a character from U+0080 on. -/
theorem unpack_fails_iff (text : String) :
    (∃ e, unpack text = .error e) ↔ ∃ c ∈ text.toList, 128 ≤ c.toNat := by
  constructor
  · rintro ⟨e, failed⟩
    obtain ⟨pre, c, post, split, -, wide, -⟩ := unpack_eq_error.mp failed
    exact ⟨c, by simp [split], wide⟩
  · rintro ⟨c, mem, wide⟩
    cases unitsRead : unitsFrom text.toList 0 with
    | error e => exact ⟨e, unpack_eq_error_iff_unitsFrom.mpr unitsRead⟩
    | ok units => exact absurd (lt_of_unitsFrom_eq_ok unitsRead c mem) (by omega)

/-- The seven-bit packing laws. Packing `n` bytes gives `⌈8n/7⌉` characters, all below U+0080,
and unpacking them gives the bytes back with one zero byte more unless `n` is a multiple of
seven. Unpacking `m` characters below U+0080 gives `⌈7m/8⌉` bytes, and packing those gives the
text back with one character U+0001 more unless `m` is a multiple of eight. Unpacking fails
exactly on a text with a character from U+0080 on, naming the first one and its byte offset. -/
theorem packing_laws :
    (∀ bytes : List UInt8, (pack bytes).length = (8 * bytes.length + 6) / 7 ∧
      (∀ c ∈ (pack bytes).toList, c.toNat < 128) ∧
      unpack (pack bytes) = .ok (bytes ++ if bytes.length % 7 = 0 then [] else [0])) ∧
    (∀ text : String, (∀ c ∈ text.toList, c.toNat < 128) →
      ∃ bytes, unpack text = .ok bytes ∧ bytes.length = (7 * text.length + 7) / 8 ∧
        pack bytes = text ++ if text.length % 8 = 0 then "" else "\x01") ∧
    (∀ text : String, (∃ e, unpack text = .error e) ↔ ∃ c ∈ text.toList, 128 ≤ c.toNat) ∧
    (∀ (text : String) (e : Error), unpack text = .error e ↔
      ∃ pre c post, text.toList = pre ++ c :: post ∧ (∀ d ∈ pre, d.toNat < 128) ∧
        128 ≤ c.toNat ∧ e = .invalidEncoding c (String.ofList pre).utf8ByteSize) :=
  ⟨fun bytes => ⟨length_pack bytes, fun _ mem => lt_of_mem_pack mem, unpack_pack bytes⟩,
    fun _ small => pack_unpack_of_lt small, unpack_fails_iff, fun _ _ => unpack_eq_error⟩

/-- The packed form of the bytes 5 and 0: three characters, so packing what they unpack to adds
the character U+0001. -/
theorem packing_laws_three_units :
    (∀ c ∈ "\x06\x01\x01".toList, c.toNat < 128) ∧
      ∃ bytes, unpack "\x06\x01\x01" = .ok bytes ∧ bytes.length = (7 * "\x06\x01\x01".length + 7) / 8 ∧
        pack bytes = "\x06\x01\x01" ++ if "\x06\x01\x01".length % 8 = 0 then "" else "\x01" :=
  ⟨by simp, packing_laws.2.1 _ (by simp)⟩

end Packing

end PickleShading
