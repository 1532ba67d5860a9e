import PickleShading.Proofs.Repacking
import PickleShading.SignatureText

/-!
# Cutting text into chunks

The chunking loop takes the characters of a text one by one and flushes the chunk it fills
only when the next character arrives and finds it full. The chunk being filled is therefore
never empty, and when the text ends it is flushed as the last chunk. So the loop cuts the text
exactly as `Chunks.cut` does: pieces of `max limit 1` characters in front and the rest at the
end (`SignatureText.splitChunks_eq_cut`); the empty text, on which the loop never runs, gives
one empty chunk.

Main statement: `SignatureText.chunking_law`. The chunks join back to the text; a non-empty
text gives `⌈length / m⌉` chunks for `m = max limit 1`, none of them empty and all but the last
of exactly `m` characters; and the stored form of a text holds the text, whole exactly when
it has at most `limit` characters.
-/

namespace PickleShading

namespace Chunks

variable {α : Type}

/-- A non-empty list is cut into at least one piece. -/
theorem cut_ne_nil (n : Nat) {xs : List α} (nonEmpty : xs ≠ []) : cut n xs ≠ [] := by
  obtain ⟨x, rest, rfl⟩ := List.exists_cons_of_ne_nil nonEmpty
  rw [cut]
  exact List.cons_ne_nil _ _

/-- Every piece but the last holds exactly `max n 1` elements. -/
theorem length_of_mem_dropLast_cut (n : Nat) {xs piece : List α}
    (mem : piece ∈ (cut n xs).dropLast) : piece.length = max n 1 := by
  fun_induction cut n xs with
  | case1 => simp at mem
  | case2 x xs ih =>
    -- another piece follows the front one only when the list is longer than a piece
    by_cases short : (x :: xs).length ≤ max n 1
    · rw [List.drop_eq_nil_of_le short, cut, List.dropLast_singleton] at mem
      simp at mem
    · have more : (x :: xs).drop (max n 1) ≠ [] := by
        rw [Ne, List.drop_eq_nil_iff]
        exact short
      rw [List.dropLast_cons_of_ne_nil (cut_ne_nil n more)] at mem
      rcases List.mem_cons.mp mem with rfl | later
      · rw [List.length_take]
        omega
      · exact ih later

end Chunks

namespace SignatureText

/-- The loop is filling a chunk: it holds `count` characters, at least one and at most the
limit. -/
def ChunkLoop.Filling (limit : Nat) (loop : ChunkLoop) : Prop :=
  loop.count = loop.current.length ∧ 0 < loop.count ∧ loop.count ≤ max limit 1

/-- The loop run over the rest of a text from a state that is filling a chunk gives, once the
chunk being filled is flushed, the chunks already flushed followed by the pieces of the chunk
being filled and the rest. The induction is on the rest; a full chunk is flushed exactly when
the next character arrives, which is where `Chunks.cut` ends a piece. -/
theorem ChunkLoop.foldl_eq_cut : ∀ (limit : Nat) (cs : List Char) (loop : ChunkLoop),
    loop.Filling limit →
    let last := cs.foldl (ChunkLoop.step (max limit 1)) loop
    (last.chunks.push last.current).toList =
      loop.chunks.toList ++ (Chunks.cut limit (loop.current.toList ++ cs)).map String.ofList
  | limit, [], loop, ⟨counted, filled, fits⟩ => by
    have nonEmpty : loop.current.toList ≠ [] := by
      rw [Ne, ← List.length_eq_zero_iff, String.length_toList]
      omega
    rw [List.foldl_nil, List.append_nil, Chunks.cut_of_length_le limit nonEmpty
      (by rw [String.length_toList]; omega)]
    simp
  | limit, c :: cs, loop, ⟨counted, filled, fits⟩ => by
    simp only [List.foldl_cons]
    by_cases full : loop.count = max limit 1
    · -- the full chunk is flushed and `c` starts the next one
      have stepped : ChunkLoop.step (max limit 1) loop c =
          ⟨loop.chunks.push loop.current, "".push c, 1⟩ := by
        simp [ChunkLoop.step, full]
      have whole : loop.current.toList.length = max limit 1 := by
        rw [String.length_toList]
        omega
      rw [stepped,
        ChunkLoop.foldl_eq_cut limit cs _ ⟨by simp, Nat.one_pos, Nat.le_max_right limit 1⟩,
        Chunks.cut_append_of_length limit _ whole]
      simp
    · -- `c` joins the chunk being filled
      have stepped : ChunkLoop.step (max limit 1) loop c =
          ⟨loop.chunks, loop.current.push c, loop.count + 1⟩ := by
        simp [ChunkLoop.step, full]
      have room : loop.count + 1 ≤ max limit 1 := by omega
      rw [stepped, ChunkLoop.foldl_eq_cut limit cs _ ⟨by simp [counted], Nat.succ_pos _, room⟩]
      simp

/-- The chunking loop cuts a non-empty text as `Chunks.cut` cuts its characters. -/
theorem splitChunks_eq_cut (text : String) (limit : Nat) :
    splitChunks text limit =
      if text.isEmpty then [""] else (Chunks.cut limit text.toList).map String.ofList := by
  unfold splitChunks
  split
  · rfl
  · rename_i filled
    obtain ⟨c, cs, chars⟩ : ∃ c cs, text.toList = c :: cs := by
      refine List.exists_cons_of_ne_nil ?_
      rwa [Ne, ← String.toList_empty, String.toList_inj, ← String.isEmpty_iff]
    -- the first character finds no full chunk, since the limit is at least one
    have first : ChunkLoop.step (max limit 1) ⟨#[], "", 0⟩ c = ⟨#[], "".push c, 1⟩ := by
      have positive : (0 : Nat) ≠ max limit 1 := by omega
      simp [ChunkLoop.step, positive]
    simp only [String.foldl_eq_foldl_toList, chars, List.foldl_cons, first]
    rw [ChunkLoop.foldl_eq_cut limit cs _ ⟨by simp, Nat.one_pos, Nat.le_max_right limit 1⟩]
    simp

/-- The chunks of a non-empty text are the pieces of its characters. -/
theorem splitChunks_of_ne {text : String} (filled : text ≠ "") (limit : Nat) :
    splitChunks text limit = (Chunks.cut limit text.toList).map String.ofList := by
  rw [splitChunks_eq_cut, if_neg (by rwa [String.isEmpty_iff])]

/-- Joining texts is writing their characters one after another. -/
theorem join_map_ofList (pieces : List (List Char)) :
    String.join (pieces.map String.ofList) = String.ofList pieces.flatten := by
  induction pieces with
  | nil => simp
  | cons piece pieces ih => simp [String.join_cons, ih]

/-- The chunks of a text join back to the text. -/
theorem join_splitChunks (text : String) (limit : Nat) :
    String.join (splitChunks text limit) = text := by
  by_cases empty : text = ""
  · rw [splitChunks_eq_cut, if_pos (String.isEmpty_iff.mpr empty), empty]
    rfl
  · rw [splitChunks_of_ne empty, join_map_ofList, Chunks.flatten_cut, String.ofList_toList]

/-- The empty text gives one empty chunk. -/
theorem splitChunks_empty (limit : Nat) : splitChunks "" limit = [""] := by
  rw [splitChunks_eq_cut]
  rfl

/-- A non-empty text is cut into `⌈length / m⌉` chunks for `m = max limit 1`. -/
theorem length_splitChunks {text : String} (filled : text ≠ "") (limit : Nat) :
    (splitChunks text limit).length = (text.length + max limit 1 - 1) / max limit 1 := by
  rw [splitChunks_of_ne filled, List.length_map, Chunks.length_cut, String.length_toList]

/-- No chunk of a non-empty text is empty. -/
theorem ne_of_mem_splitChunks {text : String} (filled : text ≠ "") {limit : Nat} {c : String}
    (mem : c ∈ splitChunks text limit) : c ≠ "" := by
  rw [splitChunks_of_ne filled] at mem
  obtain ⟨piece, isPiece, rfl⟩ := List.mem_map.mp mem
  intro empty
  exact Chunks.ne_nil_of_mem_cut limit isPiece (by simpa using congrArg String.toList empty)

/-- No chunk holds more than `max limit 1` characters. -/
theorem length_le_of_mem_splitChunks {text : String} {limit : Nat} {c : String}
    (mem : c ∈ splitChunks text limit) : c.length ≤ max limit 1 := by
  by_cases empty : text = ""
  · rw [empty, splitChunks_empty, List.mem_singleton] at mem
    subst mem
    exact Nat.zero_le _
  · rw [splitChunks_of_ne empty] at mem
    obtain ⟨piece, isPiece, rfl⟩ := List.mem_map.mp mem
    rw [String.length_ofList]
    exact Chunks.length_le_of_mem_cut limit isPiece

/-- Every chunk but the last holds exactly `max limit 1` characters. -/
theorem length_of_mem_dropLast_splitChunks {text : String} {limit : Nat} {c : String}
    (mem : c ∈ (splitChunks text limit).dropLast) : c.length = max limit 1 := by
  by_cases empty : text = ""
  · rw [empty, splitChunks_empty] at mem
    simp at mem
  · rw [splitChunks_of_ne empty, ← List.map_dropLast] at mem
    obtain ⟨piece, isPiece, rfl⟩ := List.mem_map.mp mem
    rw [String.length_ofList]
    exact Chunks.length_of_mem_dropLast_cut limit isPiece

/-- The stored form of a text holds the text. -/
theorem encoded_ofEncoded (text : String) (limit : Nat) : (ofEncoded text limit).encoded = text := by
  unfold ofEncoded
  split
  · rfl
  · exact join_splitChunks text limit

/-- A text is stored whole exactly when it has at most `limit` characters. -/
theorem isChunked_ofEncoded (text : String) (limit : Nat) :
    (ofEncoded text limit).isChunked = false ↔ text.length ≤ limit := by
  unfold ofEncoded
  split <;> simp_all [isChunked]

/-- A text stored in chunks is cut into chunks of at least one character and at most
`max limit 1`. -/
theorem chunks_ofEncoded {text : String} {limit : Nat} {chunks : List String}
    (stored : ofEncoded text limit = chunked chunks) :
    ∀ c ∈ chunks, c ≠ "" ∧ c.length ≤ max limit 1 := by
  unfold ofEncoded at stored
  split at stored
  · cases stored
  · rename_i long
    cases stored
    -- the text is longer than the limit, so it is not empty
    have filled : text ≠ "" := by
      intro empty
      rw [empty] at long
      exact long (Nat.zero_le limit)
    intro c mem
    exact ⟨ne_of_mem_splitChunks filled mem, length_le_of_mem_splitChunks mem⟩

/-- The chunking law. The chunks of a text join back to it; the empty text gives one empty
chunk; a non-empty text gives `⌈length / m⌉` chunks for `m = max limit 1`, none empty and all
but the last of exactly `m` characters. The stored form of a text holds the text, and it is
the whole text exactly when the text has at most `limit` characters, the chunks otherwise. -/
theorem chunking_law (text : String) (limit : Nat) :
    String.join (splitChunks text limit) = text ∧
    (text = "" → splitChunks text limit = [""]) ∧
    (text ≠ "" →
      (splitChunks text limit).length = (text.length + max limit 1 - 1) / max limit 1 ∧
      (∀ c ∈ splitChunks text limit, c ≠ "") ∧
      ∀ c ∈ (splitChunks text limit).dropLast, c.length = max limit 1) ∧
    (ofEncoded text limit).encoded = text ∧
    (ofEncoded text limit = single text ↔ text.length ≤ limit) ∧
    (limit < text.length → ofEncoded text limit = chunked (splitChunks text limit)) := by
  refine ⟨join_splitChunks text limit, ?_, ?_, encoded_ofEncoded text limit, ?_, ?_⟩
  · rintro rfl
    exact splitChunks_empty limit
  · intro filled
    exact ⟨length_splitChunks filled limit, fun c mem => ne_of_mem_splitChunks filled mem,
      fun c mem => length_of_mem_dropLast_splitChunks mem⟩
  · unfold ofEncoded
    split <;> simp_all
  · intro long
    unfold ofEncoded
    rw [if_neg (by omega)]

end SignatureText

end PickleShading
