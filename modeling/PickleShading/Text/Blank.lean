/-!
# White space

The characters with the Unicode property White_Space, 25 of them in ten ranges, and trimming
them from both ends of a text. Core's `Char.isWhitespace` knows four of them; every one of
those is blank here (`Text.isBlank_of_isWhitespace`).
-/

namespace PickleShading

namespace Text

/-- The code points with the White_Space property, as closed ranges, ascending and apart. -/
def blankRanges : List (Nat × Nat) :=
  [(0x09, 0x0D), (0x20, 0x20), (0x85, 0x85), (0xA0, 0xA0), (0x1680, 0x1680),
    (0x2000, 0x200A), (0x2028, 0x2029), (0x202F, 0x202F), (0x205F, 0x205F), (0x3000, 0x3000)]

/-- Whether `c` is white space. -/
def isBlank (c : Char) : Bool := blankRanges.any fun r => r.1 ≤ c.toNat && c.toNat ≤ r.2

/-- Whether closed ranges are ascending with a gap between each two. -/
def rangesApart : List (Nat × Nat) → Bool
  | [] => true
  | [r] => r.1 ≤ r.2
  | r :: s :: rs => r.1 ≤ r.2 && r.2 + 1 < s.1 && rangesApart (s :: rs)

/-- The number of code points in closed ranges. -/
def rangesCount : List (Nat × Nat) → Nat
  | [] => 0
  | r :: rs => (r.2 + 1 - r.1) + rangesCount rs

example : rangesApart blankRanges = true := by decide
example : rangesCount blankRanges = 25 := by decide

/-- Every character that core calls white space is blank. -/
theorem isBlank_of_isWhitespace (c : Char) (h : c.isWhitespace = true) : isBlank c = true := by
  simp only [Char.isWhitespace, Bool.or_eq_true, decide_eq_true_eq] at h
  rcases h with ((h | h) | h) | h <;> subst h <;> decide

/-- `s` without the white space at its start and at its end. -/
def trimBlank (s : String) : String :=
  String.ofList (((s.toList.dropWhile isBlank).reverse.dropWhile isBlank).reverse)

example : trimBlank "　 a b \n" = "a b" := by decide +kernel

end Text

end PickleShading
