/-!
# Replacing a substring

`Text.replace s old new` replaces the occurrences of `old` in `s` from left to right: after an
occurrence is replaced the scan resumes behind it, so occurrences never overlap and text that
`new` brings in is not scanned again. An empty `old` occurs at every boundary between
characters and at both ends, so `new` is put before every character and after the last. Text in
which `old` does not occur is left as it is (`Text.replace_of_not_infix`).
-/

namespace PickleShading

namespace Text

set_option linter.unusedVariables false in
/-- The characters of `s` with every non-overlapping occurrence of `old` replaced by `new`,
leftmost first; an empty `old` puts `new` before every character and at the end. The condition
of the first branch is used only by the termination argument, which the unused-variable linter
does not see. -/
def replaceAll (old new : List Char) : List Char → List Char
  | [] => if old = [] then new else []
  | c :: cs =>
    if h : old ≠ [] ∧ old.isPrefixOf (c :: cs) = true then
      new ++ replaceAll old new ((c :: cs).drop old.length)
    else if old = [] then new ++ c :: replaceAll old new cs
    else c :: replaceAll old new cs
termination_by s => s.length
decreasing_by
  · have := List.length_pos_iff.mpr h.1
    simp only [List.length_drop, List.length_cons]
    omega
  all_goals
    simp only [List.length_cons]
    omega

set_option linter.unusedVariables false in
/-- `replaceAll` written out behind `acc` as the scan goes: an occurrence of `old` appends `new`,
any other character itself. The text grows in place, so a long result is never held as a list
of characters. -/
def replaceInto (old : List Char) (new : String) : List Char → String → String
  | [], acc => if old = [] then acc ++ new else acc
  | c :: cs, acc =>
    if h : old ≠ [] ∧ old.isPrefixOf (c :: cs) = true then
      replaceInto old new ((c :: cs).drop old.length) (acc ++ new)
    else if old = [] then replaceInto old new cs ((acc ++ new).push c)
    else replaceInto old new cs (acc.push c)
termination_by cs => cs.length
decreasing_by
  · have := List.length_pos_iff.mpr h.1
    simp only [List.length_drop, List.length_cons]
    omega
  all_goals
    simp only [List.length_cons]
    omega

/-- `s` with every non-overlapping occurrence of `old` replaced by `new`, leftmost first. -/
def replace (s old new : String) : String :=
  replaceInto old.toList new s.toList ""

/-- Writing behind `acc` appends the characters that `replaceAll` gives. -/
theorem replaceInto_eq (old : List Char) (new : String) (cs : List Char) (acc : String) :
    replaceInto old new cs acc = acc ++ String.ofList (replaceAll old new.toList cs) := by
  fun_induction replaceInto old new cs acc with
  | case1 acc empty => simp [replaceAll, empty]
  | case2 acc nonEmpty => simp [replaceAll, nonEmpty]
  | case3 c cs acc found ih =>
    rw [ih, replaceAll, dif_pos found]
    simp [String.append_assoc]
  | case4 c cs acc notFound empty ih =>
    rw [ih, replaceAll, dif_neg notFound, if_pos empty, String.ofList_append, String.ofList_cons,
      ← String.append_singleton, String.append_assoc, String.append_assoc, String.ofList_toList]
  | case5 c cs acc notFound nonEmpty ih =>
    rw [ih, replaceAll, dif_neg notFound, if_neg nonEmpty, ← String.append_singleton,
      String.ofList_cons, String.append_assoc]

/-- The text of `replace` is the list of characters that `replaceAll` gives. -/
theorem replace_eq (s old new : String) :
    replace s old new = String.ofList (replaceAll old.toList new.toList s.toList) := by
  simp [replace, replaceInto_eq]

/-- Text in which `old` does not occur is left as it is. -/
theorem replaceAll_of_not_infix (old new s : List Char) (absent : ¬ old <:+: s) :
    replaceAll old new s = s := by
  -- the empty `old` occurs in every text
  have nonEmpty : old ≠ [] := fun empty => absent (empty ▸ List.nil_infix)
  induction s with
  | nil => simp [replaceAll, nonEmpty]
  | cons c cs ih =>
    have notAtHead : ¬ (old ≠ [] ∧ old.isPrefixOf (c :: cs) = true) := by
      rintro ⟨_, prefixed⟩
      exact absent (List.isPrefixOf_iff_prefix.mp prefixed).isInfix
    have notBehind : ¬ old <:+: cs := fun inner =>
      absent (inner.trans (List.suffix_cons c cs).isInfix)
    rw [replaceAll, dif_neg notAtHead, if_neg nonEmpty, ih notBehind]

/-- A text in which `old` does not occur is left as it is. -/
theorem replace_of_not_infix {s old : String} (new : String) (absent : ¬ old.toList <:+: s.toList) :
    replace s old new = s := by
  rw [replace_eq, replaceAll_of_not_infix _ _ _ absent, String.ofList_toList]

example : replace "aaa" "aa" "b" = "ba" := by decide +kernel
example : replace "com.foo.Bar" "com.foo" "org.bar" = "org.bar.Bar" := by decide +kernel
example : replace "ab" "" "x" = "xaxbx" := by decide +kernel

end Text

end PickleShading
