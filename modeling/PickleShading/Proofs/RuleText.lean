import Mathlib
import PickleShading.Rule

/-!
# Rules as text

A rule is made from two namespaces, each non-empty with no empty component, the source judged
first (`RenameRule.make`). Read from text it is split at the first `=` and both sides are
trimmed of white space (`RenameRule.parse`); it prints as `source=target`.

Printing and reading back gives the rule again only when reading back undoes printing: the
first `=` of the printed text must be the one printing put there, so the source holds no `=`,
and trimming must keep both sides, so neither starts or ends with white space
(`Text.Unpadded`). A rule made from ` a` and `b` prints as ` a=b` and reads back as `a=b`; a
rule made from `a=b` and `c` prints as `a=b=c` and reads back with the source `a`
(`RenameRule.reparse_changes_rule`).

Main statement (`RenameRule.rule_text_laws`, with `RenameRule.TextLaws`).
-/

namespace PickleShading

namespace Text

/-- `s` neither starts nor ends with white space. -/
def Unpadded (s : String) : Prop :=
  (∀ c ∈ s.toList.head?, isBlank c = false) ∧ ∀ c ∈ s.toList.getLast?, isBlank c = false

theorem toList_trimBlank (s : String) :
    (trimBlank s).toList = ((s.toList.dropWhile isBlank).reverse.dropWhile isBlank).reverse := by
  simp [trimBlank]

/-- Trimming never makes a text longer. -/
theorem length_trimBlank_le (s : String) : (trimBlank s).length ≤ s.length := by
  rw [← String.length_toList, ← String.length_toList, toList_trimBlank, List.length_reverse]
  calc _ ≤ (s.toList.dropWhile isBlank).reverse.length := List.length_dropWhile_le _ _
    _ ≤ s.toList.length := by simpa using List.length_dropWhile_le _ _

/-- Dropping white space from the front of a list drops nothing exactly when it does not start
with white space. -/
theorem dropWhile_isBlank_eq_self_iff (l : List Char) :
    l.dropWhile isBlank = l ↔ ∀ c ∈ l.head?, isBlank c = false := by
  cases l with
  | nil => simp
  | cons c rest =>
    by_cases blank : isBlank c = true
    · -- the first character goes, so the list gets shorter
      have shorter := List.length_dropWhile_le isBlank rest
      have dropped : rest.dropWhile isBlank ≠ c :: rest := by
        intro same
        have lengths := congrArg List.length same
        simp only [List.length_cons] at lengths
        omega
      simp [dropped, blank]
    · simp [blank]

/-- Trimming keeps a text exactly when it neither starts nor ends with white space. -/
theorem trimBlank_eq_self_iff (s : String) : trimBlank s = s ↔ Unpadded s := by
  rw [← String.toList_inj, toList_trimBlank, Unpadded]
  set l := s.toList
  constructor
  · intro trimmed
    -- both drops keep the length, so neither drops anything
    have front := List.length_dropWhile_le isBlank l
    have back := List.length_dropWhile_le isBlank (l.dropWhile isBlank).reverse
    have lengths := congrArg List.length trimmed
    simp only [List.length_reverse] at lengths back
    have keptFront : l.dropWhile isBlank = l :=
      (List.dropWhile_suffix isBlank).eq_of_length (by omega)
    rw [keptFront] at trimmed
    have keptBack : l.reverse.dropWhile isBlank = l.reverse := List.reverse_eq_iff.mp trimmed
    refine ⟨(dropWhile_isBlank_eq_self_iff l).mp keptFront, ?_⟩
    simpa using (dropWhile_isBlank_eq_self_iff l.reverse).mp keptBack
  · rintro ⟨first, last⟩
    rw [(dropWhile_isBlank_eq_self_iff l).mpr first,
      (dropWhile_isBlank_eq_self_iff l.reverse).mpr (by simpa using last), List.reverse_reverse]

/-- A list that holds `c` splits at its first `c`. -/
theorem exists_split_first {c : Char} :
    ∀ {l : List Char}, c ∈ l → ∃ front back, l = front ++ c :: back ∧ c ∉ front
  | [], mem => absurd mem List.not_mem_nil
  | d :: rest, mem => by
    by_cases same : d = c
    · exact ⟨[], rest, by simp [same], List.not_mem_nil⟩
    · have later : c ∈ rest := (List.mem_cons.mp mem).resolve_left (Ne.symm same)
      obtain ⟨front, back, split, first⟩ := exists_split_first later
      exact ⟨d :: front, back, by simp [split], by simp [Ne.symm same, first]⟩

end Text

namespace Namespace

/-- `s` is a namespace: not empty, and none of its dot-separated components empty. -/
def WellFormed (s : String) : Prop := s ≠ "" ∧ ∀ part ∈ split s, part ≠ ""

theorem valid_iff_wellFormed (s : String) : valid s = true ↔ WellFormed s := by
  simp [valid, WellFormed]

end Namespace

namespace RenameRule

open Namespace

theorem checkNamespace_of_wellFormed {s : String} (wellFormed : WellFormed s) :
    checkNamespace s = .ok s := by
  simp [checkNamespace, (valid_iff_wellFormed s).mpr wellFormed, pure, Except.pure]

theorem checkNamespace_of_not_wellFormed {s : String} (malformed : ¬ WellFormed s) :
    checkNamespace s = .error (.invalidNamespace s) := by
  have invalid : valid s = false := by
    simpa [← valid_iff_wellFormed] using malformed
  simp [checkNamespace, invalid, throw, throwThe, MonadExceptOf.throw]

/-- A rule is made exactly from two namespaces, and holds them as they were given. -/
theorem make_eq_ok_iff {source target : String} {r : RenameRule} :
    make source target = .ok r ↔
      WellFormed source ∧ WellFormed target ∧ r = ⟨source, target⟩ := by
  by_cases sourceOk : WellFormed source
  · by_cases targetOk : WellFormed target
    · simp [make, checkNamespace_of_wellFormed sourceOk, checkNamespace_of_wellFormed targetOk,
        sourceOk, targetOk, bind, Except.bind, pure, Except.pure, eq_comm]
    · simp [make, checkNamespace_of_wellFormed sourceOk,
        checkNamespace_of_not_wellFormed targetOk, targetOk, bind, Except.bind]
  · simp [make, checkNamespace_of_not_wellFormed sourceOk, sourceOk, bind, Except.bind]

/-- A source that is no namespace is refused by name, whatever the target. -/
theorem make_of_source_malformed {source : String} (target : String)
    (malformed : ¬ WellFormed source) :
    make source target = .error (.invalidNamespace source) := by
  simp [make, checkNamespace_of_not_wellFormed malformed, bind, Except.bind]

/-- A target that is no namespace, after a source that is one, is refused by name. -/
theorem make_of_target_malformed {source target : String} (wellFormed : WellFormed source)
    (malformed : ¬ WellFormed target) :
    make source target = .error (.invalidNamespace target) := by
  simp [make, checkNamespace_of_wellFormed wellFormed, checkNamespace_of_not_wellFormed malformed,
    bind, Except.bind]

/-- Text with an `=` is read as the rule of its two sides around the first `=`, trimmed. -/
theorem parse_at_first_eq (before after : String) (noEq : '=' ∉ before.toList) :
    parse (before ++ "=" ++ after) = make (Text.trimBlank before) (Text.trimBlank after) := by
  have kept : ∀ c ∈ before.toList, decide (c ≠ '=') = true := by
    intro c mem
    simpa using fun same : c = '=' => noEq (same ▸ mem)
  have spanned : (before ++ "=" ++ after).toList.span (· ≠ '=') =
      (before.toList, '=' :: after.toList) := by
    simp only [String.toList_append, List.append_assoc]
    rw [List.span_eq_takeWhile_dropWhile, List.takeWhile_append_of_pos kept,
      List.dropWhile_append_of_pos kept]
    simp
  simp only [parse, spanned, String.ofList_toList]

/-- Text without `=` is refused as a whole. -/
theorem parse_without_eq {text : String} (noEq : '=' ∉ text.toList) :
    parse text = .error (.invalidNamespace text) := by
  have spanned : text.toList.span (· ≠ '=') = (text.toList, []) := by
    rw [List.span_eq_takeWhile_dropWhile]
    simpa using fun (c : Char) (mem : c ∈ text.toList) (same : c = '=') => noEq (same ▸ mem)
  simp only [parse, spanned]
  rfl

/-- A source that holds an `=` is cut at its first one when the printed rule is read back, so
the rule read has a shorter source. -/
theorem parse_display_of_eq {r r' : RenameRule} (hasEq : '=' ∈ r.source.toList)
    (reread : parse r.display = .ok r') : r'.source ≠ r.source := by
  obtain ⟨front, back, split, noEq⟩ := Text.exists_split_first hasEq
  have source : r.source = String.ofList front ++ "=" ++ String.ofList back := by
    rw [← String.toList_inj]
    simp [split]
  have printed :
      r.display = String.ofList front ++ "=" ++ (String.ofList back ++ "=" ++ r.target) := by
    rw [display, source]
    simp only [String.append_assoc]
  rw [printed, parse_at_first_eq _ _ (by simpa using noEq)] at reread
  obtain ⟨-, -, rfl⟩ := make_eq_ok_iff.mp reread
  intro same
  have shorter := Text.length_trimBlank_le (String.ofList front)
  have lengths := congrArg String.length same
  rw [source] at lengths
  have oneChar : "=".length = 1 := rfl
  simp only [String.length_append, String.length_ofList] at lengths shorter
  omega

/-- A rule made from two namespaces is read back from its printed form exactly when its source
holds no `=` and neither side starts or ends with white space. -/
theorem parse_display_iff {r : RenameRule} (accepted : make r.source r.target = .ok r) :
    parse r.display = .ok r ↔
      '=' ∉ r.source.toList ∧ Text.Unpadded r.source ∧ Text.Unpadded r.target := by
  constructor
  · intro reread
    have noEq : '=' ∉ r.source.toList := fun hasEq => parse_display_of_eq hasEq reread rfl
    rw [display, parse_at_first_eq _ _ noEq] at reread
    obtain ⟨-, -, same⟩ := make_eq_ok_iff.mp reread
    have sourceKept : Text.trimBlank r.source = r.source := (congrArg RenameRule.source same).symm
    have targetKept : Text.trimBlank r.target = r.target := (congrArg RenameRule.target same).symm
    exact ⟨noEq, (Text.trimBlank_eq_self_iff _).mp sourceKept,
      (Text.trimBlank_eq_self_iff _).mp targetKept⟩
  · rintro ⟨noEq, sourceUnpadded, targetUnpadded⟩
    rw [display, parse_at_first_eq _ _ noEq, (Text.trimBlank_eq_self_iff _).mpr sourceUnpadded,
      (Text.trimBlank_eq_self_iff _).mpr targetUnpadded, accepted]

/-- How rules are made, read and printed: made exactly from two namespaces, the source judged
first; read by splitting at the first `=` and trimming both sides; and read back from their
printed form exactly when the source holds no `=` and neither side starts or ends with white
space. -/
structure TextLaws : Prop where
  make_ok_iff : ∀ source target, (∃ r, make source target = .ok r) ↔
    WellFormed source ∧ WellFormed target
  make_keeps : ∀ source target r, make source target = .ok r → r = ⟨source, target⟩
  source_refused : ∀ source target, ¬ WellFormed source →
    make source target = .error (.invalidNamespace source)
  target_refused : ∀ source target, WellFormed source → ¬ WellFormed target →
    make source target = .error (.invalidNamespace target)
  parse_split : ∀ before after, '=' ∉ before.toList →
    parse (before ++ "=" ++ after) = make (Text.trimBlank before) (Text.trimBlank after)
  parse_refused : ∀ text, '=' ∉ text.toList → parse text = .error (.invalidNamespace text)
  reparse_iff : ∀ r : RenameRule, make r.source r.target = .ok r →
    (parse r.display = .ok r ↔
      '=' ∉ r.source.toList ∧ Text.Unpadded r.source ∧ Text.Unpadded r.target)

/-- Rules are made exactly from two namespaces, the source judged first and each refused by
name; text is read as the rule of its two sides around the first `=`, trimmed of white space,
and text without `=` is refused as a whole; and a rule is read back from its printed form
exactly when its source holds no `=` and neither side starts or ends with white space. -/
theorem rule_text_laws : TextLaws where
  make_ok_iff source target := by
    constructor
    · rintro ⟨r, made⟩
      obtain ⟨sourceOk, targetOk, -⟩ := make_eq_ok_iff.mp made
      exact ⟨sourceOk, targetOk⟩
    · rintro ⟨sourceOk, targetOk⟩
      exact ⟨⟨source, target⟩, make_eq_ok_iff.mpr ⟨sourceOk, targetOk, rfl⟩⟩
  make_keeps _ _ _ made := (make_eq_ok_iff.mp made).2.2
  source_refused source target malformed := make_of_source_malformed target malformed
  target_refused _ _ wellFormed malformed := make_of_target_malformed wellFormed malformed
  parse_split before after noEq := parse_at_first_eq before after noEq
  parse_refused _ noEq := parse_without_eq noEq
  reparse_iff _ accepted := parse_display_iff accepted

/-- A source that starts with white space, and a source that holds `=`, are accepted, and the
printed rule reads back as another rule. -/
theorem reparse_changes_rule :
    make " a" "b" = .ok ⟨" a", "b"⟩ ∧ parse (display ⟨" a", "b"⟩) = .ok ⟨"a", "b"⟩ ∧
      make "a=b" "c" = .ok ⟨"a=b", "c"⟩ ∧
      parse (display ⟨"a=b", "c"⟩) = .ok ⟨"a", "b=c"⟩ :=
  ⟨rfl, rfl, rfl, rfl⟩

end RenameRule

end PickleShading
