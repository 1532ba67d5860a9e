import PickleShading.Proofs.BuiltTables

/-!
# What a rename changes

A rename of `old` to `new` that succeeds changes a table in two ways only. Every link whose path
is `old` is repointed to fresh entries appended behind the table, `2 * k - 1` of them for a
`new` of `k` dotted components; and every name that a string literal holds has `old` replaced
by `new` in its text, once, however many literals hold it. Every other entry stays where it
was, as it was.

The literal pass runs after the graph pass, on the grown table, and a literal's reference past
the old end may land on a fresh name; but below the old size the names that string literals
hold are the same before and after the graph pass (`Moved.mem_literalNames_iff`), since the
fresh entries are names and links and no raw literal or wrapper among them.

Main statement (`Table.rename_frame`, with `Table.RenameFrame`), for a table whose index lists
are right, as every built table's are (`Built.indexed`).
-/

namespace PickleShading

namespace LiteralKind

/-- The entry code of string literals is the only code read as one. -/
theorem ofCode?_eq_string {c : UInt8} : ofCode? c = some .string ↔ c = string.code := by
  constructor
  · intro found
    have codeMatches := List.find?_some found
    simpa [code] using (beq_iff_eq.mp codeMatches).symm
  · rintro rfl
    rfl

end LiteralKind

namespace Table

variable {t s : Table}

/-- The entry at `n` is a name that a string literal holds: a constant wrapper of the table
wraps a raw entry of the string literal code whose payload starts with a complete framed
reference to `n`. -/
def HeldByString (t : Table) (n : Nat) : Prop :=
  ∃ c r payload bytes, t.get? c = some (.constant r payload) ∧
    t.get? r = some (.raw LiteralKind.string.code bytes) ∧
    Cursor.leadingVarint? bytes = some n ∧ ∃ k text, t.get? n = some (.name k text)

/-- With a right constant list, the names that the literal pass edits are the names held by
string literals. -/
theorem mem_literalNames_iff (constants : t.constants = t.indicesWhere Entry.isConstant)
    {n : Nat} : n ∈ t.literalNames ↔ t.HeldByString n := by
  simp only [literalNames, List.mem_filterMap, constants, mem_indicesWhere, wrappedName?_eq_some,
    literalName?_eq_some, LiteralKind.ofCode?_eq_string]
  constructor
  · rintro ⟨c, -, r, payload, atC, _, bytes, atR, rfl, leading, named⟩
    exact ⟨c, r, payload, bytes, atC, atR, leading, named⟩
  · rintro ⟨c, r, payload, bytes, atC, atR, leading, named⟩
    exact ⟨c, by simp [atC, Entry.isConstant], r, payload, atC, _, bytes, atR, rfl, leading,
      named⟩

/-- Repointing `ms` adds `2 * k - 1` entries for each, for a path of `k` components. -/
theorem size_repointAll {parts : List String} (nonEmpty : parts ≠ []) :
    ∀ (s : Table) (ms : List Nat),
      (s.repointAll parts ms).size = s.size + ms.length * (2 * parts.length - 1)
  | s, [] => by simp
  | s, m :: ms => by
    have grown : 1 + 2 * parts.dropLast.length = 2 * parts.length - 1 := by
      have := List.length_pos_iff.mpr nonEmpty
      simp only [List.length_dropLast]
      omega
    rw [repointAll_cons, size_repointAll nonEmpty, size_repointed, List.length_cons,
      Nat.add_mul, Nat.one_mul]
    generalize ms.length * (2 * parts.length - 1) = others
    omega

/-- A rename that moves `count` links appends `2 * k - 1` entries for each, for a `new` of `k`
dotted components. -/
theorem size_rename {old new : String} {count : Nat} {t' : Table}
    (renamed : rename old new t = .ok count t') :
    t'.size = t.size + count * (2 * (Namespace.split new).length - 1) := by
  obtain ⟨matched, -, rfl, rfl⟩ := rename_eq_ok renamed
  rw [size_editLiterals, size_repointAll (split_ne_nil new)]

section Moved

variable {parts : List String} {done : List Nat}

/-- Below `t`'s size a literal holds the same name before and after repointing: the fresh
entries are no raw literals. -/
theorem Moved.literalName?_eq_some_iff (moved : t.Moved parts done s)
    (links : ∀ m ∈ done, (t.link? m).isSome) {r n : Nat} (inside : n < t.size) :
    s.literalName? r = some n ↔ t.literalName? r = some n := by
  simp only [literalName?_eq_some]
  constructor
  · rintro ⟨code, payload, atR, isString, leading, k, text, atN⟩
    exact ⟨code, payload, (moved.get?_eq_some_iff_of_kind links (by simp) (by simp)).mp atR, isString,
      leading, k, text, (moved.get?_eq_some_iff links inside (by simp)).mp atN⟩
  · rintro ⟨code, payload, atR, isString, leading, k, text, atN⟩
    exact ⟨code, payload, (moved.get?_eq_some_iff_of_kind links (by simp) (by simp)).mpr atR,
      isString, leading, k, text, (moved.get?_eq_some_iff links inside (by simp)).mpr atN⟩

/-- Below `t`'s size the names that string literals hold are the same after repointing. -/
theorem Moved.mem_literalNames_iff (moved : t.Moved parts done s)
    (links : ∀ m ∈ done, (t.link? m).isSome) {n : Nat} (inside : n < t.size) :
    n ∈ s.literalNames ↔ n ∈ t.literalNames := by
  simp only [literalNames, List.mem_filterMap, moved.constants, wrappedName?_eq_some,
    moved.literalName?_eq_some_iff links inside]
  constructor
  · rintro ⟨c, listed, r, payload, atC, literal⟩
    exact ⟨c, listed, r, payload, (moved.get?_eq_some_iff_of_kind links (by simp) (by simp)).mp atC,
      literal⟩
  · rintro ⟨c, listed, r, payload, atC, literal⟩
    exact ⟨c, listed, r, payload, (moved.get?_eq_some_iff_of_kind links (by simp) (by simp)).mpr atC,
      literal⟩

end Moved

/-- The link that repointing leaves at a moved link refers only to fresh entries, and has a
parent exactly when the path has more than one component. -/
theorem chainTop_fresh {parts : List String} (nonEmpty : parts ≠ []) (base : Nat) :
    base ≤ (chainTop parts base).nameRef ∧
      (∀ p, (chainTop parts base).parentRef = some p → base ≤ p) ∧
      ((chainTop parts base).parentRef = none ↔ parts.length = 1) := by
  have single : parts.dropLast = [] ↔ parts.length = 1 := by
    have := List.length_pos_iff.mpr nonEmpty
    rw [← List.length_eq_zero_iff, List.length_dropLast]
    omega
  refine ⟨Nat.le_refl _, fun p hasParent => ?_, ?_⟩
  · simp only [chainTop] at hasParent
    split at hasParent
    · cases hasParent
    · cases hasParent
      omega
  · simp only [chainTop]
    split <;> simp_all

/-- What a rename that moved `count` links of `t` from `old` to `new` leaves in `t'`. -/
structure RenameFrame (old new : String) (t : Table) (count : Nat) (t' : Table) : Prop where
  /-- The count is the number of entries whose path is `old`. -/
  count_eq : count =
    ((List.range t.size).filter fun i => (t.resolveAt i).toOption = some (some old)).length
  /-- Each moved link appends `2 * k - 1` entries, for a `new` of `k` dotted components. -/
  size_eq : t'.size = t.size + count * (2 * (Namespace.split new).length - 1)
  /-- A link with path `old` stays a link, now referring to appended entries only, with a
  parent exactly when `new` has more than one component. -/
  moved : ∀ i, i < t.size → t.resolveAt i = .ok (some old) →
    ∃ l l', t.get? i = some (.link l) ∧ t'.get? i = some (.link l') ∧
      t.size ≤ l'.nameRef ∧ (∀ p, l'.parentRef = some p → t.size ≤ p) ∧
      (l'.parentRef = none ↔ (Namespace.split new).length = 1)
  /-- A name that a string literal holds has `old` replaced by `new` in its text, once. -/
  edited : ∀ i k text, t.HeldByString i → t.get? i = some (.name k text) →
    t'.get? i = some (.name k (Text.replace text old new))
  /-- Every other entry stays where it was, as it was. -/
  kept : ∀ i, i < t.size → t.resolveAt i ≠ .ok (some old) → ¬ t.HeldByString i →
    t'.get? i = t.get? i
  /-- In particular raw entries and constant wrappers are never changed. -/
  unnamed_kept : ∀ i e, t.get? i = some e → e.isLink = false → (∀ k text, e ≠ .name k text) →
    t'.get? i = some e

/-- A rename that succeeds on a table with right index lists moves the links whose path is
`old` to fresh entries appended behind the table, edits the names that string literals hold,
and changes nothing else. -/
theorem rename_frame {old new : String} {t t' : Table} {count : Nat} (indexed : t.Indexed)
    (renamed : rename old new t = .ok count t') : RenameFrame old new t count t' := by
  have grown := size_rename renamed
  obtain ⟨matched, found, rfl, rfl⟩ := rename_eq_ok renamed
  have nonEmpty := split_ne_nil new
  have moved := moved_matching found (Namespace.split new)
  have links := isSome_link?_of_mem_matching found
  -- below the old size, the literal pass edits exactly the names that string literals hold
  have held : ∀ i, i < t.size →
      (i ∈ (t.repointAll (Namespace.split new) matched).literalNames ↔ t.HeldByString i) :=
    fun i inside => (moved.mem_literalNames_iff links inside).trans
      (mem_literalNames_iff indexed.constants)
  have unmoved : ∀ i, t.resolveAt i ≠ .ok (some old) → i ∉ matched :=
    fun i other mem => other (resolveAt_of_mem_matching found mem)
  have kept : ∀ i, i < t.size → t.resolveAt i ≠ .ok (some old) → ¬ t.HeldByString i →
      (t.repointAll (Namespace.split new) matched |>.editLiterals old new).get? i = t.get? i := by
    intro i inside other notHeld
    rw [get?_editLiterals, moved.kept i inside (unmoved i other)]
    simp [(held i inside).not.mpr notHeld]
  refine ⟨length_matching indexed found, grown, ?_, ?_, kept, ?_⟩
  · intro i inside path
    obtain ⟨l, atI⟩ := Option.isSome_iff_exists.mp (isSome_link?_of_resolveAt path)
    have mem : i ∈ matched :=
      (mem_matching_iff found).mpr ⟨indexed.mem_links_iff.mpr (by simp [atI]), path⟩
    obtain ⟨base, low, -, -, atTop⟩ := moved.chains i mem
    obtain ⟨nameFresh, parentFresh, single⟩ := chainTop_fresh nonEmpty base
    refine ⟨l, _, get?_of_link? atI, get?_of_link? ((link?_editLiterals old new i).trans atTop),
      by omega, fun p hasParent => by have := parentFresh p hasParent; omega, single⟩
  · intro i k text isHeld atI
    have inside := lt_size_of_get? atI
    have notMatched : i ∉ matched := unmoved i (by simp [resolveAt, link?, atI, pure, Except.pure])
    rw [get?_editLiterals, moved.kept i inside notMatched, atI]
    simp [(held i inside).mpr isHeld, replaceInName]
  · intro i e atI notLink unnamed
    have inside := lt_size_of_get? atI
    have noPath : t.resolveAt i ≠ .ok (some old) := by
      cases e <;> simp_all [resolveAt, link?, Entry.isLink, pure, Except.pure]
    have notHeld : ¬ t.HeldByString i := by
      rintro ⟨-, -, -, -, -, -, -, k, text, named⟩
      rw [atI] at named
      cases named
      exact unnamed k text rfl
    rw [kept i inside noPath notHeld, atI]

/-- The namespace `a` moved to `b.c` in a table whose string literal holds the name `xa`. -/
theorem rename_frame_literal :
    (⟨#[.name .term "a", .link ⟨0, none⟩, .name .term "xa", .raw 33 [2], .constant 3 [3]],
        [1], [4]⟩ : Table).Indexed ∧
      ∃ t', rename "a" "b.c" ⟨#[.name .term "a", .link ⟨0, none⟩, .name .term "xa",
        .raw 33 [2], .constant 3 [3]], [1], [4]⟩ = .ok 1 t' ∧
      RenameFrame "a" "b.c" ⟨#[.name .term "a", .link ⟨0, none⟩, .name .term "xa",
        .raw 33 [2], .constant 3 [3]], [1], [4]⟩ 1 t' :=
  ⟨⟨by decide, by decide⟩, _, rfl, rename_frame ⟨by decide, by decide⟩ rfl⟩

end Table

end PickleShading
