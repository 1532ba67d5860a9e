import PickleShading.Table.Resolve
import PickleShading.Text.Replace
import PickleShading.Namespace

/-!
# Renaming a namespace

`Table.rename old new` moves every namespace link whose path is exactly `old` to `new`:

* each such link gets its own fresh entries: a term name for the last component of `new`,
  then, outermost first, a name and a link for every other component, each link's parent being
  the link appended just before it (`Table.appendChain`); nothing is shared or reused;
* the link itself is repointed to the new name and innermost new link, so every entry that
  refers to it by index now lies in `new`;
* string literals that a constant wrapper refers to have `old` replaced by `new` in their
  name's text (`Table.editLiterals`).

The count of moved links is the result. A rename is a change of the table that may fail, and
like a read it keeps its state when it fails: the table is then as the failing step left it.
Every path of every link is computed before the first entry is changed, so the failures that
a rename meets (an empty `old` or `new`, a walk that does not end) leave the table untouched;
the failures that repointing itself could raise are never met.
-/

namespace PickleShading

/-- A change to a table that may fail. A failure keeps the table as it stood when the failure
was met. -/
abbrev TableM := EStateM Error Table

namespace Table

/-- Replaces the entry at `i`; an index outside the table changes nothing. The index lists are
kept as they are. -/
def setEntry (t : Table) (i : Nat) (e : Entry) : Table :=
  { t with entries := t.entries.setIfInBounds i e }

@[simp]
theorem size_setEntry (t : Table) (i : Nat) (e : Entry) : (t.setEntry i e).size = t.size := by
  simp [setEntry, size]

@[simp]
theorem links_setEntry (t : Table) (i : Nat) (e : Entry) : (t.setEntry i e).links = t.links := rfl

@[simp]
theorem constants_setEntry (t : Table) (i : Nat) (e : Entry) :
    (t.setEntry i e).constants = t.constants := rfl

/-- Replacing changes the entry at `i` when there is one, and no other. -/
theorem get?_setEntry (t : Table) (i j : Nat) (e : Entry) :
    (t.setEntry i e).get? j = if i = j ∧ i < t.size then some e else t.get? j := by
  simp only [setEntry, get?, size, Array.getElem?_setIfInBounds]
  by_cases same : i = j
  · subst same
    by_cases inside : i < t.entries.size
    · simp [inside]
    · simp [inside]
  · simp [same]

/-- Appends `e` and gives its index, see `Table.push`. -/
def append (e : Entry) : TableM Nat := fun t =>
  let (appended, index) := t.push e
  .ok index appended

/-- Appends a fresh chain of namespace components and gives the index of the innermost link.
The components are listed innermost first, as taking off the last component again and again
gives them: the chain of the enclosing components is appended first, then the term name
of the innermost one and a link to it whose parent is the link of the enclosing chain, none
when there is no enclosing component. An empty list has no chain and fails. -/
def appendChain : List String → TableM Nat
  | [] => throw (.invalidNamespace "")
  | last :: parents => do
    let parentRef ← if parents.isEmpty then pure none else some <$> appendChain parents
    let nameRef ← append (.name .term last)
    append (.link ⟨nameRef, parentRef⟩)

/-- Points the link at `i` to a fresh path `parts`: a term name for the last component, then a
chain for the others, then the link itself repointed to both. Fails when `parts` is empty, and
when the entry at `i` is not a namespace link, in which case the fresh entries stay. -/
def rewriteLink (parts : List String) (i : Nat) : TableM Unit := do
  match parts.reverse with
  | [] => throw (.invalidNamespace "")
  | last :: parents =>
    let nameRef ← append (.name .term last)
    let parentRef ← if parents.isEmpty then pure none else some <$> appendChain parents
    let t ← get
    match t.link? i with
    | some _ => set (t.setEntry i (.link ⟨nameRef, parentRef⟩))
    | none => throw (.notALink i)

/-- The links of the link list whose path is exactly `old`, in order; the first walk that
fails fails the whole. -/
def matching (t : Table) (old : String) : Except Error (List Nat) := do
  let paths ← t.namespaces
  pure ((paths.filter fun p => p.2 == old).map Prod.fst)

/-- The index of the name that the literal at `literalRef` holds, when that entry is a raw
string literal whose payload starts with a framed reference to a name entry, of a term or a
type. -/
def literalName? (t : Table) (literalRef : Nat) : Option Nat :=
  match t.get? literalRef with
  | some (.raw code payload) =>
    if LiteralKind.ofCode? code = some .string then
      match Cursor.leadingVarint? payload with
      | some n =>
        match t.get? n with
        | some (.name _ _) => some n
        | _ => none
      | none => none
    else none
  | _ => none

/-- The name held by the string literal that the entry at `c` wraps, if `c` is a constant
wrapper and its literal holds a name. -/
def wrappedName? (t : Table) (c : Nat) : Option Nat :=
  match t.get? c with
  | some (.constant r _) => t.literalName? r
  | _ => none

/-- The names held by string literals behind the constant wrappers of the constant list, in
the order of the wrappers; a name held by several literals appears once for each. -/
def literalNames (t : Table) : List Nat := t.constants.filterMap t.wrappedName?

/-- A name entry with `old` replaced by `new` in its text; other entries unchanged. -/
def replaceInName (old new : String) : Entry → Entry
  | .name k text => .name k (Text.replace text old new)
  | e => e

/-- Replaces `old` by `new` once in the text of every name that a string literal behind a
constant wrapper holds, however many literals hold it. -/
def editLiterals (t : Table) (old new : String) : Table :=
  let names := t.literalNames
  { t with
    entries := t.entries.mapIdx fun i e => if names.contains i then replaceInName old new e else e }

@[simp]
theorem size_editLiterals (t : Table) (old new : String) :
    (t.editLiterals old new).size = t.size := by
  simp [editLiterals, size]

@[simp]
theorem links_editLiterals (t : Table) (old new : String) :
    (t.editLiterals old new).links = t.links := rfl

@[simp]
theorem constants_editLiterals (t : Table) (old new : String) :
    (t.editLiterals old new).constants = t.constants := rfl

/-- Editing the literals changes only the names that string literals hold. -/
theorem get?_editLiterals (t : Table) (old new : String) (i : Nat) :
    (t.editLiterals old new).get? i =
      (t.get? i).map fun e => if t.literalNames.contains i then replaceInName old new e else e := by
  simp [editLiterals, get?]

/-- Moves every link whose path is `old` to `new`, then edits the string literals, and gives
how many links moved. -/
def rename (old new : String) : TableM Nat := do
  if old.isEmpty || new.isEmpty then throw (.invalidNamespace (old ++ " -> " ++ new))
  let matched ← match (← get).matching old with
    | .ok matched => pure matched
    | .error e => throw e
  let parts := Namespace.split new
  matched.forM (rewriteLink parts)
  modify fun t => t.editLiterals old new
  pure matched.length

end Table

end PickleShading
