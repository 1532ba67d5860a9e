import PickleShading.Entry

/-!
# The entry table

A signature's entries, addressed by their position. Beside the entries the table keeps the
indices of its namespace links and of its constant wrappers, in table order, so that the passes
of a rename visit only those. The two lists are appended to by `Table.push` and by nothing else;
entries are only ever appended or, for a namespace link or a name, changed in place without
changing their kind, which is what keeps the lists true to the entries.

Writing the table gives the framed entry count followed by every entry written.
-/

namespace PickleShading

/-- The entries of a signature, in order. -/
structure Table where
  /-- The entries; an entry's index is its position here. -/
  entries : Array Entry
  /-- The indices of the entries pushed as namespace links, ascending. -/
  links : List Nat
  /-- The indices of the entries pushed as constant wrappers, ascending. -/
  constants : List Nat
deriving DecidableEq, Repr

namespace Table

/-- The table without entries. -/
def empty : Table := ⟨#[], [], []⟩

/-- The number of entries. -/
def size (t : Table) : Nat := t.entries.size

/-- The entry at index `i`, if there is one. -/
def get? (t : Table) (i : Nat) : Option Entry := t.entries[i]?

/-- Appends `e` and gives the index it was stored at, the old size. The index is also added to
the link list or the constant list when `e` is of that kind. -/
def push (t : Table) (e : Entry) : Table × Nat :=
  let index := t.size
  let links := if e.isLink then t.links ++ [index] else t.links
  let constants := if e.isConstant then t.constants ++ [index] else t.constants
  (⟨t.entries.push e, links, constants⟩, index)

@[simp]
theorem entries_push (t : Table) (e : Entry) : (t.push e).1.entries = t.entries.push e := rfl

@[simp]
theorem index_push (t : Table) (e : Entry) : (t.push e).2 = t.size := rfl

@[simp]
theorem size_push (t : Table) (e : Entry) : (t.push e).1.size = t.size + 1 := by
  simp [size]

/-- Pushing stores the entry at the old size and leaves every other index as it was. -/
theorem get?_push (t : Table) (e : Entry) (i : Nat) :
    (t.push e).1.get? i = if i = t.size then some e else t.get? i := by
  by_cases atEnd : i = t.size
  · simp [get?, size, atEnd]
  · simp only [size] at atEnd
    simp [get?, size, Array.getElem?_push, atEnd]

@[simp]
theorem links_push (t : Table) (e : Entry) :
    (t.push e).1.links = if e.isLink then t.links ++ [t.size] else t.links := rfl

@[simp]
theorem constants_push (t : Table) (e : Entry) :
    (t.push e).1.constants = if e.isConstant then t.constants ++ [t.size] else t.constants := rfl

/-- Appends the entry decoded from a code and payload, see `Entry.ofRaw`. -/
def addRaw (t : Table) (code : UInt8) (payload : List UInt8) : Table × Nat :=
  t.push (Entry.ofRaw code payload)

/-- The text at index `i` if that entry is a term name. Type names do not name namespace
components. -/
def termName? (t : Table) (i : Nat) : Option String :=
  match t.get? i with
  | some (.name .term text) => some text
  | _ => none

/-- The link at index `i`, if that entry is a namespace link. -/
def link? (t : Table) (i : Nat) : Option Link :=
  match t.get? i with
  | some (.link l) => some l
  | _ => none

/-- The entries written one after another; the first entry that cannot be written fails
the whole. -/
def writeEntries : List Entry → Except Error (List UInt8)
  | [] => pure []
  | e :: es => do
    let head ← e.write
    let tail ← writeEntries es
    pure (head ++ tail)

/-- The bytes of the table: the framed entry count, then the entries. -/
def write (t : Table) : Except Error (List UInt8) := do
  let n ← Varint.word t.size
  let body ← writeEntries t.entries.toList
  pure (Varint.encode n ++ body)

/-- One line per entry, each ended by a newline. -/
def display (t : Table) : String :=
  String.join (t.entries.toList.map fun e => e.display ++ "\n")

end Table

end PickleShading
