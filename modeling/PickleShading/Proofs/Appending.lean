import PickleShading.Table.Rename

/-!
# Tables grow by appending

A table only grows at its end: pushing keeps every entry already there and its index, and
replacing an entry in place keeps the table's size. The index lists beside the entries are
right when they hold exactly the indices of the namespace links and of the constant wrappers,
ascending (`Table.Indexed`). Pushing keeps them right, and so does replacing an entry by one of
the same kind; every table built from the empty one by these steps therefore has them right.
-/

namespace PickleShading

namespace Table

variable {t : Table}

/-- The table after pushing `es` in order. -/
def pushAll (t : Table) (es : List Entry) : Table := es.foldl (fun t e => (t.push e).1) t

@[simp]
theorem pushAll_nil (t : Table) : t.pushAll [] = t := rfl

@[simp]
theorem pushAll_cons (t : Table) (e : Entry) (es : List Entry) :
    t.pushAll (e :: es) = (t.push e).1.pushAll es := rfl

theorem pushAll_append (t : Table) (es fs : List Entry) :
    t.pushAll (es ++ fs) = (t.pushAll es).pushAll fs := by
  simp [pushAll, List.foldl_append]

/-- Pushing appends the entries, in order. -/
@[simp]
theorem entries_pushAll (t : Table) (es : List Entry) :
    (t.pushAll es).entries = t.entries ++ es.toArray := by
  induction es generalizing t with
  | nil => simp
  | cons e es ih => simp [ih]

@[simp]
theorem size_pushAll (t : Table) (es : List Entry) : (t.pushAll es).size = t.size + es.length := by
  simp [size]

/-- Pushing keeps every index already in the table. -/
theorem get?_pushAll_of_lt (es : List Entry) {i : Nat} (inside : i < t.size) :
    (t.pushAll es).get? i = t.get? i := by
  simp only [get?, entries_pushAll]
  rw [Array.getElem?_append_left inside]

/-- The pushed entries stand behind the old ones, in order. -/
theorem get?_pushAll_size_add (es : List Entry) (j : Nat) :
    (t.pushAll es).get? (t.size + j) = es[j]? := by
  simp only [get?, entries_pushAll, size]
  rw [Array.getElem?_append_right (by omega)]
  simp

/-- The indices of the entries that satisfy `p`, ascending. -/
def indicesWhere (t : Table) (p : Entry → Bool) : List Nat :=
  (List.range t.size).filter fun i => (t.get? i).any p

/-- The index lists agree with the entries: they hold exactly the indices of the namespace
links and of the constant wrappers, ascending. -/
structure Indexed (t : Table) : Prop where
  links : t.links = t.indicesWhere Entry.isLink
  constants : t.constants = t.indicesWhere Entry.isConstant

/-- Pushing adds the new index behind the others when the entry qualifies. -/
theorem indicesWhere_push (e : Entry) (p : Entry → Bool) :
    (t.push e).1.indicesWhere p = t.indicesWhere p ++ if p e then [t.size] else [] := by
  have below : ∀ i ∈ List.range t.size,
      ((t.push e).1.get? i).any p = (t.get? i).any p := by
    intro i mem
    rw [get?_push, if_neg (by simp at mem; omega)]
  simp only [indicesWhere, size_push, List.range_succ, List.filter_append,
    List.filter_congr below]
  by_cases qualifies : p e <;> simp [get?_push, qualifies]

theorem Indexed.empty : Table.empty.Indexed :=
  ⟨rfl, rfl⟩

theorem Indexed.push (indexed : t.Indexed) (e : Entry) : (t.push e).1.Indexed := by
  constructor
  · rw [links_push, indicesWhere_push, ← indexed.links]
    by_cases isLink : e.isLink <;> simp [isLink]
  · rw [constants_push, indicesWhere_push, ← indexed.constants]
    by_cases isConstant : e.isConstant <;> simp [isConstant]

theorem Indexed.pushAll (indexed : t.Indexed) (es : List Entry) : (t.pushAll es).Indexed := by
  induction es generalizing t with
  | nil => exact indexed
  | cons e es ih => exact ih (indexed.push e)

/-- Which indices satisfy `p` depends only on whether the entry at each index does. -/
theorem indicesWhere_congr {s : Table} (sameSize : s.size = t.size) {p : Entry → Bool}
    (same : ∀ j, (s.get? j).any p = (t.get? j).any p) : s.indicesWhere p = t.indicesWhere p := by
  simp only [indicesWhere, sameSize]
  exact List.filter_congr fun j _ => same j

/-- Replacing an entry by one of the same kind keeps the index lists right. -/
theorem Indexed.setEntry (indexed : t.Indexed) {i : Nat} {e : Entry}
    (sameKind : ∀ old, t.get? i = some old → e.isLink = old.isLink ∧
      e.isConstant = old.isConstant) :
    (t.setEntry i e).Indexed := by
  have same : ∀ p : Entry → Bool, (p = Entry.isLink ∨ p = Entry.isConstant) →
      (t.setEntry i e).indicesWhere p = t.indicesWhere p := by
    intro p kind
    apply indicesWhere_congr (size_setEntry t i e)
    intro j
    rw [get?_setEntry]
    by_cases replaced : i = j ∧ i < t.size
    · rw [if_pos replaced]
      obtain ⟨rfl, inside⟩ := replaced
      obtain ⟨old, found⟩ : ∃ old, t.get? i = some old := by
        simp only [get?, size] at inside ⊢
        exact ⟨_, Array.getElem?_eq_getElem inside⟩
      obtain ⟨sameLink, sameConstant⟩ := sameKind old found
      rcases kind with rfl | rfl <;> simp [found, sameLink, sameConstant]
    · rw [if_neg replaced]
  exact ⟨by rw [links_setEntry, indexed.links, same _ (.inl rfl)],
    by rw [constants_setEntry, indexed.constants, same _ (.inr rfl)]⟩

theorem lt_size_of_get? {j : Nat} {e : Entry} (found : t.get? j = some e) : j < t.size := by
  simp only [get?, size] at found ⊢
  exact (Array.getElem?_eq_some_iff.mp found).1

/-- The indices that `indicesWhere` lists are those of the entries that pass the test. -/
theorem mem_indicesWhere {p : Entry → Bool} {i : Nat} :
    i ∈ t.indicesWhere p ↔ (t.get? i).any p := by
  simp only [indicesWhere, List.mem_filter, List.mem_range, and_iff_right_iff_imp]
  intro satisfies
  cases found : t.get? i with
  | none => simp [found] at satisfies
  | some e => exact lt_size_of_get? found

/-- With right index lists, the link list holds exactly the indices of the links. -/
theorem Indexed.mem_links_iff (indexed : t.Indexed) {j : Nat} : j ∈ t.links ↔ (t.link? j).isSome := by
  rw [indexed.links, mem_indicesWhere]
  unfold link?
  cases t.get? j with
  | none => rfl
  | some e => cases e <;> rfl

end Table

end PickleShading
