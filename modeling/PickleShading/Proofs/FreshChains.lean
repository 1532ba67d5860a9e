import PickleShading.Proofs.MovedPaths

/-!
# The layout of a fresh chain

A rename gives every moved link a path of its own, made of fresh entries at the end of the
table. For components `c₀ … cₖ₋₁`, outermost first, the chain stores at `base + 2 * j` the term
name of `cⱼ` and right behind it a link to that name whose parent is the link stored just
before, none for the outermost (`Table.ChainFrom`, with the link `Table.chainLink`, both stated
with repointing). Walking from the link of `cⱼ` collects `c₀ … cⱼ` (`ChainFrom.walks`): the
chain refers only to itself, so its paths hold whatever the rest of the table is.

Main statement (`Table.fresh_chain_layout`): appending the chain of a non-empty list of
components, empty ones included, adds exactly two entries per component in that layout,
gives the index of the innermost link, and that link's path is the components joined by dots
(`Table.ChainAppended`). Repointing a link to the components of a text stores the name of the
last component first and the chain of the others behind it, repoints the link to both, and
leaves every other entry (`Table.LinkRewritten`); the link's path is then the text itself.
-/

namespace PickleShading

namespace Table

variable {s t : Table}

/-- Pushing the entries of a chain stores the chain behind the table's entries. -/
theorem chainFrom_pushAll (t : Table) (cs : List String) :
    (t.pushAll (chainEntries t.size none cs)).ChainFrom t.size cs := by
  intro j inside
  obtain ⟨name, link⟩ := getElem?_chainEntries t.size none cs j inside
  refine ⟨by rw [get?_pushAll_size_add, name], ?_⟩
  rw [Nat.add_assoc, get?_pushAll_size_add, link]
  rfl

/-- What appending the chain of `cs` to `t` leaves: two more entries per component, the old
entries where they were, the chain behind them, and the path of the innermost link the
components joined by dots. -/
structure ChainAppended (t : Table) (cs : List String) (t' : Table) : Prop where
  size_eq : t'.size = t.size + 2 * cs.length
  kept : ∀ j < t.size, t'.get? j = t.get? j
  laid : t'.ChainFrom t.size cs
  resolves : t'.resolveAt (t.size + 2 * cs.length - 1) = .ok (some (Namespace.join cs))

/-- The path of the innermost link of a chain is the whole chain. -/
theorem ChainFrom.resolveAt_innermost {base : Nat} {cs : List String} (chain : s.ChainFrom base cs)
    (nonEmpty : cs ≠ []) (fits : cs.length ≤ s.size) :
    s.resolveAt (base + 2 * cs.length - 1) = .ok (some (Namespace.join cs)) := by
  have inner : cs.length - 1 < cs.length := by
    have := List.length_pos_iff.mpr nonEmpty
    omega
  have walks := chain.walks _ inner
  have atInnermost := link?_of_get? (chain _ inner).2
  have innermost : base + 2 * (cs.length - 1) + 1 = base + 2 * cs.length - 1 := by omega
  rw [innermost] at atInnermost
  rw [Nat.sub_add_cancel (by omega), List.take_length] at walks
  exact resolveAt_of_walks atInnermost walks (by omega)

/-- Appending the chain of a non-empty list of components succeeds, gives the index of its
innermost link, and leaves what `ChainAppended` describes. -/
theorem appendChain_appended (t : Table) {cs : List String} (nonEmpty : cs ≠ []) :
    ∃ t', appendChain cs.reverse t = .ok (t.size + 2 * cs.length - 1) t' ∧
      ChainAppended t cs t' := by
  have appended := appendChain_eq cs.reverse t (by simpa using nonEmpty)
  rw [List.reverse_reverse, List.length_reverse] at appended
  refine ⟨_, appended, ?_⟩
  have laid := chainFrom_pushAll t cs
  refine ⟨by simp, fun j inside => get?_pushAll_of_lt _ inside, laid, ?_⟩
  exact laid.resolveAt_innermost nonEmpty (by simp; omega)

/-- What repointing the link at `i` to the components `parts` leaves: the term name of the
last component at the old end of the table, the chain of the other components behind it, the
link at `i` pointing at both, and every other old entry where it was. -/
structure LinkRewritten (t : Table) (i : Nat) (parts : List String) (t' : Table) : Prop where
  size_eq : t'.size = t.size + 2 * parts.length - 1
  kept : ∀ j < t.size, j ≠ i → t'.get? j = t.get? j
  last : t'.get? t.size = some (.name .term (parts.getLastD ""))
  laid : t'.ChainFrom (t.size + 1) parts.dropLast
  repointed : t'.link? i =
    some ⟨t.size, if parts.dropLast = [] then none else some (t.size + 2 * parts.dropLast.length)⟩

/-- Repointing a link to a non-empty list of components succeeds and leaves what
`LinkRewritten` describes, and the link's path is the components joined by dots. -/
theorem rewriteLink_rewritten {parts : List String} (nonEmpty : parts ≠ []) {i : Nat} {l : Link}
    (isLink : t.link? i = some l) :
    ∃ t', rewriteLink parts i t = .ok () t' ∧ LinkRewritten t i parts t' ∧
      t'.resolveAt i = .ok (some (Namespace.join parts)) := by
  have inside := lt_size_of_link? isLink
  have chain := chainAt_repointed parts inside
  have repointed := link?_repointed_self parts inside
  have onePart : 1 ≤ parts.length := List.length_pos_iff.mpr nonEmpty
  refine ⟨_, rewriteLink_eq nonEmpty isLink, ?_, ?_⟩
  · refine ⟨?_, fun j below other => get?_repointed_of_lt parts below other, chain.last,
      chain.chainFrom, repointed⟩
    simp only [size_repointed, List.length_dropLast]
    omega
  · -- the walk from the repointed link climbs its chain, at most one step per component
    refine resolveAt_of_walks repointed (chain.walks nonEmpty) ?_
    simp only [size_repointed, List.length_dropLast]
    omega

/-- Appending the chain of a non-empty list of components, empty ones included, adds two
entries per component behind the table, a term name and then a link to it whose parent is the
link before, gives the index of the innermost link, whose path is the components joined by
dots. Repointing a link to the components of a text stores the term name of the last one at
the old end of the table, then the chain of the others, and points the link at both; the
link's path is then the text. -/
theorem fresh_chain_layout (t : Table) :
    (∀ cs : List String, cs ≠ [] →
      ∃ t', appendChain cs.reverse t = .ok (t.size + 2 * cs.length - 1) t' ∧
        ChainAppended t cs t') ∧
    ∀ (new : String) (i : Nat) (l : Link), t.link? i = some l →
      ∃ t', rewriteLink (Namespace.split new) i t = .ok () t' ∧
        LinkRewritten t i (Namespace.split new) t' ∧ t'.resolveAt i = .ok (some new) := by
  refine ⟨fun cs nonEmpty => appendChain_appended t nonEmpty, ?_⟩
  intro new i l isLink
  obtain ⟨t', rewritten, laid, resolved⟩ := rewriteLink_rewritten (split_ne_nil new) isLink
  rw [Namespace.join_split] at resolved
  exact ⟨t', rewritten, laid, resolved⟩

/-- A link with an empty component in its new path, and a chain of three components. -/
theorem fresh_chain_layout_empty_part :
    (∃ t', appendChain ["y", "", "x"] ⟨#[.name .term "a", .link ⟨0, none⟩], [1], []⟩ = .ok 7 t' ∧
      ChainAppended ⟨#[.name .term "a", .link ⟨0, none⟩], [1], []⟩ ["x", "", "y"] t') ∧
    ∃ t', rewriteLink (Namespace.split "x..y") 1 ⟨#[.name .term "a", .link ⟨0, none⟩], [1], []⟩ =
      .ok () t' ∧ t'.resolveAt 1 = .ok (some "x..y") := by
  obtain ⟨appended, rewritten⟩ := fresh_chain_layout ⟨#[.name .term "a", .link ⟨0, none⟩], [1], []⟩
  obtain ⟨t', run, -, resolved⟩ := rewritten "x..y" 1 ⟨0, none⟩ rfl
  exact ⟨appended ["x", "", "y"] (by simp), t', run, resolved⟩

end Table

end PickleShading
