import PickleShading.Proofs.Appending
import PickleShading.Proofs.Walks
import PickleShading.Proofs.Reads

/-!
# Renaming is all-or-nothing

A rename first finds the links whose path is `old`, without changing anything, then repoints
them one after another, then edits the string literals. Repointing a link appends the fresh
entries of its new path at the end of the table (`Table.chainEntries`) and changes nothing but
the link itself (`Table.repointed`); it could fail only on an empty path or on an index that
holds no link, and neither is ever met: `Namespace.split` never gives the empty list, and the
found links stay links while the ones before them are repointed.

Main statement (`Table.rename_atomic`): a rename fails exactly when `old` or `new` is empty or
the walk of some link of the link list does not end, and a rename that fails leaves the table,
its index lists included, as it was.
-/

namespace PickleShading

namespace Table

variable {t : Table}

theorem append_apply (e : Entry) (t : Table) : append e t = .ok t.size (t.push e).1 := rfl

/-- The entries of a fresh chain for `parts`, outermost component first, the first stored at
`base`: each component's term name, then a link to that name whose parent is the link stored
just before it, `parent` for the first. -/
def chainEntries : Nat → Option Nat → List String → List Entry
  | _, _, [] => []
  | base, parent, part :: parts =>
    .name .term part :: .link ⟨base, parent⟩ :: chainEntries (base + 2) (some (base + 1)) parts

@[simp]
theorem length_chainEntries : ∀ (base : Nat) (parent : Option Nat) (parts : List String),
    (chainEntries base parent parts).length = 2 * parts.length
  | _, _, [] => rfl
  | base, parent, _ :: parts => by
    simp only [chainEntries, List.length_cons, length_chainEntries (base + 2) _ parts]
    omega

/-- The chain of `init ++ [last]` is the chain of `init`, then the name of `last` and a link to
it whose parent is the innermost link of `init`'s chain. -/
theorem chainEntries_append_singleton (last : String) :
    ∀ (init : List String) (base : Nat) (parent : Option Nat),
      chainEntries base parent (init ++ [last]) = chainEntries base parent init ++
        [.name .term last, .link ⟨base + 2 * init.length,
          if init = [] then parent else some (base + 2 * init.length - 1)⟩]
  | [], base, parent => by simp [chainEntries]
  | part :: init, base, parent => by
    rw [List.cons_append, chainEntries, chainEntries_append_singleton last init, chainEntries]
    have position : base + 2 + 2 * init.length = base + 2 * (init.length + 1) := by omega
    by_cases empty : init = []
    · subst empty
      simp
    · simp [empty, position]

/-- Appending a chain given innermost first stores its entries outermost first behind the
table's entries, and gives the index of its innermost link, the last entry appended. -/
theorem appendChain_eq : ∀ (inner : List String) (t : Table), inner ≠ [] →
    appendChain inner t =
      .ok (t.size + 2 * inner.length - 1) (t.pushAll (chainEntries t.size none inner.reverse))
  | [], _, nonEmpty => absurd rfl nonEmpty
  | [last], t, _ => by
    rw [appendChain]
    simp only [List.isEmpty_nil, ↓reduceIte]
    rw [bind_of_ok (show (pure none : TableM (Option Nat)) t = .ok none t from rfl),
      bind_of_ok (append_apply _ _), append_apply]
    simp [chainEntries]
  | last :: parent :: parents, t, _ => by
    have chained := appendChain_eq (parent :: parents) t (List.cons_ne_nil _ _)
    rw [appendChain]
    simp only [List.isEmpty_cons, Bool.false_eq_true, if_false]
    rw [bind_of_ok (map_of_ok chained), bind_of_ok (append_apply _ _), append_apply]
    have reversed : (last :: parent :: parents).reverse =
        (parent :: parents).reverse ++ [last] := List.reverse_cons
    rw [reversed, chainEntries_append_singleton, pushAll_append]
    simp only [pushAll_cons, pushAll_nil, size_pushAll, length_chainEntries, List.length_reverse,
      size_push, List.length_cons, List.reverse_eq_nil_iff, reduceCtorEq, if_false]
    have count : t.size + 2 * (parents.length + 1) + 1 =
        t.size + 2 * (parents.length + 1 + 1) - 1 := by omega
    rw [count]

/-- The table after the link at `i` is moved to the fresh path `parts`: the term name of the
last component, the chain of the others behind it, and the link at `i` repointed to both. -/
def repointed (t : Table) (parts : List String) (i : Nat) : Table :=
  let init := parts.dropLast
  ((t.push (.name .term (parts.getLastD ""))).1.pushAll
    (chainEntries (t.size + 1) none init)).setEntry i
      (.link ⟨t.size, if init = [] then none else some (t.size + 2 * init.length)⟩)

/-- A link lies inside the table. -/
theorem lt_size_of_link? {i : Nat} {l : Link} (isLink : t.link? i = some l) : i < t.size := by
  unfold link? get? at isLink
  rcases Nat.lt_or_ge i t.entries.size with inside | outside
  · exact inside
  · rw [Array.getElem?_eq_none outside] at isLink
    cases isLink

/-- Repointing a link to a non-empty path succeeds, and leaves what `Table.repointed`
describes. -/
theorem rewriteLink_eq {parts : List String} (nonEmpty : parts ≠ []) {i : Nat} {l : Link}
    (isLink : t.link? i = some l) : rewriteLink parts i t = .ok () (t.repointed parts i) := by
  obtain ⟨init, last, rfl⟩ := (List.eq_nil_or_concat parts).resolve_left nonEmpty
  rw [List.concat_eq_append]
  have inside := lt_size_of_link? isLink
  -- the fresh entries leave the link at `i` where it was
  have stillLink : ∀ es : List Entry,
      ((t.push (.name .term last)).1.pushAll es).link? i = some l := by
    intro es
    unfold link?
    rw [get?_pushAll_of_lt es (by simp; omega), get?_push, if_neg (by omega)]
    exact isLink
  unfold rewriteLink
  simp only [List.reverse_append, List.reverse_cons, List.reverse_nil, List.nil_append,
    List.singleton_append]
  rw [bind_of_ok (append_apply _ _)]
  by_cases empty : init = []
  · subst empty
    simp only [List.reverse_nil, List.isEmpty_nil, ↓reduceIte]
    rw [bind_of_ok (show (pure none : TableM (Option Nat)) _ = .ok none _ from rfl),
      bind_of_ok (show (get : TableM Table) _ = .ok _ _ from rfl)]
    have linked := stillLink []
    rw [pushAll_nil] at linked
    simp only [linked]
    simp [repointed, chainEntries]
    rfl
  · have chained := appendChain_eq init.reverse (t.push (.name .term last)).1
      (by simpa using empty)
    simp only [List.isEmpty_reverse, List.isEmpty_iff, empty, if_false]
    rw [bind_of_ok (map_of_ok chained),
      bind_of_ok (show (get : TableM Table) _ = .ok _ _ from rfl)]
    have linked := stillLink (chainEntries (t.size + 1) none init)
    simp only [List.reverse_reverse, size_push, List.length_reverse] at chained linked ⊢
    simp only [linked]
    have innermost : t.size + 1 + 2 * init.length - 1 = t.size + 2 * init.length := by omega
    simp [repointed, empty, innermost]
    rfl

/-- Repointing the link at `i` keeps every link a link. -/
theorem isSome_link?_repointed (parts : List String) {i j : Nat}
    (linkAtJ : (t.link? j).isSome) :
    ((t.repointed parts i).link? j).isSome := by
  obtain ⟨l, isLink⟩ := Option.isSome_iff_exists.mp linkAtJ
  have inside := lt_size_of_link? isLink
  unfold link? at isLink ⊢
  simp only [repointed, get?_setEntry]
  by_cases replaced : i = j ∧ i < ((t.push (.name .term (parts.getLastD ""))).1.pushAll
      (chainEntries (t.size + 1) none parts.dropLast)).size
  · rw [if_pos replaced]
    rfl
  · rw [if_neg replaced, get?_pushAll_of_lt _ (by simp; omega), get?_push, if_neg (by omega)]
    simp [isLink]

/-- The table after the links `ms` are repointed, one after another, to the path `parts`. -/
def repointAll (t : Table) (parts : List String) (ms : List Nat) : Table :=
  ms.foldl (fun s i => s.repointed parts i) t

@[simp]
theorem repointAll_nil (t : Table) (parts : List String) : t.repointAll parts [] = t := rfl

@[simp]
theorem repointAll_cons (t : Table) (parts : List String) (i : Nat) (ms : List Nat) :
    t.repointAll parts (i :: ms) = (t.repointed parts i).repointAll parts ms := rfl

/-- Repointing a list of links, one after another, never fails, and leaves the links
repointed in order. -/
theorem forM_rewriteLink_eq {parts : List String} (nonEmpty : parts ≠ []) :
    ∀ (matched : List Nat) (t : Table), (∀ i ∈ matched, (t.link? i).isSome) →
      matched.forM (rewriteLink parts) t =
        .ok () (t.repointAll parts matched)
  | [], _, _ => rfl
  | i :: matched, t, links => by
    obtain ⟨l, isLink⟩ := Option.isSome_iff_exists.mp (links i List.mem_cons_self)
    show (rewriteLink parts i >>= fun _ => matched.forM (rewriteLink parts)) t = _
    rw [bind_of_ok (rewriteLink_eq nonEmpty isLink)]
    exact forM_rewriteLink_eq nonEmpty matched _ fun j mem =>
      isSome_link?_repointed parts (links j (List.mem_cons_of_mem i mem))

/-- Splitting at dots gives at least one component. -/
theorem split_ne_nil (s : String) : Namespace.split s ≠ [] := by
  simp [Namespace.split]

/-- A path at an index belongs to a link. -/
theorem isSome_link?_of_resolveAt {i : Nat} {path : String}
    (resolved : t.resolveAt i = .ok (some path)) : (t.link? i).isSome := by
  obtain ⟨l, atI, -⟩ := resolve_of_resolveAt resolved (by simp)
  simp [atI]

/-- The paths of a list of links that does not fail hold no failing link. -/
theorem pathsOf_eq_ok : ∀ {is : List Nat} {paths : List (Nat × String)},
    t.pathsOf is = .ok paths → ∀ i ∈ is, ∀ e, t.resolveAt i ≠ .error e
  | [], _, _ => by simp
  | i :: is, paths, found => by
    simp only [pathsOf, bind, Except.bind] at found
    split at found
    · cases found
    · rename_i here hereOk
      split at found
      · cases found
      · rename_i rest restOk
        intro j mem e failed
        rcases List.mem_cons.mp mem with rfl | mem
        · rw [hereOk] at failed
          cases failed
        · exact pathsOf_eq_ok restOk j mem e failed

/-- Keeping the links whose path is `old` among the paths of a list of links. -/
theorem filter_filterMap_paths (old : String) : ∀ is : List Nat,
    ((is.filterMap fun i => (t.resolveAt i).toOption.join.map (i, ·)).filter
        fun p => p.2 == old).map Prod.fst =
      is.filter fun i => (t.resolveAt i).toOption = some (some old)
  | [] => rfl
  | i :: is => by
    have rest := filter_filterMap_paths old is
    -- only the head's path is looked at; the tail is the induction hypothesis
    cases here : t.resolveAt i with
    | error e =>
      have noPath : (t.resolveAt i).toOption = none := by rw [here]; rfl
      simp [noPath, rest]
    | ok path =>
      have hasPath : (t.resolveAt i).toOption = some path := by rw [here]; rfl
      cases path with
      | none => simp [hasPath, rest]
      | some path =>
        by_cases same : path = old
        · subst same
          simp [hasPath, rest]
        · simp [hasPath, rest, same]

/-- Finding the links whose path is `old` fails exactly when a link of the link list fails,
and otherwise gives the listed links whose path is `old`, in order. -/
theorem matching_eq_error {old : String} {e : Error} (failed : t.matching old = .error e) :
    ∃ i ∈ t.links, t.resolveAt i = .error e := by
  simp only [matching, namespaces, bind, Except.bind] at failed
  split at failed
  · rename_i e' pathsFailed
    cases failed
    exact pathsOf_eq_error pathsFailed
  · cases failed

theorem matching_eq_ok (old : String) (noFailure : ∀ i ∈ t.links, ∀ e, t.resolveAt i ≠ .error e) :
    t.matching old = .ok (t.links.filter fun i => (t.resolveAt i).toOption = some (some old)) := by
  simp only [matching, namespaces, pathsOf_eq_filterMap noFailure, bind, Except.bind, pure,
    Except.pure]
  rw [filter_filterMap_paths]

/-- A search that succeeds met no failing walk. -/
theorem noFailure_of_matching_eq_ok {old : String} {matched : List Nat}
    (found : t.matching old = .ok matched) : ∀ i ∈ t.links, ∀ e, t.resolveAt i ≠ .error e := by
  simp only [matching, namespaces, bind, Except.bind] at found
  split at found
  · cases found
  · rename_i paths pathsFound
    exact pathsOf_eq_ok pathsFound

/-- The links a search finds have the path `old`. -/
theorem resolveAt_of_mem_matching {old : String} {matched : List Nat}
    (found : t.matching old = .ok matched) {i : Nat} (mem : i ∈ matched) :
    t.resolveAt i = .ok (some old) := by
  rw [matching_eq_ok old (noFailure_of_matching_eq_ok found)] at found
  cases found
  have kept := (List.mem_filter.mp mem).2
  cases resolved : t.resolveAt i <;> simp_all [Except.toOption]

/-- A rename with an empty side fails at once and leaves the table. -/
theorem rename_of_blank {old new : String} (blank : (old.isEmpty || new.isEmpty) = true) :
    rename old new t = .error (.invalidNamespace (old ++ " -> " ++ new)) t := by
  unfold rename
  simp only [blank, if_true]
  rfl

/-- A rename whose search for `old` fails leaves the table. -/
theorem rename_of_matching_error {old new : String} {e : Error}
    (filled : (old.isEmpty || new.isEmpty) = false) (failed : t.matching old = .error e) :
    rename old new t = .error e t := by
  unfold rename
  simp only [filled, Bool.false_eq_true, if_false]
  rw [bind_of_ok (show (get : TableM Table) t = .ok t t from rfl), failed]
  rfl

/-- A rename whose search for `old` succeeds repoints the found links in order, then edits
the literals, and counts the found links. -/
theorem rename_of_matching_ok {old new : String} {matched : List Nat}
    (filled : (old.isEmpty || new.isEmpty) = false) (found : t.matching old = .ok matched)
    (links : ∀ i ∈ matched, (t.link? i).isSome) :
    rename old new t = .ok matched.length
      ((t.repointAll (Namespace.split new) matched).editLiterals old new) := by
  unfold rename
  simp only [filled, Bool.false_eq_true, if_false]
  rw [bind_of_ok (show (get : TableM Table) t = .ok t t from rfl), found]
  show (matched.forM (rewriteLink (Namespace.split new)) >>= fun _ => _) t = _
  rw [bind_of_ok (forM_rewriteLink_eq (split_ne_nil new) matched t links)]
  rfl

/-- A rename that succeeds found its links, repointed them and edited the literals. -/
theorem rename_eq_ok {old new : String} {count : Nat} {t' : Table}
    (renamed : rename old new t = .ok count t') :
    ∃ matched, t.matching old = .ok matched ∧ count = matched.length ∧
      t' = (t.repointAll (Namespace.split new) matched).editLiterals old new := by
  by_cases blank : (old.isEmpty || new.isEmpty) = true
  · rw [rename_of_blank blank] at renamed
    cases renamed
  have filled : (old.isEmpty || new.isEmpty) = false := by simpa using blank
  cases found : t.matching old with
  | error e =>
    rw [rename_of_matching_error filled found] at renamed
    cases renamed
  | ok matched =>
    rw [rename_of_matching_ok filled found fun i mem =>
      isSome_link?_of_resolveAt (resolveAt_of_mem_matching found mem)] at renamed
    cases renamed
    exact ⟨matched, rfl, rfl, rfl⟩

/-- A rename that fails leaves the table as it was. -/
theorem rename_eq_error {old new : String} {e : Error} {t' : Table}
    (failed : rename old new t = .error e t') : t' = t := by
  by_cases blank : (old.isEmpty || new.isEmpty) = true
  · rw [rename_of_blank blank] at failed
    cases failed
    rfl
  have filled : (old.isEmpty || new.isEmpty) = false := by simpa using blank
  cases found : t.matching old with
  | error e' =>
    rw [rename_of_matching_error filled found] at failed
    cases failed
    rfl
  | ok matched =>
    rw [rename_of_matching_ok filled found fun i mem =>
      isSome_link?_of_resolveAt (resolveAt_of_mem_matching found mem)] at failed
    cases failed

/-- A rename fails exactly when `old` or `new` is empty, or when the walk of some link of the
link list does not end within the table's size; it fails then with the empty-namespace
failure naming both sides, or with the failure of that walk. Either way the table is left as
it was, entries and index lists alike: the failures that repointing itself could raise are
never met. -/
theorem rename_atomic (old new : String) (t : Table) :
    ((∃ e t', rename old new t = .error e t') ↔
      (old = "" ∨ new = "" ∨ ∃ i ∈ t.links, ∃ p, t.resolveAt i = .error (.cyclicReference p))) ∧
    ∀ e t', rename old new t = .error e t' → t' = t ∧
      ((old = "" ∨ new = "") ∧ e = .invalidNamespace (old ++ " -> " ++ new) ∨
        (∃ i ∈ t.links, t.resolveAt i = .error e) ∧ ∃ p, e = .cyclicReference p) := by
  by_cases blank : (old.isEmpty || new.isEmpty) = true
  · have blankSide : old = "" ∨ new = "" := by simpa using blank
    have failed := rename_of_blank (t := t) blank
    refine ⟨⟨fun _ => blankSide.elim .inl (.inr ∘ .inl), fun _ => ⟨_, _, failed⟩⟩, ?_⟩
    intro e t' failed'
    rw [failed] at failed'
    cases failed'
    exact ⟨rfl, .inl ⟨blankSide, rfl⟩⟩
  have filled : (old.isEmpty || new.isEmpty) = false := by simpa using blank
  cases found : t.matching old with
  | error e =>
    -- the search fails on a walk that does not end, before anything changed
    have failed := rename_of_matching_error filled found
    obtain ⟨i, mem, walkFailed⟩ := matching_eq_error found
    obtain ⟨p, rfl⟩ := resolveAt_eq_error walkFailed
    refine ⟨⟨fun _ => .inr (.inr ⟨i, mem, p, walkFailed⟩), fun _ => ⟨_, _, failed⟩⟩, ?_⟩
    intro e' t' failed'
    rw [failed] at failed'
    cases failed'
    exact ⟨rfl, .inr ⟨⟨i, mem, walkFailed⟩, p, rfl⟩⟩
  | ok matched =>
    -- the search succeeds, and then the repointing and the literal pass cannot fail
    have noFailure := noFailure_of_matching_eq_ok found
    have moved := rename_of_matching_ok filled found fun i mem =>
      isSome_link?_of_resolveAt (resolveAt_of_mem_matching found mem)
    have never : ¬ ∃ e t', rename old new t = .error e t' := by
      rintro ⟨e, t', failed⟩
      rw [moved] at failed
      cases failed
    refine ⟨⟨fun failed => absurd failed never, ?_⟩,
      fun e t' failed => absurd ⟨e, t', failed⟩ never⟩
    rintro (rfl | rfl | ⟨i, mem, p, walkFailed⟩)
    · simp at filled
    · simp at filled
    · exact absurd walkFailed (noFailure i mem _)

end Table

end PickleShading
