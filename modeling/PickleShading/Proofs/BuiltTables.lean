import PickleShading.Proofs.Reparsing

/-!
# The index lists of built tables

A table is built from the empty one by the table's own operations: pushing an entry, adding
one decoded from its code and payload, and renaming, where a rename that fails leaves the
table as the failure left it (`Table.Built`). Only pushing adds to the index lists, and every
other change keeps the kind of every entry, so the lists of a built table hold exactly the
indices of its namespace links and of its constant wrappers, increasing (`Built.indexed`).

The namespaces of a table and the links a rename matches are found through the link list, so
the lists decide what they see. Main statement (`Table.built_listsAgree`, with
`Table.ListsAgree`): on a built table the namespaces fail exactly when the walk of some
namespace link fails, and then with a cycle; otherwise they are every namespace link that has a
path, with that path, in increasing order of index. Raw entries, whatever their code, are
neither among them nor ever matched.
-/

namespace PickleShading

namespace Table

variable {t : Table}

/-- The tables that the table's operations build from the empty one. -/
inductive Built : Table → Prop
  /-- The empty table. -/
  | empty : Built Table.empty
  /-- A built table with an entry pushed. -/
  | push {t : Table} (e : Entry) : Built t → Built (t.push e).1
  /-- A built table with an entry added from its code and payload. -/
  | addRaw {t : Table} (code : UInt8) (payload : List UInt8) : Built t →
      Built (t.addRaw code payload).1
  /-- A built table after a rename that succeeded. -/
  | renamed {t t' : Table} {old new : String} {count : Nat} : Built t →
      rename old new t = .ok count t' → Built t'
  /-- A built table after a rename that failed, as the failure left it. -/
  | refused {t t' : Table} {old new : String} {e : Error} : Built t →
      rename old new t = .error e t' → Built t'

/-- The indices that `indicesWhere` lists increase strictly. -/
theorem indicesWhere_sorted (t : Table) (p : Entry → Bool) :
    (t.indicesWhere p).Pairwise (· < ·) :=
  List.pairwise_lt_range.filter _

/-- A rename that succeeds keeps the index lists right: the repointed links stay links, and
the literal pass changes only the text of names. -/
theorem Indexed.rename {old new : String} {count : Nat} {t' : Table} (indexed : t.Indexed)
    (renamed : rename old new t = .ok count t') : t'.Indexed := by
  obtain ⟨matched, found, -, rfl⟩ := rename_eq_ok renamed
  exact (indexed.repointAll _ matched (isSome_link?_of_mem_matching found)).editLiterals old new

/-- Every built table has right index lists. The induction is on how the table was built:
pushing keeps the lists right by `Indexed.push`, a rename by `Indexed.rename`, and a failed
rename changes nothing. -/
theorem Built.indexed (built : t.Built) : t.Indexed := by
  induction built with
  | empty => exact Indexed.empty
  | push e _ ih => exact ih.push e
  | addRaw code payload _ ih => exact ih.push _
  | renamed _ renamed ih => exact ih.rename renamed
  | refused _ failed ih =>
    rw [rename_eq_error failed]
    exact ih

/-- The namespaces fail only with a cycle, met by the walk of a namespace link. -/
theorem namespaces_eq_error {e : Error} (failed : t.namespaces = .error e) :
    (∃ p, e = .cyclicReference p) ∧ ∃ i l, t.link? i = some l ∧ t.resolve l = .error e := by
  obtain ⟨i, -, walkFailed⟩ := pathsOf_eq_error failed
  exact ⟨resolveAt_eq_error walkFailed, i, resolve_of_resolveAt walkFailed (by simp)⟩

/-- Every namespace found is a link with its path. -/
theorem resolve_of_mem_namespaces {paths : List (Nat × String)} (found : t.namespaces = .ok paths)
    {i : Nat} {path : String} (mem : (i, path) ∈ paths) :
    ∃ l, t.link? i = some l ∧ t.resolve l = .ok (some path) := by
  rw [namespaces, pathsOf_eq_filterMap (pathsOf_eq_ok found)] at found
  cases found
  obtain ⟨j, -, atJ⟩ := List.mem_filterMap.mp mem
  cases resolved : t.resolveAt j with
  | error e => simp [resolved, Except.toOption] at atJ
  | ok here =>
    obtain ⟨rfl, rfl⟩ : j = i ∧ here = some path := by
      cases here <;> simp_all [Except.toOption]
    exact resolve_of_resolveAt resolved (by simp)

section Indexed

variable (indexed : t.Indexed)
include indexed

/-- With right index lists, the namespaces fail exactly when the walk of some namespace link
fails. -/
theorem Indexed.namespaces_fail_iff :
    (∃ p, t.namespaces = .error (.cyclicReference p)) ↔
      ∃ i l e, t.link? i = some l ∧ t.resolve l = .error e := by
  constructor
  · rintro ⟨p, failed⟩
    obtain ⟨-, i, l, atI, walkFailed⟩ := namespaces_eq_error failed
    exact ⟨i, l, _, atI, walkFailed⟩
  · rintro ⟨i, l, e, atI, walkFailed⟩
    cases found : t.namespaces with
    | error e' =>
      obtain ⟨⟨p, rfl⟩, -⟩ := namespaces_eq_error found
      exact ⟨p, rfl⟩
    | ok paths =>
      -- the link is listed, and listed links do not fail when the namespaces are found
      have listed : i ∈ t.links := indexed.mem_links_iff.mpr (by simp [atI])
      exact absurd ((resolveAt_of_link? atI).trans walkFailed) (pathsOf_eq_ok found i listed e)

/-- With right index lists and no failing walk, the namespaces are every namespace link that
has a path, with that path, in increasing order of index. -/
theorem Indexed.namespaces_eq_ok (noFailure : ∀ i l e, t.link? i = some l → t.resolve l ≠ .error e) :
    ∃ paths, t.namespaces = .ok paths ∧ paths.Pairwise (fun a b => a.1 < b.1) ∧
      ∀ i path, (i, path) ∈ paths ↔ ∃ l, t.link? i = some l ∧ t.resolve l = .ok (some path) := by
  have listedOk : ∀ i ∈ t.links, ∀ e, t.resolveAt i ≠ .error e := by
    intro i _ e failed
    obtain ⟨l, atI, walkFailed⟩ := resolve_of_resolveAt failed (by simp)
    exact noFailure i l e atI walkFailed
  have found := pathsOf_eq_filterMap listedOk
  refine ⟨_, found, ?_, fun i path => ⟨resolve_of_mem_namespaces found, ?_⟩⟩
  · -- each found pair carries its own index, and the link list increases
    refine List.Pairwise.filterMap _ ?_ (indexed.links ▸ indicesWhere_sorted t Entry.isLink)
    intro a a' less b atA b' atA'
    obtain ⟨_, -, rfl⟩ := Option.map_eq_some_iff.mp atA
    obtain ⟨_, -, rfl⟩ := Option.map_eq_some_iff.mp atA'
    exact less
  · rintro ⟨l, atI, resolved⟩
    have listed : i ∈ t.links := indexed.mem_links_iff.mpr (by simp [atI])
    have resolvedAt : t.resolveAt i = .ok (some path) := (resolveAt_of_link? atI).trans resolved
    exact List.mem_filterMap.mpr ⟨i, listed, by simp [resolvedAt, Except.toOption]⟩

end Indexed

/-- A raw entry, whatever its code, is no namespace and is never matched by a rename. -/
theorem raw_unlisted {i : Nat} {code : UInt8} {payload : List UInt8}
    (atI : t.get? i = some (.raw code payload)) :
    (∀ paths, t.namespaces = .ok paths → ∀ path, (i, path) ∉ paths) ∧
      ∀ old matched, t.matching old = .ok matched → i ∉ matched := by
  have noLink : t.link? i = none := by simp [link?, atI]
  refine ⟨fun paths found path mem => ?_, fun old matched found mem => ?_⟩
  · obtain ⟨l, atI', -⟩ := resolve_of_mem_namespaces found mem
    rw [noLink] at atI'
    cases atI'
  · have isLink := isSome_link?_of_resolveAt (resolveAt_of_mem_matching found mem)
    rw [noLink] at isLink
    cases isLink

/-- What the index lists of a table promise: they hold exactly the indices of the namespace
links and of the constant wrappers, increasing; the namespaces found through them fail
exactly when some namespace link's walk fails, and otherwise are every namespace link with a
path, in increasing order; and no raw entry is a namespace or matched by a rename. -/
structure ListsAgree (t : Table) : Prop where
  links : t.links = t.indicesWhere Entry.isLink
  constants : t.constants = t.indicesWhere Entry.isConstant
  links_sorted : t.links.Pairwise (· < ·)
  constants_sorted : t.constants.Pairwise (· < ·)
  namespaces_fail : (∃ p, t.namespaces = .error (.cyclicReference p)) ↔
    ∃ i l e, t.link? i = some l ∧ t.resolve l = .error e
  namespaces_found : (∀ i l e, t.link? i = some l → t.resolve l ≠ .error e) →
    ∃ paths, t.namespaces = .ok paths ∧ paths.Pairwise (fun a b => a.1 < b.1) ∧
      ∀ i path, (i, path) ∈ paths ↔ ∃ l, t.link? i = some l ∧ t.resolve l = .ok (some path)
  raw_unlisted : ∀ i code payload, t.get? i = some (.raw code payload) →
    (∀ paths, t.namespaces = .ok paths → ∀ path, (i, path) ∉ paths) ∧
      ∀ old matched, t.matching old = .ok matched → i ∉ matched

/-- Every table built by pushing, adding decoded entries and renaming, renames that failed
included, has index lists that agree with its entries, and its namespaces are exactly its
namespace links with their paths. -/
theorem built_listsAgree (built : t.Built) : t.ListsAgree := by
  have indexed := built.indexed
  exact {
    links := indexed.links
    constants := indexed.constants
    links_sorted := indexed.links ▸ indicesWhere_sorted t _
    constants_sorted := indexed.constants ▸ indicesWhere_sorted t _
    namespaces_fail := indexed.namespaces_fail_iff
    namespaces_found := indexed.namespaces_eq_ok
    raw_unlisted := fun _ _ _ atI => raw_unlisted atI }

/-- A term name, a link to it, and a raw entry of the link code that is no canonical link,
with the namespace `a` then moved to `b`. -/
theorem built_listsAgree_renamed :
    Built ⟨#[.name .term "a", .link ⟨3, none⟩, .raw 10 [0x80, 0], .name .term "b"], [1], []⟩ ∧
      ListsAgree ⟨#[.name .term "a", .link ⟨3, none⟩, .raw 10 [0x80, 0], .name .term "b"],
        [1], []⟩ := by
  have added : (((Table.empty.push (.name .term "a")).1.addRaw 10 [0]).1.addRaw 10 [0x80, 0]).1 =
      ⟨#[.name .term "a", .link ⟨0, none⟩, .raw 10 [0x80, 0]], [1], []⟩ := by
    decide +kernel
  have renamed : rename "a" "b" ⟨#[.name .term "a", .link ⟨0, none⟩, .raw 10 [0x80, 0]], [1], []⟩ =
      .ok 1 ⟨#[.name .term "a", .link ⟨3, none⟩, .raw 10 [0x80, 0], .name .term "b"], [1], []⟩ :=
    rfl
  have built := Built.renamed
    (added ▸ .addRaw 10 [0x80, 0] (.addRaw 10 [0] (.push (.name .term "a") .empty))) renamed
  exact ⟨built, built_listsAgree built⟩

end Table

end PickleShading
