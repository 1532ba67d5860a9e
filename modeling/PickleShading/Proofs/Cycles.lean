import Mathlib
import PickleShading.Proofs.Repointing

/-!
# Cycle detection is exact

A walk along parent references stops with `Error.cyclicReference` once it has taken as many
parent steps as the table has entries, without remembering the links it passed. This module
shows that the budget neither cuts a walk that ends nor lets one that never ends through.

The walk moves from a link to the link at its parent reference, as long as the link has a term
name and the reference leads to a link (`Table.parentLink?`); `Table.climb t k l` is the link
it stands at after `k` steps. The walk is endless when it takes every number of steps
(`Table.Endless`), and it revisits a link when it stands at one link after two numbers of steps
(`Table.Revisits`). In a finite table the two are the same (`endless_iff_revisits`): a revisit
repeats the steps between, and more steps than there are links must meet one link twice.

A walk that ends takes at most as many steps as the table has entries (`Walks.le_size`): the
links it steps to are distinct, because a walk from a link has one length, and none of them is
the first link's name, a term name. So the budget follows every ending walk to its end, and an
endless walk is cut after exactly that many steps, at the parent reference of the link it
stands at (`walk_of_endless`).

Main statement: `Table.resolve_exact`.
-/

namespace PickleShading

namespace Table

variable {t : Table}

/-- The link the walk from `l` steps to: the link at its parent reference, when `l` has a term
name and the reference leads to a link. -/
def parentLink? (t : Table) (l : Link) : Option Link :=
  match t.termName? l.nameRef, l.parentRef with
  | some _, some p => t.link? p
  | _, _ => none

/-- The link the walk from `l` stands at after `k` parent steps, if it takes that many. -/
def climb (t : Table) : Nat → Link → Option Link
  | 0, l => some l
  | k + 1, l => (t.parentLink? l).bind (t.climb k)

/-- The walk from `l` never ends: it takes every number of parent steps. -/
def Endless (t : Table) (l : Link) : Prop := ∀ k, (t.climb k l).isSome

/-- The walk from `l` stands at one link after two different numbers of steps. -/
def Revisits (t : Table) (l : Link) : Prop :=
  ∃ i j x, i < j ∧ t.climb i l = some x ∧ t.climb j l = some x

theorem parentLink?_eq_some {l parent : Link} :
    t.parentLink? l = some parent ↔
      ∃ text p, t.termName? l.nameRef = some text ∧ l.parentRef = some p ∧ t.link? p = some parent := by
  unfold parentLink?
  cases t.termName? l.nameRef <;> cases l.parentRef <;> simp

@[simp]
theorem climb_zero (l : Link) : t.climb 0 l = some l := rfl

theorem climb_succ (k : Nat) (l : Link) : t.climb (k + 1) l = (t.parentLink? l).bind (t.climb k) := rfl

/-- One step goes to the parent link. -/
theorem climb_one (l : Link) : t.climb 1 l = t.parentLink? l := by
  rw [climb_succ]
  cases t.parentLink? l <;> rfl

/-- Climbing `a + b` steps is climbing `a` steps, then `b` from where the walk stands. -/
theorem climb_add (a b : Nat) (l : Link) :
    t.climb (a + b) l = (t.climb a l).bind (t.climb b) := by
  induction a generalizing l with
  | zero => rw [Nat.zero_add, climb_zero, Option.bind_some]
  | succ a ih =>
    rw [Nat.add_right_comm, climb_succ, climb_succ, Option.bind_assoc]
    congr 1
    funext parent
    exact ih parent

/-- A walk that takes some number of steps took every smaller number. -/
theorem isSome_climb_of_le {j k : Nat} {l : Link} (le : j ≤ k) (far : (t.climb k l).isSome) :
    (t.climb j l).isSome := by
  obtain ⟨d, rfl⟩ := Nat.exists_eq_add_of_le le
  rw [climb_add] at far
  cases reached : t.climb j l with
  | none => rw [reached, Option.bind_none] at far; cases far
  | some x => rfl

/-- Every link the walk steps to is a link of the table. -/
theorem exists_link?_of_climb {k : Nat} {l x : Link} (reached : t.climb (k + 1) l = some x) :
    ∃ p, p < t.size ∧ t.link? p = some x := by
  rw [climb_add] at reached
  cases stepped : t.climb k l with
  | none => rw [stepped, Option.bind_none] at reached; cases reached
  | some y =>
    rw [stepped, Option.bind_some, climb_one] at reached
    obtain ⟨-, p, -, -, isLink⟩ := parentLink?_eq_some.mp reached
    exact ⟨p, lt_size_of_link? isLink, isLink⟩

/-- The index of a term name is inside the table. -/
theorem lt_size_of_termName? {j : Nat} {text : String} (named : t.termName? j = some text) :
    j < t.size := by
  unfold termName? at named
  cases found : t.get? j with
  | none => simp [found] at named
  | some e => exact lt_size_of_get? found

/-- A walk that ends leaves the walk from nowhere after its last step. -/
theorem Walks.climb_eq_none {l : Link} {n : Nat} {names : Option (List String)}
    (walks : t.Walks l n names) : t.climb (n + 1) l = none := by
  induction walks with
  | unnamed unnamed => simp [climb_succ, parentLink?, unnamed]
  | root _ noParent => simp [climb_succ, parentLink?, noParent]
  | orphan named hasParent noLink => simp [climb_succ, parentLink?, named, hasParent, noLink]
  | up named hasParent isLink _ ih =>
    rw [climb_succ, (parentLink?_eq_some.mpr ⟨_, _, named, hasParent, isLink⟩), Option.bind_some, ih]

/-- A walk that ends steps to distinct links, each starting a walk shorter than the whole, and
to at least one link fewer than it takes steps. Two steps to one link would start two walks of
different lengths from it (`Walks.unique`). -/
theorem Walks.linkIndices {l : Link} {n : Nat} {names : Option (List String)}
    (walks : t.Walks l n names) :
    ∃ ps : List Nat, n ≤ ps.length + 1 ∧ ps.Nodup ∧
      ∀ p ∈ ps, ∃ x m names', t.link? p = some x ∧ t.Walks x m names' ∧ m < n := by
  induction walks with
  | unnamed _ => exact ⟨[], by simp, List.nodup_nil, by simp⟩
  | root _ _ => exact ⟨[], by simp, List.nodup_nil, by simp⟩
  | orphan _ _ _ => exact ⟨[], by simp, List.nodup_nil, by simp⟩
  | @up l parent text p n names named hasParent isLink parentWalks ih =>
    obtain ⟨ps, counted, distinct, shorter⟩ := ih
    refine ⟨p :: ps, by simp; omega, List.nodup_cons.mpr ⟨?_, distinct⟩, ?_⟩
    · -- the parent starts a walk of `n` steps, every link after it a shorter one
      intro again
      obtain ⟨x, m, names', atP, xWalks, less⟩ := shorter p again
      rw [isLink] at atP
      cases atP
      exact absurd (Walks.unique parentWalks xWalks).1 (by omega)
    · intro q mem
      rcases List.mem_cons.mp mem with rfl | later
      · exact ⟨parent, n, names, isLink, parentWalks, by omega⟩
      · obtain ⟨x, m, names', atQ, xWalks, less⟩ := shorter q later
        exact ⟨x, m, names', atQ, xWalks, by omega⟩

/-- A walk that takes a step starts at a link with a term name. -/
theorem Walks.termName?_of_pos {l : Link} {n : Nat} {names : Option (List String)}
    (walks : t.Walks l n names) (positive : 0 < n) : ∃ text, t.termName? l.nameRef = some text := by
  cases walks with
  | unnamed _ => omega
  | root _ _ => omega
  | orphan named _ _ => exact ⟨_, named⟩
  | up named _ _ _ => exact ⟨_, named⟩

/-- A walk that ends takes at most as many steps as the table has entries: the links it steps
to sit at distinct indices, and the first link's name, a term name, sits at yet another. -/
theorem Walks.le_size {l : Link} {n : Nat} {names : Option (List String)}
    (walks : t.Walks l n names) : n ≤ t.size := by
  rcases Nat.eq_zero_or_pos n with rfl | positive
  · exact Nat.zero_le _
  obtain ⟨text, named⟩ := walks.termName?_of_pos positive
  obtain ⟨ps, counted, distinct, linked⟩ := walks.linkIndices
  have notLink : l.nameRef ∉ ps := by
    intro mem
    obtain ⟨x, -, -, atName, -, -⟩ := linked l.nameRef mem
    rw [termName?_of_link? atName] at named
    cases named
  have inside : l.nameRef :: ps ⊆ List.range t.size := by
    intro j mem
    rw [List.mem_range]
    rcases List.mem_cons.mp mem with rfl | later
    · exact lt_size_of_termName? named
    · obtain ⟨x, -, -, atJ, -, -⟩ := linked j later
      exact lt_size_of_link? atJ
  have fits := (List.Nodup.subperm (List.nodup_cons.mpr ⟨notLink, distinct⟩) inside).length_le
  simp only [List.length_cons, List.length_range] at fits
  omega

/-- A walk that ends reaches a link from which the walk stops. -/
theorem not_endless_of_walks {l : Link} {n : Nat} {names : Option (List String)}
    (walks : t.Walks l n names) : ¬ t.Endless l := fun endless => by
  simpa [walks.climb_eq_none] using endless (n + 1)

/-- A link from which no walk ends steps to a link from which no walk ends either. -/
theorem parentLink?_of_no_walks {l : Link} (noWalk : ∀ n names, ¬ t.Walks l n names) :
    ∃ parent, t.parentLink? l = some parent ∧ ∀ n names, ¬ t.Walks parent n names := by
  cases named : t.termName? l.nameRef with
  | none => exact absurd (Walks.unnamed named) (noWalk 0 none)
  | some text =>
    cases hasParent : l.parentRef with
    | none => exact absurd (Walks.root named hasParent) (noWalk 0 (some [text]))
    | some p =>
      cases isLink : t.link? p with
      | none => exact absurd (Walks.orphan named hasParent isLink) (noWalk 1 none)
      | some parent =>
        refine ⟨parent, parentLink?_eq_some.mpr ⟨text, p, named, hasParent, isLink⟩, ?_⟩
        intro n names parentWalks
        exact noWalk (n + 1) _ (Walks.up named hasParent isLink parentWalks)

/-- The walk from a link is endless exactly when no walk from it ends. -/
theorem endless_iff_no_walks {l : Link} : t.Endless l ↔ ∀ n names, ¬ t.Walks l n names := by
  constructor
  · intro endless n names walks
    exact not_endless_of_walks walks endless
  · intro noWalk k
    -- every link the walk stands at starts no walk that ends, so it steps on
    induction k generalizing l with
    | zero => rfl
    | succ k ih =>
      obtain ⟨parent, stepped, parentNoWalk⟩ := parentLink?_of_no_walks noWalk
      rw [climb_succ, stepped, Option.bind_some]
      exact ih parentNoWalk

/-- A walk that revisits a link repeats the steps in between, so it never ends. -/
theorem Revisits.endless {l : Link} (revisits : t.Revisits l) : t.Endless l := by
  obtain ⟨i, j, x, earlier, atI, atJ⟩ := revisits
  have periodic : ∀ m, t.climb (j + m) l = t.climb (i + m) l := by
    intro m
    rw [climb_add, climb_add, atI, atJ]
  intro k
  induction k using Nat.strongRecOn with
  | ind k ih =>
    by_cases within : k ≤ j
    · exact isSome_climb_of_le within (by simp [atJ])
    · -- `k` steps end where `k - (j - i)` steps end
      obtain ⟨m, rfl⟩ := Nat.exists_eq_add_of_le (Nat.le_of_not_le within)
      rw [periodic m]
      exact ih (i + m) (by omega)

/-- An endless walk revisits a link: its first `t.size + 1` steps go to links of the table, of
which there are at most `t.size`. -/
theorem Endless.revisits {l : Link} (endless : t.Endless l) : t.Revisits l := by
  by_contra noRevisit
  have distinct : Set.InjOn (fun k => t.climb (k + 1) l) (Finset.range (t.size + 1)) := by
    intro i _ j _ same
    obtain ⟨x, atI⟩ := Option.isSome_iff_exists.mp (endless (i + 1))
    have atJ : t.climb (j + 1) l = some x := by
      simp only at same
      rw [← same, atI]
    by_contra apart
    rcases Nat.lt_or_gt_of_ne apart with less | greater
    · exact noRevisit ⟨i + 1, j + 1, x, by omega, atI, atJ⟩
    · exact noRevisit ⟨j + 1, i + 1, x, by omega, atJ, atI⟩
  have among : (Finset.range (t.size + 1)).image (fun k => t.climb (k + 1) l) ⊆
      (Finset.range t.size).image t.link? := by
    intro reached mem
    obtain ⟨k, -, rfl⟩ := Finset.mem_image.mp mem
    obtain ⟨x, atK⟩ := Option.isSome_iff_exists.mp (endless (k + 1))
    obtain ⟨p, inside, isLink⟩ := exists_link?_of_climb atK
    exact Finset.mem_image.mpr ⟨p, Finset.mem_range.mpr inside, isLink.trans atK.symm⟩
  have counted := Finset.card_le_card among
  rw [Finset.card_image_of_injOn distinct, Finset.card_range] at counted
  have bounded := (Finset.range t.size).card_image_le (f := t.link?)
  rw [Finset.card_range] at bounded
  omega

theorem endless_iff_revisits {l : Link} : t.Endless l ↔ t.Revisits l :=
  ⟨Endless.revisits, Revisits.endless⟩

/-- An endless walk steps to a parent link, and goes on endlessly from there. -/
theorem Endless.step {l : Link} (endless : t.Endless l) :
    ∃ parent, t.parentLink? l = some parent ∧ t.Endless parent := by
  obtain ⟨parent, stepped⟩ := Option.isSome_iff_exists.mp (endless 1)
  rw [climb_one] at stepped
  refine ⟨parent, stepped, fun k => ?_⟩
  have further := endless (k + 1)
  rwa [climb_succ, stepped, Option.bind_some] at further

/-- An endless walk runs out of budget at the link it stands at when the budget is spent, at
that link's parent reference. The induction is on the budget, one parent step per unit. -/
theorem walk_of_endless (fuel : Nat) : ∀ {l : Link} (inner : List String), t.Endless l →
    ∃ x p, t.climb fuel l = some x ∧ x.parentRef = some p ∧
      t.walk fuel l inner = .error (.cyclicReference p) := by
  induction fuel with
  | zero =>
    intro l inner endless
    obtain ⟨parent, stepped, -⟩ := endless.step
    obtain ⟨text, p, named, hasParent, -⟩ := parentLink?_eq_some.mp stepped
    refine ⟨l, p, rfl, hasParent, ?_⟩
    rw [walk, named]
    simp only [hasParent]
    rfl
  | succ fuel ih =>
    intro l inner endless
    obtain ⟨parent, stepped, parentEndless⟩ := endless.step
    obtain ⟨text, p, named, hasParent, isLink⟩ := parentLink?_eq_some.mp stepped
    obtain ⟨x, q, atX, xParent, failed⟩ := ih (text :: inner) parentEndless
    refine ⟨x, q, ?_, xParent, ?_⟩
    · rw [climb_succ, stepped, Option.bind_some, atX]
    · rw [walk, named]
      simp only [hasParent, isLink]
      exact failed

/-- The path of a link whose walk never ends fails at the link the walk stands at after as many
steps as the table has entries, naming that link's parent reference. -/
theorem resolve_of_endless {l : Link} (endless : t.Endless l) :
    ∃ x p, t.climb t.size l = some x ∧ x.parentRef = some p ∧
      t.resolve l = .error (.cyclicReference p) := by
  obtain ⟨x, p, atX, xParent, walked⟩ := walk_of_endless t.size [] endless
  refine ⟨x, p, atX, xParent, ?_⟩
  simp only [resolve, components, walked, bind, Except.bind]

/-- Exact cycle detection. The path of a link is found exactly when its walk reaches an
outermost component with term names all the way, and it is the names joined outermost first;
the link has no path exactly when its walk stops at a name that is not a term name or a parent
reference that is not a link; and the path fails exactly when the walk never ends, which is when
it revisits a link, always after as many parent steps as the table has entries, at the parent
reference it was about to follow. A walk that ends takes no more steps than that, so the budget
reports no chain that ends as a cycle. -/
theorem resolve_exact (t : Table) (l : Link) :
    (∀ path, t.resolve l = .ok (some path) ↔
      ∃ n names, t.Walks l n (some names) ∧ path = Namespace.join names) ∧
    (t.resolve l = .ok none ↔ ∃ n, t.Walks l n none) ∧
    (∀ e, t.resolve l = .error e ↔ t.Endless l ∧
      ∃ x p, t.climb t.size l = some x ∧ x.parentRef = some p ∧ e = .cyclicReference p) ∧
    (t.Endless l ↔ t.Revisits l) ∧
    (∀ n names, t.Walks l n names → n ≤ t.size) := by
  have ends : ∀ {n names}, t.Walks l n names → t.resolve l = .ok (names.map Namespace.join) :=
    fun walks => resolve_eq_ok.mpr ⟨_, _, walks.le_size, walks, rfl⟩
  refine ⟨fun path => ⟨fun found => ?_, ?_⟩, ⟨fun found => ?_, ?_⟩, fun e => ⟨fun failed => ?_, ?_⟩,
    endless_iff_revisits, fun _ _ walks => walks.le_size⟩
  · obtain ⟨n, names, -, walks, found⟩ := resolve_eq_ok.mp found
    obtain ⟨names, rfl, rfl⟩ := Option.map_eq_some_iff.mp found.symm
    exact ⟨n, names, walks, rfl⟩
  · rintro ⟨n, names, walks, rfl⟩
    exact ends walks
  · obtain ⟨n, names, -, walks, found⟩ := resolve_eq_ok.mp found
    obtain rfl := Option.map_eq_none_iff.mp found.symm
    exact ⟨n, walks⟩
  · rintro ⟨n, walks⟩
    exact ends walks
  · -- a walk that ended would have given a path
    have endless : t.Endless l := endless_iff_no_walks.mpr fun n names walks => by
      rw [ends walks] at failed
      cases failed
    obtain ⟨x, p, atX, xParent, cut⟩ := resolve_of_endless endless
    rw [cut] at failed
    cases failed
    exact ⟨endless, x, p, atX, xParent, rfl⟩
  · rintro ⟨endless, x, p, atX, xParent, rfl⟩
    obtain ⟨x', p', atX', xParent', cut⟩ := resolve_of_endless endless
    rw [atX, Option.some.injEq] at atX'
    subst atX'
    rw [xParent, Option.some.injEq] at xParent'
    rw [cut, xParent']

/-- A link that is its own parent revisits itself; its walk is cut after two steps, the size of
the table, at its own index. -/
example : (⟨#[.name .term "loop", .link ⟨0, some 1⟩], [1], []⟩ : Table).resolve ⟨0, some 1⟩ =
    .error (.cyclicReference 1) := by
  decide +kernel

/-- The namespace `com.foo`: the walk from its inner link steps to the outer link and ends
there, one step within the four entries, and the path is `com.foo`. -/
theorem resolve_exact_nested :
    (⟨#[.name .term "com", .link ⟨0, none⟩, .name .term "foo", .link ⟨2, some 1⟩], [1, 3], []⟩ :
        Table).Walks ⟨2, some 1⟩ 1 (some ["com", "foo"]) ∧
      1 ≤ (⟨#[.name .term "com", .link ⟨0, none⟩, .name .term "foo", .link ⟨2, some 1⟩], [1, 3],
        []⟩ : Table).size ∧
      (⟨#[.name .term "com", .link ⟨0, none⟩, .name .term "foo", .link ⟨2, some 1⟩], [1, 3], []⟩ :
        Table).resolve ⟨2, some 1⟩ = .ok (some "com.foo") := by
  have outer : (⟨#[.name .term "com", .link ⟨0, none⟩, .name .term "foo", .link ⟨2, some 1⟩],
      [1, 3], []⟩ : Table).Walks ⟨0, none⟩ 0 (some ["com"]) := .root rfl rfl
  have walks : (⟨#[.name .term "com", .link ⟨0, none⟩, .name .term "foo", .link ⟨2, some 1⟩],
      [1, 3], []⟩ : Table).Walks ⟨2, some 1⟩ 1 (some ["com", "foo"]) := .up rfl rfl rfl outer
  have exact := resolve_exact (⟨#[.name .term "com", .link ⟨0, none⟩, .name .term "foo",
    .link ⟨2, some 1⟩], [1, 3], []⟩ : Table) ⟨2, some 1⟩
  exact ⟨walks, exact.2.2.2.2 1 _ walks, (exact.1 "com.foo").mpr ⟨1, _, walks, by decide +kernel⟩⟩

end Table

end PickleShading
