import PickleShading.Table.Resolve

/-!
# Walks along parent references

`Table.walk` follows parent references with a step budget. Its meaning without the budget is
the relation `Table.Walks t l n names`: the walk from the link `l` takes `n` parent steps and
gives `names`, the names of the components outermost first, or `none` when it stops at a name
that is not a term name or a parent reference that is not a link. The budget only decides
whether a walk of `n` steps is followed to its end (`walk_of_walks`, `walks_of_walk`); when it
is not, the walk fails with `Error.cyclicReference`, which is the only way it fails
(`walk_eq_error`).

The paths of a list of links fail exactly when one of them fails, and otherwise list the links
that have a path, in order (`pathsOf_eq_filterMap`).

A walk reads only the links it passes and their names. `Table.Climbs t i m below` says that the
walk from the link at `i` passes the link at `m`, after the links named `below`; a walk that
reaches `m` ends as the walk from `m` does, with `below` behind its names (`Climbs.walks`). Two
tables that agree on what a walk reads have the same walk (`walk_congr`, `Walks.transport`,
`Climbs.transport`).
-/

namespace PickleShading

namespace Table

variable {t : Table}

/-- The walk from `l` takes `n` parent steps and gives `names`. -/
inductive Walks (t : Table) : Link → Nat → Option (List String) → Prop
  /-- The component's name is not a term name. -/
  | unnamed {l : Link} : t.termName? l.nameRef = none → Walks t l 0 none
  /-- An outermost component. -/
  | root {l : Link} {text : String} :
      t.termName? l.nameRef = some text → l.parentRef = none → Walks t l 0 (some [text])
  /-- The parent reference does not lead to a link. -/
  | orphan {l : Link} {text : String} {p : Nat} :
      t.termName? l.nameRef = some text → l.parentRef = some p → t.link? p = none →
      Walks t l 1 none
  /-- One parent step, then the walk from the parent. -/
  | up {l parent : Link} {text : String} {p n : Nat} {names : Option (List String)} :
      t.termName? l.nameRef = some text → l.parentRef = some p → t.link? p = some parent →
      Walks t parent n names → Walks t l (n + 1) (names.map (· ++ [text]))

/-- A walk of `n` steps is followed to its end by a budget of at least `n`, and puts its names
in front of those collected before. -/
theorem walk_of_walks {l : Link} {n : Nat} {names : Option (List String)}
    (walks : t.Walks l n names) : ∀ {fuel : Nat} (inner : List String), n ≤ fuel →
      t.walk fuel l inner = .ok (names.map (· ++ inner)) := by
  induction walks with
  | unnamed unnamed =>
    intro fuel inner _
    rw [walk, unnamed]
    rfl
  | root named noParent =>
    intro fuel inner _
    rw [walk, named]
    simp only [noParent]
    rfl
  | orphan named hasParent noLink =>
    intro fuel inner enough
    obtain ⟨fuel, rfl⟩ : ∃ f, fuel = f + 1 := ⟨fuel - 1, by omega⟩
    rw [walk, named]
    simp only [hasParent, noLink]
    rfl
  | up named hasParent isLink _ ih =>
    intro fuel inner enough
    obtain ⟨fuel, rfl⟩ : ∃ f, fuel = f + 1 := ⟨fuel - 1, by omega⟩
    rw [walk, named]
    simp only [hasParent, isLink]
    rw [ih _ (by omega), Option.map_map]
    simp only [Function.comp_def, List.append_assoc, List.singleton_append]

/-- A walk that ends within its budget is a walk of at most that many steps. -/
theorem walks_of_walk {fuel : Nat} {l : Link} {inner : List String}
    {result : Option (List String)} (walked : t.walk fuel l inner = .ok result) :
    ∃ n names, n ≤ fuel ∧ t.Walks l n names ∧ result = names.map (· ++ inner) := by
  fun_induction t.walk fuel l inner generalizing result with
  | case1 _ _ _ unnamed =>
    cases walked
    exact ⟨0, none, Nat.zero_le _, .unnamed unnamed, rfl⟩
  | case2 _ _ _ _ named noParent =>
    cases walked
    exact ⟨0, some [_], Nat.zero_le _, .root named noParent, rfl⟩
  | case3 => cases walked
  | case4 _ _ _ named _ hasParent _ noLink =>
    cases walked
    exact ⟨1, none, by omega, .orphan named hasParent noLink, rfl⟩
  | case5 _ _ text named _ hasParent _ _ isLink ih =>
    obtain ⟨n, names, enough, walks, rfl⟩ := ih walked
    refine ⟨n + 1, names.map (· ++ [text]), by omega, .up named hasParent isLink walks, ?_⟩
    simp only [Option.map_map, Function.comp_def, List.append_assoc, List.singleton_append]

/-- A walk fails only for want of steps, naming the parent reference it was about to
follow. -/
theorem walk_eq_error {fuel : Nat} {l : Link} {inner : List String} {e : Error}
    (failed : t.walk fuel l inner = .error e) : ∃ p, e = .cyclicReference p := by
  fun_induction t.walk fuel l inner with
  | case1 => cases failed
  | case2 => cases failed
  | case3 _ _ _ _ p _ => cases failed; exact ⟨p, rfl⟩
  | case4 => cases failed
  | case5 _ _ _ _ _ _ _ _ _ ih => exact ih failed

/-- A walk has one length and one result. -/
theorem Walks.unique {l : Link} {n n' : Nat} {names names' : Option (List String)}
    (walks : t.Walks l n names) (walks' : t.Walks l n' names') : n = n' ∧ names = names' := by
  induction walks generalizing n' names' with
  | unnamed unnamed =>
    cases walks' <;> simp_all
  | root named noParent =>
    cases walks' <;> simp_all
  | orphan named hasParent noLink =>
    cases walks' <;> simp_all
  | up named hasParent isLink _ ih =>
    cases walks' with
    | unnamed unnamed' => simp_all
    | root named' noParent' => simp_all
    | orphan named' hasParent' noLink' => simp_all
    | up named' hasParent' isLink' walks' =>
      rw [named] at named'
      rw [hasParent] at hasParent'
      cases named'
      cases hasParent'
      rw [isLink] at isLink'
      cases isLink'
      obtain ⟨rfl, rfl⟩ := ih walks'
      exact ⟨rfl, rfl⟩

/-- A path is found within the table's budget exactly when the walk takes at most as many
steps as the table has entries. -/
theorem resolve_eq_ok {l : Link} {path : Option String} :
    t.resolve l = .ok path ↔
      ∃ n names, n ≤ t.size ∧ t.Walks l n names ∧ path = names.map Namespace.join := by
  constructor
  · intro resolved
    simp only [resolve, components, bind, Except.bind] at resolved
    split at resolved
    · cases resolved
    · rename_i names walked
      cases resolved
      obtain ⟨n, names', enough, walks, rfl⟩ := walks_of_walk walked
      exact ⟨n, names', enough, walks, by simp⟩
  · rintro ⟨n, names, enough, walks, rfl⟩
    simp only [resolve, components, bind, Except.bind, walk_of_walks walks [] enough]
    simp [pure, Except.pure]

/-- A path fails only for want of steps. -/
theorem resolve_eq_error {l : Link} {e : Error} (failed : t.resolve l = .error e) :
    ∃ p, e = .cyclicReference p := by
  simp only [resolve, components, bind, Except.bind] at failed
  split at failed
  · rename_i e' walked
    cases failed
    exact walk_eq_error walked
  · cases failed

/-- The path at a link's index is the path of the link. -/
theorem resolveAt_of_link? {i : Nat} {l : Link} (atI : t.link? i = some l) :
    t.resolveAt i = t.resolve l := by
  unfold resolveAt
  rw [atI]

/-- A path or a failure at an index is that of the link there: an index without a link has no
path. -/
theorem resolve_of_resolveAt {i : Nat} {r : Except Error (Option String)}
    (resolved : t.resolveAt i = r) (notNone : r ≠ .ok none) :
    ∃ l, t.link? i = some l ∧ t.resolve l = r := by
  unfold resolveAt at resolved
  split at resolved
  · rename_i l atI
    exact ⟨l, atI, resolved⟩
  · exact absurd resolved.symm notNone

/-- The path at an index fails only for want of steps. -/
theorem resolveAt_eq_error {i : Nat} {e : Error} (failed : t.resolveAt i = .error e) :
    ∃ p, e = .cyclicReference p := by
  obtain ⟨l, -, walkFailed⟩ := resolve_of_resolveAt failed (by simp)
  exact resolve_eq_error walkFailed

/-- The paths of a list of links fail with the failure of the first link that fails. -/
theorem pathsOf_eq_error : ∀ {is : List Nat} {e : Error}, t.pathsOf is = .error e →
    ∃ i ∈ is, t.resolveAt i = .error e
  | [], _, failed => by cases failed
  | i :: is, e, failed => by
    simp only [pathsOf, bind, Except.bind] at failed
    split at failed
    · rename_i e' here
      cases failed
      exact ⟨i, List.mem_cons_self, here⟩
    · split at failed
      · rename_i e' rest
        cases failed
        obtain ⟨j, mem, there⟩ := pathsOf_eq_error rest
        exact ⟨j, List.mem_cons_of_mem i mem, there⟩
      · cases failed

/-- When no link of the list fails, the paths are those of the links that have one, in
order. -/
theorem pathsOf_eq_filterMap : ∀ {is : List Nat}, (∀ i ∈ is, ∀ e, t.resolveAt i ≠ .error e) →
    t.pathsOf is = .ok (is.filterMap fun i => (t.resolveAt i).toOption.join.map (i, ·))
  | [], _ => rfl
  | i :: is, noFailure => by
    have rest := pathsOf_eq_filterMap fun j mem => noFailure j (List.mem_cons_of_mem i mem)
    cases here : t.resolveAt i with
    | error e => exact absurd here (noFailure i List.mem_cons_self e)
    | ok path =>
      cases path <;>
        simp [pathsOf, rest, here, bind, Except.bind, pure, Except.pure, Except.toOption]

/-- The path at a link is the one its walk gives when the walk ends within the table's size. -/
theorem resolveAt_of_walks {i : Nat} {l : Link} (atI : t.link? i = some l) {n : Nat}
    {names : Option (List String)} (walks : t.Walks l n names) (enough : n ≤ t.size) :
    t.resolveAt i = .ok (names.map Namespace.join) := by
  rw [resolveAt_of_link? atI]
  exact resolve_eq_ok.mpr ⟨n, names, enough, walks, rfl⟩

/-- A link whose path does not fail has a walk within the table's size, and its path is the one
that walk gives. -/
theorem walks_of_resolveAt {i : Nat} {l : Link} (atI : t.link? i = some l)
    (noFailure : ∀ e, t.resolveAt i ≠ .error e) :
    ∃ n names, n ≤ t.size ∧ t.Walks l n names ∧ t.resolveAt i = .ok (names.map Namespace.join) := by
  cases resolved : t.resolveAt i with
  | error e => exact absurd resolved (noFailure e)
  | ok path =>
    have found : t.resolve l = .ok path := (resolveAt_of_link? atI).symm.trans resolved
    obtain ⟨n, names, enough, walks, rfl⟩ := resolve_eq_ok.mp found
    exact ⟨n, names, enough, walks, rfl⟩

/-- The walk from the link at `i` passes the link at `m`, after the links named `below`,
outermost first. -/
inductive Climbs (t : Table) : Nat → Nat → List String → Prop
  /-- The walk starts at the link at `m`. -/
  | here {m : Nat} {l : Link} : t.link? m = some l → Climbs t m m []
  /-- A link with a term name, then the climb from its parent. -/
  | up {i p m : Nat} {l : Link} {text : String} {below : List String} :
      t.link? i = some l → t.termName? l.nameRef = some text → l.parentRef = some p →
      Climbs t p m below → Climbs t i m (below ++ [text])

/-- A climb starts at a link. -/
theorem Climbs.isSome_link? {i m : Nat} {below : List String} (climbs : t.Climbs i m below) :
    (t.link? i).isSome := by
  cases climbs with
  | here atM => simp [atM]
  | up atI _ _ _ => simp [atI]

/-- A walk that passes `m` ends as the walk from `m` does, `below` behind its names. -/
theorem Climbs.walks {i m : Nat} {below : List String} (climbs : t.Climbs i m below)
    {top : Link} (atTop : t.link? m = some top) {n : Nat} {names : Option (List String)}
    (walks : t.Walks top n names) :
    ∃ l, t.link? i = some l ∧ t.Walks l (n + below.length) (names.map (· ++ below)) := by
  induction climbs with
  | here atM =>
    rw [atM] at atTop
    cases atTop
    exact ⟨_, atM, by simpa using walks⟩
  | @up i p m l text below atI named hasParent _ ih =>
    obtain ⟨parent, atParent, parentWalks⟩ := ih atTop
    have steps : n + (below ++ [text]).length = n + below.length + 1 := by
      simp only [List.length_append, List.length_singleton]
      omega
    have texts : names.map (· ++ (below ++ [text])) = (names.map (· ++ below)).map (· ++ [text]) := by
      simp [Option.map_map, Function.comp_def]
    rw [steps, texts]
    exact ⟨l, atI, .up named hasParent atParent parentWalks⟩

/-- Two climbs from one link take the same parent steps: the shorter ends on the way of the
longer. -/
theorem Climbs.prefix {i j m : Nat} {b below : List String} (first : t.Climbs i j b)
    (second : t.Climbs i m below) (shorter : b.length ≤ below.length) :
    ∃ c, t.Climbs j m c ∧ below = c ++ b := by
  induction first generalizing below with
  | here _ => exact ⟨below, second, by simp⟩
  | @up i p j l text b atI named hasParent _ ih =>
    cases second with
    | here _ => simp at shorter
    | @up _ p' _ l' text' below' atI' named' hasParent' rest =>
      rw [atI] at atI'
      cases atI'
      rw [named] at named'
      cases named'
      rw [hasParent] at hasParent'
      cases hasParent'
      obtain ⟨c, climbs, rfl⟩ := ih rest (by simpa using shorter)
      exact ⟨c, climbs, by simp⟩

/-- A climb goes through in a table that holds the same links below its top, with the same
names, and a link at its top. -/
theorem Climbs.transport {s : Table} {i m : Nat} {below : List String} (climbs : t.Climbs i m below)
    (same : ∀ j b l, t.Climbs i j b → b.length < below.length → t.link? j = some l →
      s.link? j = some l ∧ s.termName? l.nameRef = t.termName? l.nameRef)
    (top : (s.link? m).isSome) : s.Climbs i m below := by
  induction climbs with
  | here _ =>
    obtain ⟨l, atM⟩ := Option.isSome_iff_exists.mp top
    exact .here atM
  | @up i p m l text below atI named hasParent _ ih =>
    obtain ⟨atI', named'⟩ := same i [] l (.here atI) (by simp) atI
    refine .up atI' (named' ▸ named) hasParent (ih ?_ top)
    intro j b l' climbs shorter atJ
    exact same j (b ++ [text]) l' (.up atI named hasParent climbs) (by simpa using shorter) atJ

/-- A walk goes through in a table that holds the same links along it, with the same names,
and no link where it met none. -/
theorem Walks.transport {s : Table} {i : Nat} {l : Link} {n : Nat} {names : Option (List String)}
    (atI : t.link? i = some l) (walks : t.Walks l n names)
    (same : ∀ j b l', t.Climbs i j b → t.link? j = some l' →
      s.link? j = some l' ∧ s.termName? l'.nameRef = t.termName? l'.nameRef ∧
        ∀ p, l'.parentRef = some p → t.link? p = none → s.link? p = none) :
    s.Walks l n names := by
  induction walks generalizing i with
  | unnamed unnamed =>
    obtain ⟨_, named', _⟩ := same i [] _ (.here atI) atI
    exact .unnamed (named'.trans unnamed)
  | root named noParent =>
    obtain ⟨_, named', _⟩ := same i [] _ (.here atI) atI
    exact .root (named'.trans named) noParent
  | orphan named hasParent noLink =>
    obtain ⟨_, named', orphaned⟩ := same i [] _ (.here atI) atI
    exact .orphan (named'.trans named) hasParent (orphaned _ hasParent noLink)
  | up named hasParent isLink _ ih =>
    obtain ⟨_, named', _⟩ := same i [] _ (.here atI) atI
    have upward : ∀ j b l', t.Climbs _ j b → t.link? j = some l' → _ := fun j b l' climbs atJ =>
      same j (b ++ [_]) l' (.up atI named hasParent climbs) atJ
    obtain ⟨isLink', _, _⟩ := upward _ [] _ (.here isLink) isLink
    exact .up (named'.trans named) hasParent isLink' (ih isLink upward)

/-- A walk takes as many steps in a table that holds the same links and a term name wherever
the other does, whatever the names' texts. -/
theorem Walks.retext {s : Table} (links : ∀ j, s.link? j = t.link? j)
    (named : ∀ j, (s.termName? j).isSome = (t.termName? j).isSome) {l : Link} {n : Nat}
    {names : Option (List String)} (walks : t.Walks l n names) : ∃ names', s.Walks l n names' := by
  -- the texts differ, but a name is there exactly when it is there in `t`
  have nameOf : ∀ j text, t.termName? j = some text → ∃ text', s.termName? j = some text' := by
    intro j text isName
    exact Option.isSome_iff_exists.mp ((named j).trans (by simp [isName]))
  induction walks with
  | @unnamed l unnamed =>
    have noName : s.termName? l.nameRef = none := by
      simpa [unnamed] using named l.nameRef
    exact ⟨none, .unnamed noName⟩
  | root isName noParent =>
    obtain ⟨text', isName'⟩ := nameOf _ _ isName
    exact ⟨some [text'], .root isName' noParent⟩
  | orphan isName hasParent noLink =>
    obtain ⟨text', isName'⟩ := nameOf _ _ isName
    exact ⟨none, .orphan isName' hasParent ((links _).trans noLink)⟩
  | up isName hasParent isLink _ ih =>
    obtain ⟨text', isName'⟩ := nameOf _ _ isName
    obtain ⟨names', walks'⟩ := ih
    exact ⟨_, .up isName' hasParent ((links _).trans isLink) walks'⟩

/-- A walk reads only the links and the names of links: two tables that agree on them walk
alike. -/
theorem walk_congr {s : Table} (links : ∀ j, s.link? j = t.link? j)
    (names : ∀ j l, t.link? j = some l → s.termName? l.nameRef = t.termName? l.nameRef) :
    ∀ (fuel : Nat) {l : Link} (inner : List String), (∃ j, t.link? j = some l) →
      s.walk fuel l inner = t.walk fuel l inner := by
  intro fuel
  induction fuel with
  | zero =>
    rintro l inner ⟨j, atJ⟩
    rw [walk, walk, names j l atJ]
  | succ fuel ih =>
    rintro l inner ⟨j, atJ⟩
    rw [walk, walk, names j l atJ]
    cases t.termName? l.nameRef with
    | none => rfl
    | some text =>
      cases l.parentRef with
      | none => rfl
      | some p =>
        simp only [links p]
        cases isLink : t.link? p with
        | none => rfl
        | some parent => exact ih _ ⟨p, isLink⟩

end Table

end PickleShading
