import PickleShading.Proofs.Repointing

/-!
# Paths after a rename

A rename moves the links whose path is `old` to `new`, and every link whose walk passes one of
them follows it: its path keeps the names below the moved link (`Namespace.dotted`) behind
the new path. The other links keep their paths, and no walk starts failing.

That holds of tables whose references stay inside them (`Table.Closed`) and in which the
literal pass renames no link (`Table.LiteralsKeep`): no link whose path is not `old` is named
by a term name that a string literal holds and whose text has `old` in it. The graph pass
appends fresh entries, so a reference past the end of the table comes to name them; the literal
pass edits names in place, so such a name changes the path of the link it names. The links
with path `old` are repointed to fresh names first, so their own names may hold `old`.
`Table.rename_changes_other_paths` shows each of these at a small table.

Main statement (`Table.rename_paths`, with `Table.RenamePaths`): the count is the number of
entries with path `old`; for a closed table no path afterwards fails; and when moreover the
literal pass renames no link, the paths move as described.
-/

namespace PickleShading

namespace Namespace

/-- The text that the components `below` add behind a path: each after a dot. -/
def dotted (below : List String) : String := String.join (below.map ("." ++ ·))

/-- Joining undoes splitting. -/
theorem join_split (s : String) : join (split s) = s := by
  rw [← String.toList_inj]
  simp [join, split, Function.comp_def, List.intercalate_splitOn]

/-- Joining more components puts each behind a dot. -/
theorem join_append (below : List String) :
    ∀ {names : List String}, names ≠ [] → join (names ++ below) = join names ++ dotted below := by
  induction below with
  | nil => simp [dotted]
  | cons part below ih =>
    intro names nonEmpty
    have moved : names ++ part :: below = (names ++ [part]) ++ below := by simp
    rw [moved, ih (by simp), join, join, String.intercalate_append_of_ne_nil nonEmpty (by simp)]
    simp [dotted, String.append_assoc]

/-- Components behind a path make it longer. -/
theorem append_dotted_ne {path : String} {below : List String} (nonEmpty : below ≠ []) :
    path ++ dotted below ≠ path := by
  obtain ⟨part, rest, rfl⟩ := List.exists_cons_of_ne_nil nonEmpty
  intro same
  have lengths := congrArg String.length same
  simp [dotted, String.length_append] at lengths

end Namespace

namespace Table

variable {t s : Table}

/-- The literal pass leaves the name of the link at `i`: if a string literal holds that name
and it is a term name, `old` does not occur in its text. -/
def NameKept (old : String) (t : Table) (i : Nat) : Prop :=
  ∀ l, t.link? i = some l → l.nameRef ∈ t.literalNames →
    ∀ text, t.termName? l.nameRef = some text → ¬ old.toList <:+: text.toList

/-- The literal pass renames no link whose path is not `old`. A link with path `old` is
repointed to fresh names before that pass, so the name it had no longer counts. -/
def LiteralsKeep (old : String) (t : Table) : Prop :=
  ∀ i, t.resolveAt i ≠ .ok (some old) → t.NameKept old i

theorem literalName?_eq_some {r n : Nat} :
    t.literalName? r = some n ↔ ∃ code payload, t.get? r = some (.raw code payload) ∧
      LiteralKind.ofCode? code = some .string ∧ Cursor.leadingVarint? payload = some n ∧
      ∃ k text, t.get? n = some (.name k text) := by
  unfold literalName?
  constructor
  · intro found
    split at found
    · rename_i code payload atR
      split at found
      · rename_i isString
        split at found
        · rename_i m leading
          split at found
          · rename_i k text atM
            cases found
            exact ⟨code, payload, atR, isString, leading, k, text, atM⟩
          · cases found
        · cases found
      · cases found
    · cases found
  · rintro ⟨code, payload, atR, isString, leading, k, text, atN⟩
    simp [atR, isString, leading, atN]

theorem wrappedName?_eq_some {c n : Nat} :
    t.wrappedName? c = some n ↔ ∃ r payload, t.get? c = some (.constant r payload) ∧
      t.literalName? r = some n := by
  unfold wrappedName?
  constructor
  · intro found
    split at found
    · rename_i r payload atC
      exact ⟨r, payload, atC, found⟩
    · cases found
  · rintro ⟨r, payload, atC, found⟩
    simp [atC, found]

/-- A name that a string literal holds is an entry of the table. -/
theorem lt_size_of_mem_literalNames {n : Nat} (mem : n ∈ t.literalNames) : n < t.size := by
  obtain ⟨c, -, wrapped⟩ := List.mem_filterMap.mp mem
  obtain ⟨r, -, -, literal⟩ := wrappedName?_eq_some.mp wrapped
  obtain ⟨-, -, -, -, -, k, text, atN⟩ := literalName?_eq_some.mp literal
  simp only [get?, size] at atN ⊢
  exact (Array.getElem?_eq_some_iff.mp atN).1

theorem link?_editLiterals (old new : String) (j : Nat) :
    (t.editLiterals old new).link? j = t.link? j := by
  unfold link?
  rw [get?_editLiterals]
  cases t.get? j with
  | none => rfl
  | some e =>
    by_cases held : j ∈ t.literalNames <;> cases e <;> simp [held, replaceInName]

theorem termName?_editLiterals_of_not_mem (old new : String) {j : Nat}
    (notHeld : j ∉ t.literalNames) : (t.editLiterals old new).termName? j = t.termName? j := by
  unfold termName?
  rw [get?_editLiterals]
  cases t.get? j <;> simp [notHeld]

theorem isSome_termName?_editLiterals (old new : String) (j : Nat) :
    ((t.editLiterals old new).termName? j).isSome = (t.termName? j).isSome := by
  unfold termName?
  rw [get?_editLiterals]
  cases t.get? j with
  | none => rfl
  | some e =>
    by_cases held : j ∈ t.literalNames
    · cases e with
      | name k text => cases k <;> simp [held, replaceInName]
      | _ => simp [held, replaceInName]
    · simp [held]

theorem get?_of_termName? {j : Nat} {text : String} (named : t.termName? j = some text) :
    t.get? j = some (.name .term text) := by
  unfold termName? at named
  split at named
  · rename_i found
    cases named
    exact found
  · cases named

/-- Editing the literals keeps the name of a link that keeps it. -/
theorem termName?_editLiterals_of_nameKept (old new : String) {j : Nat} {l : Link}
    (kept : t.NameKept old j) (atJ : t.link? j = some l) :
    (t.editLiterals old new).termName? l.nameRef = t.termName? l.nameRef := by
  by_cases held : l.nameRef ∈ t.literalNames
  · cases named : t.termName? l.nameRef with
    | none =>
      have same : ((t.editLiterals old new).termName? l.nameRef).isSome =
          (t.termName? l.nameRef).isSome :=
        isSome_termName?_editLiterals old new l.nameRef
      simpa [named] using same
    | some text =>
      -- a held term name whose text lacks `old` is edited into itself
      apply termName?_of_get?
      rw [get?_editLiterals, get?_of_termName? named]
      simp [held, replaceInName, Text.replace_of_not_infix new (kept l atJ held text named)]
  · exact termName?_editLiterals_of_not_mem old new held

/-- Editing the literals keeps every path when every link keeps its name. -/
theorem resolveAt_editLiterals (old new : String) (kept : ∀ j, t.NameKept old j) (i : Nat) :
    (t.editLiterals old new).resolveAt i = t.resolveAt i := by
  unfold resolveAt
  rw [link?_editLiterals]
  cases atI : t.link? i with
  | none => rfl
  | some l =>
    simp only [resolve, components, size_editLiterals]
    rw [walk_congr (link?_editLiterals old new)
      (fun j _ atJ => termName?_editLiterals_of_nameKept old new (kept j) atJ) _ _ ⟨i, atI⟩]

end Table


namespace Table

variable {t s : Table}

section Moved

variable {parts : List String} {done : List Nat}

/-- The fresh entries are names and links: any other entry of `s` stands below `t`'s size. -/
theorem Moved.lt_of_get? (moved : t.Moved parts done s) {j : Nat} {e : Entry}
    (found : s.get? j = some e) (notName : ∀ k text, e ≠ .name k text)
    (notLink : ∀ l, e ≠ .link l) : j < t.size := by
  rcases Nat.lt_or_ge j t.size with inside | above
  · exact inside
  · rcases moved.fresh j above (lt_size_of_get? found) with ⟨k, text, isName⟩ | ⟨l, isLink, _⟩
    · rw [found] at isName
      cases isName
      exact absurd rfl (notName k text)
    · rw [found] at isLink
      cases isLink
      exact absurd rfl (notLink l)

/-- Below `t`'s size an entry that is no link reads as in `t`. -/
theorem Moved.get?_eq_some_iff (moved : t.Moved parts done s)
    (links : ∀ m ∈ done, (t.link? m).isSome) {j : Nat} {e : Entry} (inside : j < t.size)
    (notLink : ∀ l, e ≠ .link l) : s.get? j = some e ↔ t.get? j = some e := by
  by_cases mem : j ∈ done
  · -- a repointed link is a link before and after
    obtain ⟨_, _, _, _, atJ⟩ := moved.chains j mem
    obtain ⟨_, atJ'⟩ := Option.isSome_iff_exists.mp (links j mem)
    rw [get?_of_link? atJ, get?_of_link? atJ']
    simp only [Option.some.injEq]
    exact ⟨fun same => absurd same.symm (notLink _), fun same => absurd same.symm (notLink _)⟩
  · rw [moved.kept j inside mem]

/-- An entry that is neither a name nor a link stands at the same index in `s` as in `t`: the
fresh entries are names and links. -/
theorem Moved.get?_eq_some_iff_of_kind (moved : t.Moved parts done s)
    (links : ∀ m ∈ done, (t.link? m).isSome) {j : Nat} {e : Entry}
    (notName : ∀ k text, e ≠ .name k text) (notLink : ∀ l, e ≠ .link l) :
    s.get? j = some e ↔ t.get? j = some e :=
  ⟨fun found => (moved.get?_eq_some_iff links (moved.lt_of_get? found notName notLink) notLink).mp found,
    fun found => (moved.get?_eq_some_iff links (lt_size_of_get? found) notLink).mpr found⟩

theorem Moved.literalName?_eq (moved : t.Moved parts done s) (closed : t.Closed)
    (links : ∀ m ∈ done, (t.link? m).isSome) (r : Nat) : s.literalName? r = t.literalName? r := by
  apply Option.ext
  intro n
  simp only [literalName?_eq_some]
  constructor
  · rintro ⟨code, payload, atR, isString, leading, k, text, atN⟩
    have atR' := (moved.get?_eq_some_iff_of_kind links (by simp) (by simp)).mp atR
    have named := closed.literals r code payload n atR' isString leading
    exact ⟨code, payload, atR', isString, leading, k, text,
      (moved.get?_eq_some_iff links named (by simp)).mp atN⟩
  · rintro ⟨code, payload, atR, isString, leading, k, text, atN⟩
    have named := closed.literals r code payload n atR isString leading
    exact ⟨code, payload, (moved.get?_eq_some_iff_of_kind links (by simp) (by simp)).mpr atR,
      isString, leading, k, text, (moved.get?_eq_some_iff links named (by simp)).mpr atN⟩

theorem Moved.wrappedName?_eq (moved : t.Moved parts done s) (closed : t.Closed)
    (links : ∀ m ∈ done, (t.link? m).isSome) (c : Nat) : s.wrappedName? c = t.wrappedName? c := by
  apply Option.ext
  intro n
  simp only [wrappedName?_eq_some, moved.literalName?_eq closed links]
  constructor
  · rintro ⟨r, payload, atC, literal⟩
    exact ⟨r, payload, (moved.get?_eq_some_iff_of_kind links (by simp) (by simp)).mp atC, literal⟩
  · rintro ⟨r, payload, atC, literal⟩
    exact ⟨r, payload, (moved.get?_eq_some_iff_of_kind links (by simp) (by simp)).mpr atC, literal⟩

/-- Repointing changes no name that a string literal holds. -/
theorem Moved.literalNames_eq (moved : t.Moved parts done s) (closed : t.Closed)
    (links : ∀ m ∈ done, (t.link? m).isSome) : s.literalNames = t.literalNames := by
  unfold literalNames
  have same : s.wrappedName? = t.wrappedName? := funext (moved.wrappedName?_eq closed links)
  rw [moved.constants, same]

/-- After repointing every link keeps its name under the literal pass when every link of `t`
left as it was does: a repointed or fresh link is named by a fresh name, which no literal
holds, and a link left as it was has the name it had. -/
theorem Moved.nameKept {old : String} (moved : t.Moved parts done s) (closed : t.Closed)
    (links : ∀ m ∈ done, (t.link? m).isSome) (kept : ∀ j ∉ done, t.NameKept old j) (j : Nat) :
    s.NameKept old j := by
  intro l atJ held text named
  rw [moved.literalNames_eq closed links] at held
  have nameInside := lt_size_of_mem_literalNames held
  rcases Nat.lt_or_ge j t.size with inside | above
  · by_cases mem : j ∈ done
    · obtain ⟨base, low, _, _, atJ'⟩ := moved.chains j mem
      rw [atJ] at atJ'
      cases atJ'
      simp only [chainTop] at nameInside
      omega
    · rw [moved.link?_eq inside mem] at atJ
      rw [moved.termName?_eq links nameInside] at named
      exact kept j mem l atJ held text named
  · rcases moved.fresh j above (lt_size_of_link? atJ) with
      ⟨_, _, isName⟩ | ⟨l', isLink, low, _⟩
    · simp [link?, isName] at atJ
    · have same : l' = l := by simpa [link?, isLink] using atJ
      subst same
      omega

end Moved

end Table


namespace Table

variable {t : Table}

/-- A walk that ends in a path gives at least one name. -/
theorem Walks.names_ne_nil {l : Link} {n : Nat} {names : Option (List String)}
    (walks : t.Walks l n names) : ∀ ns, names = some ns → ns ≠ [] := by
  induction walks with
  | unnamed _ => intro ns found; cases found
  | root _ _ => intro ns found; cases found; simp
  | orphan _ _ _ => intro ns found; cases found
  | up _ _ _ _ _ =>
    intro ns found
    obtain ⟨inner, _, rfl⟩ := Option.map_eq_some_iff.mp found
    simp

/-- A link whose walk passes the link at `m` has `m`'s path with the names `below` behind it. -/
theorem resolveAt_of_climbs {i m : Nat} {below : List String} (climbs : t.Climbs i m below)
    (noFailure : ∀ e, t.resolveAt i ≠ .error e) {path : String}
    (top : t.resolveAt m = .ok (some path)) :
    t.resolveAt i = .ok (some (path ++ Namespace.dotted below)) ∧ below.length ≤ t.size := by
  obtain ⟨lm, atM⟩ := Option.isSome_iff_exists.mp (isSome_link?_of_resolveAt top)
  obtain ⟨n, names, _, walks, resolved⟩ := walks_of_resolveAt atM (by simp [top])
  rw [top] at resolved
  obtain ⟨ns, rfl, joined⟩ : ∃ ns, names = some ns ∧ Namespace.join ns = path := by
    cases names with
    | none => cases resolved
    | some ns =>
      cases resolved
      exact ⟨ns, rfl, rfl⟩
  obtain ⟨li, atI, climbed⟩ := climbs.walks atM walks
  obtain ⟨n', names', enough, walks', resolvedI⟩ := walks_of_resolveAt atI noFailure
  obtain ⟨rfl, rfl⟩ := climbed.unique walks'
  refine ⟨?_, by omega⟩
  rw [resolvedI, ← joined]
  simp [Namespace.join_append below (walks.names_ne_nil ns rfl)]

section Renamed

variable {old : String} {matched : List Nat}

theorem mem_matching_iff (found : t.matching old = .ok matched) {m : Nat} :
    m ∈ matched ↔ m ∈ t.links ∧ t.resolveAt m = .ok (some old) := by
  have listed := found
  rw [matching_eq_ok old (noFailure_of_matching_eq_ok found)] at listed
  cases listed
  rw [List.mem_filter]
  cases t.resolveAt m <;> simp [Except.toOption]

theorem isSome_link?_of_mem_matching (found : t.matching old = .ok matched) :
    ∀ m ∈ matched, (t.link? m).isSome :=
  fun _ mem => isSome_link?_of_resolveAt (resolveAt_of_mem_matching found mem)

/-- A link that the search does not find keeps its name under the literal pass. -/
theorem nameKept_of_not_mem_matching (indexed : t.Indexed) (found : t.matching old = .ok matched)
    (keep : t.LiteralsKeep old) {j : Nat} (notFound : j ∉ matched) : t.NameKept old j := by
  intro l atJ
  refine keep j (fun top => notFound ?_) l atJ
  exact (mem_matching_iff found).mpr ⟨indexed.mem_links_iff.mpr (by simp [atJ]), top⟩

/-- The search finds as many links as there are entries whose path is `old`. -/
theorem length_matching (indexed : t.Indexed) (found : t.matching old = .ok matched) :
    matched.length =
      ((List.range t.size).filter fun i => (t.resolveAt i).toOption = some (some old)).length := by
  have listed := found
  rw [matching_eq_ok old (noFailure_of_matching_eq_ok found)] at listed
  cases listed
  rw [indexed.links, indicesWhere, List.filter_filter]
  congr 1
  apply List.filter_congr
  intro i _
  by_cases path : (t.resolveAt i).toOption = some (some old)
  · -- an entry with a path is a link
    have resolved : t.resolveAt i = .ok (some old) := by
      cases found' : t.resolveAt i <;> simp_all [Except.toOption]
    obtain ⟨l, atI⟩ := Option.isSome_iff_exists.mp (isSome_link?_of_resolveAt resolved)
    simp [path, get?_of_link? atI, Entry.isLink]
  · simp [path]

theorem moved_matching (found : t.matching old = .ok matched) (parts : List String) :
    t.Moved parts matched (t.repointAll parts matched) := by
  have inside : ∀ m ∈ matched, m < t.size := fun m mem => by
    obtain ⟨_, atM⟩ := Option.isSome_iff_exists.mp (isSome_link?_of_mem_matching found m mem)
    exact lt_size_of_link? atM
  simpa using (Moved.none t parts).foldl matched inside

/-- Below a found link the walk passes no other: those links have longer paths. -/
theorem not_mem_matching_below (indexed : t.Indexed) (found : t.matching old = .ok matched)
    {i m j : Nat} {below b : List String} (climbs : t.Climbs i m below) (mem : m ∈ matched)
    (climbsJ : t.Climbs i j b) (shorter : b.length < below.length) : j ∉ matched := by
  intro memJ
  obtain ⟨c, climbsC, rfl⟩ := climbsJ.prefix climbs (by omega)
  have nonEmpty : c ≠ [] := by
    rintro rfl
    simp at shorter
  have noFailure := noFailure_of_matching_eq_ok found j
    (indexed.mem_links_iff.mpr climbsC.isSome_link?)
  have pathJ := (resolveAt_of_climbs climbsC noFailure (resolveAt_of_mem_matching found mem)).1
  rw [resolveAt_of_mem_matching found memJ] at pathJ
  injection pathJ with same
  exact Namespace.append_dotted_ne nonEmpty (Option.some.inj same).symm

/-- After the links are repointed to `parts`, a link whose walk passes a found link walks to
`parts` followed by the names below the found link, within the table's size. -/
theorem walks_repointAll_climb (indexed : t.Indexed) (found : t.matching old = .ok matched)
    (closed : t.Closed) {parts : List String} (nonEmpty : parts ≠ []) {i m : Nat}
    {below : List String} (climbs : t.Climbs i m below) (mem : m ∈ matched) :
    ∃ l, (t.repointAll parts matched).link? i = some l ∧
      (t.repointAll parts matched).Walks l (parts.length - 1 + below.length)
        (some (parts ++ below)) ∧
      parts.length - 1 + below.length ≤ (t.repointAll parts matched).size := by
  have moved := moved_matching found parts
  have noFailure := noFailure_of_matching_eq_ok found i
    (indexed.mem_links_iff.mpr climbs.isSome_link?)
  have belowBound := (resolveAt_of_climbs climbs noFailure (resolveAt_of_mem_matching found mem)).2
  obtain ⟨l, atI, walks⟩ := moved.walks_climb closed (isSome_link?_of_mem_matching found)
    nonEmpty climbs mem fun j b climbsJ shorter =>
      not_mem_matching_below indexed found climbs mem climbsJ shorter
  have grown := moved.size_gt mem
  rw [List.length_dropLast] at grown
  exact ⟨l, atI, walks, by omega⟩

/-- After the links are repointed, the walk of every link ends within the table's size. -/
theorem walks_repointAll (indexed : t.Indexed) (found : t.matching old = .ok matched)
    (closed : t.Closed) {parts : List String} (nonEmpty : parts ≠ []) {i : Nat} {l : Link}
    (atI : (t.repointAll parts matched).link? i = some l) :
    ∃ n names, (t.repointAll parts matched).Walks l n names ∧
      n ≤ (t.repointAll parts matched).size := by
  have moved := moved_matching found parts
  have links := isSome_link?_of_mem_matching found
  by_cases mem : i ∈ matched
  · -- a found link walks along its fresh chain
    obtain ⟨l', atI', walks⟩ := moved.walks_moved nonEmpty mem
    rw [atI] at atI'
    cases atI'
    have grown := moved.size_gt mem
    rw [List.length_dropLast] at grown
    exact ⟨_, _, walks, by omega⟩
  rcases Nat.lt_or_ge i t.size with inside | above
  · -- a link of `t`: its walk passes a found link, or is the walk it had
    have atT : t.link? i = some l := (moved.link?_eq inside mem).symm.trans atI
    by_cases meets : ∃ m below, t.Climbs i m below ∧ m ∈ matched
    · obtain ⟨m, below, climbs, memM⟩ := meets
      obtain ⟨l', atI', walks, enough⟩ :=
        walks_repointAll_climb indexed found closed nonEmpty climbs memM
      rw [atI] at atI'
      cases atI'
      exact ⟨_, _, walks, enough⟩
    · have noFailure := noFailure_of_matching_eq_ok found i
        (indexed.mem_links_iff.mpr (by simp [atT]))
      obtain ⟨n, names, enough, walks, -⟩ := walks_of_resolveAt atT noFailure
      have grows := moved.grows
      exact ⟨n, names, moved.walks_kept closed links atT walks
        fun m below climbs memM => meets ⟨m, below, climbs, memM⟩, by omega⟩
  · -- a fresh link walks down the fresh entries
    obtain ⟨n, names, walks, steps⟩ := moved.walks_fresh (i + 1) i (by omega) above l atI
    have inside := lt_size_of_link? atI
    exact ⟨n, names, walks, by omega⟩

end Renamed

/-- What a rename that moved `count` links from `old` to `new` leaves in the table `t'`, for the
table `t` it started from. -/
structure RenamePaths (old new : String) (t : Table) (count : Nat) (t' : Table) : Prop where
  /-- The count is the number of entries whose path is `old`. -/
  count_eq : count =
    ((List.range t.size).filter fun i => (t.resolveAt i).toOption = some (some old)).length
  /-- When the references of `t` stay inside it, no path of `t'` fails. -/
  never_fails : t.Closed → ∀ i e, t'.resolveAt i ≠ .error e
  /-- When moreover the literal pass renames no link, a link whose walk passes a link with
  path `old` has `old` replaced by `new` at the front of its path. -/
  moved_paths : t.Closed → t.LiteralsKeep old → ∀ i m below, t.Climbs i m below →
    t.resolveAt m = .ok (some old) →
      t.resolveAt i = .ok (some (old ++ Namespace.dotted below)) ∧
        t'.resolveAt i = .ok (some (new ++ Namespace.dotted below))
  /-- and every other link keeps its path. -/
  kept_paths : t.Closed → t.LiteralsKeep old → ∀ i ∈ t.links,
    (∀ m below, t.Climbs i m below → t.resolveAt m ≠ .ok (some old)) →
      t'.resolveAt i = t.resolveAt i

/-- A rename that succeeds on a table with right index lists counts the links with path `old`.
When the table's references stay inside it, every path afterwards ends; when moreover no link
whose path is not `old` is named by a term name that a string literal holds and whose text has
`old` in it, the links at and below a link with path `old` move to `new`, the rest below it
carried along, and every other link keeps its path. -/
theorem rename_paths {old new : String} {t t' : Table} {count : Nat} (indexed : t.Indexed)
    (renamed : rename old new t = .ok count t') : RenamePaths old new t count t' := by
  obtain ⟨matched, found, rfl, rfl⟩ := rename_eq_ok renamed
  have nonEmpty := split_ne_nil new
  have moved := moved_matching found (Namespace.split new)
  have links := isSome_link?_of_mem_matching found
  -- the literal pass keeps every name that a link of the repointed table has
  have namesKept : t.Closed → t.LiteralsKeep old →
      ∀ j, (t.repointAll (Namespace.split new) matched).NameKept old j :=
    fun closed keep => moved.nameKept closed links fun _ =>
      nameKept_of_not_mem_matching indexed found keep
  refine ⟨length_matching indexed found, ?_, ?_, ?_⟩
  · -- the graph pass leaves walks that end, and the literal pass keeps their steps
    intro closed i e
    cases atI : (t.repointAll (Namespace.split new) matched).link? i with
    | none =>
      unfold resolveAt
      rw [link?_editLiterals, atI]
      simp [pure, Except.pure]
    | some l =>
      obtain ⟨n, names, walks, enough⟩ := walks_repointAll indexed found closed nonEmpty atI
      obtain ⟨names', walks'⟩ :=
        walks.retext (link?_editLiterals old new) (isSome_termName?_editLiterals old new)
      rw [resolveAt_of_walks ((link?_editLiterals old new i).trans atI) walks'
        (by simpa using enough)]
      simp
  · intro closed keep i m below climbs top
    have mem : m ∈ matched := (mem_matching_iff found).mpr
      ⟨indexed.mem_links_iff.mpr (isSome_link?_of_resolveAt top), top⟩
    have noFailure := noFailure_of_matching_eq_ok found i
      (indexed.mem_links_iff.mpr climbs.isSome_link?)
    refine ⟨(resolveAt_of_climbs climbs noFailure top).1, ?_⟩
    obtain ⟨l, atI, walks, enough⟩ :=
      walks_repointAll_climb indexed found closed nonEmpty climbs mem
    rw [resolveAt_editLiterals old new (namesKept closed keep),
      resolveAt_of_walks atI walks enough]
    simp [Namespace.join_append below nonEmpty, Namespace.join_split]
  · intro closed keep i mem away
    obtain ⟨l, atT⟩ := Option.isSome_iff_exists.mp (indexed.mem_links_iff.mp mem)
    have notMoved : i ∉ matched := fun memI =>
      away i [] (.here atT) (resolveAt_of_mem_matching found memI)
    obtain ⟨n, names, enough, walks, resolved⟩ :=
      walks_of_resolveAt atT (noFailure_of_matching_eq_ok found i mem)
    have kept := moved.walks_kept closed links atT walks fun m below climbs memM =>
      away m below climbs (resolveAt_of_mem_matching found memM)
    have atS := (moved.link?_eq (lt_size_of_link? atT) notMoved).trans atT
    have grows := moved.grows
    rw [resolveAt_editLiterals old new (namesKept closed keep),
      resolveAt_of_walks atS kept (by omega), resolved]


/-- The nested namespaces `a`, `a.b` and `a.b.d`, with `a.b` moved to `c.e`. -/
theorem rename_paths_nested :
    (⟨#[.name .term "a", .link ⟨0, none⟩, .name .term "b", .link ⟨2, some 1⟩,
        .name .term "d", .link ⟨4, some 3⟩], [1, 3, 5], []⟩ : Table).Indexed ∧
      ∃ t', rename "a.b" "c.e" ⟨#[.name .term "a", .link ⟨0, none⟩,
        .name .term "b", .link ⟨2, some 1⟩, .name .term "d", .link ⟨4, some 3⟩],
        [1, 3, 5], []⟩ = .ok 1 t' ∧
      RenamePaths "a.b" "c.e" ⟨#[.name .term "a", .link ⟨0, none⟩,
        .name .term "b", .link ⟨2, some 1⟩, .name .term "d", .link ⟨4, some 3⟩],
        [1, 3, 5], []⟩ 1 t' :=
  ⟨⟨by decide, by decide⟩, _, rfl, rename_paths ⟨by decide, by decide⟩ rfl⟩

/-- Without its two conditions the postcondition fails. A name that a string literal holds and
whose text has `x` in it is edited, and with it the path `ax` of the link it names; a link
named past the table's end is named by the fresh entries, and may then close a cycle; a
literal's name reference past the end lands on a fresh name, which is then edited. -/
theorem rename_changes_other_paths :
    (∃ t', rename "x" "y" ⟨#[.name .term "ax", .link ⟨0, none⟩, .raw 33 [0], .constant 2 [2]],
        [1], [3]⟩ = .ok 0 t' ∧ (t'.resolveAt 1).toOption = some (some "ay")) ∧
    (∃ t', rename "a" "b" ⟨#[.name .term "a", .link ⟨0, none⟩, .link ⟨3, none⟩], [1, 2], []⟩ =
        .ok 1 t' ∧ (t'.resolveAt 2).toOption = some (some "b")) ∧
    (∃ t', rename "a" "b" ⟨#[.name .term "a", .link ⟨0, none⟩, .name .term "c",
        .link ⟨5, some 4⟩, .link ⟨2, some 3⟩], [1, 3, 4], []⟩ = .ok 1 t' ∧
      (t'.resolveAt 3).toOption = none) ∧
    (∃ t', rename "a" "xa" ⟨#[.name .term "a", .link ⟨0, none⟩, .raw 33 [4], .constant 2 [2]],
        [1], [3]⟩ = .ok 1 t' ∧ (t'.resolveAt 1).toOption = some (some "xxa")) :=
  ⟨⟨_, rfl, by decide +kernel⟩, ⟨_, rfl, by decide +kernel⟩, ⟨_, rfl, by decide +kernel⟩,
    ⟨_, rfl, by decide +kernel⟩⟩

end Table

end PickleShading
