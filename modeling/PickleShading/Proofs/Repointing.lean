import PickleShading.Proofs.Renaming

/-!
# Repointing links to fresh paths

The graph pass of a rename repoints the found links one after another (`Table.repointed`).
Each repointing appends the entries of the new path behind the table (`Table.ChainAt`): the
term name of the last component, then a chain of a name and a link for each other component
(`Table.ChainFrom`), which a walk climbs to its outermost component (`ChainFrom.walks`). It
changes no entry already there but the repointed link. After any run of them the table is
described by `Table.Moved`: the old entries stand where they stood, each repointed link leads
into a chain of its own, and every fresh link leads only down to fresh entries stored before
it (`Table.Descends`), so its walk ends (`Moved.walks_fresh`).

When the references of the old table stay inside it (`Table.Closed`), a walk that passes no
repointed link is the same walk afterwards (`Moved.walks_kept`), and a walk whose first
repointed link is `m` ends in the new path followed by the names below `m`
(`Moved.walks_climb`).
-/

namespace PickleShading

namespace Table

variable {t s : Table}

theorem getElem?_chainEntries : ∀ (base : Nat) (parent : Option Nat) (parts : List String)
    (k : Nat) (inside : k < parts.length),
    (chainEntries base parent parts)[2 * k]? = some (.name .term parts[k]) ∧
      (chainEntries base parent parts)[2 * k + 1]? =
        some (.link ⟨base + 2 * k, if k = 0 then parent else some (base + 2 * k - 1)⟩)
  | _, _, [], _, inside => absurd inside (Nat.not_lt_zero _)
  | base, parent, part :: parts, 0, _ => by simp [chainEntries]
  | base, parent, part :: parts, k + 1, inside => by
    obtain ⟨name, link⟩ :=
      getElem?_chainEntries (base + 2) (some (base + 1)) parts k (by simpa using inside)
    have nameAt : 2 * (k + 1) = 2 * k + 1 + 1 := by omega
    have linkAt : 2 * (k + 1) + 1 = 2 * k + 1 + 1 + 1 := by omega
    rw [linkAt, nameAt, chainEntries]
    simp only [List.getElem?_cons_succ, List.getElem_cons_succ]
    refine ⟨name, ?_⟩
    rw [link]
    by_cases first : k = 0
    · subst first
      simp
    · simp only [first, if_false, Nat.add_one_ne_zero, Option.some.injEq, Entry.link.injEq,
        Link.mk.injEq]
      omega

/-- The link that a repointed link becomes, at the head of the fresh entries stored at `base`. -/
def chainTop (parts : List String) (base : Nat) : Link :=
  ⟨base, if parts.dropLast = [] then none else some (base + 2 * parts.dropLast.length)⟩

@[simp]
theorem size_repointed (s : Table) (parts : List String) (m : Nat) :
    (s.repointed parts m).size = s.size + 1 + 2 * parts.dropLast.length := by
  simp [repointed]

theorem get?_repointed_of_lt (parts : List String) {m j : Nat} (inside : j < s.size)
    (other : j ≠ m) : (s.repointed parts m).get? j = s.get? j := by
  simp only [repointed, get?_setEntry]
  rw [if_neg (fun same => other same.1.symm), get?_pushAll_of_lt _ (by simp; omega), get?_push,
    if_neg (by omega)]

theorem get?_repointed_fresh (parts : List String) {m : Nat} (inside : m < s.size) (k : Nat) :
    (s.repointed parts m).get? (s.size + k) =
      (Entry.name .term (parts.getLastD "") :: chainEntries (s.size + 1) none parts.dropLast)[k]? := by
  simp only [repointed, get?_setEntry]
  rw [if_neg (by omega)]
  cases k with
  | zero =>
    rw [get?_pushAll_of_lt _ (by simp), get?_push, if_pos (by omega)]
    rfl
  | succ k =>
    have shifted : s.size + (k + 1) = (s.push (.name .term (parts.getLastD ""))).1.size + k := by
      simp; omega
    rw [shifted, get?_pushAll_size_add]
    rfl

theorem link?_repointed_self (parts : List String) {m : Nat} (inside : m < s.size) :
    (s.repointed parts m).link? m = some (chainTop parts s.size) := by
  unfold link?
  simp only [repointed, get?_setEntry, true_and]
  rw [if_pos (by simp; omega)]
  rfl

theorem get?_of_link? {j : Nat} {l : Link} (isLink : t.link? j = some l) :
    t.get? j = some (.link l) := by
  unfold link? at isLink
  cases found : t.get? j with
  | none => simp [found] at isLink
  | some e => cases e <;> simp_all

theorem termName?_of_get? {j : Nat} {text : String} (found : s.get? j = some (.name .term text)) :
    s.termName? j = some text := by
  simp [termName?, found]

theorem link?_of_get? {j : Nat} {l : Link} (found : s.get? j = some (.link l)) :
    s.link? j = some l := by
  simp [link?, found]

/-- The fresh entries of the path `parts` stand at `base`: the term name of the last component,
then for each other component, outermost first, its term name and a link to it whose parent is
the link before it. -/
structure ChainAt (s : Table) (parts : List String) (base : Nat) : Prop where
  last : s.get? base = some (.name .term (parts.getLastD ""))
  names : ∀ k (inside : k < parts.dropLast.length),
    s.get? (base + 1 + 2 * k) = some (.name .term parts.dropLast[k])
  links : ∀ k, k < parts.dropLast.length → s.get? (base + 2 + 2 * k) =
    some (.link ⟨base + 1 + 2 * k, if k = 0 then none else some (base + 2 * k)⟩)

/-- Repointing a link inside the table stores the fresh entries right behind it. -/
theorem chainAt_repointed (parts : List String) {m : Nat} (inside : m < s.size) :
    (s.repointed parts m).ChainAt parts s.size := by
  have fresh := get?_repointed_fresh parts inside
  refine ⟨by simpa using fresh 0, ?_, ?_⟩
  · intro k bound
    have name := (getElem?_chainEntries (s.size + 1) none _ k bound).1
    rw [show s.size + 1 + 2 * k = s.size + (2 * k + 1) by omega, fresh]
    simpa using name
  · intro k bound
    have link := (getElem?_chainEntries (s.size + 1) none _ k bound).2
    rw [show s.size + 2 + 2 * k = s.size + (2 * k + 1 + 1) by omega, fresh]
    simp only [List.getElem?_cons_succ, link]
    by_cases first : k = 0
    · simp [first]
    · simp only [first, if_false, Option.some.injEq, Entry.link.injEq, Link.mk.injEq, true_and]
      omega

/-- The link of component `j` of a chain stored at `base`: its name stands right before it,
and its parent is the link of component `j - 1`, none for the outermost. -/
def chainLink (base j : Nat) : Link :=
  ⟨base + 2 * j, if j = 0 then none else some (base + 2 * j - 1)⟩

/-- The chain of the components `cs`, outermost first, stands at `base`. -/
def ChainFrom (s : Table) (base : Nat) (cs : List String) : Prop :=
  ∀ j (inside : j < cs.length), s.get? (base + 2 * j) = some (.name .term cs[j]) ∧
    s.get? (base + 2 * j + 1) = some (.link (chainLink base j))

/-- The walk from the link of component `j` climbs the chain to the outermost component,
collecting the components up to `j`. The induction is on `j`: each link's parent is the link
of the component before it. -/
theorem ChainFrom.walks {base : Nat} {cs : List String} (chain : s.ChainFrom base cs) :
    ∀ j, j < cs.length → s.Walks (chainLink base j) j (some (cs.take (j + 1)))
  | 0, inside => by
    have name := termName?_of_get? (chain 0 inside).1
    rw [List.take_one, List.head?_eq_getElem?, List.getElem?_eq_getElem inside]
    exact .root (by simpa [chainLink] using name) (by simp [chainLink])
  | j + 1, inside => by
    have below := chain.walks j (by omega)
    have name := termName?_of_get? (chain (j + 1) inside).1
    have parent := link?_of_get? (chain j (by omega)).2
    have parentAt : base + 2 * j + 1 = base + 2 * (j + 1) - 1 := by omega
    rw [parentAt] at parent
    rw [List.take_add_one, List.getElem?_eq_getElem inside]
    exact .up name (by simp [chainLink]) parent below

/-- The fresh entries of a repointed link are a chain behind the name of the last component. -/
theorem ChainAt.chainFrom {parts : List String} {base : Nat} (chain : s.ChainAt parts base) :
    s.ChainFrom (base + 1) parts.dropLast := by
  intro j inside
  refine ⟨chain.names j inside, ?_⟩
  have link := chain.links j inside
  rw [show base + 2 + 2 * j = base + 1 + 2 * j + 1 by omega] at link
  rw [link, chainLink]
  by_cases first : j = 0
  · simp [first]
  · simp only [first, if_false, Option.some.injEq, Entry.link.injEq, Link.mk.injEq, true_and]
    omega

/-- The repointed link walks along the whole chain to the outermost component of `parts`. -/
theorem ChainAt.walks {parts : List String} {base : Nat} (chain : s.ChainAt parts base)
    (nonEmpty : parts ≠ []) : s.Walks (chainTop parts base) (parts.length - 1) (some parts) := by
  have split : parts.dropLast ++ [parts.getLastD ""] = parts := by
    rw [List.getLastD_eq_getLast?, List.getLast?_eq_some_getLast nonEmpty]
    exact List.dropLast_concat_getLast nonEmpty
  have name := termName?_of_get? chain.last
  by_cases single : parts.dropLast = []
  · have steps : parts.length - 1 = 0 := by simpa using congrArg List.length single
    rw [steps]
    have whole : some parts = some [parts.getLastD ""] := by
      rw [← split, single]
      rfl
    rw [whole]
    exact .root name (by simp [chainTop, single])
  · have inner : parts.dropLast.length - 1 < parts.dropLast.length := by
      have := List.length_pos_iff.mpr single
      omega
    have below := chain.chainFrom.walks _ inner
    have parent := link?_of_get? (chain.chainFrom _ inner).2
    have innermost : base + 1 + 2 * (parts.dropLast.length - 1) + 1 =
        base + 2 * parts.dropLast.length := by omega
    rw [innermost] at parent
    have steps : parts.length - 1 = parts.dropLast.length - 1 + 1 := by
      simp only [List.length_dropLast] at inner ⊢
      omega
    have taken : parts.dropLast.take (parts.dropLast.length - 1 + 1) = parts.dropLast := by
      rw [Nat.sub_add_cancel (by omega)]
      exact List.take_length
    rw [taken] at below
    rw [steps]
    have whole : some parts = (some parts.dropLast).map (· ++ [parts.getLastD ""]) := by
      rw [Option.map_some, split]
    rw [whole]
    exact .up name (by simp [chainTop, single]) parent below

@[simp]
theorem constants_pushAll_chainEntries (s : Table) :
    ∀ (base : Nat) (parent : Option Nat) (parts : List String),
      (s.pushAll (chainEntries base parent parts)).constants = s.constants
  | _, _, [] => rfl
  | base, parent, _ :: parts => by
    simp [chainEntries, constants_pushAll_chainEntries _ (base + 2) _ parts, Entry.isConstant]

@[simp]
theorem constants_repointed (s : Table) (parts : List String) (m : Nat) :
    (s.repointed parts m).constants = s.constants := by
  simp [repointed, Entry.isConstant]

/-- The references of the table stay inside it: the name and the parent of every link, and
the name reference that a string literal's payload starts with. -/
structure Closed (t : Table) : Prop where
  links : ∀ i l, t.link? i = some l → l.nameRef < t.size ∧ ∀ p, l.parentRef = some p → p < t.size
  literals : ∀ r code payload n, t.get? r = some (.raw code payload) →
    LiteralKind.ofCode? code = some .string → Cursor.leadingVarint? payload = some n → n < t.size

/-- The entry at `j`, stored at or behind `floor`, is a name, or a link whose walk can only go
down towards `floor`: its term name and its parent link stand between `floor` and `j`. -/
def Descends (s : Table) (floor j : Nat) : Prop :=
  (∃ k text, s.get? j = some (.name k text)) ∨
    ∃ l, s.get? j = some (.link l) ∧ floor ≤ l.nameRef ∧ l.nameRef < j ∧
      (∃ text, s.get? l.nameRef = some (.name .term text)) ∧
      ∀ p, l.parentRef = some p → floor ≤ p ∧ p < j ∧ ∃ lp, s.get? p = some (.link lp)

/-- Whether an entry descends depends only on the entries from `floor` up to it. -/
theorem Descends.mono {s' : Table} {floor j : Nat} (descends : s.Descends floor j)
    (above : floor ≤ j) (same : ∀ i, floor ≤ i → i ≤ j → s'.get? i = s.get? i) :
    s'.Descends floor j := by
  have atJ := same j above (Nat.le_refl j)
  rcases descends with ⟨k, text, isName⟩ | ⟨l, isLink, low, below, ⟨text, named⟩, parents⟩
  · exact .inl ⟨k, text, atJ.trans isName⟩
  · refine .inr ⟨l, atJ.trans isLink, low, below, ⟨text, (same _ low (by omega)).trans named⟩, ?_⟩
    intro p hasParent
    obtain ⟨pLow, pBelow, lp, pLink⟩ := parents p hasParent
    exact ⟨pLow, pBelow, lp, (same p pLow (by omega)).trans pLink⟩

/-- The table `s` is `t` with the links `moved` repointed, one after another, to fresh entries of
the path `parts`, appended behind `t`'s entries. -/
structure Moved (t : Table) (parts : List String) (moved : List Nat) (s : Table) : Prop where
  grows : t.size ≤ s.size
  constants : s.constants = t.constants
  kept : ∀ j, j < t.size → j ∉ moved → s.get? j = t.get? j
  chains : ∀ m ∈ moved, ∃ base, t.size ≤ base ∧ base + 2 * parts.dropLast.length < s.size ∧
    s.ChainAt parts base ∧ s.link? m = some (chainTop parts base)
  fresh : ∀ j, t.size ≤ j → j < s.size → s.Descends t.size j

theorem Moved.none (t : Table) (parts : List String) : t.Moved parts [] t where
  grows := Nat.le_refl _
  constants := rfl
  kept _ _ _ := rfl
  chains _ mem := absurd mem List.not_mem_nil
  fresh _ above below := absurd below (by omega)

/-- The chain stays where nothing over its entries changed. -/
theorem ChainAt.mono {s' : Table} {parts : List String} {base : Nat} (chain : s.ChainAt parts base)
    (same : ∀ i, base ≤ i → i ≤ base + 2 * parts.dropLast.length → s'.get? i = s.get? i) :
    s'.ChainAt parts base where
  last := (same base (Nat.le_refl _) (by omega)).trans chain.last
  names k inside := (same _ (by omega) (by omega)).trans (chain.names k inside)
  links k inside := (same _ (by omega) (by omega)).trans (chain.links k inside)

theorem link?_repointed_of_lt (parts : List String) {m j : Nat} (inside : j < s.size)
    (other : j ≠ m) : (s.repointed parts m).link? j = s.link? j := by
  unfold link?
  rw [get?_repointed_of_lt parts inside other]

/-- The fresh entries of a repointing descend: the last component's name, then for each other
component a name and a link to it whose parent is the link before it. -/
theorem descends_repointed (parts : List String) {m floor : Nat} (inside : m < s.size)
    (low : floor ≤ s.size) {j : Nat} (fresh : s.size ≤ j) (below : j < (s.repointed parts m).size) :
    (s.repointed parts m).Descends floor j := by
  have chain := chainAt_repointed parts inside
  obtain ⟨k, rfl⟩ : ∃ k, j = s.size + k := ⟨j - s.size, by omega⟩
  simp only [size_repointed] at below
  rcases Nat.mod_two_eq_zero_or_one k with even | odd
  · by_cases first : k = 0
    · subst first
      exact .inl ⟨_, _, chain.last⟩
    · -- the link of the component `q`, at `2 + 2 * q` behind the old entries
      obtain ⟨q, rfl⟩ : ∃ q, k = 2 + 2 * q := ⟨(k - 2) / 2, by omega⟩
      have inner : q < parts.dropLast.length := by omega
      have link := chain.links q inner
      rw [Nat.add_assoc] at link
      refine .inr ⟨_, link, by dsimp only; omega, by dsimp only; omega, ⟨_, chain.names q inner⟩, ?_⟩
      intro p hasParent
      by_cases outermost : q = 0
      · simp [outermost] at hasParent
      · simp only [outermost, if_false, Option.some.injEq] at hasParent
        subst hasParent
        have parent := chain.links (q - 1) (by omega)
        rw [show s.size + 2 + 2 * (q - 1) = s.size + 2 * q by omega] at parent
        exact ⟨by omega, by omega, _, parent⟩
  · -- the name of the component `q`, at `1 + 2 * q` behind the old entries
    obtain ⟨q, rfl⟩ : ∃ q, k = 1 + 2 * q := ⟨k / 2, by omega⟩
    have name := chain.names q (by omega)
    rw [Nat.add_assoc] at name
    exact .inl ⟨_, _, name⟩

/-- One more repointing of a link of `t` keeps the description. -/
theorem Moved.repointed {parts : List String} {done : List Nat} (moved : t.Moved parts done s)
    {m : Nat} (inside : m < t.size) : t.Moved parts (done ++ [m]) (s.repointed parts m) := by
  have grows := moved.grows
  have insideS : m < s.size := by omega
  refine ⟨by simp only [size_repointed]; omega, by simp [moved.constants], ?_, ?_, ?_⟩
  · intro j below notMoved
    simp only [List.mem_append, List.mem_singleton, not_or] at notMoved
    rw [get?_repointed_of_lt parts (by omega) notMoved.2]
    exact moved.kept j below notMoved.1
  · intro m' mem
    by_cases same : m' = m
    · subst same
      exact ⟨s.size, grows, by simp, chainAt_repointed parts insideS,
        link?_repointed_self parts insideS⟩
    · obtain ⟨base, low, high, chain, atM⟩ := moved.chains m' (by simpa [same] using mem)
      -- the chain lies behind `t`, so no repointing of a link of `t` reaches it
      refine ⟨base, low, by simp only [size_repointed]; omega, chain.mono ?_, ?_⟩
      · intro i above below
        exact get?_repointed_of_lt parts (by omega) (by omega)
      · rw [link?_repointed_of_lt parts (lt_size_of_link? atM) same]
        exact atM
  · intro j above below
    by_cases old : j < s.size
    · exact (moved.fresh j above old).mono above fun i low high =>
        get?_repointed_of_lt parts (by omega) (by omega)
    · exact descends_repointed parts insideS grows (by omega) below

/-- Repointing links of `t` one after another keeps the description. -/
theorem Moved.foldl {parts : List String} : ∀ {done : List Nat} {s : Table} (ms : List Nat),
    t.Moved parts done s → (∀ m ∈ ms, m < t.size) →
      t.Moved parts (done ++ ms) (s.repointAll parts ms)
  | _, _, [], moved, _ => by simpa using moved
  | _, _, m :: ms, moved, inside => by
    have step := moved.repointed (inside m List.mem_cons_self)
    simpa using Moved.foldl ms step fun m' mem => inside m' (List.mem_cons_of_mem m mem)

/-- A link is no name. -/
theorem termName?_of_link? {j : Nat} {l : Link} (isLink : s.link? j = some l) :
    s.termName? j = none := by
  unfold link? at isLink
  unfold termName?
  cases found : s.get? j with
  | none => rfl
  | some e => cases e <;> simp_all

section Moved

variable {parts : List String} {done : List Nat}

theorem Moved.link?_eq (moved : t.Moved parts done s) {j : Nat} (inside : j < t.size)
    (notMoved : j ∉ done) : s.link? j = t.link? j := by
  unfold link?
  rw [moved.kept j inside notMoved]

/-- Below `t`'s size the names read as in `t`: a repointed link is a link before and after. -/
theorem Moved.termName?_eq (moved : t.Moved parts done s) (links : ∀ m ∈ done, (t.link? m).isSome)
    {j : Nat} (inside : j < t.size) : s.termName? j = t.termName? j := by
  by_cases mem : j ∈ done
  · obtain ⟨_, _, _, _, atJ⟩ := moved.chains j mem
    obtain ⟨_, atJ'⟩ := Option.isSome_iff_exists.mp (links j mem)
    rw [termName?_of_link? atJ, termName?_of_link? atJ']
  · unfold termName?
    rw [moved.kept j inside mem]

/-- The fresh entries hold a chain of the path for every repointed link. -/
theorem Moved.size_gt (moved : t.Moved parts done s) {m : Nat} (mem : m ∈ done) :
    t.size + 2 * parts.dropLast.length < s.size := by
  obtain ⟨base, low, high, _, _⟩ := moved.chains m mem
  omega

/-- A repointed link walks along its chain to the path `parts`. -/
theorem Moved.walks_moved (moved : t.Moved parts done s) (nonEmpty : parts ≠ []) {m : Nat}
    (mem : m ∈ done) : ∃ l, s.link? m = some l ∧ s.Walks l (parts.length - 1) (some parts) := by
  obtain ⟨_, _, _, chain, atM⟩ := moved.chains m mem
  exact ⟨_, atM, chain.walks nonEmpty⟩

/-- The walk of a fresh link goes down the fresh entries only, so it ends, in at most as many
steps as there are fresh entries before it. -/
theorem Moved.walks_fresh (moved : t.Moved parts done s) :
    ∀ bound j, j < bound → t.size ≤ j → ∀ l, s.link? j = some l →
      ∃ n names, s.Walks l n names ∧ n ≤ j - t.size := by
  intro bound
  induction bound with
  | zero => intro j below; omega
  | succ bound ih =>
    intro j below above l atJ
    rcases moved.fresh j above (lt_size_of_link? atJ) with
      ⟨_, _, isName⟩ | ⟨l', isLink, _, _, ⟨_, named⟩, parents⟩
    · simp [link?, isName] at atJ
    · have same : l' = l := by simpa [link?, isLink] using atJ
      subst same
      cases hasParent : l'.parentRef with
      | none => exact ⟨0, _, .root (termName?_of_get? named) hasParent, Nat.zero_le _⟩
      | some p =>
        obtain ⟨pLow, pBelow, lp, pLink⟩ := parents p hasParent
        obtain ⟨n, names, walks, steps⟩ := ih p (by omega) pLow lp (link?_of_get? pLink)
        exact ⟨n + 1, _, .up (termName?_of_get? named) hasParent (link?_of_get? pLink) walks,
          by omega⟩

/-- A walk that passes no repointed link is the same walk after the repointing, when the
references of `t` stay inside it. -/
theorem Moved.walks_kept (moved : t.Moved parts done s) (closed : t.Closed)
    (links : ∀ m ∈ done, (t.link? m).isSome) {i : Nat} {l : Link} (atI : t.link? i = some l)
    {n : Nat} {names : Option (List String)} (walks : t.Walks l n names)
    (away : ∀ m below, t.Climbs i m below → m ∉ done) : s.Walks l n names := by
  refine walks.transport atI fun j b l' climbs atJ => ?_
  obtain ⟨nameInside, parentInside⟩ := closed.links j l' atJ
  refine ⟨(moved.link?_eq (lt_size_of_link? atJ) (away j b climbs)).trans atJ,
    moved.termName?_eq links nameInside, ?_⟩
  intro p hasParent noLink
  -- a parent that is no link of `t` was not repointed
  have notMoved : p ∉ done := fun mem => by simpa [noLink] using links p mem
  rw [moved.link?_eq (parentInside p hasParent) notMoved, noLink]

/-- A walk whose first repointed link is `m`, after the links named `below`, ends in the path
`parts` followed by `below`. -/
theorem Moved.walks_climb (moved : t.Moved parts done s) (closed : t.Closed)
    (links : ∀ m ∈ done, (t.link? m).isSome) (nonEmpty : parts ≠ []) {i m : Nat}
    {below : List String} (climbs : t.Climbs i m below) (mem : m ∈ done)
    (first : ∀ j b, t.Climbs i j b → b.length < below.length → j ∉ done) :
    ∃ l, s.link? i = some l ∧
      s.Walks l (parts.length - 1 + below.length) (some (parts ++ below)) := by
  obtain ⟨top, atTop, topWalks⟩ := moved.walks_moved nonEmpty mem
  have climbs' : s.Climbs i m below := by
    refine climbs.transport (fun j b l' climbsJ shorter atJ => ⟨?_, ?_⟩) (by simp [atTop])
    · exact (moved.link?_eq (lt_size_of_link? atJ) (first j b climbsJ shorter)).trans atJ
    · exact moved.termName?_eq links (closed.links j l' atJ).1
  simpa using climbs'.walks atTop topWalks

end Moved

end Table

end PickleShading
