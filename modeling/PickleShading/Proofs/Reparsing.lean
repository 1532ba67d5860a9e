import PickleShading.Proofs.RoundTrip
import PickleShading.Proofs.MovedPaths

/-!
# Reachable pickles are written and read back

A pickle that was read and then renamed any number of times, by renames that succeeded or
failed, has version 5.0, and as long as its table has at most `Varint.maxWord` entries:

* writing it succeeds exactly when every payload has at most `Varint.maxWord` bytes, and fails
  otherwise with the length of the first payload that is longer;
* reading what was written gives the pickle back, entries and index lists alike.

This is `Pickle.reachable_reparses`. The argument is an invariant of tables, `Table.Faithful`:
the index lists agree with the entries, and every entry is stable, that is decoding its own
code and payload gives it back (`Entry.Stable`). Reading gives a faithful table, since every
entry it holds was decoded. A rename keeps it: the entries it appends are names and links to
entries before them, the links it repoints get references inside the table, and the literal
pass changes only the text of names. A failed rename changes nothing. A faithful table is
written as the frames of its entries, each with its length in shortest form
(`Table.writeEntries_stable`), and reading those frames decodes every entry back to itself.

The bound on payloads cannot be dropped. A name held by a string literal grows with every
rename whose target is longer than its source: two renames of `a` to 65536 letters take a
one-letter name to 2^32 bytes, and writing that pickle fails
(`Pickle.reachable_unwritable_name`).
-/

namespace PickleShading

namespace Entry

/-- A stable link was decoded from its payload, so its references fit 32 bits. -/
theorem Stable.linkFits {l : Link} (stable : (link l).Stable) : l.Fits := by
  unfold Stable at stable
  rcases ofRaw_cases (link l).code (link l).payload with isRaw | ⟨k, text, -, -, isName⟩ |
      ⟨l', -, decoded, isLink⟩ | ⟨r, -, isConstant⟩
  · rw [isRaw] at stable; cases stable
  · rw [isName] at stable; cases stable
  · rw [isLink] at stable
    cases stable
    exact (Link.ofPayload?_eq_some decoded).2
  · rw [isConstant] at stable; cases stable

/-- A stable entry fits as soon as its payload length does. -/
theorem Stable.fits {e : Entry} (stable : e.Stable) (lengthFits : e.payload.length ≤ Varint.maxWord) :
    e.Fits :=
  stable ▸ fits_ofRaw e.code lengthFits

/-- A stable entry is written as its frame when its payload length fits 32 bits, and refused
with that length otherwise: its references, if it is a link, always fit. -/
theorem Stable.write_eq {e : Entry} (stable : e.Stable) :
    e.write = if e.payload.length ≤ Varint.maxWord then
      .ok (e.code :: Varint.encode e.payload.length ++ e.payload)
    else .error (.numberTooWide e.payload.length) := by
  split
  · rename_i lengthFits
    exact write_of_fits (stable.fits lengthFits)
  · rename_i tooLong
    have wordFails : Varint.word e.payloadLength = .error (.numberTooWide e.payload.length) := by
      simp [Varint.word, tooLong]
    cases e with
    | link l =>
      have refsChecked := (Link.checkRefs_eq_ok l).mpr stable.linkFits
      simp only [write, bind, Except.bind, refsChecked, wordFails]
    | raw | name | constant => simp only [write, bind, Except.bind, wordFails]

/-- Framing is lossless for every way of decoding an entry, raw fallback included: the entry
decoded from a code and payload has that code, and is written as the code, the shortest framed
length and the payload, or refused with the length when the payload is longer than 32 bits can
count. -/
theorem write_ofRaw_exact (code : UInt8) (bytes : List UInt8) :
    (ofRaw code bytes).code = code ∧
    (ofRaw code bytes).write = if bytes.length ≤ Varint.maxWord then
        .ok (code :: Varint.encode bytes.length ++ bytes)
      else .error (.numberTooWide bytes.length) := by
  have written := (stable_ofRaw code bytes).write_eq
  rw [code_ofRaw, payload_ofRaw] at written
  exact ⟨code_ofRaw code bytes, written⟩

/-- The frame an entry is written in: its code and payload, the length unpadded. -/
def frame (e : Entry) : Frame := ⟨e.code, 0, e.payload⟩

@[simp]
theorem bytes_frame (e : Entry) : e.frame.bytes = e.frame.shortest := by
  simp [frame, Frame.bytes, Frame.shortest, Varint.padded]

/-- Reading the frame of a stable entry gives the entry back. -/
theorem Stable.entry_frame {e : Entry} (stable : e.Stable) : e.frame.entry = e := stable

end Entry

namespace Table

variable {t s : Table}

/-- Writing stable entries fails on the first whose payload is longer than 32 bits can count,
with its length; otherwise it gives their frames one after another. -/
theorem writeEntries_stable : ∀ es : List Entry, (∀ e ∈ es, e.Stable) →
    writeEntries es = match es.find? fun e => decide (Varint.maxWord < e.payload.length) with
      | some e => .error (.numberTooWide e.payload.length)
      | none => .ok ((es.map Entry.frame).map Frame.shortest).flatten
  | [], _ => rfl
  | e :: es, stable => by
    have rest := writeEntries_stable es fun e' mem => stable e' (List.mem_cons_of_mem e mem)
    simp only [writeEntries, List.find?_cons, (stable e List.mem_cons_self).write_eq]
    by_cases long : Varint.maxWord < e.payload.length
    · rw [if_neg (Nat.not_le.mpr long)]
      simp only [long, decide_true]
      rfl
    · rw [if_pos (Nat.le_of_not_lt long), rest]
      cases es.find? fun e => decide (Varint.maxWord < e.payload.length) <;>
        simp [long, bind, Except.bind, pure, Except.pure, Entry.frame, Frame.shortest]

theorem mem_entries_toList {e : Entry} : e ∈ t.entries.toList ↔ ∃ i, t.get? i = some e := by
  simp [List.mem_iff_getElem?, get?]

/-- A table whose index lists are right is its entries pushed onto the empty table. -/
theorem Indexed.eq_pushAll (indexed : t.Indexed) : Table.empty.pushAll t.entries.toList = t := by
  have pushed := Indexed.pushAll Indexed.empty t.entries.toList
  have sameEntries : (Table.empty.pushAll t.entries.toList).entries = t.entries := by
    simp [Table.empty]
  have sameKinds : ∀ p : Entry → Bool,
      (Table.empty.pushAll t.entries.toList).indicesWhere p = t.indicesWhere p := fun p =>
    indicesWhere_congr (by simp only [size, sameEntries]) fun j => by simp only [get?, sameEntries]
  have sameLinks : (Table.empty.pushAll t.entries.toList).links = t.links := by
    rw [pushed.links, indexed.links, sameKinds]
  have sameConstants : (Table.empty.pushAll t.entries.toList).constants = t.constants := by
    rw [pushed.constants, indexed.constants, sameKinds]
  calc Table.empty.pushAll t.entries.toList
      = ⟨(Table.empty.pushAll t.entries.toList).entries, (Table.empty.pushAll t.entries.toList).links,
          (Table.empty.pushAll t.entries.toList).constants⟩ := rfl
    _ = t := by rw [sameEntries, sameLinks, sameConstants]

/-- A table that writing and reading give back: its index lists agree with its entries, and
every entry is stable. -/
structure Faithful (t : Table) : Prop where
  indexed : t.Indexed
  stable : ∀ i e, t.get? i = some e → e.Stable

theorem Faithful.stable_of_mem (faithful : t.Faithful) {e : Entry} (mem : e ∈ t.entries.toList) :
    e.Stable := by
  obtain ⟨i, found⟩ := mem_entries_toList.mp mem
  exact faithful.stable i e found

/-- Every table that reading gives is faithful: its entries were decoded. -/
theorem faithful_pushAll_frames (frames : List Frame) :
    (Table.empty.pushAll (frames.map Frame.entry)).Faithful where
  indexed := Indexed.pushAll Indexed.empty _
  stable i e found := by
    simp only [get?, entries_pushAll, Table.empty] at found
    obtain ⟨f, -, rfl⟩ := List.mem_map.mp (List.mem_of_getElem? (by simpa using found))
    exact Entry.stable_ofRaw f.code f.payload

/-- Repointing a link keeps the index lists right: the link stays a link. -/
theorem Indexed.repointed (indexed : s.Indexed) (parts : List String) {m : Nat}
    (isLink : (s.link? m).isSome) : (s.repointed parts m).Indexed := by
  obtain ⟨l, atM⟩ := Option.isSome_iff_exists.mp isLink
  have inside := lt_size_of_link? atM
  apply Indexed.setEntry ((indexed.push _).pushAll _)
  intro old found
  rw [get?_pushAll_of_lt _ (by simp; omega), get?_push, if_neg (by omega), get?_of_link? atM]
    at found
  cases found
  exact ⟨rfl, rfl⟩

theorem Indexed.repointAll (parts : List String) : ∀ {s : Table} (ms : List Nat), s.Indexed →
    (∀ m ∈ ms, (s.link? m).isSome) → (s.repointAll parts ms).Indexed
  | _, [], indexed, _ => indexed
  | _, m :: ms, indexed, links => by
    rw [repointAll_cons]
    exact Indexed.repointAll parts ms (indexed.repointed parts (links m List.mem_cons_self))
      fun m' mem => isSome_link?_repointed parts (links m' (List.mem_cons_of_mem m mem))

theorem chainTop_fits {parts : List String} {base : Nat}
    (high : base + 2 * parts.dropLast.length ≤ Varint.maxWord) : (chainTop parts base).Fits := by
  refine ⟨by simp only [chainTop]; omega, fun p hasParent => ?_⟩
  simp only [chainTop] at hasParent
  split at hasParent
  · cases hasParent
  · cases hasParent
    omega

/-- After repointing, every entry is stable when every entry before was and the table stays
within 32 bits: an old entry is kept or became a link to a fresh chain, and a fresh entry is a
name or a link to entries before it. -/
theorem Moved.stable {parts : List String} {done : List Nat} (moved : t.Moved parts done s)
    (stable : ∀ i e, t.get? i = some e → e.Stable) (bounded : s.size ≤ Varint.maxWord) :
    ∀ j e, s.get? j = some e → e.Stable := by
  intro j e found
  have inside := lt_size_of_get? found
  by_cases old : j < t.size
  · by_cases repointed : j ∈ done
    · obtain ⟨base, -, high, -, atJ⟩ := moved.chains j repointed
      rw [get?_of_link? atJ] at found
      cases found
      exact Entry.stable_link (chainTop_fits (by omega))
    · exact stable j e ((moved.kept j old repointed).symm.trans found)
  · rcases moved.fresh j (by omega) inside with ⟨k, text, isName⟩ |
        ⟨l, isLink, -, below, -, parents⟩
    · rw [isName] at found
      cases found
      exact Entry.stable_name k text
    · rw [isLink] at found
      cases found
      exact Entry.stable_link ⟨by omega, fun p hasParent => by
        have := (parents p hasParent).2.1
        omega⟩

@[simp]
theorem isLink_replaceInName (old new : String) (e : Entry) :
    (replaceInName old new e).isLink = e.isLink := by
  cases e <;> rfl

@[simp]
theorem isConstant_replaceInName (old new : String) (e : Entry) :
    (replaceInName old new e).isConstant = e.isConstant := by
  cases e <;> rfl

theorem stable_replaceInName (old new : String) {e : Entry} (stable : e.Stable) :
    (replaceInName old new e).Stable := by
  cases e with
  | name k text => exact Entry.stable_name k _
  | raw | link | constant => exact stable

/-- Editing the literals keeps the kind of every entry, so the index lists stay right. -/
theorem Indexed.editLiterals (indexed : t.Indexed) (old new : String) :
    (t.editLiterals old new).Indexed := by
  have same : ∀ p : Entry → Bool, (p = Entry.isLink ∨ p = Entry.isConstant) →
      (t.editLiterals old new).indicesWhere p = t.indicesWhere p := by
    intro p kind
    apply indicesWhere_congr (size_editLiterals t old new)
    intro j
    rw [get?_editLiterals]
    cases t.get? j with
    | none => rfl
    | some e => rcases kind with rfl | rfl <;> split <;> simp
  exact ⟨by rw [links_editLiterals, indexed.links, same _ (.inl rfl)],
    by rw [constants_editLiterals, indexed.constants, same _ (.inr rfl)]⟩

theorem Faithful.editLiterals (faithful : t.Faithful) (old new : String) :
    (t.editLiterals old new).Faithful where
  indexed := faithful.indexed.editLiterals old new
  stable i e found := by
    rw [get?_editLiterals] at found
    obtain ⟨e', found', rfl⟩ := Option.map_eq_some_iff.mp found
    split
    · exact stable_replaceInName old new (faithful.stable i e' found')
    · exact faithful.stable i e' found'

/-- A rename keeps a table faithful as long as the renamed table stays within 32 bits. -/
theorem Faithful.rename {old new : String} {count : Nat} {t' : Table} (faithful : t.Faithful)
    (renamed : rename old new t = .ok count t') (bounded : t'.size ≤ Varint.maxWord) :
    t'.Faithful := by
  obtain ⟨matched, found, -, rfl⟩ := rename_eq_ok renamed
  have moved := moved_matching found (Namespace.split new)
  have repointed : (t.repointAll (Namespace.split new) matched).Faithful :=
    ⟨faithful.indexed.repointAll _ matched (isSome_link?_of_mem_matching found),
      moved.stable faithful.stable (by simpa using bounded)⟩
  exact repointed.editLiterals old new

/-- A rename only appends entries. -/
theorem size_le_of_rename {old new : String} {count : Nat} {t' : Table}
    (renamed : rename old new t = .ok count t') : t.size ≤ t'.size := by
  obtain ⟨matched, found, -, rfl⟩ := rename_eq_ok renamed
  simpa using (moved_matching found (Namespace.split new)).grows

end Table

namespace Pickle

variable {t : Table}

/-- Writing a pickle with a faithful table of at most `Varint.maxWord` entries fails on the
first payload that is too long, and otherwise gives the version and the count in shortest
form, then the frames of the entries. -/
theorem serialize_faithful (major minor : Nat) (faithful : t.Faithful)
    (bounded : t.size ≤ Varint.maxWord) :
    (⟨major, minor, t⟩ : Pickle).serialize =
      match t.entries.toList.find? fun e => decide (Varint.maxWord < e.payload.length) with
      | some e => .error (.numberTooWide e.payload.length)
      | none => .ok (Varint.encode major ++ Varint.encode minor ++ Varint.encode t.size ++
          ((t.entries.toList.map Entry.frame).map Frame.shortest).flatten) := by
  simp only [serialize, Table.write, Varint.word, if_pos bounded,
    Table.writeEntries_stable _ fun e mem => faithful.stable_of_mem mem]
  split <;> simp [bind, Except.bind, pure, Except.pure]

/-- Reading the frames of a faithful table, written at version 5.0 and followed by nothing or a
single zero byte, gives the table back. -/
theorem parse_frames_faithful_trailer (faithful : t.Faithful) (bounded : t.size ≤ Varint.maxWord)
    (fits : ∀ e ∈ t.entries.toList, e.payload.length ≤ Varint.maxWord) {trailer : List UInt8}
    (trailerShape : trailer = [] ∨ trailer = [0]) :
    parse (Varint.encode 5 ++ Varint.encode 0 ++ Varint.encode t.size ++
      ((t.entries.toList.map Entry.frame).map Frame.shortest).flatten ++ trailer) = .ok ⟨5, 0, t⟩ := by
  have framesFit : ∀ f ∈ t.entries.toList.map Entry.frame, f.payload.length ≤ Varint.maxWord := by
    simpa [Entry.frame] using fits
  have read := parse_frames 0 0 0 (t.entries.toList.map Entry.frame) trailerShape framesFit
    (by simpa [Table.size] using bounded)
  -- every frame is unpadded, and decodes to the entry it was written for
  have sameBytes : (t.entries.toList.map Entry.frame).map Frame.bytes =
      (t.entries.toList.map Entry.frame).map Frame.shortest := by
    simp
  have sameEntries : (t.entries.toList.map Entry.frame).map Frame.entry = t.entries.toList := by
    rw [List.map_map]
    conv_rhs => rw [← List.map_id t.entries.toList]
    exact List.map_congr_left fun e mem => (faithful.stable_of_mem mem).entry_frame
  rw [sameBytes, sameEntries, faithful.indexed.eq_pushAll] at read
  simpa [Varint.padded_zero, Table.size] using read

/-- Reading the frames of a faithful table, written at version 5.0, gives the table back. -/
theorem parse_frames_faithful (faithful : t.Faithful) (bounded : t.size ≤ Varint.maxWord)
    (fits : ∀ e ∈ t.entries.toList, e.payload.length ≤ Varint.maxWord) :
    parse (Varint.encode 5 ++ Varint.encode 0 ++ Varint.encode t.size ++
      ((t.entries.toList.map Entry.frame).map Frame.shortest).flatten) = .ok ⟨5, 0, t⟩ := by
  simpa using parse_frames_faithful_trailer faithful bounded fits (.inl rfl)

/-- The pickles that reading and renaming lead to. -/
inductive Reachable : Pickle → Prop
  /-- A pickle read from bytes. -/
  | parsed (bytes : List UInt8) {p : Pickle} : parse bytes = .ok p → Reachable p
  /-- The pickle after a rename of its table that succeeded. -/
  | renamed {p : Pickle} {old new : String} {count : Nat} {t : Table} :
      Reachable p → Table.rename old new p.table = .ok count t → Reachable { p with table := t }
  /-- The pickle after a rename of its table that failed, as the failure left it. -/
  | refused {p : Pickle} {old new : String} {e : Error} {t : Table} :
      Reachable p → Table.rename old new p.table = .error e t → Reachable { p with table := t }

/-- Every reachable pickle has version 5.0, and its table is faithful while it stays within
32 bits. The induction is on how the pickle was reached; tables only grow, so the bound holds
at every step before the last. -/
theorem Reachable.faithful {p : Pickle} (reachable : p.Reachable)
    (bounded : p.table.size ≤ Varint.maxWord) : p.major = 5 ∧ p.minor = 0 ∧ p.table.Faithful := by
  induction reachable with
  | parsed bytes parsed =>
    obtain ⟨c, readOk⟩ := parse_eq_ok.mp parsed
    obtain ⟨-, -, -, frames, -, -, -, -, -, rfl⟩ := read_eq_ok readOk
    exact ⟨rfl, rfl, Table.faithful_pushAll_frames frames⟩
  | renamed _ renamed ih =>
    obtain ⟨major, minor, faithful⟩ := ih (le_trans (Table.size_le_of_rename renamed) bounded)
    exact ⟨major, minor, faithful.rename renamed bounded⟩
  | refused _ failed ih =>
    rw [Table.rename_eq_error failed] at bounded ⊢
    exact ih bounded

/-- A pickle reached by reading and renaming, with at most `Varint.maxWord` entries, has
version 5.0, and its table is faithful: every entry reads back from what it writes, and the
index lists match the entries. Writing it succeeds exactly when every payload has at most
`Varint.maxWord` bytes;
what it writes is read back as the same pickle, entries and index lists alike; and when it
fails, it fails on an entry whose payload is longer, with that length. -/
theorem reachable_reparses {p : Pickle} (reachable : p.Reachable)
    (bounded : p.table.size ≤ Varint.maxWord) :
    p.major = 5 ∧ p.minor = 0 ∧ p.table.Faithful ∧
    ((∃ bytes, p.serialize = .ok bytes) ↔
      ∀ i e, p.table.get? i = some e → e.payload.length ≤ Varint.maxWord) ∧
    (∀ bytes, p.serialize = .ok bytes → parse bytes = .ok p) ∧
    ∀ err, p.serialize = .error err → ∃ i e, p.table.get? i = some e ∧
      Varint.maxWord < e.payload.length ∧ err = .numberTooWide e.payload.length := by
  obtain ⟨major, minor, faithful⟩ := reachable.faithful bounded
  obtain ⟨_, _, t⟩ := p
  dsimp only at major minor faithful bounded ⊢
  subst major minor
  have written := serialize_faithful 5 0 faithful bounded
  cases found : t.entries.toList.find? fun e => decide (Varint.maxWord < e.payload.length) with
  | none =>
    -- no payload is too long: writing succeeds and is read back
    have fits : ∀ e ∈ t.entries.toList, e.payload.length ≤ Varint.maxWord := fun e mem => by
      simpa using List.find?_eq_none.mp found e mem
    rw [found] at written
    refine ⟨rfl, rfl, faithful, ⟨fun _ i e atI => fits e (Table.mem_entries_toList.mpr ⟨i, atI⟩),
      fun _ => ⟨_, written⟩⟩, ?_, ?_⟩
    · intro bytes ok
      rw [written] at ok
      cases ok
      exact parse_frames_faithful faithful bounded fits
    · intro err failed
      rw [written] at failed
      cases failed
  | some e =>
    -- the first payload that is too long makes writing fail
    have long : Varint.maxWord < e.payload.length := by simpa using List.find?_some found
    obtain ⟨i, atI⟩ := Table.mem_entries_toList.mp (List.mem_of_find?_eq_some found)
    rw [found] at written
    refine ⟨rfl, rfl, faithful, ⟨fun ⟨_, ok⟩ => ?_,
      fun fits => absurd (fits i e atI) (Nat.not_le.mpr long)⟩,
      fun _ ok => ?_, fun err failed => ⟨i, e, atI, long, ?_⟩⟩
    · rw [written] at ok
      cases ok
    · rw [written] at ok
      cases ok
    · rw [written] at failed
      cases failed
      rfl

/-- A pickle read with a name and a namespace link to it, whose namespace `a` then moved to
`b.c`. -/
theorem reachable_reparses_moved :
    Reachable ⟨5, 0, ⟨#[.name .term "a", .link ⟨2, some 4⟩, .name .term "c", .name .term "b",
      .link ⟨3, none⟩], [1, 4], []⟩⟩ ∧
    (⟨#[.name .term "a", .link ⟨2, some 4⟩, .name .term "c", .name .term "b",
      .link ⟨3, none⟩], [1, 4], []⟩ : Table).size ≤ Varint.maxWord ∧
    ((5 : Nat) = 5 ∧ (0 : Nat) = 0 ∧
    (⟨#[.name .term "a", .link ⟨2, some 4⟩, .name .term "c", .name .term "b",
      .link ⟨3, none⟩], [1, 4], []⟩ : Table).Faithful ∧
    ((∃ bytes, (⟨5, 0, ⟨#[.name .term "a", .link ⟨2, some 4⟩, .name .term "c", .name .term "b",
        .link ⟨3, none⟩], [1, 4], []⟩⟩ : Pickle).serialize = .ok bytes) ↔
      ∀ i e, (⟨#[.name .term "a", .link ⟨2, some 4⟩, .name .term "c", .name .term "b",
        .link ⟨3, none⟩], [1, 4], []⟩ : Table).get? i = some e →
        e.payload.length ≤ Varint.maxWord) ∧
    (∀ bytes, (⟨5, 0, ⟨#[.name .term "a", .link ⟨2, some 4⟩, .name .term "c", .name .term "b",
        .link ⟨3, none⟩], [1, 4], []⟩⟩ : Pickle).serialize = .ok bytes →
      parse bytes = .ok ⟨5, 0, ⟨#[.name .term "a", .link ⟨2, some 4⟩, .name .term "c",
        .name .term "b", .link ⟨3, none⟩], [1, 4], []⟩⟩) ∧
    ∀ err, (⟨5, 0, ⟨#[.name .term "a", .link ⟨2, some 4⟩, .name .term "c", .name .term "b",
        .link ⟨3, none⟩], [1, 4], []⟩⟩ : Pickle).serialize = .error err →
      ∃ i e, (⟨#[.name .term "a", .link ⟨2, some 4⟩, .name .term "c", .name .term "b",
        .link ⟨3, none⟩], [1, 4], []⟩ : Table).get? i = some e ∧
        Varint.maxWord < e.payload.length ∧ err = .numberTooWide e.payload.length) := by
  have parsed : parse [5, 0, 2, 1, 1, 0x61, 10, 1, 0] =
      .ok ⟨5, 0, ⟨#[.name .term "a", .link ⟨0, none⟩], [1], []⟩⟩ := by
    decide +kernel
  have renamed : Table.rename "a" "b.c" ⟨#[.name .term "a", .link ⟨0, none⟩], [1], []⟩ =
      .ok 1 ⟨#[.name .term "a", .link ⟨2, some 4⟩, .name .term "c", .name .term "b",
        .link ⟨3, none⟩], [1, 4], []⟩ := rfl
  have reachable := Reachable.renamed (.parsed _ parsed) renamed
  exact ⟨reachable, by decide, reachable_reparses reachable (by decide)⟩

end Pickle

namespace Text

/-- Replacing a character by a text in a run of that character repeats the text. -/
theorem replaceAll_replicate (c : Char) (new : List Char) (n : Nat) :
    replaceAll [c] new (List.replicate n c) = (List.replicate n new).flatten := by
  induction n with
  | zero => simp [replaceAll]
  | succ n ih =>
    rw [List.replicate_succ, replaceAll, dif_pos (by simp)]
    simp [ih, List.replicate_succ]

theorem replace_replicate (c : Char) (n m : Nat) :
    replace (String.ofList (List.replicate n c)) (String.singleton c)
      (String.ofList (List.replicate m c)) = String.ofList (List.replicate (n * m) c) := by
  rw [replace_eq]
  simp [replaceAll_replicate, List.flatten_replicate_replicate]

end Text

namespace Utf8

/-- A run of a one-byte character has as many bytes as characters. -/
theorem byteSize_replicate (c : Char) (one : c.utf8Size = 1) (n : Nat) :
    (String.ofList (List.replicate n c)).utf8ByteSize = n := by
  show (List.replicate n c).utf8Encode.size = n
  simp [List.utf8Encode, one]

end Utf8

namespace Table

variable {t : Table}

/-- A rename in a table without links only edits the literals. -/
theorem rename_of_no_links {old new : String} (noLinks : t.links = [])
    (filled : (old.isEmpty || new.isEmpty) = false) :
    rename old new t = .ok 0 (t.editLiterals old new) := by
  have found : t.matching old = .ok [] := by
    simp [matching, namespaces, noLinks, pathsOf, bind, Except.bind, pure, Except.pure]
  simpa using rename_of_matching_ok filled found (by simp)

/-- A table whose only name, `text`, is held by a string literal behind a constant wrapper. -/
def literalTable (text : String) : Table :=
  ⟨#[.name .term text, .raw 33 [0], .constant 1 [1]], [], [2]⟩

theorem rename_literalTable (text new : String) (filled : new.isEmpty = false) :
    rename "a" new (literalTable text) = .ok 0 (literalTable (Text.replace text "a" new)) := by
  rw [rename_of_no_links rfl (by simp [filled])]
  have literals : (literalTable text).literalNames = [0] := rfl
  simp only [editLiterals, literals]
  simp [literalTable, replaceInName]

end Table

namespace Pickle

/-- Two renames of `a` to 65536 letters take the literal's name from one letter to 2^32, one
byte more than a payload length can count: the pickle is reachable, has three entries, and
cannot be written. -/
theorem reachable_unwritable_name :
    ∃ p : Pickle, p.Reachable ∧ p.table.size ≤ Varint.maxWord ∧
      p.serialize = .error (.numberTooWide 4294967296) := by
  have parsed : parse [5, 0, 3, 1, 1, 0x61, 0x21, 1, 0, 0x0f, 1, 1] =
      .ok ⟨5, 0, Table.literalTable (String.ofList (List.replicate 1 'a'))⟩ := by
    decide +kernel
  have letters : (String.ofList (List.replicate 65536 'a')).isEmpty = false := by
    rw [String.isEmpty, Utf8.byteSize_replicate 'a' rfl]
    rfl
  -- each rename multiplies the letters of the name by 65536
  have grows : ∀ n, Table.rename "a" (String.ofList (List.replicate 65536 'a'))
      (Table.literalTable (String.ofList (List.replicate n 'a'))) =
      .ok 0 (Table.literalTable (String.ofList (List.replicate (n * 65536) 'a'))) := by
    intro n
    rw [Table.rename_literalTable _ _ letters, show "a" = String.singleton 'a' by decide,
      Text.replace_replicate]
  have reachable : Reachable ⟨5, 0, Table.literalTable
      (String.ofList (List.replicate (1 * 65536 * 65536) 'a'))⟩ :=
    .renamed (.renamed (.parsed _ parsed) (grows _)) (grows _)
  refine ⟨_, reachable, ?_, ?_⟩
  · simp only [Table.literalTable, Table.size, List.size_toArray, List.length_cons,
      List.length_nil]
    decide
  -- writing stops at the name, whose length no longer fits
  have long : (String.ofList (List.replicate (1 * 65536 * 65536) 'a')).utf8ByteSize =
      4294967296 := Utf8.byteSize_replicate 'a' rfl _
  generalize String.ofList (List.replicate (1 * 65536 * 65536) 'a') = text at long ⊢
  have nameFails : (Entry.name .term text).write = .error (.numberTooWide 4294967296) := by
    rw [(Entry.stable_name .term text).write_eq]
    simp [Entry.payload, long, Varint.maxWord]
  have entriesFail : Table.writeEntries [.name .term text, .raw 33 [0], .constant 1 [1]] =
      .error (.numberTooWide 4294967296) := by
    simp only [Table.writeEntries, nameFails]
    rfl
  have countFits : Varint.word 3 = .ok 3 := rfl
  simp only [serialize, Table.literalTable, Table.write, Table.size, List.size_toArray,
    List.length_cons, List.length_nil, Nat.reduceAdd, countFits, entriesFail]
  rfl

end Pickle

end PickleShading
