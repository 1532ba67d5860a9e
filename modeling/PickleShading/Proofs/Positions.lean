import PickleShading.Cursor.Query
import PickleShading.Proofs.Reads

/-!
# Where reads leave the cursor

A cursor over a byte string `d` stands at a position within `d`, with the rest of `d` ahead of
it (`Cursor.Over`). Every read, whether it succeeds or fails, leaves the cursor further along
the same string (`Cursor.Ahead`): a read only ever moves past bytes that lie ahead of it. That
holds of each single read, is kept by sequencing, and is kept by `Cursor.atomic`, which on a
failure goes back to where it started; so it holds of every query, nested groups included
(`Query.movesForward_run`).

Main statement (`Cursor.reaches_positionLaws`, with `Cursor.PositionLaws`): at every cursor
that queries reach from the start of `d`, the position lies within `d`, the count of bytes ahead
and the test for more bytes agree with it, a byte, a run of bytes or an end position that is
not there fails without moving, a run of `n` bytes or the position `n` bytes ahead is there
exactly when the position plus `n` is at most the length of `d`, a run read is the slice of
`d` from the position, and a group of queries either gives all their answers where its last
query left the cursor or fails with its first failure where it started.
-/

namespace PickleShading

namespace Cursor

/-- The cursor a read leaves, whether it succeeded or failed. -/
def after {α : Type} : EStateM.Result Error Cursor α → Cursor
  | .ok _ c => c
  | .error _ c => c

@[simp]
theorem after_ok {α : Type} (a : α) (c : Cursor) :
    after (.ok a c : EStateM.Result Error Cursor α) = c :=
  rfl

@[simp]
theorem after_error {α : Type} (e : Error) (c : Cursor) :
    after (.error e c : EStateM.Result Error Cursor α) = c :=
  rfl

/-- `c'` is `c` moved past some of the bytes ahead of it. -/
def Ahead (c c' : Cursor) : Prop := ∃ k ≤ c.rest.length, c' = ⟨c.pos + k, c.rest.drop k⟩

theorem Ahead.refl (c : Cursor) : Ahead c c := ⟨0, Nat.zero_le _, by simp⟩

theorem Ahead.trans {c c' c'' : Cursor} (first : Ahead c c') (second : Ahead c' c'') :
    Ahead c c'' := by
  obtain ⟨k, within, rfl⟩ := first
  obtain ⟨k', within', rfl⟩ := second
  simp only [List.length_drop] at within'
  exact ⟨k + k', by omega, by simp [Nat.add_assoc, List.drop_drop]⟩

/-- A read that, from every cursor, leaves the cursor further along the same string. -/
def MovesForward {α : Type} (x : ReadM α) : Prop := ∀ c, Ahead c (after (x c))

theorem movesForward_pure {α : Type} (a : α) : MovesForward (pure a : ReadM α) :=
  fun c => Ahead.refl c

/-- A sequence of reads that each move forward moves forward. -/
theorem MovesForward.bind {α β : Type} {x : ReadM α} {f : α → ReadM β}
    (first : MovesForward x) (rest : ∀ a, MovesForward (f a)) : MovesForward (x >>= f) := by
  intro c
  cases ran : x c with
  | ok a c' =>
    have moved : Ahead c c' := by simpa [ran] using first c
    rw [bind_of_ok ran]
    exact moved.trans (rest a c')
  | error e c' =>
    have moved : Ahead c c' := by simpa [ran] using first c
    rw [bind_of_error ran]
    exact moved

/-- An all-or-nothing read moves as its inner read does, or not at all. -/
theorem MovesForward.atomic {α : Type} {x : ReadM α} (inner : MovesForward x) :
    MovesForward (Cursor.atomic x) := by
  intro c
  unfold Cursor.atomic
  cases ran : x c with
  | ok a c' => simpa [ran] using inner c
  | error e c' => exact Ahead.refl c

theorem movesForward_peek : MovesForward peek := by
  intro c
  unfold peek
  split <;> exact Ahead.refl c

theorem movesForward_readByte : MovesForward readByte := by
  rintro ⟨pos, rest⟩
  cases rest with
  | nil => exact Ahead.refl _
  | cons b bs => exact ⟨1, by simp, rfl⟩

/-- A framed number moves past the bytes it looks at, and no further. The induction follows
the read byte by byte. -/
theorem ahead_varintFrom (acc pos : Nat) (bytes : List UInt8) :
    Ahead ⟨pos, bytes⟩ (after (varintFrom acc pos bytes)) := by
  fun_induction varintFrom acc pos bytes with
  | case1 => exact Ahead.refl _
  | case2 _ _ b bs _ => exact ⟨1, by simp, rfl⟩
  | case3 _ _ b bs _ _ => exact ⟨1, by simp, rfl⟩
  | case4 _ pos b bs _ _ ih =>
    obtain ⟨k, within, moved⟩ := ih
    refine ⟨k + 1, by simpa using within, ?_⟩
    rw [moved]
    simp [Nat.add_assoc, Nat.add_comm 1 k]

theorem movesForward_readVarint : MovesForward readVarint :=
  fun c => ahead_varintFrom 0 c.pos c.rest

theorem movesForward_readBytes (n : Nat) : MovesForward (readBytes n) := by
  intro c
  unfold readBytes
  split
  · rename_i enough
    exact ⟨n, (atLeast_iff n c.rest).mp enough, rfl⟩
  · exact Ahead.refl c

theorem movesForward_endPosition (n : Nat) : MovesForward (endPosition n) := by
  intro c
  unfold endPosition
  split <;> exact Ahead.refl c

end Cursor

namespace Query

open Cursor

mutual

/-- Every query, nested groups included, moves forward. The induction follows the nesting of
the queries: a group is a sequence of its queries inside `Cursor.atomic`. -/
theorem movesForward_run : ∀ q : Query, MovesForward q.run
  | length => fun c => Ahead.refl c
  | isEmpty => fun c => Ahead.refl c
  | hasMore => fun c => Ahead.refl c
  | position => fun c => Ahead.refl c
  | remaining => fun c => Ahead.refl c
  | peek => movesForward_peek.bind fun _ => movesForward_pure _
  | readByte => movesForward_readByte.bind fun _ => movesForward_pure _
  | readVarint => movesForward_readVarint.bind fun _ => movesForward_pure _
  | readBytes n => (movesForward_readBytes n).bind fun _ => movesForward_pure _
  | endPosition n => (movesForward_endPosition n).bind fun _ => movesForward_pure _
  | atomic steps => ((movesForward_runAll steps).bind fun _ => movesForward_pure _).atomic

theorem movesForward_runAll : ∀ qs : List Query, MovesForward (runAll qs)
  | [] => movesForward_pure _
  | q :: qs =>
    (movesForward_run q).bind fun _ => (movesForward_runAll qs).bind fun _ => movesForward_pure _

end

end Query

namespace Cursor

/-- The cursor reads the byte string `d`: its position lies within `d`, and what lies ahead of
it is the rest of `d` from there. -/
structure Over (d : List UInt8) (c : Cursor) : Prop where
  pos_le : c.pos ≤ d.length
  rest_eq : c.rest = d.drop c.pos

theorem over_start (d : List UInt8) : Over d (start d) := ⟨Nat.zero_le _, rfl⟩

theorem Over.length_rest {d : List UInt8} {c : Cursor} (placed : Over d c) :
    c.rest.length = d.length - c.pos := by
  rw [placed.rest_eq, List.length_drop]

/-- Moving forward keeps a cursor over its string. -/
theorem Over.ahead {d : List UInt8} {c c' : Cursor} (placed : Over d c) (moved : Ahead c c') :
    Over d c' := by
  obtain ⟨k, within, rfl⟩ := moved
  have bound := placed.length_rest
  have inside := placed.pos_le
  refine ⟨by simp only; omega, ?_⟩
  simp [placed.rest_eq, List.drop_drop]

/-- The cursors that queries reach from the start of `d`, one after another, each from where
the one before left, whether it succeeded or failed. -/
inductive Reaches (d : List UInt8) : Cursor → Prop
  /-- The start of `d`. -/
  | start : Reaches d (start d)
  /-- One more query. -/
  | step {c : Cursor} (q : Query) : Reaches d c → Reaches d (after (q.run c))

/-- Every cursor that queries reach is over its string. The induction is on the queries run;
each one moves forward by `Query.movesForward_run`. -/
theorem Reaches.toOver {d : List UInt8} {c : Cursor} (reached : Reaches d c) : Over d c := by
  induction reached with
  | start => exact over_start d
  | step q _ ih => exact ih.ahead (Query.movesForward_run q _)

/-- What holds at a cursor over `d`: where it stands, what the reads that must not move on a
failure do, when a run of `n` bytes is there, and how a group of queries ends. -/
structure PositionLaws (d : List UInt8) (c : Cursor) : Prop where
  pos_le : c.pos ≤ d.length
  remaining_eq : c.remaining = d.length - c.pos
  hasMore_iff : c.hasMore = true ↔ c.pos < d.length
  peek_stays : ∀ e c', peek c = .error e c' → c' = c
  readByte_stays : ∀ e c', readByte c = .error e c' → c' = c
  readBytes_stays : ∀ n e c', readBytes n c = .error e c' → c' = c
  endPosition_stays : ∀ n e c', endPosition n c = .error e c' → c' = c
  readBytes_ok_iff : ∀ n, (∃ bytes c', readBytes n c = .ok bytes c') ↔ c.pos + n ≤ d.length
  endPosition_ok_iff : ∀ n, (∃ p c', endPosition n c = .ok p c') ↔ c.pos + n ≤ d.length
  readBytes_slice : ∀ n bytes c', readBytes n c = .ok bytes c' →
    bytes = (d.drop c.pos).take n ∧ c'.pos = c.pos + n
  endPosition_value : ∀ n p c', endPosition n c = .ok p c' → p = c.pos + n ∧ c' = c
  atomic_failed : ∀ steps e c', Query.runAll steps c = .error e c' →
    (Query.atomic steps).run c = .error e c
  atomic_done : ∀ steps answers c', Query.runAll steps c = .ok answers c' →
    (Query.atomic steps).run c = .ok (.list answers) c'

theorem peek_eq_error {c c' : Cursor} {e : Error} (failed : peek c = .error e c') : c' = c := by
  unfold peek at failed
  split at failed <;> cases failed
  rfl

theorem readByte_eq_error {c c' : Cursor} {e : Error} (failed : readByte c = .error e c') :
    c' = c := by
  unfold readByte at failed
  split at failed <;> cases failed
  rfl

theorem readBytes_eq_error {c c' : Cursor} {n : Nat} {e : Error}
    (failed : readBytes n c = .error e c') : c' = c := by
  unfold readBytes at failed
  split at failed <;> cases failed
  rfl

theorem endPosition_eq_ok {c c' : Cursor} {n p : Nat} (found : endPosition n c = .ok p c') :
    n ≤ c.rest.length ∧ p = c.pos + n ∧ c' = c := by
  unfold endPosition at found
  split at found
  · rename_i enough
    cases found
    exact ⟨(atLeast_iff n c.rest).mp enough, rfl, rfl⟩
  · cases found

theorem endPosition_eq_error {c c' : Cursor} {n : Nat} {e : Error}
    (failed : endPosition n c = .error e c') : c' = c := by
  unfold endPosition at failed
  split at failed <;> cases failed
  rfl

/-- A run of `n` bytes is there exactly when `n` bytes lie ahead. -/
theorem readBytes_ok_iff {c : Cursor} (n : Nat) :
    (∃ bytes c', readBytes n c = .ok bytes c') ↔ n ≤ c.rest.length := by
  unfold readBytes
  by_cases enough : n ≤ c.rest.length
  · simp [(atLeast_iff n c.rest).mpr enough, enough]
  · have short : atLeast n c.rest = false :=
      Bool.eq_false_iff.mpr fun atLeastN => enough ((atLeast_iff n c.rest).mp atLeastN)
    simp [short, enough]

/-- The position `n` bytes ahead is there exactly when `n` bytes lie ahead. -/
theorem endPosition_ok_iff {c : Cursor} (n : Nat) :
    (∃ p c', endPosition n c = .ok p c') ↔ n ≤ c.rest.length := by
  constructor
  · rintro ⟨p, c', found⟩
    exact (endPosition_eq_ok found).1
  · intro enough
    exact ⟨c.pos + n, c, by simp [endPosition, (atLeast_iff n c.rest).mpr enough]⟩

/-- The laws hold at every cursor over `d`. -/
theorem Over.positionLaws {d : List UInt8} {c : Cursor} (placed : Over d c) : PositionLaws d c := by
  have ahead := placed.length_rest
  have within := placed.pos_le
  refine {
    pos_le := within
    remaining_eq := ahead
    hasMore_iff := ?_
    peek_stays := fun _ _ failed => peek_eq_error failed
    readByte_stays := fun _ _ failed => readByte_eq_error failed
    readBytes_stays := fun _ _ _ failed => readBytes_eq_error failed
    endPosition_stays := fun _ _ _ failed => endPosition_eq_error failed
    readBytes_ok_iff := fun n => (readBytes_ok_iff n).trans (by omega)
    endPosition_ok_iff := fun n => (endPosition_ok_iff n).trans (by omega)
    readBytes_slice := ?_
    endPosition_value := fun _ _ _ found => (endPosition_eq_ok found).2
    atomic_failed := ?_
    atomic_done := ?_ }
  · -- bytes lie ahead exactly when the rest is not empty
    rw [hasMore, Bool.not_eq_true', List.isEmpty_eq_false_iff, ← List.length_pos_iff, ahead]
    omega
  · intro n bytes c' read
    obtain ⟨taken, split, moved⟩ := readBytes_eq_ok.mp read
    refine ⟨?_, moved⟩
    rw [← placed.rest_eq, split, ← taken, List.take_left]
  · intro steps e c' failed
    simp only [Query.run, Cursor.atomic]
    rw [bind_of_error failed]
  · intro steps answers c' done
    simp only [Query.run, Cursor.atomic]
    rw [bind_of_ok done]
    rfl

/-- At every cursor that queries reach from the start of `d`, nested groups and failed queries
included, the position lies within `d`, the bytes ahead are counted and tested by it, a byte, a
run or an end position that is not there fails without moving, a run of `n` bytes is there
exactly when the position plus `n` is at most the length of `d` and is then the slice of `d`
from the position, and a group either ends where its last query left the cursor or fails with
its first failure where it started. -/
theorem reaches_positionLaws {d : List UInt8} {c : Cursor} (reached : Reaches d c) :
    PositionLaws d c :=
  reached.toOver.positionLaws

/-- Three bytes, two of them read as a run. -/
theorem reaches_positionLaws_after_run :
    Reaches [1, 2, 3] ⟨2, [3]⟩ ∧ PositionLaws [1, 2, 3] ⟨2, [3]⟩ := by
  have reached : Reaches [1, 2, 3] (after ((Query.readBytes 2).run (start [1, 2, 3]))) :=
    .step (.readBytes 2) .start
  have there : after ((Query.readBytes 2).run (start [1, 2, 3])) = ⟨2, [3]⟩ := rfl
  rw [there] at reached
  exact ⟨reached, reaches_positionLaws reached⟩

end Cursor

end PickleShading
