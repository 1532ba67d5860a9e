import PickleShading.Pickle

/-!
# What a read consumes

A read that succeeds is pinned down by the bytes it consumed: a byte is the head of the rest,
a run of `n` bytes is a prefix of length `n`, the end of a pickle is the empty rest or a single
zero byte. Each law is an `↔`, so the same lemma takes a successful read apart and runs a read
over bytes of a known shape.

Reads and table changes are both steps of `EStateM`, so the two laws of sequencing come first:
a sequence succeeds when each step succeeds from where the one before it left, and fails with
the state of the step that failed.
-/

namespace PickleShading

section Sequencing

variable {ε σ α β : Type} {x : EStateM ε σ α} {f : α → EStateM ε σ β} {s s' : σ}

/-- A sequence succeeds exactly when its first step succeeds and the rest succeeds from where
the first step left. -/
theorem bind_eq_ok {b : β} :
    (x >>= f) s = .ok b s' ↔ ∃ a mid, x s = .ok a mid ∧ f a mid = .ok b s' := by
  show (match x s with | .ok a mid => f a mid | .error e mid => .error e mid) = _ ↔ _
  cases x s with
  | ok a mid =>
    simp only [EStateM.Result.ok.injEq]
    constructor
    · intro rest
      exact ⟨a, mid, ⟨rfl, rfl⟩, rest⟩
    · rintro ⟨_, _, ⟨rfl, rfl⟩, rest⟩
      exact rest
  | error e mid => simp

/-- A step that succeeds from `s` runs the rest of the sequence from where it left. -/
theorem bind_of_ok {a : α} (first : x s = .ok a s') : (x >>= f) s = f a s' := by
  show (match x s with | .ok a mid => f a mid | .error e mid => .error e mid) = _
  rw [first]

/-- A step that fails from `s` fails the whole sequence, with its state. -/
theorem bind_of_error {e : ε} (first : x s = .error e s') : (x >>= f) s = .error e s' := by
  show (match x s with | .ok a mid => f a mid | .error e mid => .error e mid) = _
  rw [first]

/-- A mapped step succeeds with the mapped value where the step succeeds. -/
theorem map_of_ok {g : α → β} {a : α} (first : x s = .ok a s') : (g <$> x) s = .ok (g a) s' := by
  show (match x s with
    | .ok a mid => EStateM.Result.ok (g a) mid
    | .error e mid => .error e mid) = _
  rw [first]

end Sequencing

namespace Cursor

/-- A byte is read exactly when it heads the rest, and the read moves past it. -/
theorem readByte_eq_ok {c c' : Cursor} {b : UInt8} :
    readByte c = .ok b c' ↔ c.rest = b :: c'.rest ∧ c'.pos = c.pos + 1 := by
  obtain ⟨pos, rest⟩ := c
  obtain ⟨pos', rest'⟩ := c'
  cases rest with
  | nil => simp [readByte]
  | cons head tail =>
    simp only [readByte, EStateM.Result.ok.injEq, Cursor.mk.injEq, List.cons.injEq]
    constructor
    · rintro ⟨rfl, rfl, rfl⟩
      exact ⟨⟨rfl, rfl⟩, rfl⟩
    · rintro ⟨⟨rfl, rfl⟩, rfl⟩
      exact ⟨rfl, rfl, rfl⟩

/-- A run of `n` bytes is read exactly when it is a prefix of the rest of length `n`, and the
read moves past it. -/
theorem readBytes_eq_ok {c c' : Cursor} {n : Nat} {bytes : List UInt8} :
    readBytes n c = .ok bytes c' ↔
      bytes.length = n ∧ c.rest = bytes ++ c'.rest ∧ c'.pos = c.pos + n := by
  obtain ⟨pos, rest⟩ := c
  obtain ⟨pos', rest'⟩ := c'
  by_cases enough : n ≤ rest.length
  · simp only [readBytes, (atLeast_iff n rest).mpr enough, if_true,
      EStateM.Result.ok.injEq, Cursor.mk.injEq]
    constructor
    · rintro ⟨rfl, rfl, rfl⟩
      exact ⟨by simp [enough], (List.take_append_drop n rest).symm, rfl⟩
    · rintro ⟨rfl, rfl, rfl⟩
      simp
  · have short : atLeast n rest = false :=
      Bool.eq_false_iff.mpr fun atLeastN => enough ((atLeast_iff n rest).mp atLeastN)
    simp only [readBytes, short, Bool.false_eq_true, if_false, reduceCtorEq, false_iff]
    rintro ⟨rfl, split, -⟩
    simp [split] at enough

end Cursor

namespace Pickle

/-- The end of a pickle is accepted exactly when nothing or a single zero byte is left, and
the cursor then stands at the end. -/
theorem readEnd_eq_ok {c c' : Cursor} {u : Unit} :
    readEnd c = .ok u c' ↔
      (c.rest = [] ∨ c.rest = [0]) ∧ c' = ⟨c.pos + c.rest.length, []⟩ := by
  obtain ⟨pos, rest⟩ := c
  match rest with
  | [] => simp [readEnd, eq_comm]
  | [0] => simp [readEnd, eq_comm]
  | [b] =>
    by_cases zero : b = 0
    · subst zero; simp [readEnd, eq_comm]
    · simp [readEnd, zero]
  | _ :: _ :: _ => simp [readEnd]

end Pickle

end PickleShading
