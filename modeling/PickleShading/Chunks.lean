/-!
# Cutting a list into pieces

`Chunks.cut n xs` cuts `xs` into consecutive pieces of `n` elements, the last piece holding
what is left. A size of zero is taken as one, so that every piece is non-empty and the cutting
ends. Joining the pieces gives `xs` back (`Chunks.flatten_cut`).
-/

namespace PickleShading

namespace Chunks

/-- The pieces of `xs`, each of `max n 1` elements but the last, which may be shorter. -/
def cut {α : Type} (n : Nat) : List α → List (List α)
  | [] => []
  | x :: xs => (x :: xs).take (max n 1) :: cut n ((x :: xs).drop (max n 1))
termination_by l => l.length
decreasing_by
  simp only [List.length_drop, List.length_cons]
  omega

/-- Joining the pieces gives the list back. -/
@[simp]
theorem flatten_cut {α : Type} (n : Nat) : ∀ xs : List α, (cut n xs).flatten = xs
  | [] => by simp [cut]
  | x :: xs => by
    rw [cut, List.flatten_cons, flatten_cut n ((x :: xs).drop (max n 1)), List.take_append_drop]
termination_by xs => xs.length
decreasing_by
  simp only [List.length_drop, List.length_cons]
  omega

end Chunks

end PickleShading
