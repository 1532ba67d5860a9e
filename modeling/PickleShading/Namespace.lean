/-!
# Dotted namespaces

A namespace is written as its components joined by dots, outermost first. Splitting at every
dot keeps empty components, so `Namespace.split` and `Namespace.join` undo each other on texts,
and a namespace is well formed exactly when no component is empty.
-/

namespace PickleShading

namespace Namespace

/-- The components of a dotted text, outermost first; empty components are kept, and the
empty text has one empty component. -/
def split (s : String) : List String :=
  (s.toList.splitOn '.').map String.ofList

/-- The components joined by dots. -/
def join (parts : List String) : String := String.intercalate "." parts

/-- Whether `s` is a namespace: not empty, and no component empty. -/
def valid (s : String) : Bool := !s.isEmpty && (split s).all fun part => !part.isEmpty

example : split "a..b" = ["a", "", "b"] := by decide +kernel
example : valid "com.foo" = true ∧ valid "com." = false ∧ valid ".com" = false := by
  decide +kernel

end Namespace

end PickleShading
