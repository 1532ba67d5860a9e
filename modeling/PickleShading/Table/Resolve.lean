import PickleShading.Table.Basic
import PickleShading.Namespace

/-!
# Namespace paths

The path of a namespace link is found by walking its parent references outward, collecting
the term name of every component, and joining the names outermost first with dots. The walk
gives no path when a component's name is not a term name or a parent reference does not lead
to a link.

A walk takes one step per parent reference. A table of `n` entries holds at most `n` links, so
a walk that is still going after `n` steps has met a link twice and would never end: it stops
with `Error.cyclicReference`, naming the parent reference it was about to follow.
-/

namespace PickleShading

namespace Table

/-- The names of the components from `l` outward, placed in front of `inner`, which holds the
names already collected. `fuel` is the number of parent steps still allowed. -/
def walk (t : Table) : Nat → Link → List String → Except Error (Option (List String))
  | fuel, l, inner =>
    match t.termName? l.nameRef with
    | none => pure none
    | some text =>
      match l.parentRef with
      | none => pure (some (text :: inner))
      | some p =>
        match fuel with
        | 0 => throw (.cyclicReference p)
        | fuel + 1 =>
          match t.link? p with
          | none => pure none
          | some parent => t.walk fuel parent (text :: inner)

/-- The names of the components of `l`, outermost first. -/
def components (t : Table) (l : Link) : Except Error (Option (List String)) :=
  t.walk t.size l []

/-- The dotted path of `l`, if it has one. -/
def resolve (t : Table) (l : Link) : Except Error (Option String) := do
  let names ← t.components l
  pure (names.map Namespace.join)

/-- Whether the entry at `i` is a link, and its path if it has one. -/
def resolveAt (t : Table) (i : Nat) : Except Error (Option String) :=
  match t.link? i with
  | some l => t.resolve l
  | none => pure none

/-- The links of `ls` paired with their paths, in order, leaving out links without a path;
the first walk that fails fails the whole. -/
def pathsOf (t : Table) : List Nat → Except Error (List (Nat × String))
  | [] => pure []
  | i :: is => do
    let here ← t.resolveAt i
    let rest ← t.pathsOf is
    pure (match here with
      | some path => (i, path) :: rest
      | none => rest)

/-- Every namespace link with its path, in table order. -/
def namespaces (t : Table) : Except Error (List (Nat × String)) := t.pathsOf t.links

end Table

end PickleShading
