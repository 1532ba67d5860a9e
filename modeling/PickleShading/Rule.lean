import PickleShading.Namespace
import PickleShading.Text.Blank
import PickleShading.SignatureText
import PickleShading.Error

/-!
# Rename rules

A rule `source=target` moves the namespace `source` to `target`. Both sides must be
namespaces (`Namespace.valid`); a side that is not is refused by name, the source judged
first. Read from text, a rule is split at its first `=` and both sides are trimmed of white
space. A rule prints as `source=target`.

A shading configuration is a list of rules, applied in order, and the longest packed text
that is stored in one piece.
-/

namespace PickleShading

/-- A namespace move whose two sides are namespaces. -/
structure RenameRule where
  /-- The namespace to move. -/
  source : String
  /-- Where it moves to. -/
  target : String
deriving DecidableEq, Repr

namespace RenameRule

/-- `s` itself when it is a namespace, or the failure naming it. -/
def checkNamespace (s : String) : Except Error String :=
  if Namespace.valid s then pure s else throw (.invalidNamespace s)

/-- The rule moving `source` to `target`, if both are namespaces. -/
def make (source target : String) : Except Error RenameRule := do
  let source ← checkNamespace source
  let target ← checkNamespace target
  pure ⟨source, target⟩

/-- The rule written `source=target`: split at the first `=`, both sides trimmed of white
space. Text without `=` is refused as a whole. -/
def parse (text : String) : Except Error RenameRule :=
  match text.toList.span (· ≠ '=') with
  | (_, []) => throw (.invalidNamespace text)
  | (before, _ :: after) =>
    make (Text.trimBlank (String.ofList before)) (Text.trimBlank (String.ofList after))

/-- The rule as `source=target`. -/
def display (r : RenameRule) : String := r.source ++ "=" ++ r.target

end RenameRule

/-- The rules to apply, in order, and the longest packed text stored in one piece. -/
structure ShadeConfig where
  /-- The rules, applied first to last. -/
  rules : List RenameRule := []
  /-- The most characters stored in one piece; at least one. -/
  chunkLimit : Nat := SignatureText.defaultLimit
deriving DecidableEq, Repr

namespace ShadeConfig

/-- A configuration with the given rules and limit; no limit means the default one, and a
limit of zero counts as one. -/
def make (rules : List RenameRule) (limit : Option Nat) : ShadeConfig :=
  ⟨rules, max (limit.getD SignatureText.defaultLimit) 1⟩

end ShadeConfig

end PickleShading
