import PickleShading.Rule
import PickleShading.Pickle
import PickleShading.Table.Rename
import PickleShading.Packing

/-!
# Shading

Shading applies a configuration's rules to a signature. On a table the rules are applied in
order and the moved links counted; the first rule that fails stops the rest, and the table is
kept as the renames left it (`Table.applyRules`). On signature bytes, the pickle is read, shaded and written
again (`shadeSignature`).

An artifact is any value that may carry a signature annotation, read and written through an
`ArtifactFormat` that its caller supplies. A `Shader` holds the configuration, the format, and
the `TextCodec` that reads the annotation's text as signature bytes; `Shader.new` takes the
seven-bit packing. `shadeArtifact` decodes the annotation, shades the signature, and stores it
back only when the bytes changed. Unpacking may add one zero byte at the end, which writing the
pickle drops, so written bytes equal to the read ones less a last zero byte count as unchanged.
-/

namespace PickleShading

namespace Table

/-- Applies the renames of `rules` in order, adding the moved links to `moved`. The result is
the total, or the first failure, after which no rule is applied; the table is left as the
renames left it. -/
def applyRules : List RenameRule → Nat → TableM Nat
  | [], moved => pure moved
  | r :: rs, moved => do
    let n ← rename r.source r.target
    applyRules rs (moved + n)

end Table

namespace Pickle

/-- Applies the rules to the pickle's table, see `Table.applyRules`: the total of moved links
or the first failure, with the pickle as the renames left it. -/
def applyRules (p : Pickle) (rules : List RenameRule) : Except Error Nat × Pickle :=
  match Table.applyRules rules 0 p.table with
  | .ok moved t => (.ok moved, { p with table := t })
  | .error e t => (.error e, { p with table := t })

end Pickle

/-- Reads a signature, applies the rules and writes it again, with the number of moved
links. -/
def shadeSignature (rules : List RenameRule) (bytes : List UInt8) :
    Except Error (List UInt8 × Nat) := do
  let p ← Pickle.parse bytes
  let (result, shaded) := p.applyRules rules
  let moved ← result
  let out ← shaded.serialize
  pure (out, moved)

/-- How a kind of artifact carries its signature annotation. -/
structure ArtifactFormat (α : Type) where
  /-- The annotation of an artifact, none if it carries no signature. -/
  extract : α → Except Error (Option SignatureText)
  /-- The artifact with its annotation replaced. -/
  inject : α → SignatureText → Except Error α

/-- What shading one artifact did. -/
structure Outcome (α : Type) where
  /-- The artifact after shading; the one given when nothing changed. -/
  artifact : α
  /-- How many namespace links moved; zero when nothing changed. -/
  moved : Nat
  /-- Whether the artifact carries a signature. -/
  signatureFound : Bool
  /-- Whether the artifact was rewritten. -/
  modified : Bool
deriving Repr

/-- A configuration with the ways it reads artifacts and annotation text. -/
structure Shader (α : Type) where
  /-- The rules and the chunk limit. -/
  config : ShadeConfig
  /-- How artifacts carry their annotation. -/
  format : ArtifactFormat α
  /-- How the annotation's text stands for signature bytes. -/
  codec : TextCodec

/-- A shader that reads annotation text by the seven-bit packing. -/
def Shader.new {α : Type} (config : ShadeConfig) (format : ArtifactFormat α) : Shader α :=
  ⟨config, format, .sevenBit⟩

@[simp]
theorem Shader.codec_new {α : Type} (config : ShadeConfig) (format : ArtifactFormat α) :
    (Shader.new config format).codec = .sevenBit := rfl

/-- Whether the written bytes equal the read ones, or the read ones less a last zero byte. -/
def unchangedBytes (read written : List UInt8) : Bool :=
  written == read || read == written ++ [0]

/-- Shades the signature an artifact carries and stores it back when its bytes changed. -/
def shadeArtifact {α : Type} (shader : Shader α) (artifact : α) : Except Error (Outcome α) := do
  match ← shader.format.extract artifact with
  | none => pure ⟨artifact, 0, false, false⟩
  | some stored =>
    let data ← shader.codec.decode stored.encoded
    let (shaded, moved) ← shadeSignature shader.config.rules data
    if unchangedBytes data shaded then pure ⟨artifact, 0, true, false⟩
    else
      let text := SignatureText.ofEncoded (shader.codec.encode shaded) shader.config.chunkLimit
      let written ← shader.format.inject artifact text
      pure ⟨written, moved, true, true⟩

/-- Shades every artifact on its own, in order; one artifact's failure leaves the others. -/
def shadeAll {α : Type} (shader : Shader α) (artifacts : List α) :
    List (Except Error (Outcome α)) :=
  artifacts.map (shadeArtifact shader)

end PickleShading
