import PickleShading.Proofs.Unchanged
import PickleShading.Proofs.Reparsing
import PickleShading.Proofs.Chunking

/-!
# Stored signatures read back

When shading changes a signature, it packs the written pickle into text and stores the text in
the artifact, whole or in chunks. Of the artifact format it asks one law: an artifact reads back
the annotation stored into it. Under that law, the annotation of a rewritten artifact is the
stored form of the packed shaded pickle; it is whole exactly when the packed text fits the
chunk limit, and otherwise every chunk holds between one character and the limit, or one when
the limit is zero; and unpacking it and reading the pickle gives back the shaded pickle, version
5.0 and entries alike (`shadeArtifact_writes_back`).

Three facts carry it: the stored form of a text joins back to the text
(`SignatureText.encoded_ofEncoded`), unpacking packed bytes adds at most one zero byte
(`Packing.unpack_pack_trailer`), and a pickle reached by reading and renaming is read back from
what it writes, with or without that byte (`Pickle.Reachable.parse_serialize`).
-/

namespace PickleShading

namespace Pickle

/-- Applying rules that succeed to a reachable pickle gives a reachable pickle: each rule is a
rename that succeeded. -/
theorem Reachable.applyRules : ∀ {p : Pickle} (rules : List RenameRule) {acc total : Nat}
    {t : Table}, p.Reachable → Table.applyRules rules acc p.table = .ok total t →
    Reachable { p with table := t }
  | p, [], _, _, _, reachable, applied => by
    simp only [Table.applyRules, pure, EStateM.pure, EStateM.Result.ok.injEq] at applied
    obtain ⟨-, rfl⟩ := applied
    exact reachable
  | p, r :: rules, _, _, _, reachable, applied => by
    obtain ⟨n, t₁, renamed, rest⟩ := bind_eq_ok.mp applied
    exact @Reachable.applyRules { p with table := t₁ } rules _ _ _ (.renamed reachable renamed) rest

/-- A reachable pickle is read back from what it writes, followed by nothing or a single zero
byte. Writing succeeds only with a count that fits 32 bits and no payload longer than 32 bits
can count, and then gives the frames that reading decodes back. -/
theorem Reachable.parse_serialize {p : Pickle} (reachable : p.Reachable) {bytes : List UInt8}
    (written : p.serialize = .ok bytes) {trailer : List UInt8}
    (trailerShape : trailer = [] ∨ trailer = [0]) : parse (bytes ++ trailer) = .ok p := by
  obtain ⟨bounded, -⟩ := serialize_eq_ok written
  obtain ⟨major, minor, faithful⟩ := reachable.faithful bounded
  obtain ⟨_, _, t⟩ := p
  dsimp only at major minor faithful bounded written ⊢
  subst major minor
  rw [serialize_faithful 5 0 faithful bounded] at written
  cases found : t.entries.toList.find? fun e => decide (Varint.maxWord < e.payload.length) with
  | some e =>
    rw [found] at written
    cases written
  | none =>
    rw [found] at written
    cases written
    have fits : ∀ e ∈ t.entries.toList, e.payload.length ≤ Varint.maxWord := fun e mem => by
      simpa using List.find?_eq_none.mp found e mem
    exact parse_frames_faithful_trailer faithful bounded fits trailerShape

end Pickle

open Shading in
/-- Shading writes back what reads back. For a shader with the seven-bit packing and a format
whose artifacts read back the annotation stored into them, an artifact that shading rewrote
carries the annotation of the shaded pickle:
the pickle read from the annotation of the artifact given, with the configured rules applied
with success, then written. The annotation is whole exactly when the packed text has at most
the configured limit of characters; otherwise every chunk holds at least one character and at
most the limit, or one when the limit is zero. Unpacking the annotation and reading the pickle
gives the shaded pickle back, at version 5.0. -/
theorem shadeArtifact_writes_back {α : Type} (shader : Shader α) (sevenBit : shader.codec = .sevenBit)
    (artifact : α)
    (readsBack : ∀ x text x', shader.format.inject x text = .ok x' →
      shader.format.extract x' = .ok (some text))
    (o : Outcome α) (done : shadeArtifact shader artifact = .ok o)
    (modified : o.modified = true) :
    ∃ stored data p moved t bytes text,
      shader.format.extract artifact = .ok (some stored) ∧
      Packing.unpack stored.encoded = .ok data ∧
      Pickle.parse data = .ok p ∧ Table.applyRules shader.config.rules 0 p.table = .ok moved t ∧
      ({ p with table := t } : Pickle).serialize = .ok bytes ∧
      shader.format.extract o.artifact = .ok (some text) ∧
      (text.isChunked = false ↔ (Packing.pack bytes).length ≤ shader.config.chunkLimit) ∧
      (∀ chunks, text = .chunked chunks → ∀ c ∈ chunks,
        c ≠ "" ∧ c.length ≤ max shader.config.chunkLimit 1) ∧
      p.major = 5 ∧ p.minor = 0 ∧
      ∃ data', Packing.unpack text.encoded = .ok data' ∧ Pickle.parse data' = .ok { p with table := t } := by
  rcases shadeArtifact_eq_ok done with ⟨-, rfl⟩ | ⟨stored, data, shaded, moved, extracted, unpacked,
    shadedOk, ⟨-, rfl⟩ | ⟨-, written, injected, rfl⟩⟩
  · cases modified
  · cases modified
  rw [sevenBit, TextCodec.sevenBit_decode] at unpacked
  rw [sevenBit, TextCodec.sevenBit_encode] at injected
  obtain ⟨p, t, parsed, applied, serialized⟩ := shadeSignature_eq_ok shadedOk
  have reachable := (Pickle.Reachable.parsed data parsed).applyRules shader.config.rules applied
  obtain ⟨major, minor, -⟩ := reachable.faithful (Pickle.serialize_eq_ok serialized).1
  -- unpacking the stored text gives the written bytes, and at most one zero byte more
  obtain ⟨trailer, trailerShape, repacked⟩ := Packing.unpack_pack_trailer shaded
  refine ⟨stored, data, p, moved, t, shaded, _, extracted, unpacked, parsed, applied, serialized,
    readsBack _ _ _ injected, SignatureText.isChunked_ofEncoded _ _,
    fun _ stored => SignatureText.chunks_ofEncoded stored, major, minor, shaded ++ trailer, ?_,
    reachable.parse_serialize serialized trailerShape⟩
  rw [SignatureText.encoded_ofEncoded, repacked]

/-- The format of an artifact that is nothing but its annotation. -/
def ArtifactFormat.bare : ArtifactFormat SignatureText :=
  ⟨fun stored => .ok (some stored), fun _ text => .ok text⟩

/-- The namespace `a` and a link to it, packed whole into an artifact that is nothing but its
annotation, shaded by `a` to `b` with a limit of four characters: the twelve written bytes pack
to fourteen characters, which are stored in chunks. -/
theorem shadeArtifact_writes_back_chunked :
    (∀ x text x', ArtifactFormat.bare.inject x text = .ok x' →
      ArtifactFormat.bare.extract x' = .ok (some text)) ∧
    shadeArtifact (.new ⟨[⟨"a", "b"⟩], 4⟩ ArtifactFormat.bare)
        (.single (Packing.pack [5, 0, 2, 1, 1, 0x61, 10, 1, 0])) =
      .ok ⟨.ofEncoded (Packing.pack [5, 0, 3, 1, 1, 0x61, 10, 1, 2, 1, 1, 0x62]) 4, 1, true, true⟩ ∧
    ∃ stored data p moved t bytes text,
      ArtifactFormat.bare.extract (.single (Packing.pack [5, 0, 2, 1, 1, 0x61, 10, 1, 0])) =
        .ok (some stored) ∧
      Packing.unpack stored.encoded = .ok data ∧
      Pickle.parse data = .ok p ∧ Table.applyRules [⟨"a", "b"⟩] 0 p.table = .ok moved t ∧
      ({ p with table := t } : Pickle).serialize = .ok bytes ∧
      ArtifactFormat.bare.extract
        (.ofEncoded (Packing.pack [5, 0, 3, 1, 1, 0x61, 10, 1, 2, 1, 1, 0x62]) 4) = .ok (some text) ∧
      (text.isChunked = false ↔ (Packing.pack bytes).length ≤ 4) ∧
      (∀ chunks, text = .chunked chunks → ∀ c ∈ chunks, c ≠ "" ∧ c.length ≤ max 4 1) ∧
      p.major = 5 ∧ p.minor = 0 ∧
      ∃ data', Packing.unpack text.encoded = .ok data' ∧
        Pickle.parse data' = .ok { p with table := t } := by
  have readsBack : ∀ x text x', ArtifactFormat.bare.inject x text = .ok x' →
      ArtifactFormat.bare.extract x' = .ok (some text) := by
    intro x text x' injected
    cases injected
    rfl
  -- nine bytes, so unpacking adds a zero byte, which the written pickle does not have
  have unpacked : Packing.unpack (Packing.pack [5, 0, 2, 1, 1, 0x61, 10, 1, 0]) =
      .ok ([5, 0, 2, 1, 1, 0x61, 10, 1, 0] ++ [0]) := by
    rw [Packing.unpack_pack]
    rfl
  have shadedOk : shadeSignature [⟨"a", "b"⟩] ([5, 0, 2, 1, 1, 0x61, 10, 1, 0] ++ [0]) =
      .ok ([5, 0, 3, 1, 1, 0x61, 10, 1, 2, 1, 1, 0x62], 1) := by
    decide +kernel
  have changed : unchangedBytes ([5, 0, 2, 1, 1, 0x61, 10, 1, 0] ++ [0])
      [5, 0, 3, 1, 1, 0x61, 10, 1, 2, 1, 1, 0x62] = false := by
    decide
  have done : shadeArtifact (.new ⟨[⟨"a", "b"⟩], 4⟩ ArtifactFormat.bare)
      (.single (Packing.pack [5, 0, 2, 1, 1, 0x61, 10, 1, 0])) =
      .ok ⟨.ofEncoded (Packing.pack [5, 0, 3, 1, 1, 0x61, 10, 1, 2, 1, 1, 0x62]) 4, 1, true, true⟩ := by
    simp only [shadeArtifact, Shader.new, ArtifactFormat.bare, SignatureText.encoded,
      TextCodec.sevenBit_decode, TextCodec.sevenBit_encode, unpacked, shadedOk, changed, bind,
      Except.bind, pure, Except.pure, Bool.false_eq_true, if_false]
  exact ⟨readsBack, done, shadeArtifact_writes_back _ (Shader.codec_new _ _) _ readsBack _ done rfl⟩

end PickleShading
