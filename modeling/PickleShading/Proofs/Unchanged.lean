import PickleShading.Proofs.Unpacking
import PickleShading.Proofs.Acceptance
import PickleShading.Proofs.RenameFrame
import PickleShading.Shade

/-!
# Shading that changes nothing

Shading an artifact stores its signature back only when the written bytes differ from the
decoded ones, where the decoded bytes may carry one zero byte more, the one unpacking adds
to fill the last byte. The detection is exact in both directions:

* when the artifact is returned unchanged, whatever the text codec, no rule moved a link. A
  moved link appends entries, so the entry count that the written bytes start with would
  differ from the one read, and the count is the third framed number of both
  (`Shading.moved_eq_zero_of_unchanged`);
* with the seven-bit packing, a signature written with shortest numbers and no trailer, on
  which the rules succeed and leave the pickle as it was, is reported unchanged, whether or
  not unpacking added a zero byte (`Packing.unpack_pack`).

Main statement: `shadeArtifact_unchanged_exact`. A rule that fails fails the whole: a pickle
with a cyclic namespace is refused even when no rule would change it
(`shadeArtifact_refuses_cycle`).
-/

namespace PickleShading

namespace Except

variable {ε α β : Type} {x : Except ε α} {f : α → Except ε β}

theorem bind_eq_ok {b : β} : x >>= f = .ok b ↔ ∃ a, x = .ok a ∧ f a = .ok b := by
  cases x <;> simp [bind, Except.bind]

end Except

namespace Varint

/-- A framed number read from the front of bytes is the same whichever padded form it has:
two padded forms that start the same bytes carry the same number and leave the same rest. -/
theorem padded_append_inj {k k' v v' : Nat} {rest rest' : List UInt8} (fits : v ≤ maxWord)
    (fits' : v' ≤ maxWord) (same : padded k v ++ rest = padded k' v' ++ rest') :
    v = v' ∧ rest = rest' := by
  have read := Cursor.readVarint_padded_append k v fits 0 rest
  have read' := Cursor.readVarint_padded_append k' v' fits' 0 rest'
  rw [same, read'] at read
  simp only [EStateM.Result.ok.injEq, Cursor.mk.injEq] at read
  exact ⟨read.1.symm, read.2.2.symm⟩

end Varint

namespace Table

/-- Applying rules that succeed adds at least one entry for every moved link. The induction is
on the rules; each rename adds `2 * k - 1` entries per moved link (`size_rename`). -/
theorem applyRules_size : ∀ (rules : List RenameRule) (acc total : Nat) (t t' : Table),
    applyRules rules acc t = .ok total t' → acc ≤ total ∧ t.size + (total - acc) ≤ t'.size
  | [], acc, total, t, t', applied => by
    simp only [applyRules, pure, EStateM.pure, EStateM.Result.ok.injEq] at applied
    obtain ⟨rfl, rfl⟩ := applied
    simp
  | r :: rules, acc, total, t, t', applied => by
    obtain ⟨n, t₁, renamed, rest⟩ := bind_eq_ok.mp applied
    obtain ⟨counted, grown⟩ := applyRules_size rules (acc + n) total t₁ t' rest
    have perLink : n ≤ n * (2 * (Namespace.split r.target).length - 1) := by
      have := List.length_pos_iff.mpr (split_ne_nil r.target)
      exact Nat.le_mul_of_pos_right n (by omega)
    have first := size_rename renamed
    refine ⟨by omega, ?_⟩
    omega

end Table

namespace Pickle

/-- Applying rules to a pickle succeeds exactly when the renames of its table do, and the pickle
then holds the table they left. -/
theorem applyRules_eq_ok {p q : Pickle} {rules : List RenameRule} {moved : Nat} :
    p.applyRules rules = (.ok moved, q) ↔
      ∃ t, Table.applyRules rules 0 p.table = .ok moved t ∧ q = { p with table := t } := by
  unfold applyRules
  cases Table.applyRules rules 0 p.table with
  | ok moved' t => simp [eq_comm]
  | error e t => simp

/-- The bytes of the pickle of version 5.0 that holds the frames' entries, with every number in
its shortest form and nothing after the entries. -/
def shortestBytes (frames : List Frame) : List UInt8 :=
  Varint.encode 5 ++ Varint.encode 0 ++ Varint.encode frames.length ++
    (frames.map Frame.shortest).flatten

/-- Such bytes, followed by nothing or a single zero byte, are read as the pickle of the
frames' entries: the frames with their lengths unpadded are what reading finds. -/
theorem parse_shortestBytes (frames : List Frame) (fits : ∀ f ∈ frames, f.payload.length ≤ Varint.maxWord)
    (countFits : frames.length ≤ Varint.maxWord) {trailer : List UInt8}
    (trailerShape : trailer = [] ∨ trailer = [0]) :
    parse (shortestBytes frames ++ trailer) = .ok ⟨5, 0, Table.empty.pushAll (frames.map Frame.entry)⟩ := by
  let unpadded := frames.map fun f => ({ f with pad := 0 } : Frame)
  have sameBytes : (unpadded.map Frame.bytes).flatten = (frames.map Frame.shortest).flatten := by
    simp only [unpadded, List.map_map, Function.comp_def]
    rfl
  have sameEntries : unpadded.map Frame.entry = frames.map Frame.entry := by
    simp only [unpadded, List.map_map, Function.comp_def]
    rfl
  have unpaddedFits : ∀ f ∈ unpadded, f.payload.length ≤ Varint.maxWord := by
    simpa [unpadded] using fits
  have sameLength : unpadded.length = frames.length := List.length_map _
  have read := parse_frames 0 0 0 unpadded trailerShape unpaddedFits (by omega)
  rwa [sameBytes, sameEntries, sameLength] at read

/-- Writing succeeds only with a count that fits 32 bits, and then starts with the version and
the entry count, in shortest form. -/
theorem serialize_eq_ok {p : Pickle} {bytes : List UInt8} (written : p.serialize = .ok bytes) :
    p.table.size ≤ Varint.maxWord ∧ ∃ body, bytes = Varint.encode p.major ++ Varint.encode p.minor ++
      Varint.encode p.table.size ++ body := by
  obtain ⟨tableBytes, tableWritten, done⟩ := Except.bind_eq_ok.mp written
  obtain ⟨count, counted, rest⟩ := Except.bind_eq_ok.mp tableWritten
  obtain ⟨body, -, rest⟩ := Except.bind_eq_ok.mp rest
  simp only [pure, Except.pure, Except.ok.injEq] at done rest
  simp only [Varint.word] at counted
  split at counted
  · rename_i fits
    cases counted
    subst rest done
    exact ⟨fits, body, by simp⟩
  · cases counted

end Pickle

namespace Shading

variable {rules : List RenameRule} {data shaded : List UInt8} {moved : Nat}

/-- Shading signature bytes reads a pickle, applies the rules to it with success, and writes the
result. -/
theorem shadeSignature_eq_ok (shadedOk : shadeSignature rules data = .ok (shaded, moved)) :
    ∃ p t, Pickle.parse data = .ok p ∧ Table.applyRules rules 0 p.table = .ok moved t ∧
      ({ p with table := t } : Pickle).serialize = .ok shaded := by
  obtain ⟨p, parsed, rest⟩ := Except.bind_eq_ok.mp shadedOk
  cases applied : p.applyRules rules with
  | mk result q =>
    rw [applied] at rest
    obtain ⟨moved', counted, rest⟩ := Except.bind_eq_ok.mp rest
    obtain ⟨out, written, done⟩ := Except.bind_eq_ok.mp rest
    simp only [pure, Except.pure, Except.ok.injEq, Prod.mk.injEq] at done
    obtain ⟨rfl, rfl⟩ := done
    subst counted
    obtain ⟨t, tableApplied, rfl⟩ := Pickle.applyRules_eq_ok.mp applied
    exact ⟨p, t, parsed, tableApplied, written⟩

/-- Bytes followed by nothing or a single zero byte count as unchanged from the bytes. -/
theorem unchangedBytes_trailer {bytes trailer : List UInt8} (trailerShape : trailer = [] ∨ trailer = [0]) :
    unchangedBytes (bytes ++ trailer) bytes = true := by
  rcases trailerShape with rfl | rfl <;> simp [unchangedBytes]

/-- When the written bytes are the read ones, or the read ones less a last zero byte, no rule
moved a link: the entry count, the third framed number of both, did not change, and every moved
link would have added entries. -/
theorem moved_eq_zero_of_unchanged (shadedOk : shadeSignature rules data = .ok (shaded, moved))
    (unchanged : unchangedBytes data shaded = true) : moved = 0 := by
  obtain ⟨p, t, parsed, applied, written⟩ := shadeSignature_eq_ok shadedOk
  obtain ⟨c, readOk⟩ := Pickle.parse_eq_ok.mp parsed
  obtain ⟨majorPad, minorPad, countPad, frames, trailer, -, consumed, -, countFits, rfl⟩ :=
    Pickle.read_eq_ok readOk
  obtain ⟨writtenFits, body, rfl⟩ := Pickle.serialize_eq_ok written
  obtain ⟨-, grown⟩ := Table.applyRules_size rules 0 moved _ t applied
  -- the read bytes start with the written ones
  obtain ⟨tail, prefixed⟩ : ∃ tail, data = (Varint.encode 5 ++ Varint.encode 0 ++
      Varint.encode t.size ++ body) ++ tail := by
    simp only [unchangedBytes, Bool.or_eq_true, beq_iff_eq] at unchanged
    rcases unchanged with same | same
    · exact ⟨[], by rw [List.append_nil]; exact same.symm⟩
    · exact ⟨[0], same⟩
  simp only [Cursor.start] at consumed
  rw [consumed] at prefixed
  simp only [← Varint.padded_zero, List.append_assoc] at prefixed
  obtain ⟨-, afterMajor⟩ := Varint.padded_append_inj (by decide) (by decide) prefixed
  obtain ⟨-, afterMinor⟩ := Varint.padded_append_inj (by decide) (by decide) afterMajor
  obtain ⟨sameCount, -⟩ := Varint.padded_append_inj countFits writtenFits afterMinor
  have sameSize : frames.length = t.size := sameCount
  have readSize : (Table.empty.pushAll (frames.map Frame.entry)).size = frames.length := by
    simp [Table.empty, Table.size]
  have grownBy : (Table.empty.pushAll (frames.map Frame.entry)).size + (moved - 0) ≤ t.size := grown
  omega

/-- What shading one artifact can give: no signature and the artifact unchanged; a signature
that shades to the same bytes and the artifact unchanged; or a signature that shades to other
bytes, stored back. -/
theorem shadeArtifact_eq_ok {α : Type} {shader : Shader α} {artifact : α} {o : Outcome α}
    (done : shadeArtifact shader artifact = .ok o) :
    (shader.format.extract artifact = .ok none ∧ o = ⟨artifact, 0, false, false⟩) ∨
    ∃ stored data shaded moved, shader.format.extract artifact = .ok (some stored) ∧
      shader.codec.decode stored.encoded = .ok data ∧
      shadeSignature shader.config.rules data = .ok (shaded, moved) ∧
      ((unchangedBytes data shaded = true ∧ o = ⟨artifact, 0, true, false⟩) ∨
        (unchangedBytes data shaded = false ∧ ∃ written,
          shader.format.inject artifact
              (SignatureText.ofEncoded (shader.codec.encode shaded) shader.config.chunkLimit) =
            .ok written ∧ o = ⟨written, moved, true, true⟩)) := by
  obtain ⟨found, extracted, rest⟩ := Except.bind_eq_ok.mp done
  cases found with
  | none =>
    cases rest
    exact .inl ⟨extracted, rfl⟩
  | some stored =>
    obtain ⟨data, unpacked, rest⟩ := Except.bind_eq_ok.mp rest
    obtain ⟨⟨shaded, moved⟩, shadedOk, rest⟩ := Except.bind_eq_ok.mp rest
    refine .inr ⟨stored, data, shaded, moved, extracted, unpacked, shadedOk, ?_⟩
    cases same : unchangedBytes data shaded
    · simp only [same, Bool.false_eq_true, if_false] at rest
      obtain ⟨written, injected, stored⟩ := Except.bind_eq_ok.mp rest
      simp only [pure, Except.pure, Except.ok.injEq] at stored
      exact .inr ⟨rfl, written, injected, stored.symm⟩
    · simp only [same, if_true, pure, Except.pure, Except.ok.injEq] at rest
      exact .inl ⟨rfl, rest.symm⟩

/-- A signature written with shortest numbers and no trailer, followed by nothing or a single
zero byte, is shaded back to the same bytes when the rules succeed and leave the pickle as it
was. -/
theorem shadeSignature_of_unchanged {frames : List Frame}
    (fits : ∀ f ∈ frames, f.payload.length ≤ Varint.maxWord) (countFits : frames.length ≤ Varint.maxWord)
    (kept : ∀ p, Pickle.parse (Pickle.shortestBytes frames) = .ok p → ∃ m, p.applyRules rules = (.ok m, p))
    {trailer : List UInt8} (trailerShape : trailer = [] ∨ trailer = [0]) :
    ∃ m, shadeSignature rules (Pickle.shortestBytes frames ++ trailer) =
      .ok (Pickle.shortestBytes frames, m) := by
  have parsedBare := Pickle.parse_shortestBytes frames fits countFits (.inl rfl)
  rw [List.append_nil] at parsedBare
  obtain ⟨m, applied⟩ := kept _ parsedBare
  have written : (⟨5, 0, Table.empty.pushAll (frames.map Frame.entry)⟩ : Pickle).serialize =
      .ok (Pickle.shortestBytes frames) := by
    simp only [Pickle.serialize, Table.write_pushAll_frames frames fits countFits, Pickle.shortestBytes,
      bind, Except.bind, pure, Except.pure, List.append_assoc]
  refine ⟨m, ?_⟩
  simp only [shadeSignature, Pickle.parse_shortestBytes frames fits countFits trailerShape, applied,
    written, bind, Except.bind, pure, Except.pure]

/-- A rule that fails on the signature fails the whole artifact, with that failure. -/
theorem shadeArtifact_eq_error_of_rules {α : Type} {shader : Shader α} {artifact : α}
    {stored : SignatureText} {data : List UInt8} {p q : Pickle} {e : Error}
    (extracted : shader.format.extract artifact = .ok (some stored))
    (unpacked : shader.codec.decode stored.encoded = .ok data) (parsed : Pickle.parse data = .ok p)
    (refused : p.applyRules shader.config.rules = (.error e, q)) :
    shadeArtifact shader artifact = .error e := by
  simp only [shadeArtifact, extracted, unpacked, shadeSignature, parsed, refused, bind, Except.bind]

end Shading

open Shading in
/-- Unchanged detection is exact. When shading an artifact leaves it unmodified, whatever the
text codec, the artifact is the one given, no link is counted, and the rules moved no link of
its signature. Conversely, with the seven-bit packing, an artifact whose annotation packs a
signature written with shortest numbers and no trailer, on which the rules succeed and leave
the pickle as it was, is found and left unmodified, whatever the signature's length modulo
seven and whatever the chunk limit. -/
theorem shadeArtifact_unchanged_exact {α : Type} (shader : Shader α) (artifact : α) :
    (∀ o, shadeArtifact shader artifact = .ok o → o.modified = false →
      o.artifact = artifact ∧ o.moved = 0 ∧
      ∀ stored data shaded moved, shader.format.extract artifact = .ok (some stored) →
        shader.codec.decode stored.encoded = .ok data →
        shadeSignature shader.config.rules data = .ok (shaded, moved) → moved = 0) ∧
    (shader.codec = .sevenBit → ∀ (frames : List Frame) (stored : SignatureText),
      (∀ f ∈ frames, f.payload.length ≤ Varint.maxWord) → frames.length ≤ Varint.maxWord →
      shader.format.extract artifact = .ok (some stored) →
      stored.encoded = Packing.pack (Pickle.shortestBytes frames) →
      (∀ p, Pickle.parse (Pickle.shortestBytes frames) = .ok p →
        ∃ m, p.applyRules shader.config.rules = (.ok m, p)) →
      shadeArtifact shader artifact = .ok ⟨artifact, 0, true, false⟩) := by
  refine ⟨fun o done unmodified => ?_, ?_⟩
  · rcases shadeArtifact_eq_ok done with ⟨extracted, rfl⟩ | ⟨stored, data, shaded, moved, extracted,
      unpacked, shadedOk, ⟨unchanged, rfl⟩ | ⟨-, written, -, rfl⟩⟩
    · refine ⟨rfl, rfl, fun stored _ _ _ found => ?_⟩
      rw [extracted] at found
      cases found
    · refine ⟨rfl, rfl, fun stored' data' shaded' moved' found unpacked' shadedOk' => ?_⟩
      rw [extracted] at found
      cases found
      rw [unpacked] at unpacked'
      cases unpacked'
      rw [shadedOk] at shadedOk'
      cases shadedOk'
      exact moved_eq_zero_of_unchanged shadedOk unchanged
    · cases unmodified
  · intro sevenBit frames stored fits countFits extracted packed kept
    -- whether or not unpacking adds a zero byte, the written bytes count as unchanged
    obtain ⟨trailer, trailerShape, unpacked⟩ := Packing.unpack_pack_trailer (Pickle.shortestBytes frames)
    obtain ⟨m, shadedOk⟩ := shadeSignature_of_unchanged fits countFits kept trailerShape
    simp only [shadeArtifact, extracted, sevenBit, TextCodec.sevenBit_decode, packed, unpacked,
      shadedOk, unchangedBytes_trailer trailerShape, bind, Except.bind, if_true, pure, Except.pure]

/-- A name and a link to it, with a rule for another namespace: nine bytes, so unpacking adds a
zero byte, and the artifact is left as it was. -/
theorem shadeArtifact_unchanged_link :
    Pickle.parse (Pickle.shortestBytes [⟨1, 0, [0x61]⟩, ⟨10, 0, [0]⟩]) =
        .ok ⟨5, 0, ⟨#[.name .term "a", .link ⟨0, none⟩], [1], []⟩⟩ ∧
      Pickle.applyRules ⟨5, 0, ⟨#[.name .term "a", .link ⟨0, none⟩], [1], []⟩⟩ [⟨"x", "y"⟩] =
        (.ok 0, ⟨5, 0, ⟨#[.name .term "a", .link ⟨0, none⟩], [1], []⟩⟩) ∧
      shadeArtifact (.new ⟨[⟨"x", "y"⟩], 10⟩ ⟨fun _ => .ok (some (.single (Packing.pack
          (Pickle.shortestBytes [⟨1, 0, [0x61]⟩, ⟨10, 0, [0]⟩])))), fun a _ => .ok a⟩) () =
        .ok ⟨(), 0, true, false⟩ := by
  have parsed : Pickle.parse (Pickle.shortestBytes [⟨1, 0, [0x61]⟩, ⟨10, 0, [0]⟩]) =
      .ok ⟨5, 0, ⟨#[.name .term "a", .link ⟨0, none⟩], [1], []⟩⟩ := by
    decide +kernel
  have kept : Pickle.applyRules ⟨5, 0, ⟨#[.name .term "a", .link ⟨0, none⟩], [1], []⟩⟩ [⟨"x", "y"⟩] =
      (.ok 0, ⟨5, 0, ⟨#[.name .term "a", .link ⟨0, none⟩], [1], []⟩⟩) := by
    decide +kernel
  refine ⟨parsed, kept, (shadeArtifact_unchanged_exact _ ()).2 (Shader.codec_new _ _) _ _
    (by decide) (by decide) rfl rfl ?_⟩
  intro p found
  rw [parsed, Except.ok.injEq] at found
  exact ⟨0, found ▸ kept⟩

/-- A name and a link that is its own parent: the bytes have shortest numbers and no trailer,
hold no literal, and no link resolves to `x`, so the rule `x` to `y` would change no entry;
yet the rule meets the cycle and fails, and with it the artifact. -/
theorem shadeArtifact_refuses_cycle :
    ∃ p : Pickle, Pickle.parse (Pickle.shortestBytes [⟨1, 0, [0x61]⟩, ⟨10, 0, [0, 1]⟩]) = .ok p ∧
      p.table.constants = [] ∧ (∀ i, p.table.resolveAt i ≠ .ok (some "x")) ∧
      p.applyRules [⟨"x", "y"⟩] = (.error (.cyclicReference 1), p) ∧
      shadeArtifact (.new ⟨[⟨"x", "y"⟩], 10⟩ ⟨fun _ => .ok (some (.single (Packing.pack
          (Pickle.shortestBytes [⟨1, 0, [0x61]⟩, ⟨10, 0, [0, 1]⟩])))), fun a _ => .ok a⟩) () =
        .error (.cyclicReference 1) := by
  have parsed : Pickle.parse (Pickle.shortestBytes [⟨1, 0, [0x61]⟩, ⟨10, 0, [0, 1]⟩] ++ [0]) =
      .ok ⟨5, 0, ⟨#[.name .term "a", .link ⟨0, some 1⟩], [1], []⟩⟩ := by
    decide +kernel
  have refused : Pickle.applyRules ⟨5, 0, ⟨#[.name .term "a", .link ⟨0, some 1⟩], [1], []⟩⟩
      [⟨"x", "y"⟩] = (.error (.cyclicReference 1), ⟨5, 0, ⟨#[.name .term "a", .link ⟨0, some 1⟩], [1], []⟩⟩) := by
    decide +kernel
  -- ten bytes, so unpacking adds a zero byte
  have unpacked : Packing.unpack (Packing.pack (Pickle.shortestBytes [⟨1, 0, [0x61]⟩, ⟨10, 0, [0, 1]⟩])) =
      .ok (Pickle.shortestBytes [⟨1, 0, [0x61]⟩, ⟨10, 0, [0, 1]⟩] ++ [0]) := by
    rw [Packing.unpack_pack]
    decide +kernel
  refine ⟨_, by decide +kernel, rfl, ?_, refused,
    Shading.shadeArtifact_eq_error_of_rules rfl unpacked parsed refused⟩
  intro i
  match i with
  | 0 => decide +kernel
  | 1 => decide +kernel
  | n + 2 => simp [Table.resolveAt, Table.link?, Table.get?, pure, Except.pure]

end PickleShading
