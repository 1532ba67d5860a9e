import PickleShading.Proofs.Unchanged

/-!
# Rules are applied one after another

Shading a pickle renames by each rule in turn, each rename working on the table the ones
before it left. `Table.Renames t rules counts t'` says that this goes through for every rule:
the renames of `rules`, applied in order from `t`, all succeed, the `j`-th moving `counts[j]`
links, and leave `t'`.

Main statement (`Pickle.shading_folds_renames`): when every rename succeeds, applying the
rules gives the sum of the counts and the table the last rename left; when the rule at `k` is
the first whose rename fails, applying the rules fails with that failure and leaves the table
as the first `k` rules left it, with no trace of the failed rename, since a rename that fails
changes nothing (`Table.rename_eq_error`). Shading signature bytes reads them, folds the rules
so, and writes the result only when no rule failed.
-/

namespace PickleShading

namespace Table

/-- The renames of `rules`, each applied to the table that the one before it left, all succeed
from `t`: the `j`-th moves `counts[j]` links, and the last leaves `t'`. -/
inductive Renames : Table → List RenameRule → List Nat → Table → Prop
  /-- No rule, nothing moved. -/
  | nil (t : Table) : Renames t [] [] t
  /-- One rename that succeeds, then the renames of the other rules from where it left. -/
  | cons {t t₁ t' : Table} {r : RenameRule} {rules : List RenameRule} {n : Nat}
      {counts : List Nat} :
      rename r.source r.target t = .ok n t₁ → Renames t₁ rules counts t' →
      Renames t (r :: rules) (n :: counts) t'

/-- Renames that all succeed are applied with their counts summed. The induction is on the
renames, the count gathered so far growing by each. -/
theorem applyRules_of_renames {t t' : Table} {rules : List RenameRule} {counts : List Nat}
    (renamed : Renames t rules counts t') (acc : Nat) :
    applyRules rules acc t = .ok (acc + counts.sum) t' := by
  induction renamed generalizing acc with
  | nil t => rfl
  | cons first _ ih =>
    rw [applyRules, bind_of_ok first, ih, List.sum_cons, Nat.add_assoc]

/-- When the renames of `done` succeed and the rename of `r` then fails, applying
`done ++ r :: rest` fails with that failure and leaves the table as `done` left it. -/
theorem applyRules_of_failure {t tk t'' : Table} {done rest : List RenameRule} {counts : List Nat}
    {r : RenameRule} {e : Error} (renamed : Renames t done counts tk)
    (failed : rename r.source r.target tk = .error e t'') (acc : Nat) :
    applyRules (done ++ r :: rest) acc t = .error e tk := by
  induction renamed generalizing acc with
  | nil t =>
    -- the failed rename left its table as it was
    have unchanged := rename_eq_error failed
    subst unchanged
    rw [List.nil_append, applyRules, bind_of_error failed]
  | cons first _ ih =>
    rw [List.cons_append, applyRules, bind_of_ok first, ih failed]

end Table

namespace Pickle

/-- The rules before the one at `k`, the rule at `k`, and the rules after it. -/
theorem take_append_cons_drop {rules : List RenameRule} {k : Nat} {r : RenameRule}
    (atK : rules[k]? = some r) : rules = rules.take k ++ r :: rules.drop (k + 1) := by
  obtain ⟨inside, rfl⟩ := List.getElem?_eq_some_iff.mp atK
  rw [← List.drop_eq_getElem_cons inside, List.take_append_drop]

/-- What applying `rules` to `p` gives: the summed counts and the last table when every rename
succeeds, and the first failure with the table the rules before it left otherwise. -/
structure FoldsRenames (rules : List RenameRule) (p : Pickle) : Prop where
  succeeded : ∀ counts t', Table.Renames p.table rules counts t' →
    p.applyRules rules = (.ok counts.sum, { p with table := t' })
  failed : ∀ k counts t r e t'', Table.Renames p.table (rules.take k) counts t →
    rules[k]? = some r → Table.rename r.source r.target t = .error e t'' →
    p.applyRules rules = (.error e, { p with table := t })

/-- Applying rules to any pickle folds the renames in order. -/
theorem foldsRenames (rules : List RenameRule) (p : Pickle) : FoldsRenames rules p where
  succeeded counts t' renamed := by
    simp only [applyRules, Table.applyRules_of_renames renamed 0, Nat.zero_add]
  failed k counts t r e t'' renamed atK refused := by
    have applied : Table.applyRules (rules.take k ++ r :: rules.drop (k + 1)) 0 p.table =
        .error e t :=
      Table.applyRules_of_failure renamed refused 0
    rw [← take_append_cons_drop atK] at applied
    simp only [applyRules, applied]

/-- Applying rules folds the renames: the sum of their counts when all succeed, and otherwise
the first failure, the table left as the rules before it left it. Shading signature bytes
fails when they hold no pickle; otherwise, when all renames succeed it writes the pickle they
leave, and when one fails it fails with that failure and writes nothing. -/
theorem shading_folds_renames (rules : List RenameRule) (p : Pickle) (data : List UInt8) :
    FoldsRenames rules p ∧
    (∀ e, parse data = .error e → shadeSignature rules data = .error e) ∧
    (parse data = .ok p →
      (∀ counts t', Table.Renames p.table rules counts t' →
        shadeSignature rules data =
          ({ p with table := t' } : Pickle).serialize.map (·, counts.sum)) ∧
      ∀ k counts t r e t'', Table.Renames p.table (rules.take k) counts t → rules[k]? = some r →
        Table.rename r.source r.target t = .error e t'' →
        shadeSignature rules data = .error e) := by
  have folds := foldsRenames rules p
  refine ⟨folds, fun e unread => ?_, fun parsed => ⟨fun counts t' renamed => ?_, ?_⟩⟩
  · simp only [shadeSignature, unread, bind, Except.bind]
  · simp only [shadeSignature, parsed, folds.succeeded counts t' renamed, bind, Except.bind]
    cases ({ p with table := t' } : Pickle).serialize <;> rfl
  · intro k counts t r e t'' renamed atK refused
    simp only [shadeSignature, parsed, folds.failed k counts t r e t'' renamed atK refused, bind,
      Except.bind]

/-- A term name `a` and a link to it, moved to `b` by the one rule. -/
theorem shading_folds_renames_single :
    parse [5, 0, 2, 1, 1, 0x61, 10, 1, 0] =
        .ok ⟨5, 0, ⟨#[.name .term "a", .link ⟨0, none⟩], [1], []⟩⟩ ∧
      Table.Renames ⟨#[.name .term "a", .link ⟨0, none⟩], [1], []⟩ [⟨"a", "b"⟩] [1]
        ⟨#[.name .term "a", .link ⟨2, none⟩, .name .term "b"], [1], []⟩ ∧
      shadeSignature [⟨"a", "b"⟩] [5, 0, 2, 1, 1, 0x61, 10, 1, 0] =
        (Pickle.serialize
          ⟨5, 0, ⟨#[.name .term "a", .link ⟨2, none⟩, .name .term "b"], [1], []⟩⟩).map (·, 1) := by
  have parsed : parse [5, 0, 2, 1, 1, 0x61, 10, 1, 0] =
      .ok ⟨5, 0, ⟨#[.name .term "a", .link ⟨0, none⟩], [1], []⟩⟩ := by
    decide +kernel
  have renamed : Table.Renames ⟨#[.name .term "a", .link ⟨0, none⟩], [1], []⟩ [⟨"a", "b"⟩] [1]
      ⟨#[.name .term "a", .link ⟨2, none⟩, .name .term "b"], [1], []⟩ :=
    .cons rfl (.nil _)
  obtain ⟨-, -, shaded⟩ := shading_folds_renames [⟨"a", "b"⟩]
    ⟨5, 0, ⟨#[.name .term "a", .link ⟨0, none⟩], [1], []⟩⟩ [5, 0, 2, 1, 1, 0x61, 10, 1, 0]
  exact ⟨parsed, renamed, (shaded parsed).1 [1] _ renamed⟩

end Pickle

end PickleShading
