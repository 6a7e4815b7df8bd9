import GrammarRepair.Repair
import Mathlib.Data.List.Sort

/-!
# Lists of repairs

Repairs are listed in order and without repeats.  So two lists with the same
repairs are one list; and where all repairs are one text, the list has at most
that entry, and it has it if the text is a repair at all.  What a ceiling leaves
of an input respects the ceiling.
-/

namespace GrammarRepair

theorem Text.fits_within (ceiling : Option Nat) (input : Text) :
    Text.fits ceiling (Text.within ceiling input) = true := by
  cases ceiling with
  | none => rfl
  | some limit => exact decide_eq_true (Text.byteLength_truncate_le limit input)

namespace Grammar

variable {grammar : Grammar} {rule : Rule} {input text : Text}

/-- Which texts are repairs determines the list. -/
theorem repairs_eq_of_mem_iff
    {other : Grammar} {later : Rule} {rest : Text}
    (hsame : ∀ text, text ∈ grammar.repairs rule input ↔ text ∈ other.repairs later rest) :
    grammar.repairs rule input = other.repairs later rest := by
  have : Std.Antisymm fun a b : Text => Text.comesBefore a b = true ∧ a ≠ b :=
    ⟨fun _ _ hab hba => Text.comesBefore_antisymm _ _ hab.1 hba.1⟩
  have : Std.Irrefl fun a b : Text => Text.comesBefore a b = true ∧ a ≠ b :=
    ⟨fun _ h => h.2 rfl⟩
  exact (grammar.pairwise_repairs rule input).eq_of_mem_iff
    (other.pairwise_repairs later rest) hsame

theorem repairs_eq_nil_or_eq_singleton
    (hall : ∀ other ∈ grammar.repairs rule input, other = text) :
    grammar.repairs rule input = [] ∨ grammar.repairs rule input = [text] := by
  have hdistinct := grammar.pairwise_repairs rule input
  match hrepairs : grammar.repairs rule input with
  | [] => exact .inl rfl
  | [first] =>
      rw [hrepairs] at hall
      rw [hall first List.mem_cons_self]
      exact .inr rfl
  | first :: second :: later =>
      rw [hrepairs] at hall hdistinct
      have hfirst := hall first List.mem_cons_self
      have hsecond := hall second (List.mem_cons_of_mem _ List.mem_cons_self)
      rw [List.pairwise_cons] at hdistinct
      exact absurd (hfirst.trans hsecond.symm) (hdistinct.1 second List.mem_cons_self).2

theorem repairs_eq_singleton
    (hall : ∀ other, other ∈ grammar.repairs rule input ↔ other = text) :
    grammar.repairs rule input = [text] := by
  rcases repairs_eq_nil_or_eq_singleton fun other => (hall other).mp with hnil | hone
  · have hmem := (hall text).mpr rfl
    rw [hnil] at hmem
    cases hmem
  · exact hone

end Grammar
end GrammarRepair
