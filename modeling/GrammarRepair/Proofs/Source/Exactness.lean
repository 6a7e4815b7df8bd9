import GrammarRepair.Proofs.Source.Completeness
import GrammarRepair.Proofs.Source.Soundness

/-!
# The sources that are read

A source is read as a list of definitions if and only if it spells them.  The
two directions come from the readers of single phrases; only the end of the
source is left to look at.
-/

namespace GrammarRepair.Source

theorem skipBlank_eq_nil_iff {text : Text} : skipBlank text = [] ↔ Gap text [] := by
  constructor
  · intro h
    exact h ▸ gap_skipBlank text
  · intro h
    exact h.skipBlank_eq

theorem readToEnd_eq_ok_iff {text : Text} {definitions : List Definition} :
    readToEnd text = .ok definitions ↔
      ∃ rest, readDefinitions text = .ok (definitions, rest) ∧ skipBlank rest = [] := by
  rw [readToEnd]
  match readDefinitions text with
  | .error failure => simp [Except.bind]
  | .ok (found, rest) =>
      simp only [Except.bind, Except.ok.injEq, Prod.mk.injEq]
      split
      · rename_i hrest
        constructor
        · intro h
          exact ⟨rest, ⟨Except.ok.inj h, rfl⟩, hrest⟩
        · rintro ⟨_, ⟨rfl, rfl⟩, _⟩
          rfl
      · rename_i hrest
        constructor
        · intro h
          simp at h
        · rintro ⟨_, ⟨_, rfl⟩, hnil⟩
          exact absurd hnil hrest

theorem read_eq_ok_iff_readToEnd {source : Text} {definitions : List Definition} :
    read source = .ok definitions ↔ readToEnd source = .ok definitions := by
  rw [read]
  match readToEnd source with
  | .error failure =>
      constructor
      · intro h
        exact nomatch h
      · intro h
        exact nomatch h
  | .ok found =>
      constructor
      · intro h
        exact congrArg Except.ok (Except.ok.inj h)
      · intro h
        exact congrArg Except.ok (Except.ok.inj h)

theorem read_eq_ok_iff {source : Text} {definitions : List Definition} :
    read source = .ok definitions ↔ IsSpelling source definitions := by
  rw [read_eq_ok_iff_readToEnd, readToEnd_eq_ok_iff]
  constructor
  · rintro ⟨rest, hdefinitions, hrest⟩
    exact ⟨rest, says_of_readDefinitions hdefinitions, skipBlank_eq_nil_iff.mp hrest⟩
  · rintro ⟨rest, ⟨tokens, hphrase, hspells⟩, hgap⟩
    have hrest := skipBlank_eq_nil_iff.mpr hgap
    exact ⟨rest, hphrase.readDefinitions_eq hspells hrest, hrest⟩

theorem IsSpelling.compact {source : Text} {definitions : List Definition}
    (h : IsSpelling source definitions) :
    ∀ definition ∈ definitions, definition.body.Compact := by
  obtain ⟨rest, ⟨tokens, hphrase, -⟩, -⟩ := h
  exact hphrase.compact

/-- Reading succeeds with exactly the definitions that the source spells, and
their bodies have no node for a group, a single item or a single branch. -/
theorem read_iff_isSpelling_and_compact (source : Text) (definitions : List Definition) :
    (read source = .ok definitions ↔ IsSpelling source definitions) ∧
      (read source = .ok definitions → ∀ definition ∈ definitions, definition.body.Compact) := by
  refine ⟨read_eq_ok_iff, ?_⟩
  intro h
  exact (read_eq_ok_iff.mp h).compact

/-- A gap may stand inside of a range, but not behind an at sign. -/
example : (read "a(max63)='x'.. # c\x0d\n'z'@s{1,};".toList).isOk = true ∧
    (read "a(max63)='x'.. 'z'@ s{1,};".toList).isOk = false := by
  decide +kernel

end GrammarRepair.Source
