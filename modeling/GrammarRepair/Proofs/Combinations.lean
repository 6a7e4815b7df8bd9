import GrammarRepair.Matching
import Mathlib.Data.List.Basic

/-!
# Matches of combinations

What the usual combinations of rules enumerate, in terms of their parts.  A
single rule stands for itself in a concatenation, but its matches are those of
a sequence of one part all the same; and an alternative without a suggestion
lists the matches of its branches whether there are any or not.
-/

namespace GrammarRepair.Rule

variable {ctx : Context} {input : Text} {m : Match}

/-- Each head goes in front of what is listed for its rest. -/
theorem mem_flatMap_precededBy_iff {heads : List Match} {tails : Match → List Match} :
    m ∈ heads.flatMap (fun head => (tails head).map (Match.precededBy head.text)) ↔
      ∃ head ∈ heads, ∃ tail ∈ tails head, m = ⟨head.text ++ tail.text, tail.rest⟩ := by
  rw [List.mem_flatMap]
  constructor
  · rintro ⟨head, hhead, hm⟩
    obtain ⟨tail, htail, rfl⟩ := List.mem_map.mp hm
    exact ⟨head, hhead, tail, htail, Match.precededBy_mk _ _ _⟩
  · rintro ⟨head, hhead, tail, htail, rfl⟩
    exact ⟨head, hhead, List.mem_map.mpr ⟨tail, htail, Match.precededBy_mk _ _ _⟩⟩

theorem mem_enumerateSequence_cons_iff {part : Rule} {parts : List Rule} :
    m ∈ enumerateSequence (part :: parts) ctx input ↔
      ∃ head ∈ part.enumerate ctx input, ∃ tail ∈ enumerateSequence parts ctx head.rest,
        m = ⟨head.text ++ tail.text, tail.rest⟩ := by
  rw [enumerateSequence_cons, mem_flatMap_precededBy_iff]

/-- Parts one after the other may be matched in two goes. -/
theorem enumerateSequence_append
    (parts later : List Rule) (ctx : Context) (input : Text) :
    enumerateSequence (parts ++ later) ctx input =
      (enumerateSequence parts ctx input).flatMap fun head =>
        (enumerateSequence later ctx head.rest).map (Match.precededBy head.text) := by
  induction parts generalizing input with
  | nil =>
      rw [List.nil_append, enumerateSequence_nil, List.flatMap_singleton, Match.precededBy_nil,
        List.map_id]
  | cons part parts ih =>
      rw [List.cons_append, enumerateSequence_cons, enumerateSequence_cons, List.flatMap_assoc]
      apply List.flatMap_congr
      intro head _
      rw [ih, List.map_flatMap, List.flatMap_map]
      simp only [List.map_map, Function.comp_def, Match.precededBy_precededBy,
        Match.text_precededBy, Match.rest_precededBy]

theorem mem_enumerateSequence_append_iff {parts later : List Rule} :
    m ∈ enumerateSequence (parts ++ later) ctx input ↔
      ∃ head ∈ enumerateSequence parts ctx input, ∃ tail ∈ enumerateSequence later ctx head.rest,
        m = ⟨head.text ++ tail.text, tail.rest⟩ := by
  rw [enumerateSequence_append, mem_flatMap_precededBy_iff]

theorem enumerateSequence_singleton (rule : Rule) (ctx : Context) (input : Text) :
    enumerateSequence [rule] ctx input = rule.enumerate ctx input := by
  rw [enumerateSequence_cons]
  have halone (head : Match) :
      (enumerateSequence [] ctx head.rest).map (Match.precededBy head.text) = [head] := by
    rw [enumerateSequence_nil, List.map_singleton, Match.precededBy_mk, List.append_nil]
  simp only [halone]
  exact List.flatMap_singleton' _

theorem enumerate_concat (rules : List Rule) (ctx : Context) (input : Text) :
    (concat rules).enumerate ctx input = enumerateSequence rules ctx input := by
  match rules with
  | [] => exact enumerate_sequence [] ctx input
  | [rule] => exact (enumerateSequence_singleton rule ctx input).symm
  | first :: second :: later => exact enumerate_sequence (first :: second :: later) ctx input

theorem enumerate_alternative (rules : List Rule) (ctx : Context) (input : Text) :
    (alternative rules).enumerate ctx input = rules.flatMap (enumerate · ctx input) := by
  rw [alternative, enumerate_choice]
  split
  · rename_i hnone
    rw [hnone]
    rfl
  · rfl

theorem enumerate_epsilon (ctx : Context) (input : Text) :
    epsilon.enumerate ctx input = [⟨[], input⟩] := by
  rw [epsilon, enumerate_sequence, enumerateSequence_nil]

theorem enumerate_optional (rule : Rule) (ctx : Context) (input : Text) :
    (optional rule).enumerate ctx input = ⟨[], input⟩ :: rule.enumerate ctx input := by
  rw [optional_eq, enumerate_alternative]
  simp [enumerate_epsilon]

theorem mem_enumerate_literal_iff {text : Text} :
    m ∈ (literal text).enumerate ctx input ↔ m.text = text ∧ input = text ++ m.rest := by
  rw [enumerate_literal, @eq_comm _ input, ← List.isPrefixOf?_eq_some_iff_append_eq]
  split
  · rename_i rest hrest
    rw [List.mem_singleton, hrest, Option.some.injEq]
    constructor
    · rintro rfl
      exact ⟨rfl, rfl⟩
    · rintro ⟨rfl, rfl⟩
      rfl
  · rename_i hnone
    simp [hnone]

/-- A match of one rule and then another. -/
theorem mem_enumerate_andThen_iff {first second : Rule} :
    m ∈ (first.andThen second).enumerate ctx input ↔
      ∃ head ∈ first.enumerate ctx input, ∃ tail ∈ second.enumerate ctx head.rest,
        m = ⟨head.text ++ tail.text, tail.rest⟩ := by
  rw [andThen, enumerate_concat, mem_enumerateSequence_cons_iff]
  simp only [enumerateSequence_singleton]

/-- A reference stands for its rule where it has not been entered. -/
theorem enumerate_reference_of_not_mem
    {name : String} {target : Rule} (hresolve : ctx.resolve? name = some target)
    (hnew : Frame.mk name input ∉ ctx.frames) :
    (reference name).enumerate ctx input =
      target.enumerate { ctx with frames := ⟨name, input⟩ :: ctx.frames } input := by
  have henter := Context.enter?_eq_some_iff.mpr ⟨by simpa [Context.contains] using hnew, rfl⟩
  rw [enumerate_reference, hresolve, henter]

end GrammarRepair.Rule
