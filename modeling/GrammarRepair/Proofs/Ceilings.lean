import GrammarRepair.Matching.Induction
import GrammarRepair.Proofs.ByteOrder
import GrammarRepair.Proofs.Combinations
import GrammarRepair.Proofs.Repair
import GrammarRepair.Proofs.RuleMap
import Mathlib.Data.List.Basic

/-!
# Lists of repairs and ceilings

The list of repairs is told in bytes: the ceiling of the rule cuts the input to
the longest beginning that fits, the texts of the complete matches that fit are
the repairs, and the longer text comes first, or else the one whose bytes come
first.

Matching looks through ceilings wherever they stand.  Only the ceiling that the
rule itself declares counts, so the list stays the same without all others.
-/

namespace GrammarRepair

namespace Rule

mutual

/-- The rule without its ceilings. -/
def uncapped : Rule → Rule
  | .literal text => .literal text
  | .range span suggestion => .range span suggestion
  | .sequence parts => .sequence (uncappedAll parts)
  | .choice branches suggestion => .choice (uncappedAll branches) suggestion
  | .reference name => .reference name
  | .bound name body => .bound name body.uncapped
  | .capped _ inner => inner.uncapped

/-- The rules without their ceilings. -/
def uncappedAll : List Rule → List Rule
  | [] => []
  | rule :: rules => rule.uncapped :: uncappedAll rules

end

theorem uncappedAll_eq_map (rules : List Rule) : uncappedAll rules = rules.map uncapped := by
  induction rules with
  | nil => rfl
  | cons rule rules ih => rw [uncappedAll, ih, List.map_cons]

theorem ceiling?_uncapped (rule : Rule) : rule.uncapped.ceiling? = none := by
  match rule with
  | .literal _ => rfl
  | .range .. => rfl
  | .sequence _ => rfl
  | .choice .. => rfl
  | .reference _ => rfl
  | .bound .. => rfl
  | .capped _ inner => exact ceiling?_uncapped inner

theorem ceiling?_withCeiling {rule : Rule} (hrule : rule.ceiling? = none) (ceiling : Option Nat) :
    (rule.withCeiling ceiling).ceiling? = ceiling := by
  cases ceiling with
  | none => exact hrule
  | some limit => rfl

theorem enumerate_withCeiling
    (rule : Rule) (ceiling : Option Nat) (ctx : Context) (input : Text) :
    (rule.withCeiling ceiling).enumerate ctx input = rule.enumerate ctx input := by
  cases ceiling with
  | none => rfl
  | some limit => exact enumerate_capped limit rule ctx input

/-- Without ceilings in the rules, a rule and rules in a row match what they
match with them. -/
theorem enumerate_uncapped_and_parts :
    (∀ (rule : Rule) (ctx : Context) (input : Text),
      rule.uncapped.enumerate (ctx.mapRules uncapped) input = rule.enumerate ctx input) ∧
    ∀ (parts : List Rule) (ctx : Context) (input : Text),
      enumerateSequence (uncappedAll parts) (ctx.mapRules uncapped) input =
        enumerateSequence parts ctx input := by
  apply Matching.induction_on_rules_and_parts
  case literal =>
    intro text ctx input
    rw [uncapped, enumerate_literal, enumerate_literal]
  case range =>
    intro span suggestion ctx input
    cases input with
    | nil => rw [uncapped, enumerate_range_nil, enumerate_range_nil]
    | cons c rest => rw [uncapped, enumerate_range_cons, enumerate_range_cons]
  case sequence =>
    intro parts ctx input ih
    rw [uncapped, enumerate_sequence, enumerate_sequence, ih]
  case choice =>
    intro branches suggestion ctx input ih
    have hbranches : (uncappedAll branches).flatMap (enumerate · (ctx.mapRules uncapped) input) =
        branches.flatMap (enumerate · ctx input) := by
      rw [uncappedAll_eq_map, List.flatMap_map]
      exact List.flatMap_congr ih
    rw [uncapped, enumerate_choice, enumerate_choice, hbranches]
  case reference =>
    intro name ctx input ih
    rw [uncapped, enumerate_reference, enumerate_reference, Context.resolve?_mapRules,
      Context.enter?_mapRules]
    cases hresolve : ctx.resolve? name with
    | none => rfl
    | some target =>
        cases henter : ctx.enter? name input with
        | none => rfl
        | some child => exact ih target child hresolve henter
  case bound =>
    intro name body ctx input ih
    rw [uncapped, enumerate_bound, enumerate_bound, ← Context.mapRules_bind, ih]
  case capped =>
    intro limit inner ctx input ih
    rw [uncapped, enumerate_capped, ih]
  case nil =>
    intro ctx input
    rw [uncappedAll, enumerateSequence_nil, enumerateSequence_nil]
  case cons =>
    intro part parts ctx input ihpart ihparts
    rw [uncappedAll, enumerateSequence_cons, enumerateSequence_cons, ihpart]
    apply List.flatMap_congr
    intro head hhead
    rw [ihparts head.rest (byteLength_rest_le_of_mem_enumerate hhead)]

theorem enumerate_uncapped (rule : Rule) (ctx : Context) (input : Text) :
    rule.uncapped.enumerate (ctx.mapRules uncapped) input = rule.enumerate ctx input :=
  enumerate_uncapped_and_parts.1 rule ctx input

end Rule

/-! ## The beginning that a ceiling leaves -/

namespace Text

/-- The text takes no more bytes than the ceiling, if there is one. -/
def Respects (ceiling : Option Nat) (text : Text) : Prop :=
  ∀ limit ∈ ceiling, (utf8 text).length ≤ limit

/-- No longer beginning of the input takes at most as many bytes as the ceiling
allows. -/
structure IsLongestBeginning (ceiling : Option Nat) (input start : Text) : Prop where
  isPrefix : start <+: input
  respects : start.Respects ceiling
  longest : ∀ other : Text, other <+: input → other.Respects ceiling →
    (utf8 other).length ≤ (utf8 start).length

theorem fits_eq_true_iff {ceiling : Option Nat} {text : Text} :
    fits ceiling text = true ↔ text.Respects ceiling := by
  cases ceiling with
  | none => simp [fits, Respects]
  | some limit => simp [fits, Respects, length_utf8]

theorem within_isPrefix (ceiling : Option Nat) (input : Text) : within ceiling input <+: input := by
  cases ceiling with
  | none => exact List.prefix_refl input
  | some limit => exact truncate_isPrefix limit input

theorem isPrefix_within
    {ceiling : Option Nat} {input start : Text} (hstart : start <+: input)
    (hrespects : start.Respects ceiling) :
    start <+: within ceiling input := by
  cases ceiling with
  | none => exact hstart
  | some limit =>
      have hlength := hrespects limit rfl
      rw [length_utf8] at hlength
      exact isPrefix_truncate hstart hlength

/-- A ceiling leaves a text that respects it as it is. -/
theorem within_eq_self {ceiling : Option Nat} {text : Text} (hrespects : text.Respects ceiling) :
    within ceiling text = text :=
  (within_isPrefix ceiling text).eq_of_length_le
    (isPrefix_within (List.prefix_refl text) hrespects).length_le

/-- A beginning that takes as many bytes as the text is all of it. -/
theorem eq_of_isPrefix_of_byteLength_le
    {start text : Text} (hstart : start <+: text) (hlength : byteLength text ≤ byteLength start) :
    start = text := by
  obtain ⟨rest, rfl⟩ := hstart
  cases rest with
  | nil => rw [List.append_nil]
  | cons c rest =>
      have hsize := Char.utf8Size_pos c
      rw [byteLength_append, byteLength_cons] at hlength
      omega

/-- What a ceiling leaves of an input is the longest beginning that fits. -/
theorem isLongestBeginning_iff {ceiling : Option Nat} {input start : Text} :
    IsLongestBeginning ceiling input start ↔ start = within ceiling input := by
  have hrespects : (within ceiling input).Respects ceiling :=
    fits_eq_true_iff.mp (fits_within ceiling input)
  constructor
  · intro h
    have hlonger := h.longest _ (within_isPrefix ceiling input) hrespects
    rw [length_utf8, length_utf8] at hlonger
    exact eq_of_isPrefix_of_byteLength_le (isPrefix_within h.isPrefix h.respects) hlonger
  · rintro rfl
    refine ⟨within_isPrefix ceiling input, hrespects, fun other hother hfits => ?_⟩
    obtain ⟨rest, hrest⟩ := isPrefix_within hother hfits
    rw [length_utf8, length_utf8, ← hrest, byteLength_append]
    exact Nat.le_add_right _ _

/-- The longer text comes first, or else the one whose bytes come first. -/
def Before (a b : Text) : Prop :=
  (utf8 b).length < (utf8 a).length ∨
    (utf8 a).length = (utf8 b).length ∧ List.Lex (· < ·) (utf8 a) (utf8 b)

theorem before_of_comesBefore {a b : Text} (hab : comesBefore a b = true) (hne : a ≠ b) :
    Before a b := by
  rw [Before, length_utf8, length_utf8]
  rcases (comesBefore_iff a b).mp hab with hlonger | ⟨hlength, halphabetic⟩
  · exact .inl hlonger
  · exact .inr ⟨hlength, lex_utf8_of_alphabetic halphabetic hne⟩

end Text

namespace Grammar

theorem repairs_uncapped (grammar : Grammar) (rule : Rule) (input : Text) :
    Grammar.repairs (Table.mapValues Rule.uncapped grammar)
        (rule.uncapped.withCeiling rule.ceiling?)
      input = grammar.repairs rule input := by
  have hceiling := Rule.ceiling?_withCeiling (Rule.ceiling?_uncapped rule) rule.ceiling?
  rw [repairs, repairs, hceiling, Rule.enumerate_withCeiling, ← Context.mapRules_fresh,
    Rule.enumerate_uncapped]

/-- The repairs stand in the order of their bytes, each once; they are the texts
of the complete matches of the longest beginning of the input that the ceiling
of the rule allows, as far as these texts fit; and ceilings below the rule or
anywhere in the grammar do not matter. -/
theorem before_and_mem_repairs_iff (grammar : Grammar) (rule : Rule) (input : Text) :
    (grammar.repairs rule input).Pairwise Text.Before ∧
      (grammar.repairs rule input).Nodup ∧
      (∃ start, (∀ other, Text.IsLongestBeginning rule.ceiling? input other ↔ other = start) ∧
        (input.Respects rule.ceiling? → start = input) ∧
        ∀ text, text ∈ grammar.repairs rule input ↔
          ⟨text, []⟩ ∈ rule.enumerate (Context.fresh grammar) start ∧
            text.Respects rule.ceiling?) ∧
      Grammar.repairs (Table.mapValues Rule.uncapped grammar)
        (rule.uncapped.withCeiling rule.ceiling?) input = grammar.repairs rule input := by
  have hpairwise := grammar.pairwise_repairs rule input
  refine ⟨?_, ?_, ⟨Text.within rule.ceiling? input, ?_, ?_, ?_⟩,
    repairs_uncapped grammar rule input⟩
  · exact hpairwise.imp fun hab => Text.before_of_comesBefore hab.1 hab.2
  · exact hpairwise.imp fun hab => hab.2
  · exact fun other => Text.isLongestBeginning_iff
  · intro hinput
    have hall := Text.isPrefix_within (List.prefix_refl input) hinput
    exact (Text.within_isPrefix rule.ceiling? input).eq_of_length_le hall.length_le
  · intro text
    rw [mem_repairs_iff, Text.fits_eq_true_iff]

end Grammar
end GrammarRepair
