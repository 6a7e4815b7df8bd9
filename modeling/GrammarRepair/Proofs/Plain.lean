import GrammarRepair.Matching.Induction
import GrammarRepair.Proofs.Ceilings
import GrammarRepair.Proofs.Derivation
import GrammarRepair.Proofs.RuleMap
import Mathlib.Data.List.Flatten

/-!
# Direct matches

A rule without its suggestions has direct matches only, and these copy the
input.  The suggestions add matches, but they hide none: the direct ones stay,
in their order and each as often as before.  A suggestion is asked only where
nothing matches, and whatever it offers leads a sequence on from places of its
own.

Both runs enter the same names on the same inputs as long as they follow direct
matches, so the guard refuses the same references in both.
-/

namespace GrammarRepair

namespace Rule

mutual

/-- The rule without its suggestions. -/
def plain : Rule → Rule
  | .literal text => .literal text
  | .range span _ => .range span none
  | .sequence parts => .sequence (plainAll parts)
  | .choice branches _ => .choice (plainAll branches) none
  | .reference name => .reference name
  | .bound name body => .bound name body.plain
  | .capped limit inner => .capped limit inner.plain

/-- The rules without their suggestions. -/
def plainAll : List Rule → List Rule
  | [] => []
  | rule :: rules => rule.plain :: plainAll rules

end

theorem plainAll_eq_map (rules : List Rule) : plainAll rules = rules.map plain := by
  induction rules with
  | nil => rfl
  | cons rule rules ih => rw [plainAll, ih, List.map_cons]

/-! ## Suggestions hide no direct match -/

/-- Without a suggestion, a choice lists the matches of its branches. -/
theorem enumerate_plain_choice
    (branches : List Rule) (suggestion : Option Suggestion) (ctx : Context) (input : Text) :
    (choice branches suggestion).plain.enumerate ctx input =
      branches.flatMap fun branch => branch.plain.enumerate ctx input := by
  have hplain : (choice branches suggestion).plain = alternative (branches.map plain) := by
    rw [plain, plainAll_eq_map, alternative]
  rw [hplain, enumerate_alternative, List.flatMap_map]

theorem plain_sublist_and_parts :
    (∀ (rule : Rule) (ctx : Context) (input : Text),
      (rule.plain.enumerate (ctx.mapRules plain) input).Sublist (rule.enumerate ctx input)) ∧
    ∀ (parts : List Rule) (ctx : Context) (input : Text),
      (enumerateSequence (plainAll parts) (ctx.mapRules plain) input).Sublist
        (enumerateSequence parts ctx input) := by
  apply Matching.induction_on_rules_and_parts
  case literal =>
    intro text ctx input
    rw [plain, enumerate_literal, enumerate_literal]
  case range =>
    intro span suggestion ctx input
    cases input with
    | nil =>
        rw [plain, enumerate_range_nil]
        exact List.nil_sublist _
    | cons c rest =>
        rw [plain, enumerate_range_cons, enumerate_range_cons]
        split
        · exact List.Sublist.refl _
        · exact List.nil_sublist _
  case sequence =>
    intro parts ctx input ih
    rw [plain, enumerate_sequence, enumerate_sequence]
    exact ih
  case choice =>
    intro branches suggestion ctx input ih
    have hbranches : (branches.flatMap fun branch =>
        branch.plain.enumerate (ctx.mapRules plain) input).Sublist
        (branches.flatMap (enumerate · ctx input)) :=
      List.Sublist.flatMap_right branches ih
    rw [enumerate_plain_choice, enumerate_choice]
    split
    · rename_i hnone
      rw [hnone] at hbranches
      rw [List.sublist_nil.mp hbranches]
      exact List.nil_sublist _
    · exact hbranches
  case reference =>
    intro name ctx input ih
    rw [plain, enumerate_reference, enumerate_reference, Context.resolve?_mapRules,
      Context.enter?_mapRules]
    cases hresolve : ctx.resolve? name with
    | none => exact List.Sublist.refl _
    | some target =>
        cases henter : ctx.enter? name input with
        | none => exact List.Sublist.refl _
        | some child => exact ih target child hresolve henter
  case bound =>
    intro name body ctx input ih
    rw [plain, enumerate_bound, enumerate_bound, ← Context.mapRules_bind]
    exact ih
  case capped =>
    intro limit inner ctx input ih
    rw [plain, enumerate_capped, enumerate_capped]
    exact ih
  case nil =>
    intro ctx input
    rw [plainAll, enumerateSequence_nil, enumerateSequence_nil]
  case cons =>
    intro part parts ctx input ihpart ihparts
    rw [plainAll, enumerateSequence_cons, enumerateSequence_cons]
    -- the same heads first, then more heads
    refine List.Sublist.trans (List.Sublist.flatMap_right _ fun head hhead => ?_)
      (ihpart.flatMap _)
    have hrest := byteLength_rest_le_of_mem_enumerate (ihpart.subset hhead)
    exact (ihparts head.rest hrest).map _

/-! ## Direct matches copy the input -/

theorem text_append_rest_of_plain_and_parts :
    (∀ (rule : Rule) (ctx : Context) (input : Text),
      ∀ m ∈ rule.plain.enumerate (ctx.mapRules plain) input, m.text ++ m.rest = input) ∧
    ∀ (parts : List Rule) (ctx : Context) (input : Text),
      ∀ m ∈ enumerateSequence (plainAll parts) (ctx.mapRules plain) input,
        m.text ++ m.rest = input := by
  apply Matching.induction_on_rules_and_parts
  case literal =>
    intro text ctx input m hm
    rw [plain, mem_enumerate_literal_iff] at hm
    rw [hm.1, ← hm.2]
  case range =>
    intro span suggestion ctx input m hm
    cases input with
    | nil => simp [plain, enumerate_range_nil, Matching.offersOf] at hm
    | cons c rest =>
        rw [plain, enumerate_range_cons] at hm
        split at hm
        · obtain rfl := List.mem_singleton.mp hm
          rfl
        · cases hm
  case sequence =>
    intro parts ctx input ih m hm
    rw [plain, enumerate_sequence] at hm
    exact ih m hm
  case choice =>
    intro branches suggestion ctx input ih m hm
    rw [enumerate_plain_choice] at hm
    obtain ⟨branch, hbranch, hm⟩ := List.mem_flatMap.mp hm
    exact ih branch hbranch m hm
  case reference =>
    intro name ctx input ih m hm
    rw [plain, enumerate_reference, Context.resolve?_mapRules, Context.enter?_mapRules] at hm
    cases hresolve : ctx.resolve? name with
    | none => simp [hresolve] at hm
    | some target =>
        cases henter : ctx.enter? name input with
        | none => simp [hresolve, henter] at hm
        | some child =>
            rw [hresolve, henter] at hm
            exact ih target child hresolve henter m hm
  case bound =>
    intro name body ctx input ih m hm
    rw [plain, enumerate_bound, ← Context.mapRules_bind] at hm
    exact ih m hm
  case capped =>
    intro limit inner ctx input ih m hm
    rw [plain, enumerate_capped] at hm
    exact ih m hm
  case nil =>
    intro ctx input m hm
    rw [plainAll, enumerateSequence_nil] at hm
    obtain rfl := List.mem_singleton.mp hm
    rfl
  case cons =>
    intro part parts ctx input ihpart ihparts m hm
    rw [plainAll, mem_enumerateSequence_cons_iff] at hm
    obtain ⟨head, hhead, tail, htail, rfl⟩ := hm
    have hcopy := ihpart head hhead
    have hrest : head.rest.byteLength ≤ input.byteLength :=
      Text.byteLength_le_of_suffix ⟨head.text, hcopy⟩
    rw [List.append_assoc, ihparts head.rest hrest tail htail, hcopy]

/-- Without suggestions, what is accepted and what is left make up the input. -/
theorem text_append_rest_of_mem_plain
    {rule : Rule} {ctx : Context} {input : Text} {m : Match}
    (hm : m ∈ rule.plain.enumerate (ctx.mapRules plain) input) :
    m.text ++ m.rest = input :=
  text_append_rest_of_plain_and_parts.1 rule ctx input m hm

end Rule

/-! ## Repairs of what is right already -/

/-- Suggestions hide no direct match: without those of the rule, of the grammar
and of the bindings, its matches are some of those with them, in the same order
and no more often.  So an input that is accepted in full without suggestions,
and that the ceiling allows, is one of its own repairs. -/
theorem sublist_enumerate_and_mem_repairs (rule : Rule) :
    (∀ (ctx : Context) (input : Text),
      (rule.plain.enumerate (ctx.mapRules Rule.plain) input).Sublist (rule.enumerate ctx input)) ∧
    ∀ (grammar : Grammar) (input : Text), input.Respects rule.ceiling? →
      (∃ m ∈ rule.plain.enumerate (Context.fresh (grammar.mapValues Rule.plain)) input,
        m.isComplete = true) →
      input ∈ grammar.repairs rule input := by
  refine ⟨Rule.plain_sublist_and_parts.1 rule, fun grammar input hrespects haccepts => ?_⟩
  obtain ⟨⟨text, rest⟩, hm, hcomplete⟩ := haccepts
  obtain rfl : rest = [] := (Match.isComplete_iff _).mp hcomplete
  rw [← Context.mapRules_fresh] at hm
  obtain rfl : text = input := by
    simpa using Rule.text_append_rest_of_mem_plain hm
  rw [Grammar.mem_repairs_iff, Text.fits_eq_true_iff, Text.within_eq_self hrespects]
  exact ⟨(Rule.plain_sublist_and_parts.1 rule (Context.fresh grammar) text).subset hm, hrespects⟩

/-- The left recursion is cut in both runs, and the sum stays as it is. -/
theorem mem_repairs_one_plus_two :
    let grammar : Grammar := Grammar.empty.insert "sum" leftRecursiveSum
    let sum := Rule.capped 3 leftRecursiveSum
    Text.Respects sum.ceiling? "1+2".toList ∧
      (∃ m ∈ sum.plain.enumerate (Context.fresh (grammar.mapValues Rule.plain)) "1+2".toList,
        m.isComplete = true) ∧
      "1+2".toList ∈ grammar.repairs sum "1+2".toList := by
  intro grammar sum
  have hrespects : Text.Respects sum.ceiling? "1+2".toList :=
    Text.fits_eq_true_iff.mp (by decide)
  have haccepts : ∃ m ∈ sum.plain.enumerate (Context.fresh (grammar.mapValues Rule.plain))
      "1+2".toList, m.isComplete = true :=
    ⟨⟨"1+2".toList, []⟩, by decide +kernel, rfl⟩
  exact ⟨hrespects, haccepts,
    (sublist_enumerate_and_mem_repairs sum).2 grammar "1+2".toList hrespects haccepts⟩

end GrammarRepair
