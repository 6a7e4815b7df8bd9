import GrammarRepair.Proofs.Combinations
import GrammarRepair.Proofs.JoinedLoading
import GrammarRepair.Proofs.Source.Written

/-!
# Rules in writing load back

A rule that is put together without suggestions, ceilings and unbounded
repetitions can be written and loaded again.  What is loaded need not be the
same rule, but the differences do not show: the empty text is matched like the
empty sequence, and a choice of one branch like the branch.  So the loaded rule
has the same matches in the same order, whatever the context and the input.
-/

namespace GrammarRepair

open Build Source

namespace Rule

/-- The rule is put together without suggestions, ceilings and unbounded
repetitions, and refers to names that sources can have. -/
inductive Writable : Rule → Prop
  | literal (text : Text) : Writable (.literal text)
  | range (low high : Char) : Writable (.range (.ofBounds low high) none)
  | concat {rules : List Rule} (hrules : ∀ rule ∈ rules, Writable rule) : Writable (.concat rules)
  | andThen {first second : Rule} (hfirst : Writable first) (hsecond : Writable second) :
      Writable (first.andThen second)
  | epsilon : Writable .epsilon
  | alternative {rules : List Rule} (hsome : rules ≠ []) (hrules : ∀ rule ∈ rules, Writable rule) :
      Writable (.alternative rules)
  | orElse {first second : Rule} (hfirst : Writable first) (hsecond : Writable second) :
      Writable (first.orElse second)
  | optional {rule : Rule} (hrule : Writable rule) : Writable rule.optional
  | repeatBetween (low high : Nat) {rule : Rule} (hrule : Writable rule) :
      Writable (.repeatBetween low high rule)
  | reference {name : String} (hname : IsName name.toList) : Writable (.reference name)

/-! ## Writable rules have a notation -/

theorem Notated.alternative
    {rules : List Rule} (hsome : rules ≠ []) (hrules : ∀ rule ∈ rules, rule.Notated) :
    (Rule.alternative rules).Notated := by
  match rules with
  | [] => exact absurd rfl hsome
  | _ :: _ => exact .choice hrules

theorem Writable.notated {rule : Rule} (h : rule.Writable) : rule.Notated := by
  induction h with
  | literal text => exact .literal text
  | range low high => exact .range _
  | concat _ ih => exact holds_concat .sequence ih
  | andThen _ _ ihfirst ihsecond =>
      exact holds_concat .sequence
        (List.forall_mem_cons.mpr ⟨ihfirst, List.forall_mem_singleton.mpr ihsecond⟩)
  | epsilon => exact .sequence (List.forall_mem_nil _)
  | alternative hsome _ ih => exact .alternative hsome ih
  | orElse _ _ ihfirst ihsecond =>
      exact .choice (List.forall_mem_cons.mpr ⟨ihfirst, List.forall_mem_singleton.mpr ihsecond⟩)
  | optional _ ih => exact holds_repeatBetween .sequence .choice ih 0 1
  | repeatBetween low high _ ih => exact holds_repeatBetween .sequence .choice ih low high
  | reference hname => exact .reference hname

end Rule

/-! ## Rules that match alike -/

/-- The rules have the same matches in the same order, in every context and on
every input. -/
def Rule.MatchesLike (rule other : Rule) : Prop :=
  ∀ ctx input, rule.enumerate ctx input = other.enumerate ctx input

theorem enumerateSequence_eq_of_matchesLike
    {rules others : List Rule} (h : List.Forall₂ Rule.MatchesLike rules others)
    (ctx : Context) (input : Text) :
    Rule.enumerateSequence rules ctx input = Rule.enumerateSequence others ctx input := by
  induction h generalizing input with
  | nil => rfl
  | cons hfirst _ ih =>
      rw [Rule.enumerateSequence_cons, Rule.enumerateSequence_cons, hfirst ctx input]
      simp only [ih]

theorem flatMap_enumerate_eq_of_matchesLike
    {rules others : List Rule} (h : List.Forall₂ Rule.MatchesLike rules others)
    (ctx : Context) (input : Text) :
    rules.flatMap (Rule.enumerate · ctx input) = others.flatMap (Rule.enumerate · ctx input) := by
  induction h with
  | nil => rfl
  | cons hfirst _ ih => rw [List.flatMap_cons, List.flatMap_cons, hfirst ctx input, ih]

namespace Source

/-! ## Building what was written -/

/-- Whatever the definition and the builder, the expression is built to this rule
and leaves the builder as it is. -/
def BuildsTo (expr : Expr) (rule : Rule) : Prop :=
  ∀ name builder, run (expr.build name) builder = (.ok rule, builder)

/-- The expression is built to a rule that matches like this one. -/
def StandsFor (expr : Expr) (rule : Rule) : Prop :=
  ∃ loaded, BuildsTo expr loaded ∧ loaded.MatchesLike rule

/-- If each of the rules in writing stands for its rule, all of them are built to
rules that match like these. -/
theorem exists_run_buildAll
    {rules : List Rule} (h : ∀ rule ∈ rules, StandsFor rule.written rule) :
    ∃ loaded, (∀ name builder,
        run (buildAll name (Rule.writtenAll rules)) builder = (.ok loaded, builder)) ∧
      List.Forall₂ Rule.MatchesLike loaded rules := by
  induction rules with
  | nil => exact ⟨[], fun _ _ => rfl, .nil⟩
  | cons rule rules ih =>
      obtain ⟨⟨first, hfirst, hlike⟩, hlater⟩ := List.forall_mem_cons.mp h
      obtain ⟨loaded, hloaded, halike⟩ := ih hlater
      refine ⟨first :: loaded, fun name builder => ?_, .cons hlike halike⟩
      rw [Rule.writtenAll, buildAll, run_bind, hfirst name builder]
      simp only [run_bind, hloaded name builder, run_pure]

theorem standsFor_sequence
    {parts : List Rule} (hparts : ∀ part ∈ parts, StandsFor part.written part) :
    StandsFor (Rule.sequence parts).written (.sequence parts) := by
  match parts with
  | [] =>
      -- Written as the empty text, which takes nothing of the input either.
      refine ⟨.literal [], fun _ _ => rfl, fun ctx input => ?_⟩
      rw [Rule.enumerate_literal, Rule.enumerate_sequence, Rule.enumerateSequence_nil]
      rfl
  | [part] =>
      obtain ⟨loaded, hloaded, hlike⟩ := hparts part List.mem_cons_self
      refine ⟨loaded, hloaded, fun ctx input => ?_⟩
      rw [hlike, Rule.enumerate_sequence, Rule.enumerateSequence_singleton]
  | first :: second :: later =>
      obtain ⟨loaded, hloaded, halike⟩ := exists_run_buildAll hparts
      refine ⟨.concat loaded, fun name builder => ?_, fun ctx input => ?_⟩
      · have hitems := hloaded name builder
        rw [Rule.writtenAll, Rule.writtenAll] at hitems
        rw [Rule.written, Rule.writtenAll, Expr.ofItems, Expr.build, run_bind, hitems]
        · rfl
        · simp
      · rw [Rule.enumerate_concat, Rule.enumerate_sequence]
        exact enumerateSequence_eq_of_matchesLike halike ctx input

theorem standsFor_choice
    {branch : Rule} {branches : List Rule}
    (hbranches : ∀ other ∈ branch :: branches, StandsFor other.written other) :
    StandsFor (Rule.choice (branch :: branches) none).written
      (.choice (branch :: branches) none) := by
  match branches with
  | [] =>
      obtain ⟨loaded, hloaded, hlike⟩ := hbranches branch List.mem_cons_self
      refine ⟨loaded, hloaded, fun ctx input => ?_⟩
      have halone := Rule.enumerate_alternative [branch] ctx input
      rw [List.flatMap_singleton] at halone
      exact (hlike ctx input).trans halone.symm
  | second :: later =>
      obtain ⟨loaded, hloaded, halike⟩ := exists_run_buildAll hbranches
      refine ⟨.alternative loaded, fun name builder => ?_, fun ctx input => ?_⟩
      · have hall := hloaded name builder
        rw [Rule.writtenAll, Rule.writtenAll] at hall
        rw [Rule.written, Rule.writtenAll, Rule.writtenAll, Expr.ofBranches, Expr.build, run_bind,
          hall]
        · rfl
        · simp
      · rw [Rule.enumerate_alternative, flatMap_enumerate_eq_of_matchesLike halike]
        exact (Rule.enumerate_alternative _ ctx input).symm

/-- The bounds of an interval make the interval. -/
theorem ofBounds_low_high (span : CharRange) : .ofBounds span.low span.high = span := by
  rw [CharRange.ofBounds, dif_pos span.low_le_high]

end Source

open Source

theorem Rule.Notated.standsFor {rule : Rule} (h : rule.Notated) :
    StandsFor rule.written rule := by
  induction h with
  | literal text => exact ⟨_, fun _ _ => rfl, fun _ _ => rfl⟩
  | range span =>
      refine ⟨.range span none, fun name builder => ?_, fun _ _ => rfl⟩
      rw [Rule.written, Expr.build, ofBounds_low_high]
      rfl
  | sequence _ ih => exact standsFor_sequence ih
  | choice _ ih => exact standsFor_choice ih
  | reference => exact ⟨_, fun _ _ => rfl, fun _ _ => rfl⟩

/-! ## Loading what was written -/

theorem load_definitionSource
    {name : String} (hname : IsName name.toList) {rule loaded : Rule} (hrule : rule.Notated)
    (hloaded : BuildsTo rule.written loaded) (builder : Builder) :
    Source.load (definitionSource name rule) builder =
      (.ok (), { builder with grammar := builder.grammar.insert name loaded }) := by
  refine load_eq_ok_iff.mpr ⟨_, read_definitionSource hname hrule, List.nodup_singleton _, ?_⟩
  rw [registerAll, run_bind, run_register, hloaded name builder]
  rfl

/-- A writable rule in writing, as the definition of a name, is a source that can
be loaded.  Its grammar has this name only, with a rule that has the same matches
as the one that was written, in every context and on every input. -/
theorem exists_ofSource_eq_and_enumerate_eq {rule : Rule} (hrule : rule.Writable) :
    ∃ loaded : Rule,
      (∀ supply, Grammar.ofSource supply ("x = ".toList ++ rule.format ++ ";".toList) =
        .ok (Grammar.empty.insert "x" loaded)) ∧
      ∀ ctx input, loaded.enumerate ctx input = rule.enumerate ctx input := by
  obtain ⟨loaded, hloaded, hlike⟩ := hrule.notated.standsFor
  have hname : IsName "x".toList := isName_cons_iff.mpr ⟨by decide, List.forall_mem_nil _⟩
  refine ⟨loaded, fun supply => ?_, hlike⟩
  have hload := load_definitionSource hname hrule.notated hloaded { supply }
  have hsource : definitionSource "x" rule = "x = ".toList ++ rule.format ++ ";".toList := rfl
  rw [hsource] at hload
  rw [Grammar.ofSource, hload]

/-- A text with all that is escaped, a quote as the only branch of a choice, an
interval with one end too low, and a name or nothing. -/
def manyNotations : Rule :=
  .concat [.literal "\"\\\n\t'é".toList, .alternative [.range (.ofBounds '\'' '\'') none],
    .repeatBetween 1 2 (.range (.ofBounds 'z' 'a') none), .optional (.reference "y-1")]

theorem exists_ofSource_eq_and_enumerate_eq_manyNotations :
    ∃ loaded : Rule,
      (∀ supply, Grammar.ofSource supply
        "x = (\"\\\"\\\\\\n\\t'é\" ('\\'') ('z' | ('z' 'z')) (\"\" | y-1));".toList =
          .ok (Grammar.empty.insert "x" loaded)) ∧
      ∀ ctx input, loaded.enumerate ctx input = manyNotations.enumerate ctx input := by
  have hname : IsName "y-1".toList := isName_cons_iff.mpr ⟨by decide,
    List.forall_mem_cons.mpr ⟨by decide, List.forall_mem_singleton.mpr (by decide)⟩⟩
  have hwritable : manyNotations.Writable := by
    refine .concat (List.forall_mem_cons.mpr ⟨.literal _, List.forall_mem_cons.mpr ⟨?_,
      List.forall_mem_cons.mpr ⟨?_, List.forall_mem_singleton.mpr ?_⟩⟩⟩)
    · exact .alternative (by simp) (List.forall_mem_singleton.mpr (.range _ _))
    · exact .repeatBetween 1 2 (.range _ _)
    · exact .optional (.reference hname)
  have hsource : "x = ".toList ++ manyNotations.format ++ ";".toList =
      "x = (\"\\\"\\\\\\n\\t'é\" ('\\'') ('z' | ('z' 'z')) (\"\" | y-1));".toList := by
    decide +kernel
  rw [← hsource]
  exact exists_ofSource_eq_and_enumerate_eq hwritable

end GrammarRepair
