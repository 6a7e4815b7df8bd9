import GrammarRepair.Matching.Induction
import Mathlib.Data.List.Basic

/-!
# Contexts that matching cannot tell apart

Matching asks a context two questions only: what a name stands for, and whether
the name has been entered on the input at hand.  So a rule has the same matches
in two contexts, in the same order, if both give the same answers to whatever
matching the rule comes to ask.

The induction that shows this is made here, once.  A relation between contexts,
for a rule and an input, is `Preserved` if related contexts give the same
answers and stay related for everything that matching the rule looks at.
-/

namespace GrammarRepair

/-- The relation holds on from a rule to all that matching the rule looks at, and
related contexts answer alike where the rule is a reference. -/
structure Preserved (related : Rule → Text → Context → Context → Prop) : Prop where
  later : ∀ {rule first input ctx ctx' head}, related rule input ctx ctx' →
    related first input ctx ctx' → head ∈ first.enumerate ctx input →
    related rule head.rest ctx ctx'
  sequence : ∀ {parts input ctx ctx'}, related (.sequence parts) input ctx ctx' →
    ∀ part ∈ parts, related part input ctx ctx'
  choice : ∀ {branches suggestion input ctx ctx'},
    related (.choice branches suggestion) input ctx ctx' →
    ∀ branch ∈ branches, related branch input ctx ctx'
  bound : ∀ {name body input ctx ctx'}, related (.bound name body) input ctx ctx' →
    related body input (ctx.bind name body) (ctx'.bind name body)
  capped : ∀ {limit inner input ctx ctx'}, related (.capped limit inner) input ctx ctx' →
    related inner input ctx ctx'
  resolve? : ∀ {name input ctx ctx'}, related (.reference name) input ctx ctx' →
    ctx'.resolve? name = ctx.resolve? name
  contains : ∀ {name input ctx ctx'}, related (.reference name) input ctx ctx' →
    ctx'.contains name input = ctx.contains name input
  target : ∀ {name input ctx ctx' child child' target},
    related (.reference name) input ctx ctx' → ctx.resolve? name = some target →
    ctx.enter? name input = some child → ctx'.enter? name input = some child' →
    related target input child child'

namespace Preserved

variable {related : Rule → Text → Context → Context → Prop}

/-- Related contexts let a name be entered alike. -/
theorem enter?_eq_none_iff (h : Preserved related)
    {name : String} {input : Text} {ctx ctx' : Context}
    (hctx : related (.reference name) input ctx ctx') :
    ctx'.enter? name input = none ↔ ctx.enter? name input = none := by
  rw [Context.enter?_eq_none_iff, Context.enter?_eq_none_iff, h.contains hctx]

/-- In related contexts a rule, or several in a row, have the same matches in
the same order. -/
theorem enumerate_eq_and_parts (h : Preserved related) :
    (∀ (rule : Rule) (ctx : Context) (input : Text), ∀ ctx', related rule input ctx ctx' →
      rule.enumerate ctx' input = rule.enumerate ctx input) ∧
    ∀ (parts : List Rule) (ctx : Context) (input : Text), ∀ ctx',
      (∀ part ∈ parts, related part input ctx ctx') →
      Rule.enumerateSequence parts ctx' input = Rule.enumerateSequence parts ctx input := by
  apply Matching.induction_on_rules_and_parts
  case literal =>
    intro text ctx input ctx' _
    rw [Rule.enumerate_literal, Rule.enumerate_literal]
  case range =>
    intro span suggestion ctx input ctx' _
    cases input with
    | nil => rw [Rule.enumerate_range_nil, Rule.enumerate_range_nil]
    | cons c rest => rw [Rule.enumerate_range_cons, Rule.enumerate_range_cons]
  case sequence =>
    intro parts ctx input ih ctx' hctx
    rw [Rule.enumerate_sequence, Rule.enumerate_sequence]
    exact ih ctx' (h.sequence hctx)
  case choice =>
    intro branches suggestion ctx input ih ctx' hctx
    have hbranches : branches.flatMap (Rule.enumerate · ctx' input) =
        branches.flatMap (Rule.enumerate · ctx input) := by
      apply List.flatMap_congr
      intro branch hbranch
      exact ih branch hbranch ctx' (h.choice hctx branch hbranch)
    rw [Rule.enumerate_choice, Rule.enumerate_choice, hbranches]
  case reference =>
    intro name ctx input ih ctx' hctx
    rw [Rule.enumerate_reference, Rule.enumerate_reference, h.resolve? hctx]
    cases hresolve : ctx.resolve? name with
    | none => rfl
    | some target =>
        cases henter : ctx.enter? name input with
        | none => rw [(h.enter?_eq_none_iff hctx).mpr henter]
        | some child =>
            have hopen : ctx'.enter? name input ≠ none := by
              rw [ne_eq, h.enter?_eq_none_iff hctx, henter]
              exact Option.some_ne_none child
            obtain ⟨child', henter'⟩ := Option.ne_none_iff_exists'.mp hopen
            rw [henter']
            exact ih target child hresolve henter child' (h.target hctx hresolve henter henter')
  case bound =>
    intro name body ctx input ih ctx' hctx
    rw [Rule.enumerate_bound, Rule.enumerate_bound]
    exact ih _ (h.bound hctx)
  case capped =>
    intro limit inner ctx input ih ctx' hctx
    rw [Rule.enumerate_capped, Rule.enumerate_capped]
    exact ih ctx' (h.capped hctx)
  case nil =>
    intro ctx input ctx' _
    rw [Rule.enumerateSequence_nil, Rule.enumerateSequence_nil]
  case cons =>
    intro part parts ctx input ihpart ihparts ctx' hctx
    rw [Rule.enumerateSequence_cons, Rule.enumerateSequence_cons,
      ihpart ctx' (hctx part List.mem_cons_self)]
    apply List.flatMap_congr
    intro head hhead
    rw [ihparts head.rest (Rule.byteLength_rest_le_of_mem_enumerate hhead) ctx' fun later hlater =>
      h.later (hctx later (List.mem_cons_of_mem _ hlater)) (hctx part List.mem_cons_self) hhead]

/-- In related contexts a rule has the same matches in the same order. -/
theorem enumerate_eq (h : Preserved related)
    {rule : Rule} {input : Text} {ctx ctx' : Context} (hctx : related rule input ctx ctx') :
    rule.enumerate ctx' input = rule.enumerate ctx input :=
  h.enumerate_eq_and_parts.1 rule ctx input ctx' hctx

end Preserved
end GrammarRepair
