import GrammarRepair.Proofs.Congruence
import GrammarRepair.Proofs.Descent

/-!
# Frames on other inputs

A frame keeps its name from being entered on one input, letter by letter the one
that it was entered on.  From an input, matching only goes on to the ends of it, if
suggestions leave ends.  So no frame on anything else is ever noticed, neither at
once nor later on: two contexts that bind alike and agree on the frames on ends of
the input have the same matches, and stay alike as both enter more names.

A longer input is no end of a shorter one.  This is why uses of one rule at
different places do not get into each other's way.
-/

namespace GrammarRepair

/-- The contexts give names the same meaning, and have the same frames on ends
of the input.  Frames on other inputs may stand in either one, anywhere. -/
structure Context.AgreesOn (input : Text) (ctx ctx' : Context) : Prop where
  grammar : ctx'.grammar = ctx.grammar
  bindings : ctx'.bindings = ctx.bindings
  frames : ∀ name rest, rest <:+ input →
    (Frame.mk name rest ∈ ctx'.frames ↔ Frame.mk name rest ∈ ctx.frames)

namespace Context.AgreesOn

variable {input rest : Text} {ctx ctx' : Context}

/-- An end of an end of the input is one of the input. -/
theorem of_suffix (h : AgreesOn input ctx ctx') (hrest : rest <:+ input) :
    AgreesOn rest ctx ctx' where
  grammar := h.grammar
  bindings := h.bindings
  frames name later hlater := h.frames name later (hlater.trans hrest)

theorem bind (h : AgreesOn input ctx ctx') (name : String) (rule : Rule) :
    AgreesOn input (ctx.bind name rule) (ctx'.bind name rule) where
  grammar := h.grammar
  bindings := congrArg ((name, rule) :: ·) h.bindings
  frames := h.frames

theorem resolve?_eq (h : AgreesOn input ctx ctx') (name : String) :
    ctx'.resolve? name = ctx.resolve? name := by
  rw [resolve?, resolve?, h.bindings, h.grammar]

theorem contains_eq (h : AgreesOn input ctx ctx') (name : String) :
    ctx'.contains name input = ctx.contains name input :=
  decide_eq_decide.mpr (h.frames name input List.suffix_rfl)

/-- Both contexts get the same frame. -/
theorem enter (h : AgreesOn input ctx ctx') {name : String} {child child' : Context}
    (henter : ctx.enter? name input = some child) (henter' : ctx'.enter? name input = some child') :
    AgreesOn input child child' := by
  obtain ⟨-, rfl⟩ := enter?_eq_some_iff.mp henter
  obtain ⟨-, rfl⟩ := enter?_eq_some_iff.mp henter'
  refine ⟨h.grammar, h.bindings, fun other rest hrest => ?_⟩
  rw [List.mem_cons, List.mem_cons, h.frames other rest hrest]

/-- Frames on other inputs might as well not be there. -/
theorem without_frames (hother : ∀ frame ∈ ctx.frames, ¬frame.input <:+ input) :
    AgreesOn input { ctx with frames := [] } ctx where
  grammar := rfl
  bindings := rfl
  frames name rest hrest := by
    constructor
    · intro hframe
      exact absurd hrest (hother _ hframe)
    · intro hframe
      cases hframe

end Context.AgreesOn

theorem preserved_agreesOn :
    Preserved fun rule input ctx ctx' =>
      Call.LeavesEnds ⟨.single rule, ctx, input⟩ ∧ Context.AgreesOn input ctx ctx' where
  later h hfirst hhead :=
    ⟨h.1, h.2.of_suffix (hfirst.1.rest_suffix_of_mem_result _ hhead)⟩
  sequence h _ hpart :=
    ⟨h.1.of_steps (Call.steps_of_task (Rule.nodes_subset_sequence hpart)
      (Matching.mentions_subset_mentionsOfAll hpart)), h.2⟩
  choice h _ hbranch :=
    ⟨h.1.of_steps (Call.steps_of_task (Rule.nodes_subset_choice hbranch)
      (Matching.mentions_subset_mentionsOfAll hbranch)), h.2⟩
  bound h := ⟨h.1.of_steps (Call.steps_bound _ _ _ _), h.2.bind _ _⟩
  capped h :=
    ⟨h.1.of_steps (Call.steps_of_task (Rule.nodes_subset_capped _ _) (List.Subset.refl _)), h.2⟩
  resolve? h := h.2.resolve?_eq _
  contains h := h.2.contains_eq _
  target h hresolve henter henter' :=
    ⟨h.1.of_steps (Call.steps_reference hresolve henter), h.2.enter henter henter'⟩

/-- A longer text, whether one counts characters or bytes, is no end of a
shorter one. -/
theorem Text.not_suffix_of_longer {text longer : Text}
    (hlonger : text.length < longer.length ∨ text.byteLength < longer.byteLength) :
    ¬longer <:+ text := by
  rintro ⟨start, rfl⟩
  rw [List.length_append, byteLength_append] at hlonger
  omega

/-- Contexts that bind alike and agree on the frames on ends of the input give a
rule the same matches in the same order, if suggestions leave ends of their
inputs.  So once all frames are on longer inputs, the rule has the matches that it
has without any frame. -/
theorem enumerate_eq_of_agreesOn (rule : Rule) (input : Text) :
    (∀ ctx ctx', (∀ other ∈ rule :: ctx.rules, other.LeavesEnds) →
      Context.AgreesOn input ctx ctx' →
        rule.enumerate ctx' input = rule.enumerate ctx input) ∧
    ∀ ctx : Context, (∀ other ∈ rule :: ctx.rules, other.LeavesEnds) →
      (∀ frame ∈ ctx.frames, input.length < frame.input.length ∨
        input.byteLength < frame.input.byteLength) →
        rule.enumerate ctx input = rule.enumerate { ctx with frames := [] } input := by
  have hagree : ∀ ctx ctx', (∀ other ∈ rule :: ctx.rules, other.LeavesEnds) →
      Context.AgreesOn input ctx ctx' →
        rule.enumerate ctx' input = rule.enumerate ctx input :=
    fun _ _ hends h => preserved_agreesOn.enumerate_eq ⟨Call.leavesEnds_of_rules hends input, h⟩
  refine ⟨hagree, fun ctx hends hlonger => ?_⟩
  exact hagree _ ctx hends (.without_frames fun frame hframe =>
    Text.not_suffix_of_longer (hlonger frame hframe))

/-- A frame on the input itself is noticed, whatever else has been entered.
Without it the sum is entered again, as if nothing had been. -/
theorem enumerate_sum_behind_sum :
    let grammar : Grammar := Grammar.empty.insert "sum" leftRecursiveSum
    let inside : Context := { grammar, frames := [⟨"sum", "1+x".toList⟩] }
    let deeper : Context :=
      { grammar, frames := [⟨"sum", "1+1+x".toList⟩, ⟨"sum", "1+x".toList⟩, ⟨"sum", "1".toList⟩] }
    let behind : Context := { grammar, frames := [⟨"sum", "1+1+x".toList⟩] }
    let sum : Rule := .andThen leftRecursiveSum (.optional (.reference "sum"))
    (∀ other ∈ sum :: inside.rules, other.LeavesEnds) ∧
      Context.AgreesOn "1+x".toList inside deeper ∧
      sum.enumerate deeper "1+x".toList = sum.enumerate inside "1+x".toList ∧
      (∀ frame ∈ behind.frames, "1+x".toList.length < frame.input.length) ∧
      sum.enumerate behind "1+x".toList = sum.enumerate (.fresh grammar) "1+x".toList ∧
      sum.enumerate behind "1+x".toList ≠ sum.enumerate inside "1+x".toList := by
  intro grammar inside deeper behind sum
  have hends : ∀ other ∈ sum :: inside.rules, other.LeavesEnds :=
    Rule.forall_leavesEnds_of_readyMade (by decide +kernel)
  have hagrees : Context.AgreesOn "1+x".toList inside deeper := by
    refine ⟨rfl, rfl, fun name rest hrest => ?_⟩
    have hlonger : rest ≠ "1+1+x".toList := by
      rintro rfl
      exact Text.not_suffix_of_longer (.inl (by decide)) hrest
    have hother : rest ≠ "1".toList := by
      rintro rfl
      revert hrest
      decide
    simp only [inside, deeper, List.mem_cons, List.not_mem_nil, Frame.mk.injEq, hlonger, hother,
      and_false, false_or, or_false]
  have hlonger : ∀ frame ∈ behind.frames, "1+x".toList.length < frame.input.length := by
    intro frame hframe
    obtain rfl := List.mem_singleton.mp hframe
    decide
  obtain ⟨hsame, hfresh⟩ := enumerate_eq_of_agreesOn sum "1+x".toList
  refine ⟨hends, hagrees, hsame inside deeper hends hagrees, hlonger, ?_, by decide +kernel⟩
  exact hfresh behind hends fun frame hframe => .inl (hlonger frame hframe)

end GrammarRepair
