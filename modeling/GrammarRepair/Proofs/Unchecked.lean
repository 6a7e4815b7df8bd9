import GrammarRepair.Proofs.LeftCorner.Ranks

/-!
# Matching without the guard's check

The same matching, except that a reference is followed even when its name has
been entered on the same input.  It need not come to an end: `ReturnsUnchecked`
holds of a list of matches where a finite tree of calls returns it.

Where no descent comes to a name that the guard refuses, the check makes no
difference: matching without it ends as well, and only with the same matches in
the same order.  So the guard is not seen without left recursion.
-/

namespace GrammarRepair

/-- A frame more, whether it is there already or not. -/
def Context.push (ctx : Context) (name : String) (input : Text) : Context :=
  { ctx with frames := ⟨name, input⟩ :: ctx.frames }

namespace Call

/-- The guard refuses the name that the call refers to. -/
def Refused : Call → Prop
  | ⟨.single (.reference name), ctx, input⟩ => ctx.enter? name input = none
  | _ => False

/-- The calls that a call makes if nothing is refused. -/
def nextUnchecked (answers : Call → List Match) : Call → List Call
  | ⟨.single (.reference name), ctx, input⟩ =>
      match ctx.resolve? name with
      | some target => [⟨.single target, ctx.push name input, input⟩]
      | none => []
  | call => call.next answers

/-- What a call returns if nothing is refused. -/
def answerUnchecked (answers : Call → List Match) : Call → List Match
  | ⟨.single (.reference name), ctx, input⟩ =>
      match ctx.resolve? name with
      | some target => answers ⟨.single target, ctx.push name input, input⟩
      | none => []
  | call => call.answer answers

/-- Without the guard's check, the call returns these matches by a finite tree
of calls. -/
inductive ReturnsUnchecked : Call → List Match → Prop
  | intro {call : Call} (answers : Call → List Match)
      (hnext : ∀ later ∈ call.nextUnchecked answers, ReturnsUnchecked later (answers later)) :
      ReturnsUnchecked call (call.answerUnchecked answers)

/-! ## A call that is not refused -/

theorem unchecked_reference
    {name : String} {ctx : Context} {input : Text}
    (hcall : ¬Refused ⟨.single (.reference name), ctx, input⟩) (answers : Call → List Match) :
    nextUnchecked answers ⟨.single (.reference name), ctx, input⟩ =
        next answers ⟨.single (.reference name), ctx, input⟩ ∧
      answerUnchecked answers ⟨.single (.reference name), ctx, input⟩ =
        answer answers ⟨.single (.reference name), ctx, input⟩ := by
  have henter : ctx.enter? name input = some (ctx.push name input) := by
    obtain ⟨child, hchild⟩ := Option.ne_none_iff_exists'.mp hcall
    rw [hchild, (Context.enter?_eq_some_iff.mp hchild).2, Context.push]
  rw [nextUnchecked, next, answerUnchecked, answer, henter]
  cases ctx.resolve? name <;> exact ⟨rfl, rfl⟩

/-- The check does not matter to a call that it lets pass. -/
theorem unchecked_eq {call : Call} (hcall : ¬call.Refused) (answers : Call → List Match) :
    call.nextUnchecked answers = call.next answers ∧
      call.answerUnchecked answers = call.answer answers := by
  match call with
  | ⟨.single (.reference name), ctx, input⟩ => exact unchecked_reference hcall answers
  | ⟨.single (.literal _), _, _⟩ | ⟨.single (.range ..), _, _⟩ | ⟨.single (.sequence _), _, _⟩
  | ⟨.single (.choice ..), _, _⟩ | ⟨.single (.bound ..), _, _⟩ | ⟨.single (.capped ..), _, _⟩
  | ⟨.row _, _, _⟩ => exact ⟨rfl, rfl⟩

/-- Answers are as good as the results if they agree on all calls that are made
in both cases. -/
theorem answer_eq_of_agrees
    {call : Call} {answers : Call → List Match}
    (hagrees : ∀ later ∈ call.next answers, later ∈ call.next result →
      answers later = later.result) :
    call.answer answers = call.result := by
  rw [← answer_result]
  match call with
  | ⟨.single (.literal _), _, _⟩ | ⟨.single (.range ..), _, []⟩
  | ⟨.single (.range ..), _, _ :: _⟩ | ⟨.row [], _, _⟩ => rfl
  | ⟨.single (.sequence _), _, _⟩ | ⟨.single (.bound ..), _, _⟩ | ⟨.single (.capped ..), _, _⟩ =>
      exact hagrees _ (List.mem_singleton_self _) (List.mem_singleton_self _)
  | ⟨.single (.choice branches suggestion), ctx, input⟩ =>
      have hbranches : branches.flatMap (fun branch => answers ⟨.single branch, ctx, input⟩) =
          branches.flatMap fun branch => result ⟨.single branch, ctx, input⟩ := by
        apply List.flatMap_congr
        intro branch hbranch
        have hmem := List.mem_map_of_mem (f := fun branch => Call.mk (.single branch) ctx input)
          hbranch
        exact hagrees _ hmem hmem
      rw [answer, answer, hbranches]
  | ⟨.single (.reference name), ctx, input⟩ =>
      rw [next, next] at hagrees
      rw [answer, answer]
      split
      · rename_i target child hresolve henter
        simp only [hresolve, henter] at hagrees
        exact hagrees _ (List.mem_singleton_self _) (List.mem_singleton_self _)
      · rfl
  | ⟨.row (part :: parts), ctx, input⟩ =>
      have hpart := hagrees _ List.mem_cons_self List.mem_cons_self
      rw [answer, answer, hpart]
      apply List.flatMap_congr
      intro head hhead
      have hmem : Call.mk (.row parts) ctx head.rest ∈
          next result ⟨.row (part :: parts), ctx, input⟩ :=
        List.mem_cons_of_mem _ (List.mem_map_of_mem hhead)
      have hmem' : Call.mk (.row parts) ctx head.rest ∈
          next answers ⟨.row (part :: parts), ctx, input⟩ := by
        rw [next, hpart]
        exact hmem
      rw [hagrees _ hmem' hmem]

/-! ## Descents without a refusal -/

/-- No descent from the call comes to a name that the guard refuses. -/
def Unrefused (call : Call) : Prop :=
  ∀ later, Descends call later → ¬later.Refused

theorem Unrefused.not_refused {call : Call} (hcall : call.Unrefused) : ¬call.Refused :=
  hcall call .refl

theorem Unrefused.of_mem_next
    {call later : Call} (hcall : call.Unrefused) (hlater : later ∈ call.next result) :
    later.Unrefused :=
  fun last hlast => hcall last (.head hlater hlast)

/-- Without the check the call returns the same matches. -/
theorem Unrefused.returnsUnchecked {call : Call} (hcall : call.Unrefused) :
    ReturnsUnchecked call call.result := by
  induction call using induction_on_calls with
  | step call ih =>
      obtain ⟨hnext, hanswer⟩ := unchecked_eq hcall.not_refused result
      have hreturns : ReturnsUnchecked call (call.answerUnchecked result) := by
        apply ReturnsUnchecked.intro
        intro later hlater
        rw [hnext] at hlater
        exact ih later hlater (hcall.of_mem_next hlater)
      rwa [hanswer, answer_result] at hreturns

/-- Without the check the call returns no other matches. -/
theorem ReturnsUnchecked.eq_result
    {call : Call} {found : List Match} (hreturns : ReturnsUnchecked call found)
    (hcall : call.Unrefused) :
    found = call.result := by
  induction hreturns with
  | @intro call answers _ ih =>
      obtain ⟨hnext, hanswer⟩ := unchecked_eq hcall.not_refused answers
      rw [hanswer]
      apply answer_eq_of_agrees
      intro later hlater hmade
      rw [← hnext] at hlater
      exact ih later hlater (hcall.of_mem_next hmade)

end Call

/-! ## Without left recursion -/

/-- Without left recursion the guard refuses nothing, if suggestions leave ends of
their inputs; and matching without its check ends with the same matches in the
same order, and with no others. -/
theorem not_refused_and_returnsUnchecked_iff
    {grammar : Grammar} {rule : Rule}
    (hends : ∀ other ∈ rule :: (Context.fresh grammar).rules, other.LeavesEnds)
    (hleft : ¬LeftCorner.LeftRecursive grammar rule) (input : Text) :
    (∀ call, Call.Descends ⟨.single rule, .fresh grammar, input⟩ call → ¬call.Refused) ∧
      ∀ found, Call.ReturnsUnchecked ⟨.single rule, .fresh grammar, input⟩ found ↔
        found = rule.enumerate (.fresh grammar) input := by
  have hunrefused : Call.Unrefused ⟨.single rule, .fresh grammar, input⟩ := by
    intro call hdescends hrefused
    have hreached := LeftCorner.reached_of_descends
      (fun _ hnode => Rule.leavesEnds_of_mem_nodesOfAll hends hnode) hdescends
    match call with
    | ⟨.single (.reference name), ctx, rest⟩ =>
        exact hleft (hreached.leftRecursive_of_enter?_eq_none hrefused)
  refine ⟨hunrefused, fun found => ⟨fun hfound => hfound.eq_result hunrefused, ?_⟩⟩
  intro hfound
  rw [hfound]
  exact hunrefused.returnsUnchecked

/-- Words that may stand apart: each but the first may have a space in front. -/
def spacedWords : Grammar :=
  let word : Rule := .range (.ofBounds 'a' 'z') (some (.constant 'x'))
  let later : Rule := .concat [.optional (.literal [' ']), .reference "word", .reference "words"]
  (Grammar.empty.insert "word" word).insert "words" (.alternative [.reference "word", later])

/-- Such words, and exclamation marks after them. -/
def exclamation : Rule :=
  let marks : Rule := .alternative [.epsilon, .concat [.literal ['!'], .reference "marks"]]
  .concat [.reference "words", .bound "marks" marks]

/-- Words lead to a word, at once and behind the space that may be missing.  They
do not lead to words, since a word does not leave its input as it was. -/
theorem not_refused_and_returnsUnchecked_exclamation :
    (∀ other ∈ exclamation :: (Context.fresh spacedWords).rules, other.LeavesEnds) ∧
      ¬LeftCorner.LeftRecursive spacedWords exclamation ∧
      (∀ call, Call.Descends ⟨.single exclamation, .fresh spacedWords, "a?!".toList⟩ call →
        ¬call.Refused) ∧
      Call.ReturnsUnchecked ⟨.single exclamation, .fresh spacedWords, "a?!".toList⟩
        (exclamation.enumerate (.fresh spacedWords) "a?!".toList) ∧
      ⟨"ax!".toList, []⟩ ∈ exclamation.enumerate (.fresh spacedWords) "a?!".toList := by
  have hranked : LeftCorner.Ranked spacedWords exclamation (· = "marks")
      fun name => if name = "words" then 1 else 0 :=
    ⟨by decide +kernel, by decide +kernel⟩
  have hends : ∀ other ∈ exclamation :: (Context.fresh spacedWords).rules, other.LeavesEnds :=
    Rule.forall_leavesEnds_of_readyMade (by decide +kernel)
  have hleft := hranked.not_leftRecursive fun _ hnode =>
    Rule.leavesEnds_of_mem_nodesOfAll hends hnode
  obtain ⟨hunrefused, hreturns⟩ := not_refused_and_returnsUnchecked_iff hends hleft "a?!".toList
  exact ⟨hends, hleft, hunrefused, (hreturns _).mpr rfl, by decide +kernel⟩

end GrammarRepair
