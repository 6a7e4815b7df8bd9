import GrammarRepair.Builder
import GrammarRepair.Proofs.LeftCorner
import GrammarRepair.Proofs.Refusals
import GrammarRepair.Proofs.RuleMap

/-!
# Rules without their bindings

A rule that is bound inline brings its name along.  Where the grammar has the
same rule under that name, the binding is not needed, and `Rule.unbound` leaves
only the body of each.  Then all names are looked up in the grammar.

Matching comes to the same matches and to the same refusals either way.  The two
go in lock step, except that a binding is a step of its own and not a frame: all
bindings that stand in a context repeat what the grammar says, so they can be
dropped at every point, whichever they are and however they came there.
-/

namespace GrammarRepair

namespace Rule

mutual

/-- The rule with each binding replaced by its body. -/
def unbound : Rule → Rule
  | .literal text => .literal text
  | .range span suggestion => .range span suggestion
  | .sequence parts => .sequence (unboundAll parts)
  | .choice branches suggestion => .choice (unboundAll branches) suggestion
  | .reference name => .reference name
  | .bound _ body => body.unbound
  | .capped limit inner => .capped limit inner.unbound

/-- Several rules with each binding replaced by its body. -/
def unboundAll : List Rule → List Rule
  | [] => []
  | rule :: rules => rule.unbound :: unboundAll rules

end

theorem unboundAll_eq_map (rules : List Rule) : unboundAll rules = rules.map unbound := by
  induction rules with
  | nil => rfl
  | cons rule rules ih => rw [unboundAll, ih, List.map_cons]

/-- The grammar has every rule that is bound inside this one, under the same
name. -/
def Registered (grammar : Grammar) (rule : Rule) : Prop :=
  ∀ name body, .bound name body ∈ rule.nodes → grammar.find? name = some body

end Rule

namespace Context

/-- The context without bindings, and without those in the rules of the
grammar. -/
def unbound (ctx : Context) : Context where
  grammar := ctx.grammar.mapValues Rule.unbound
  frames := ctx.frames

/-- Every rule that is bound, in the context or in a rule of the grammar, is the
grammar's rule of that name. -/
structure Registered (ctx : Context) : Prop where
  bindings : ∀ {name body}, ctx.bindings.lookup name = some body →
    ctx.grammar.find? name = some body
  rules : ∀ {name target}, ctx.grammar.find? name = some target → target.Registered ctx.grammar

variable {ctx : Context}

theorem Registered.resolve?_eq (h : ctx.Registered) (name : String) :
    ctx.resolve? name = ctx.grammar.find? name := by
  rw [resolve?]
  split
  · rename_i body hbody
    exact (h.bindings hbody).symm
  · rfl

theorem Registered.bind
    (h : ctx.Registered) {name : String} {body : Rule}
    (hbody : ctx.grammar.find? name = some body) :
    (ctx.bind name body).Registered := by
  refine ⟨fun {key found} hfound => ?_, h.rules⟩
  rw [Context.bind, List.lookup_cons] at hfound
  split at hfound
  · rename_i hkey
    rw [eq_of_beq hkey, ← hfound]
    exact hbody
  · exact h.bindings hfound

/-- A name stands for the same rule, without its bindings. -/
theorem resolve?_unbound (h : ctx.Registered) (name : String) :
    ctx.unbound.resolve? name = (ctx.resolve? name).map Rule.unbound := by
  rw [h.resolve?_eq]
  exact Table.find?_mapValues Rule.unbound ctx.grammar name

theorem enter?_unbound (ctx : Context) (name : String) (input : Text) :
    ctx.unbound.enter? name input = (ctx.enter? name input).map unbound := by
  have hcontains : ctx.unbound.contains name input = ctx.contains name input := rfl
  unfold enter?
  rw [hcontains]
  split
  · rfl
  · rfl

end Context

/-- The task without bindings. -/
def Task.unbound : Task → Task
  | .single rule => .single rule.unbound
  | .row parts => .row (Rule.unboundAll parts)

namespace Call

/-- The call without bindings. -/
def unbound (call : Call) : Call :=
  ⟨call.task.unbound, call.ctx.unbound, call.input⟩

/-- Whatever is bound in the call is the grammar's rule of that name. -/
structure Registered (call : Call) : Prop where
  task : ∀ name body, .bound name body ∈ call.task.nodes → call.ctx.grammar.find? name = some body
  ctx : call.ctx.Registered

theorem Registered.of_nodes_subset
    {task later : Task} {ctx : Context} {input rest : Text} (h : Registered ⟨task, ctx, input⟩)
    (hnodes : later.nodes ⊆ task.nodes) :
    Registered ⟨later, ctx, rest⟩ :=
  ⟨fun name body hbound => h.task name body (hnodes hbound), h.ctx⟩

/-- The calls that are made are registered as well. -/
theorem Registered.of_mem_next
    {call later : Call} (h : call.Registered) (hlater : later ∈ call.next result) :
    later.Registered := by
  match call with
  | ⟨.single (.literal _), _, _⟩ | ⟨.single (.range ..), _, _⟩ | ⟨.row [], _, _⟩ => cases hlater
  | ⟨.single (.sequence parts), ctx, input⟩ =>
      obtain rfl := List.mem_singleton.mp hlater
      exact h.of_nodes_subset (List.subset_cons_self _ _)
  | ⟨.single (.choice branches suggestion), ctx, input⟩ =>
      obtain ⟨branch, hbranch, rfl⟩ := List.mem_map.mp hlater
      exact h.of_nodes_subset (Rule.nodes_subset_choice hbranch)
  | ⟨.single (.reference name), ctx, input⟩ =>
      rw [next] at hlater
      split at hlater
      · rename_i target child hresolve henter
        obtain rfl := List.mem_singleton.mp hlater
        obtain ⟨-, rfl⟩ := Context.enter?_eq_some_iff.mp henter
        rw [h.ctx.resolve?_eq] at hresolve
        exact ⟨h.ctx.rules hresolve, h.ctx.bindings, h.ctx.rules⟩
      · cases hlater
  | ⟨.single (.bound name body), ctx, input⟩ =>
      obtain rfl := List.mem_singleton.mp hlater
      have hbody := h.task name body (Rule.mem_nodes_self _)
      exact ⟨fun other inner hinner => h.task other inner (List.mem_cons_of_mem _ hinner),
        h.ctx.bind hbody⟩
  | ⟨.single (.capped limit inner), ctx, input⟩ =>
      obtain rfl := List.mem_singleton.mp hlater
      exact h.of_nodes_subset (List.subset_cons_self _ _)
  | ⟨.row (part :: parts), ctx, input⟩ =>
      rcases List.mem_cons.mp hlater with rfl | hlater
      · exact h.of_nodes_subset (List.subset_append_left _ _)
      · obtain ⟨head, -, rfl⟩ := List.mem_map.mp hlater
        exact h.of_nodes_subset (List.subset_append_right _ _)

/-! ## Lock step -/

/-- Except at a binding, a call makes the same calls without bindings, and is
refused alike, if the calls that it makes have the same results. -/
theorem refusal_and_next_unbound
    {call : Call} (h : call.Registered)
    (hbound : ∀ name body, call.task ≠ .single (.bound name body))
    (hresults : ∀ later ∈ call.next result, later.unbound.result = later.result) :
    call.unbound.refusal = call.refusal ∧
      call.unbound.next result = (call.next result).map unbound := by
  match call with
  | ⟨.single (.literal _), _, _⟩ | ⟨.single (.range ..), _, _⟩ | ⟨.single (.sequence _), _, _⟩
  | ⟨.single (.capped ..), _, _⟩ | ⟨.row [], _, _⟩ => exact ⟨rfl, rfl⟩
  | ⟨.single (.choice branches suggestion), ctx, input⟩ =>
      refine ⟨rfl, ?_⟩
      simp only [unbound, Task.unbound, Rule.unbound, next, Rule.unboundAll_eq_map, List.map_map,
        Function.comp_def]
  | ⟨.single (.reference name), ctx, input⟩ =>
      simp only [unbound, Task.unbound, Rule.unbound, refusal, next,
        Context.resolve?_unbound h.ctx, Context.enter?_unbound]
      cases ctx.resolve? name with
      | none => exact ⟨rfl, rfl⟩
      | some target =>
          cases ctx.enter? name input with
          | none => exact ⟨rfl, rfl⟩
          | some child => exact ⟨rfl, rfl⟩
  | ⟨.single (.bound name body), ctx, input⟩ => exact absurd rfl (hbound name body)
  | ⟨.row (part :: parts), ctx, input⟩ =>
      refine ⟨rfl, ?_⟩
      have hpart := hresults _ List.mem_cons_self
      simp only [unbound, Task.unbound] at hpart
      simp only [unbound, Task.unbound, Rule.unboundAll, next, hpart, List.map_cons, List.map_map,
        Function.comp_def]

/-- A call has the same result without bindings, if those that it makes do. -/
theorem result_unbound_of_next
    {call : Call} (h : call.Registered)
    (hresults : ∀ later ∈ call.next result, later.unbound.result = later.result) :
    call.unbound.result = call.result := by
  rw [← answer_result call]
  match call with
  | ⟨.single (.bound name body), ctx, input⟩ => exact hresults _ (List.mem_singleton_self _)
  | ⟨.single (.literal _), _, _⟩ | ⟨.single (.range ..), _, []⟩ | ⟨.single (.range ..), _, _ :: _⟩
  | ⟨.row [], _, _⟩ =>
      rw [← answer_result]
      rfl
  | ⟨.single (.sequence _), _, _⟩ | ⟨.single (.capped ..), _, _⟩ =>
      rw [← answer_result]
      exact hresults _ (List.mem_singleton_self _)
  | ⟨.single (.choice branches suggestion), ctx, input⟩ =>
      have hbranches :
          branches.flatMap (fun branch => result ⟨.single branch.unbound, ctx.unbound, input⟩) =
            branches.flatMap fun branch => result ⟨.single branch, ctx, input⟩ := by
        apply List.flatMap_congr
        intro branch hbranch
        exact hresults ⟨.single branch, ctx, input⟩ (List.mem_map.mpr ⟨branch, hbranch, rfl⟩)
      rw [← answer_result]
      simp only [unbound, Task.unbound, Rule.unbound, answer, Rule.unboundAll_eq_map,
        List.flatMap_map, hbranches]
  | ⟨.single (.reference name), ctx, input⟩ =>
      rw [← answer_result]
      simp only [unbound, Task.unbound, Rule.unbound, answer, Context.resolve?_unbound h.ctx,
        Context.enter?_unbound]
      cases hresolve : ctx.resolve? name with
      | none => rfl
      | some target =>
          cases henter : ctx.enter? name input with
          | none => rfl
          | some child =>
              rw [next, hresolve, henter] at hresults
              exact hresults _ (List.mem_singleton_self _)
  | ⟨.row (part :: parts), ctx, input⟩ =>
      have hpart : result ⟨.single part.unbound, ctx.unbound, input⟩ =
          result ⟨.single part, ctx, input⟩ :=
        hresults _ List.mem_cons_self
      rw [← answer_result]
      simp only [unbound, Task.unbound, Rule.unboundAll, answer, hpart]
      apply List.flatMap_congr
      intro head hhead
      have hlater : Call.mk (.row parts) ctx head.rest ∈
          next result ⟨.row (part :: parts), ctx, input⟩ :=
        List.mem_cons_of_mem _ (List.mem_map.mpr ⟨head, hhead, rfl⟩)
      exact congrArg (List.map _) (hresults _ hlater)

theorem refusals_bound (name : String) (body : Rule) (ctx : Context) (input : Text) :
    refusals ⟨.single (.bound name body), ctx, input⟩ =
      refusals ⟨.single body, ctx.bind name body, input⟩ := by
  rw [refusals_eq]
  simp [refusal, next]

/-- Where everything that is bound is registered, the bindings make no difference
to the matches nor to the refusals. -/
theorem result_and_refusals_unbound (call : Call) (h : call.Registered) :
    call.unbound.result = call.result ∧ call.unbound.refusals = call.refusals := by
  induction call using induction_on_calls with
  | step call ih =>
      have hresults : ∀ later ∈ call.next result, later.unbound.result = later.result :=
        fun later hlater => (ih later hlater (h.of_mem_next hlater)).1
      have hrefusals : ∀ later ∈ call.next result, later.unbound.refusals = later.refusals :=
        fun later hlater => (ih later hlater (h.of_mem_next hlater)).2
      refine ⟨result_unbound_of_next h hresults, ?_⟩
      by_cases hbound : ∃ name body, call.task = .single (.bound name body)
      · -- The binding is a step of its own, and without it there is none.
        obtain ⟨task, ctx, input⟩ := call
        obtain ⟨name, body, rfl⟩ := hbound
        rw [refusals_bound]
        exact hrefusals _ (List.mem_singleton_self _)
      · have hother : ∀ name body, call.task ≠ .single (.bound name body) :=
          fun name body heq => hbound ⟨name, body, heq⟩
        obtain ⟨hrefusal, hnext⟩ := refusal_and_next_unbound h hother hresults
        rw [refusals_eq, refusals_eq call, hrefusal, hnext, List.flatMap_map]
        congr 1
        exact List.flatMap_congr hrefusals

end Call

/-- Where every rule that is bound, in the rule or in the grammar, is the
grammar's rule of that name, matching from a fresh context comes to the same
matches in the same order, and to the same refusals, as it does when each binding
is replaced by its body. -/
theorem enumerate_and_refusals_unbound
    {grammar : Grammar} {rule : Rule} (hrule : rule.Registered grammar)
    (hgrammar : ∀ name target, grammar.find? name = some target → target.Registered grammar)
    (input : Text) :
    rule.enumerate (.fresh grammar) input =
        rule.unbound.enumerate (.fresh (grammar.mapValues Rule.unbound)) input ∧
      Call.refusals ⟨.single rule, .fresh grammar, input⟩ =
        Call.refusals ⟨.single rule.unbound, .fresh (grammar.mapValues Rule.unbound), input⟩ := by
  have hregistered : Call.Registered ⟨.single rule, .fresh grammar, input⟩ :=
    ⟨hrule, nofun, hgrammar _ _⟩
  obtain ⟨hresult, hrefusals⟩ := Call.result_and_refusals_unbound _ hregistered
  exact ⟨hresult.symm, hrefusals.symm⟩

/-- Sums of the letter, by left recursion. -/
def leftRecursiveLetters : Rule :=
  .alternative [.literal ['a'], .concat [.reference "letters", .literal "+a".toList]]

/-- Such a sum, bound, with a semicolon behind it. -/
def endedLetters : Rule :=
  .concat [.bound "letters" leftRecursiveLetters, .literal [';']]

/-- The grammar in which the sums are defined and bound, and used so. -/
def grammarOfLetters : Grammar :=
  (Build.run (do
    let letters ← Build.defineBound "letters" leftRecursiveLetters
    Build.define "ended" (.concat [letters, .literal [';']]))
    { supply := .counting }).2.grammar

/-- The left recursion is refused once, where it would begin anew. -/
theorem enumerate_and_refusals_endedLetters :
    endedLetters.Registered grammarOfLetters ∧
      (∀ name target, grammarOfLetters.find? name = some target →
        target.Registered grammarOfLetters) ∧
      endedLetters.enumerate (.fresh grammarOfLetters) "a+a;".toList =
        endedLetters.unbound.enumerate (.fresh (grammarOfLetters.mapValues Rule.unbound))
          "a+a;".toList ∧
      Call.refusals ⟨.single endedLetters, .fresh grammarOfLetters, "a+a;".toList⟩ =
        Call.refusals ⟨.single endedLetters.unbound,
          .fresh (grammarOfLetters.mapValues Rule.unbound), "a+a;".toList⟩ ∧
      ⟨"letters", "a+a;".toList⟩ ∈
        Call.refusals ⟨.single endedLetters, .fresh grammarOfLetters, "a+a;".toList⟩ ∧
      endedLetters.enumerate (.fresh grammarOfLetters) "a+a;".toList = [⟨"a+a;".toList, []⟩] := by
  have hended : endedLetters.Registered grammarOfLetters := by
    intro name body hbound
    simp [endedLetters, leftRecursiveLetters, Rule.concat, Rule.alternative, Rule.nodes,
      Rule.nodesOfAll] at hbound
    obtain ⟨rfl, rfl⟩ := hbound
    rfl
  have hgrammar : ∀ name target, grammarOfLetters.find? name = some target →
      target.Registered grammarOfLetters := by
    intro name target hfind
    rcases List.mem_pair.mp (Table.mem_entries_of_find? hfind) with heq | heq
    · cases heq
      exact hended
    · cases heq
      intro other body hbound
      simp [leftRecursiveLetters, Rule.concat, Rule.alternative, Rule.nodes,
        Rule.nodesOfAll] at hbound
  obtain ⟨hsame, hrefusals⟩ := enumerate_and_refusals_unbound hended hgrammar "a+a;".toList
  refine ⟨hended, hgrammar, hsame, hrefusals, ?_, by decide +kernel⟩
  -- Down to the reference under the binding, and from there to the same one again.
  refine Call.mem_refusals_iff.mpr ⟨⟨.single (.reference "letters"),
    { grammar := grammarOfLetters, bindings := [("letters", leftRecursiveLetters)],
      frames := [⟨"letters", "a+a;".toList⟩] }, "a+a;".toList⟩, ?_, List.mem_singleton_self _⟩
  have hagain (ctx : Context) (input : Text) :
      Call.Descends ⟨.single leftRecursiveLetters, ctx, input⟩
        ⟨.single (.reference "letters"), ctx, input⟩ :=
    .head (List.mem_cons_of_mem _ List.mem_cons_self)
      (.head (List.mem_singleton_self _) (.single List.mem_cons_self))
  have hbinding : Call.Descends ⟨.single endedLetters, .fresh grammarOfLetters, "a+a;".toList⟩
      ⟨.single leftRecursiveLetters,
        (Context.fresh grammarOfLetters).bind "letters" leftRecursiveLetters, "a+a;".toList⟩ :=
    .head (List.mem_singleton_self _)
      (.head List.mem_cons_self (.single (List.mem_singleton_self _)))
  exact (hbinding.trans (hagain _ _)).trans (.head (List.mem_singleton_self _) (hagain _ _))

end GrammarRepair
