import GrammarRepair.Proofs.Derivation
import GrammarRepair.Proofs.Descent

/-!
# Left corners

A rule begins with a name if matching can come to a reference to that name
before any input is consumed: the reference stands first, or all parts in front
of it can match and leave their input as it was.  A name leads to another if a
rule that it may stand for begins with the other.  The grammar and the rule at
its root are left recursive if some name leads back to itself.

Wherever a descent from the root stands, the names that were entered on the
input at hand lead to all names that the task begins with, as long as matches
leave ends of their inputs.  So the guard, which refuses a name entered on the
same input, has nothing to refuse without left recursion.

What a name may stand for does not depend on where it is looked up: any named
rule counts, and the body of any binding inside the root or a named rule.
-/

namespace GrammarRepair

/-- The name that the outermost node binds, and the body it stands for. -/
def Rule.binding? : Rule → Option (String × Rule)
  | .bound name body => some (name, body)
  | _ => none

namespace LeftCorner

section Definitions

variable (grammar : Grammar) (root : Rule)

/-- The rules that matching can come to: all that is inside the root or inside
a named rule. -/
def scope : List Rule :=
  Rule.nodesOfAll (root :: grammar.entries.map Prod.snd)

/-- Every name with every rule that it may stand for. -/
def meanings : List (String × Rule) :=
  grammar.entries ++ (scope grammar root).filterMap Rule.binding?

/-- The names mean what they may stand for. -/
structure InScope (ctx : Context) : Prop where
  grammar_eq : ctx.grammar = grammar
  bindings : ctx.bindings ⊆ meanings grammar root

/-- The rule can match and leave its input as it was. -/
def MayStay (rule : Rule) : Prop :=
  ∃ ctx, InScope grammar root ctx ∧ ∃ input, ∃ m ∈ rule.enumerate ctx input, m.rest = input

/-- Matching can come to the name before any input is consumed. -/
inductive BeginsWith : Task → String → Prop
  | reference {name : String} : BeginsWith (.single (.reference name)) name
  | sequence {parts : List Rule} {name : String} (hparts : BeginsWith (.row parts) name) :
      BeginsWith (.single (.sequence parts)) name
  | choice {branches : List Rule} {suggestion : Option Suggestion} {branch : Rule} {name : String}
      (hbranch : branch ∈ branches) (hbegins : BeginsWith (.single branch) name) :
      BeginsWith (.single (.choice branches suggestion)) name
  | bound {binder name : String} {body : Rule} (hbody : BeginsWith (.single body) name) :
      BeginsWith (.single (.bound binder body)) name
  | capped {limit : Nat} {inner : Rule} {name : String} (hinner : BeginsWith (.single inner) name) :
      BeginsWith (.single (.capped limit inner)) name
  | head {part : Rule} {parts : List Rule} {name : String}
      (hpart : BeginsWith (.single part) name) :
      BeginsWith (.row (part :: parts)) name
  | tail {part : Rule} {parts : List Rule} {name : String} (hstay : MayStay grammar root part)
      (hparts : BeginsWith (.row parts) name) :
      BeginsWith (.row (part :: parts)) name

/-- A rule that the name may stand for begins with the other name. -/
def LeadsTo (name other : String) : Prop :=
  ∃ target, (name, target) ∈ meanings grammar root ∧ BeginsWith grammar root (.single target) other

/-- Some name leads back to itself before any input is consumed. -/
def LeftRecursive : Prop :=
  ∃ name, Relation.TransGen (LeadsTo grammar root) name name

end Definitions

variable {grammar : Grammar} {root : Rule}

/-! ## Scope -/

theorem nodes_subset_scope {node : Rule} (hnode : node ∈ scope grammar root) :
    node.nodes ⊆ scope grammar root :=
  Rule.nodes_subset_nodesOfAll hnode

theorem mem_meanings_of_bound {name : String} {body : Rule}
    (hnode : .bound name body ∈ scope grammar root) :
    (name, body) ∈ meanings grammar root :=
  List.mem_append_right _ (List.mem_filterMap.mpr ⟨_, hnode, rfl⟩)

/-- Whatever a name may stand for is in scope, down to the last node. -/
theorem nodes_subset_scope_of_mem_meanings {name : String} {target : Rule}
    (hmeaning : (name, target) ∈ meanings grammar root) :
    target.nodes ⊆ scope grammar root := by
  rcases List.mem_append.mp hmeaning with hentry | hbinding
  · intro node hnode
    have htarget : target ∈ grammar.entries.map Prod.snd := List.mem_map.mpr ⟨_, hentry, rfl⟩
    exact Rule.mem_nodesOfAll_iff.mpr ⟨target, List.mem_cons_of_mem _ htarget, hnode⟩
  · obtain ⟨node, hnode, hbinds⟩ := List.mem_filterMap.mp hbinding
    cases node with
    | bound binder body =>
        obtain ⟨-, rfl⟩ := Prod.mk.inj (Option.some.inj hbinds)
        exact List.Subset.trans (Rule.nodes_subset_bound binder body) (nodes_subset_scope hnode)
    | _ => cases hbinds

theorem inScope_fresh : InScope grammar root (.fresh grammar) :=
  ⟨rfl, List.nil_subset _⟩

theorem InScope.mem_meanings_of_resolve?
    {ctx : Context} {name : String} {target : Rule} (hctx : InScope grammar root ctx)
    (hresolve : ctx.resolve? name = some target) :
    (name, target) ∈ meanings grammar root := by
  rw [Context.resolve?, hctx.grammar_eq] at hresolve
  split at hresolve
  · rename_i found hlookup
    cases hresolve
    obtain ⟨before, after, hsplit, -⟩ := List.lookup_eq_some_iff.mp hlookup
    exact hctx.bindings (by simp [hsplit])
  · exact List.mem_append_left _ (Table.mem_entries_of_find? hresolve)

theorem InScope.bind
    {ctx : Context} {name : String} {body : Rule} (hctx : InScope grammar root ctx)
    (hnode : .bound name body ∈ scope grammar root) :
    InScope grammar root (ctx.bind name body) :=
  ⟨hctx.grammar_eq, List.cons_subset.mpr ⟨mem_meanings_of_bound hnode, hctx.bindings⟩⟩

/-- What is in scope leaves ends if all of the scope does. -/
theorem InScope.leavesEnds
    (hends : ∀ node ∈ scope grammar root, node.LeavesEnds) {task : Task} {ctx : Context}
    (hctx : InScope grammar root ctx) (hnodes : task.nodes ⊆ scope grammar root) (input : Text) :
    Call.LeavesEnds ⟨task, ctx, input⟩ := by
  intro node hnode
  rcases List.mem_append.mp hnode with hnode | hnode
  · exact hends node (hnodes hnode)
  · obtain ⟨target, htarget, hnode⟩ := Rule.mem_nodesOfAll_iff.mp hnode
    obtain ⟨name, hmeaning⟩ : ∃ name, (name, target) ∈ meanings grammar root := by
      rcases List.mem_append.mp htarget with htarget | htarget
      · obtain ⟨⟨name, _⟩, hentry, rfl⟩ := List.mem_map.mp htarget
        exact ⟨name, hctx.bindings hentry⟩
      · obtain ⟨⟨name, _⟩, hentry, rfl⟩ := List.mem_map.mp htarget
        exact ⟨name, List.mem_append_left _ (hctx.grammar_eq ▸ hentry)⟩
    exact hends node (nodes_subset_scope_of_mem_meanings hmeaning hnode)

/-! ## What a descent reaches -/

/-- A call that a descent from the root can reach: frames on the input at hand
lead to all names that the task begins with, and no frame is on an input that is
shorter. -/
structure Reached (grammar : Grammar) (root : Rule) (call : Call) : Prop where
  ctx : InScope grammar root call.ctx
  nodes : call.task.nodes ⊆ scope grammar root
  inputs : ∀ frame ∈ call.ctx.frames, call.input <:+ frame.input
  leads : ∀ frame ∈ call.ctx.frames, frame.input = call.input →
    ∀ name, BeginsWith grammar root call.task name →
      Relation.TransGen (LeadsTo grammar root) frame.name name

theorem reached_root (input : Text) :
    Reached grammar root ⟨.single root, .fresh grammar, input⟩ where
  ctx := inScope_fresh
  nodes := List.subset_append_left _ _
  inputs := by simp [Context.fresh]
  leads := by simp [Context.fresh]

/-- On to a task that begins with no more names, on the same input. -/
theorem Reached.of_begins
    {task later : Task} {ctx : Context} {input : Text}
    (hreached : Reached grammar root ⟨task, ctx, input⟩) (hnodes : later.nodes ⊆ task.nodes)
    (hbegins : ∀ name, BeginsWith grammar root later name → BeginsWith grammar root task name) :
    Reached grammar root ⟨later, ctx, input⟩ where
  ctx := hreached.ctx
  nodes := List.Subset.trans hnodes hreached.nodes
  inputs := hreached.inputs
  leads frame hframe hinput name hname :=
    hreached.leads frame hframe hinput name (hbegins name hname)

/-- On to a shorter input, which no frame is on. -/
theorem Reached.of_consumed
    {task later : Task} {ctx : Context} {input rest : Text}
    (hreached : Reached grammar root ⟨task, ctx, input⟩) (hnodes : later.nodes ⊆ task.nodes)
    (hrest : rest <:+ input) (hne : rest ≠ input) :
    Reached grammar root ⟨later, ctx, rest⟩ where
  ctx := hreached.ctx
  nodes := List.Subset.trans hnodes hreached.nodes
  inputs frame hframe := hrest.trans (hreached.inputs frame hframe)
  leads frame hframe hinput := by
    have hlonger : input <:+ frame.input := hreached.inputs frame hframe
    have hshorter : frame.input = rest := hinput
    rw [hshorter] at hlonger
    exact absurd (hrest.eq_of_length_le hlonger.length_le) hne

/-- On to what a name stands for: the new frame leads there in one step, and the
frames that led to the name lead there over the name. -/
theorem Reached.enter
    {name : String} {target : Rule} {ctx child : Context} {input : Text}
    (hreached : Reached grammar root ⟨.single (.reference name), ctx, input⟩)
    (hresolve : ctx.resolve? name = some target) (henter : ctx.enter? name input = some child) :
    Reached grammar root ⟨.single target, child, input⟩ := by
  obtain ⟨-, rfl⟩ := Context.enter?_eq_some_iff.mp henter
  have hmeaning := hreached.ctx.mem_meanings_of_resolve? hresolve
  refine ⟨⟨hreached.ctx.grammar_eq, hreached.ctx.bindings⟩,
    nodes_subset_scope_of_mem_meanings hmeaning, ?_, ?_⟩
  · exact List.forall_mem_cons.mpr ⟨List.suffix_rfl, hreached.inputs⟩
  · intro frame hframe hinput other hother
    have hlast : LeadsTo grammar root name other := ⟨target, hmeaning, hother⟩
    rcases List.mem_cons.mp hframe with rfl | hframe
    · exact .single hlast
    · exact (hreached.leads frame hframe hinput name .reference).tail hlast

/-- On to the body of a binding. -/
theorem Reached.bind
    {name : String} {body : Rule} {ctx : Context} {input : Text}
    (hreached : Reached grammar root ⟨.single (.bound name body), ctx, input⟩) :
    Reached grammar root ⟨.single body, ctx.bind name body, input⟩ where
  ctx := hreached.ctx.bind (hreached.nodes (Rule.mem_nodes_self _))
  nodes := List.Subset.trans (Rule.nodes_subset_bound name body) hreached.nodes
  inputs := hreached.inputs
  leads frame hframe hinput other hother :=
    hreached.leads frame hframe hinput other (.bound hother)

/-- On to the later parts of a sequence: if the first part left the input as it
was, then the sequence begins with whatever they begin with. -/
theorem Reached.tail
    (hends : ∀ node ∈ scope grammar root, node.LeavesEnds)
    {part : Rule} {parts : List Rule} {ctx : Context} {input : Text} {head : Match}
    (hreached : Reached grammar root ⟨.row (part :: parts), ctx, input⟩)
    (hhead : head ∈ part.enumerate ctx input) :
    Reached grammar root ⟨.row parts, ctx, head.rest⟩ := by
  have hnodes : (Task.row parts).nodes ⊆ (Task.row (part :: parts)).nodes :=
    List.subset_append_right _ _
  by_cases hsame : head.rest = input
  · rw [hsame]
    have hstay : MayStay grammar root part := ⟨ctx, hreached.ctx, input, head, hhead, hsame⟩
    exact hreached.of_begins hnodes fun name hname => .tail hstay hname
  · have hpart : Call.LeavesEnds ⟨.single part, ctx, input⟩ := hreached.ctx.leavesEnds hends
      (List.Subset.trans (List.subset_append_left _ _) hreached.nodes) input
    exact hreached.of_consumed hnodes (hpart.rest_suffix_of_mem_result head hhead) hsame

/-- What a reached call calls is reached. -/
theorem Reached.of_mem_next
    (hends : ∀ node ∈ scope grammar root, node.LeavesEnds)
    {call later : Call} (hreached : Reached grammar root call)
    (hlater : later ∈ call.next Call.result) :
    Reached grammar root later := by
  match call with
  | ⟨.single (.literal _), _, _⟩ => cases hlater
  | ⟨.single (.range ..), _, _⟩ => cases hlater
  | ⟨.single (.sequence parts), ctx, input⟩ =>
      rw [List.mem_singleton.mp hlater]
      exact hreached.of_begins (List.subset_cons_self _ _) fun name hname => .sequence hname
  | ⟨.single (.choice branches _), ctx, input⟩ =>
      obtain ⟨branch, hbranch, rfl⟩ := List.mem_map.mp hlater
      exact hreached.of_begins (Rule.nodes_subset_choice hbranch) fun name hname =>
        .choice hbranch hname
  | ⟨.single (.reference name), ctx, input⟩ =>
      rw [Call.next] at hlater
      split at hlater
      · rename_i target child hresolve henter
        rw [List.mem_singleton.mp hlater]
        exact hreached.enter hresolve henter
      · cases hlater
  | ⟨.single (.bound name body), ctx, input⟩ =>
      rw [List.mem_singleton.mp hlater]
      exact hreached.bind
  | ⟨.single (.capped limit inner), ctx, input⟩ =>
      rw [List.mem_singleton.mp hlater]
      exact hreached.of_begins (Rule.nodes_subset_capped limit inner) fun name hname =>
        .capped hname
  | ⟨.row [], _, _⟩ => cases hlater
  | ⟨.row (part :: parts), ctx, input⟩ =>
      rcases List.mem_cons.mp hlater with rfl | hlater
      · exact hreached.of_begins (List.subset_append_left _ _) fun name hname => .head hname
      · obtain ⟨head, hhead, rfl⟩ := List.mem_map.mp hlater
        exact hreached.tail hends hhead

theorem reached_of_descends
    (hends : ∀ node ∈ scope grammar root, node.LeavesEnds) {input : Text} {call : Call}
    (hdescends : Call.Descends ⟨.single root, .fresh grammar, input⟩ call) :
    Reached grammar root call := by
  induction hdescends with
  | refl => exact reached_root input
  | tail _ hlater ih => exact ih.of_mem_next hends hlater

/-- A name that is refused leads back to itself. -/
theorem Reached.leftRecursive_of_enter?_eq_none
    {name : String} {ctx : Context} {input : Text}
    (hreached : Reached grammar root ⟨.single (.reference name), ctx, input⟩)
    (hrefused : ctx.enter? name input = none) :
    LeftRecursive grammar root := by
  have hframe : Frame.mk name input ∈ ctx.frames :=
    (Context.contains_iff ctx name input).mp (Context.enter?_eq_none_iff.mp hrefused)
  exact ⟨name, hreached.leads ⟨name, input⟩ hframe rfl name .reference⟩

end LeftCorner
end GrammarRepair
