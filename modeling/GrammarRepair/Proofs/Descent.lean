import GrammarRepair.Proofs.Endings
import Mathlib.Data.List.Infix
import Mathlib.Data.List.ProdSigma
import Mathlib.Logic.Relation

/-!
# Descents of matching

Matching as a computation: a call works on a rule, or on rules one after the
other, and makes further calls.  `Call.next` lists the calls that a call makes,
and `Call.answer` is what it returns once those have been answered; a descent
goes from a call to one that it makes, and so on.

A call returns by a finite tree of calls, whatever the recursion among names,
and what it returns is what the rule enumerates.  Along a descent no rule and no
name comes up that was not there before, and each frame is new.  If suggestions
leave ends of their inputs, then the input only loses characters in front.  So the
frames entered below a call are different pairs of a name and an end of its input.
-/

namespace GrammarRepair

/-- What a call of matching works on. -/
inductive Task where
  | single (rule : Rule)
  /-- Rules one after the other. -/
  | row (parts : List Rule)

/-- A call of matching. -/
structure Call where
  task : Task
  ctx : Context
  input : Text

/-- The rules inside a task. -/
def Task.nodes : Task → List Rule
  | .single rule => rule.nodes
  | .row parts => Rule.nodesOfAll parts

/-- The names that a task mentions. -/
def Task.mentions : Task → List String
  | .single rule => rule.mentions
  | .row parts => Rule.mentionsOfAll parts

namespace Call

/-- What matching lists for a call. -/
def result : Call → List Match
  | ⟨.single rule, ctx, input⟩ => rule.enumerate ctx input
  | ⟨.row parts, ctx, input⟩ => Rule.enumerateSequence parts ctx input

/-- The calls that a call makes, in order, where earlier ones are answered so. -/
def next (answers : Call → List Match) : Call → List Call
  | ⟨.single (.literal _), _, _⟩ => []
  | ⟨.single (.range ..), _, _⟩ => []
  | ⟨.single (.sequence parts), ctx, input⟩ => [⟨.row parts, ctx, input⟩]
  | ⟨.single (.choice branches _), ctx, input⟩ => branches.map (⟨.single ·, ctx, input⟩)
  | ⟨.single (.reference name), ctx, input⟩ =>
      match ctx.resolve? name, ctx.enter? name input with
      | some target, some child => [⟨.single target, child, input⟩]
      | _, _ => []
  | ⟨.single (.bound name body), ctx, input⟩ => [⟨.single body, ctx.bind name body, input⟩]
  | ⟨.single (.capped _ inner), ctx, input⟩ => [⟨.single inner, ctx, input⟩]
  | ⟨.row [], _, _⟩ => []
  | ⟨.row (part :: parts), ctx, input⟩ =>
      ⟨.single part, ctx, input⟩ ::
        (answers ⟨.single part, ctx, input⟩).map (⟨.row parts, ctx, ·.rest⟩)

/-- What a call returns, where the calls that it makes are answered so. -/
def answer (answers : Call → List Match) : Call → List Match
  | ⟨.single (.literal text), _, input⟩ =>
      match text.isPrefixOf? input with
      | some rest => [⟨text, rest⟩]
      | none => []
  | ⟨.single (.range _ suggestion), _, []⟩ => Matching.offersOf suggestion []
  | ⟨.single (.range span suggestion), _, c :: rest⟩ =>
      if span.contains c then [⟨[c], rest⟩] else Matching.offersOf suggestion (c :: rest)
  | ⟨.single (.sequence parts), ctx, input⟩ => answers ⟨.row parts, ctx, input⟩
  | ⟨.single (.choice branches suggestion), ctx, input⟩ =>
      let found := branches.flatMap (answers ⟨.single ·, ctx, input⟩)
      if found = [] then Matching.offersOf suggestion input else found
  | ⟨.single (.reference name), ctx, input⟩ =>
      match ctx.resolve? name, ctx.enter? name input with
      | some target, some child => answers ⟨.single target, child, input⟩
      | _, _ => []
  | ⟨.single (.bound name body), ctx, input⟩ => answers ⟨.single body, ctx.bind name body, input⟩
  | ⟨.single (.capped _ inner), ctx, input⟩ => answers ⟨.single inner, ctx, input⟩
  | ⟨.row [], _, input⟩ => [⟨[], input⟩]
  | ⟨.row (part :: parts), ctx, input⟩ =>
      (answers ⟨.single part, ctx, input⟩).flatMap fun head =>
        (answers ⟨.row parts, ctx, head.rest⟩).map (Match.precededBy head.text)

/-- The call returns these matches by a finite tree of calls. -/
inductive Returns : Call → List Match → Prop
  | intro {call : Call} (answers : Call → List Match)
      (hnext : ∀ later ∈ call.next answers, Returns later (answers later)) :
      Returns call (call.answer answers)

/-- A descent leads from a call to another. -/
def Descends : Call → Call → Prop :=
  Relation.ReflTransGen fun call later => later ∈ call.next result

/-! ## Every call returns -/

theorem answer_result (call : Call) : call.answer result = call.result := by
  match call with
  | ⟨.single (.literal text), ctx, input⟩ => exact (Rule.enumerate_literal text ctx input).symm
  | ⟨.single (.range span suggestion), ctx, []⟩ =>
      exact (Rule.enumerate_range_nil span suggestion ctx).symm
  | ⟨.single (.range span suggestion), ctx, c :: rest⟩ =>
      exact (Rule.enumerate_range_cons span suggestion ctx c rest).symm
  | ⟨.single (.sequence parts), ctx, input⟩ => exact (Rule.enumerate_sequence parts ctx input).symm
  | ⟨.single (.choice branches suggestion), ctx, input⟩ =>
      exact (Rule.enumerate_choice branches suggestion ctx input).symm
  | ⟨.single (.reference name), ctx, input⟩ => exact (Rule.enumerate_reference name ctx input).symm
  | ⟨.single (.bound name body), ctx, input⟩ =>
      exact (Rule.enumerate_bound name body ctx input).symm
  | ⟨.single (.capped limit inner), ctx, input⟩ =>
      exact (Rule.enumerate_capped limit inner ctx input).symm
  | ⟨.row [], ctx, input⟩ => exact (Rule.enumerateSequence_nil ctx input).symm
  | ⟨.row (part :: parts), ctx, input⟩ =>
      exact (Rule.enumerateSequence_cons part parts ctx input).symm

/-- A call returns if all calls that it makes return. -/
theorem returns_of_next
    {call : Call} (hnext : ∀ later ∈ call.next result, Returns later later.result) :
    Returns call call.result := by
  have hreturns := Returns.intro result hnext
  rwa [answer_result] at hreturns

/-- What holds of a call, provided that it holds of all calls that it makes,
holds of every call. -/
theorem induction_on_calls
    {motive : Call → Prop}
    (step : ∀ call, (∀ later ∈ call.next result, motive later) → motive call) (call : Call) :
    motive call := by
  suffices hall :
      (∀ (rule : Rule) (ctx : Context) (input : Text), motive ⟨.single rule, ctx, input⟩) ∧
      ∀ (parts : List Rule) (ctx : Context) (input : Text), motive ⟨.row parts, ctx, input⟩ by
    match call with
    | ⟨.single rule, ctx, input⟩ => exact hall.1 rule ctx input
    | ⟨.row parts, ctx, input⟩ => exact hall.2 parts ctx input
  apply Matching.induction_on_rules_and_parts
  case literal =>
    intro text ctx input
    apply step
    intro later hlater
    cases hlater
  case range =>
    intro span suggestion ctx input
    apply step
    intro later hlater
    cases hlater
  case sequence =>
    intro parts ctx input ih
    apply step
    intro later hlater
    obtain rfl := List.mem_singleton.mp hlater
    exact ih
  case choice =>
    intro branches suggestion ctx input ih
    apply step
    intro later hlater
    obtain ⟨branch, hbranch, rfl⟩ := List.mem_map.mp hlater
    exact ih branch hbranch
  case reference =>
    intro name ctx input ih
    apply step
    intro later hlater
    rw [next] at hlater
    split at hlater
    · rename_i target child hresolve henter
      obtain rfl := List.mem_singleton.mp hlater
      exact ih target child hresolve henter
    · cases hlater
  case bound =>
    intro name body ctx input ih
    apply step
    intro later hlater
    obtain rfl := List.mem_singleton.mp hlater
    exact ih
  case capped =>
    intro limit inner ctx input ih
    apply step
    intro later hlater
    obtain rfl := List.mem_singleton.mp hlater
    exact ih
  case nil =>
    intro ctx input
    apply step
    intro later hlater
    cases hlater
  case cons =>
    intro part parts ctx input ihpart ihparts
    apply step
    intro later hlater
    rcases List.mem_cons.mp hlater with rfl | hlater
    · exact ihpart
    · obtain ⟨head, hhead, rfl⟩ := List.mem_map.mp hlater
      exact ihparts head.rest (Rule.byteLength_rest_le_of_mem_enumerate hhead)

theorem returns_enumerate_and_parts :
    (∀ (rule : Rule) (ctx : Context) (input : Text),
      Returns ⟨.single rule, ctx, input⟩ (rule.enumerate ctx input)) ∧
    ∀ (parts : List Rule) (ctx : Context) (input : Text),
      Returns ⟨.row parts, ctx, input⟩ (Rule.enumerateSequence parts ctx input) := by
  have hreturns : ∀ call, Returns call call.result := induction_on_calls fun _ => returns_of_next
  exact ⟨fun rule ctx input => hreturns ⟨.single rule, ctx, input⟩,
    fun parts ctx input => hreturns ⟨.row parts, ctx, input⟩⟩

/-! ## What a call does to the next -/

/-- Every rule that comes up in a call: those inside the task, and those inside
the rules that names stand for. -/
def nodes (call : Call) : List Rule :=
  call.task.nodes ++ Rule.nodesOfAll call.ctx.rules

/-- Every name that comes up in a call: those that the task mentions, and those
that the rules mention which names stand for. -/
def names (call : Call) : List String :=
  call.task.mentions ++ call.ctx.mentions

/-- What one call does to the next: no rule and no name comes up that was not
there before, and at most one frame is entered, a new one for the input. -/
structure Steps (call later : Call) : Prop where
  nodes : later.nodes ⊆ call.nodes
  names : later.names ⊆ call.names
  frames : later.ctx.frames = call.ctx.frames ∨
    ∃ name ∈ call.names, Frame.mk name call.input ∉ call.ctx.frames ∧
      later.ctx.frames = ⟨name, call.input⟩ :: call.ctx.frames

theorem steps_of_task
    {task later : Task} {ctx : Context} {input rest : Text} (hnodes : later.nodes ⊆ task.nodes)
    (hmentions : later.mentions ⊆ task.mentions) :
    Steps ⟨task, ctx, input⟩ ⟨later, ctx, rest⟩ where
  nodes := List.append_subset.mpr
    ⟨List.subset_append_of_subset_left _ hnodes, List.subset_append_right _ _⟩
  names := List.append_subset.mpr
    ⟨List.subset_append_of_subset_left _ hmentions, List.subset_append_right _ _⟩
  frames := .inl rfl

theorem steps_reference
    {name : String} {target : Rule} {ctx child : Context} {input : Text}
    (hresolve : ctx.resolve? name = some target) (henter : ctx.enter? name input = some child) :
    Steps ⟨.single (.reference name), ctx, input⟩ ⟨.single target, child, input⟩ := by
  obtain ⟨hnew, rfl⟩ := Context.enter?_eq_some_iff.mp henter
  have htarget : target.nodes ⊆ Rule.nodesOfAll ctx.rules := fun node hnode =>
    Rule.mem_nodesOfAll_iff.mpr ⟨target, Context.mem_rules_of_resolve? hresolve, hnode⟩
  refine ⟨?_, ?_, .inr ⟨name, List.mem_cons_self, ?_, rfl⟩⟩
  · exact List.subset_append_of_subset_right _
      (List.append_subset.mpr ⟨htarget, List.Subset.refl _⟩)
  · exact List.subset_append_of_subset_right _
      (List.append_subset.mpr ⟨Context.mentions_subset_of_resolve? hresolve, List.Subset.refl _⟩)
  · simpa [Context.contains] using hnew

theorem steps_bound (name : String) (body : Rule) (ctx : Context) (input : Text) :
    Steps ⟨.single (.bound name body), ctx, input⟩ ⟨.single body, ctx.bind name body, input⟩ := by
  refine ⟨?_, ?_, .inl rfl⟩
  · have hbody := List.subset_append_of_subset_left (Rule.nodesOfAll ctx.rules)
      (Rule.nodes_subset_bound name body)
    exact List.append_subset.mpr
      ⟨hbody, List.append_subset.mpr ⟨hbody, List.subset_append_right _ _⟩⟩
  · intro other hother
    simp only [Call.names, Task.mentions, Rule.mentions, Context.mentions_bind,
      List.mem_append] at hother ⊢
    tauto

theorem steps_of_mem_next {call later : Call} (hlater : later ∈ call.next result) :
    Steps call later := by
  match call with
  | ⟨.single (.literal _), _, _⟩ => cases hlater
  | ⟨.single (.range ..), _, _⟩ => cases hlater
  | ⟨.single (.sequence parts), ctx, input⟩ =>
      obtain rfl := List.mem_singleton.mp hlater
      exact steps_of_task (List.subset_cons_self _ _) (List.Subset.refl _)
  | ⟨.single (.choice branches _), ctx, input⟩ =>
      obtain ⟨branch, hbranch, rfl⟩ := List.mem_map.mp hlater
      exact steps_of_task (Rule.nodes_subset_choice hbranch)
        (Matching.mentions_subset_mentionsOfAll hbranch)
  | ⟨.single (.reference name), ctx, input⟩ =>
      rw [next] at hlater
      split at hlater
      · rename_i target child hresolve henter
        obtain rfl := List.mem_singleton.mp hlater
        exact steps_reference hresolve henter
      · cases hlater
  | ⟨.single (.bound name body), ctx, input⟩ =>
      obtain rfl := List.mem_singleton.mp hlater
      exact steps_bound name body ctx input
  | ⟨.single (.capped limit inner), ctx, input⟩ =>
      obtain rfl := List.mem_singleton.mp hlater
      exact steps_of_task (Rule.nodes_subset_capped limit inner) (List.Subset.refl _)
  | ⟨.row [], _, _⟩ => cases hlater
  | ⟨.row (part :: parts), ctx, input⟩ =>
      rcases List.mem_cons.mp hlater with rfl | hlater
      · exact steps_of_task (List.subset_append_left _ _) (List.subset_append_left _ _)
      · obtain ⟨head, hhead, rfl⟩ := List.mem_map.mp hlater
        exact steps_of_task (List.subset_append_right _ _) (List.subset_append_right _ _)

/-! ## Ends of the input -/

/-- All suggestions that may come up leave ends of their inputs. -/
def LeavesEnds (call : Call) : Prop :=
  ∀ node ∈ call.nodes, node.LeavesEnds

theorem leavesEnds_of_rules
    {rule : Rule} {ctx : Context} (hends : ∀ other ∈ rule :: ctx.rules, other.LeavesEnds)
    (input : Text) :
    LeavesEnds ⟨.single rule, ctx, input⟩ :=
  fun _ hnode => Rule.leavesEnds_of_mem_nodesOfAll hends hnode

theorem LeavesEnds.of_steps
    {call later : Call} (hends : call.LeavesEnds) (hsteps : Steps call later) :
    later.LeavesEnds :=
  fun node hnode => hends node (hsteps.nodes hnode)

theorem LeavesEnds.rest_suffix_of_mem_offersOf
    {rule : Rule} {ctx : Context} {input : Text} (hends : LeavesEnds ⟨.single rule, ctx, input⟩)
    {m : Match} (hm : m ∈ Matching.offersOf rule.suggestion? input) :
    m.rest <:+ input :=
  (hends rule (List.mem_append_left _ (Rule.mem_nodes_self rule))).rest_suffix_of_mem_offersOf hm

/-- What a call returns leaves ends of the input, if suggestions do. -/
theorem LeavesEnds.rest_suffix_of_mem_result
    {call : Call} (hends : call.LeavesEnds) :
    ∀ m ∈ call.result, m.rest <:+ call.input := by
  induction call using induction_on_calls with
  | step call ih =>
  have hlater {later : Call} (hnext : later ∈ call.next result) {m : Match}
      (hm : m ∈ later.result) :
      m.rest <:+ later.input :=
    ih later hnext (hends.of_steps (steps_of_mem_next hnext)) m hm
  intro m hm
  rw [← answer_result] at hm
  match call with
  | ⟨.single (.literal text), ctx, input⟩ =>
      rw [answer_result] at hm
      exact ⟨text, (Rule.mem_enumerate_literal_iff.mp hm).2.symm⟩
  | ⟨.single (.range span suggestion), ctx, []⟩ => exact hends.rest_suffix_of_mem_offersOf hm
  | ⟨.single (.range span suggestion), ctx, c :: rest⟩ =>
      rw [answer] at hm
      split at hm
      · rw [List.mem_singleton.mp hm]
        exact List.suffix_cons c rest
      · exact hends.rest_suffix_of_mem_offersOf hm
  | ⟨.single (.sequence _), _, _⟩ | ⟨.single (.bound ..), _, _⟩ | ⟨.single (.capped ..), _, _⟩ =>
      exact hlater (List.mem_singleton_self _) hm
  | ⟨.single (.choice branches suggestion), ctx, input⟩ =>
      simp only [answer] at hm
      split at hm
      · exact hends.rest_suffix_of_mem_offersOf hm
      · obtain ⟨branch, hbranch, hm⟩ := List.mem_flatMap.mp hm
        exact hlater (List.mem_map_of_mem hbranch) hm
  | ⟨.single (.reference name), ctx, input⟩ =>
      rw [answer] at hm
      split at hm
      · rename_i target child hresolve henter
        have hnext : ⟨.single target, child, input⟩ ∈
            next result ⟨.single (.reference name), ctx, input⟩ := by
          rw [next, hresolve, henter]
          exact List.mem_singleton_self _
        exact hlater hnext hm
      · cases hm
  | ⟨.row [], ctx, input⟩ =>
      obtain rfl := List.mem_singleton.mp hm
      exact List.suffix_rfl
  | ⟨.row (part :: parts), ctx, input⟩ =>
      obtain ⟨head, hhead, hm⟩ := List.mem_flatMap.mp hm
      obtain ⟨tail, htail, rfl⟩ := List.mem_map.mp hm
      have hfirst : head.rest <:+ input := hlater List.mem_cons_self hhead
      have hrest : tail.rest <:+ head.rest :=
        hlater (List.mem_cons_of_mem _ (List.mem_map_of_mem hhead)) htail
      rw [Match.rest_precededBy]
      exact hrest.trans hfirst

/-- So a call hands on ends of the input. -/
theorem LeavesEnds.input_suffix_of_mem_next
    {call later : Call} (hends : call.LeavesEnds) (hlater : later ∈ call.next result) :
    later.input <:+ call.input := by
  match call with
  | ⟨.single (.literal _), _, _⟩ | ⟨.single (.range ..), _, _⟩ | ⟨.row [], _, _⟩ => cases hlater
  | ⟨.single (.sequence _), _, _⟩ | ⟨.single (.bound ..), _, _⟩ | ⟨.single (.capped ..), _, _⟩ =>
      obtain rfl := List.mem_singleton.mp hlater
      exact List.suffix_rfl
  | ⟨.single (.choice branches _), ctx, input⟩ =>
      obtain ⟨branch, hbranch, rfl⟩ := List.mem_map.mp hlater
      exact List.suffix_rfl
  | ⟨.single (.reference name), ctx, input⟩ =>
      rw [next] at hlater
      split at hlater
      · obtain rfl := List.mem_singleton.mp hlater
        exact List.suffix_rfl
      · cases hlater
  | ⟨.row (part :: parts), ctx, input⟩ =>
      have hpart : LeavesEnds ⟨.single part, ctx, input⟩ :=
        hends.of_steps (steps_of_mem_next List.mem_cons_self)
      rcases List.mem_cons.mp hlater with rfl | hlater
      · exact List.suffix_rfl
      · obtain ⟨head, hhead, rfl⟩ := List.mem_map.mp hlater
        exact hpart.rest_suffix_of_mem_result head hhead

end Call

/-- A match leaves an end of the input, if suggestions do. -/
theorem Rule.rest_suffix_of_mem_enumerate
    {rule : Rule} {ctx : Context} (hends : ∀ other ∈ rule :: ctx.rules, other.LeavesEnds)
    {input : Text} {m : Match} (hm : m ∈ rule.enumerate ctx input) :
    m.rest <:+ input :=
  (Call.leavesEnds_of_rules hends input).rest_suffix_of_mem_result m hm

namespace Call

/-! ## What a descent keeps -/

/-- What a descent from `start` has done: on top of the frames that stood there
it has entered different ones, each for a name and an end of the input. -/
structure Below (start call : Call) : Prop where
  leavesEnds : call.LeavesEnds
  input : call.input <:+ start.input
  names : call.names ⊆ start.names
  frames : ∃ entered, call.ctx.frames = entered ++ start.ctx.frames ∧ entered.Nodup ∧
    ∀ frame ∈ entered, frame.name ∈ start.names ∧ frame.input <:+ start.input

theorem Below.of_mem_next
    {start call later : Call} (hbelow : Below start call) (hlater : later ∈ call.next result) :
    Below start later := by
  obtain ⟨entered, hframes, hnodup, hentered⟩ := hbelow.frames
  have hsteps := steps_of_mem_next hlater
  refine ⟨hbelow.leavesEnds.of_steps hsteps,
    (hbelow.leavesEnds.input_suffix_of_mem_next hlater).trans hbelow.input,
    List.Subset.trans hsteps.names hbelow.names, ?_⟩
  rcases hsteps.frames with hsame | ⟨name, hname, hnew, henter⟩
  · exact ⟨entered, hsame.trans hframes, hnodup, hentered⟩
  · refine ⟨⟨name, call.input⟩ :: entered, by rw [henter, hframes, List.cons_append], ?_, ?_⟩
    · have hfresh : Frame.mk name call.input ∉ entered := by
        intro hmem
        rw [hframes] at hnew
        exact hnew (List.mem_append_left _ hmem)
      exact List.nodup_cons.mpr ⟨hfresh, hnodup⟩
    · exact List.forall_mem_cons.mpr ⟨⟨hbelow.names hname, hbelow.input⟩, hentered⟩

theorem below_of_descends
    {start call : Call} (hends : start.LeavesEnds) (hdescends : Descends start call) :
    Below start call := by
  induction hdescends with
  | refl => exact ⟨hends, List.suffix_rfl, List.Subset.refl _, [], rfl, List.nodup_nil, by simp⟩
  | tail _ hlater ih => exact ih.of_mem_next hlater

/-! ## The bound -/

/-- There are no more different frames than pairs of a name and an end of the
input. -/
theorem length_le_of_nodup_frames
    {frames : List Frame} {names : List String} {input : Text} (hnodup : frames.Nodup)
    (hframes : ∀ frame ∈ frames, frame.name ∈ names ∧ frame.input <:+ input) :
    frames.length ≤ names.eraseDups.length * (input.length + 1) := by
  have hsubset : frames ⊆ (names.eraseDups ×ˢ input.tails).map fun pair => ⟨pair.1, pair.2⟩ := by
    intro frame hframe
    obtain ⟨hname, hinput⟩ := hframes frame hframe
    refine List.mem_map.mpr ⟨(frame.name, frame.input), ?_, rfl⟩
    exact List.mem_product.mpr ⟨List.mem_eraseDups.mpr hname, (List.mem_tails _ _).mpr hinput⟩
  calc frames.length
      ≤ ((names.eraseDups ×ˢ input.tails).map fun pair => Frame.mk pair.1 pair.2).length :=
        List.Nodup.length_le_of_subset hnodup hsubset
    _ = names.eraseDups.length * (input.length + 1) := by
        rw [List.length_map, List.length_product, List.length_tails]

/-- Whatever the recursion in the rule, the grammar and the bindings, matching
returns what the rule enumerates by a finite tree of calls.  And if suggestions
leave ends of their inputs, then wherever a descent leads, it has entered at most
as many frames as there are different names mentioned, times the characters of the
input and one. -/
theorem returns_and_entered_le (rule : Rule) (ctx : Context) (input : Text) :
    Returns ⟨.single rule, ctx, input⟩ (rule.enumerate ctx input) ∧
      ((∀ other ∈ rule :: ctx.rules, other.LeavesEnds) →
        ∀ call, Descends ⟨.single rule, ctx, input⟩ call →
          ∃ entered, call.ctx.frames = entered ++ ctx.frames ∧
            entered.length ≤ ctx.knownNames rule.mentions * (input.length + 1)) := by
  refine ⟨returns_enumerate_and_parts.1 rule ctx input, fun hends call hcall => ?_⟩
  obtain ⟨entered, hframes, hnodup, hentered⟩ :=
    (below_of_descends (leavesEnds_of_rules hends input) hcall).frames
  exact ⟨entered, hframes, length_le_of_nodup_frames hnodup hentered⟩

/-- A left recursive sum enters its name once for an input of three characters,
where up to four frames would do. -/
theorem returns_and_entered_le_sum :
    let ctx := Context.fresh (Grammar.empty.insert "sum" leftRecursiveSum)
    let sum : Call := ⟨.single (.reference "sum"), ctx, "1+x".toList⟩
    let inside : Call :=
      ⟨.single leftRecursiveSum, { ctx with frames := [⟨"sum", "1+x".toList⟩] }, "1+x".toList⟩
    (∀ other ∈ .reference "sum" :: ctx.rules, other.LeavesEnds) ∧
      Returns sum [⟨['1'], "+x".toList⟩] ∧ Descends sum inside ∧
      ∃ entered, inside.ctx.frames = entered ++ ctx.frames ∧ entered.length ≤ 1 * (3 + 1) := by
  intro ctx sum inside
  have hends : ∀ other ∈ .reference "sum" :: ctx.rules, other.LeavesEnds :=
    Rule.forall_leavesEnds_of_readyMade (by decide +kernel)
  have hinside : Descends sum inside := .single (List.mem_singleton_self inside)
  have hresult : (Rule.reference "sum").enumerate ctx "1+x".toList = [⟨['1'], "+x".toList⟩] := by
    decide +kernel
  have hknown : ctx.knownNames (Rule.reference "sum").mentions = 1 := by
    decide +kernel
  obtain ⟨hreturns, hentered⟩ := returns_and_entered_le (.reference "sum") ctx "1+x".toList
  refine ⟨hends, hresult ▸ hreturns, hinside, ?_⟩
  exact hknown ▸ hentered hends inside hinside

end Call
end GrammarRepair
