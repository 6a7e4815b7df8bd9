import GrammarRepair.Matching.Induction
import GrammarRepair.Proofs.Combinations

/-!
# Derivations

A derivation is a finite tree that shows how a rule accepts a beginning of an
input.  It makes every choice at once: one branch of a choice, one way to match
each part of a sequence, one offer of a suggestion.  A reference goes on with
the rule it stands for, provided that its name has not been entered on the same
input before, above it in the tree or by whoever supplied the context.

Suggestions of choices have no place in a derivation, since they depend on all
branches failing.  Where only ranges carry suggestions, the matches that a rule
enumerates are the ones that have a derivation.
-/

namespace GrammarRepair

namespace Rule

mutual

/-- A rule and all rules inside it. -/
def nodes : Rule → List Rule
  | .literal text => [.literal text]
  | .range span suggestion => [.range span suggestion]
  | .sequence parts => .sequence parts :: nodesOfAll parts
  | .choice branches suggestion => .choice branches suggestion :: nodesOfAll branches
  | .reference name => [.reference name]
  | .bound name body => .bound name body :: body.nodes
  | .capped limit inner => .capped limit inner :: inner.nodes

/-- Several rules and all rules inside them. -/
def nodesOfAll : List Rule → List Rule
  | [] => []
  | rule :: rules => rule.nodes ++ nodesOfAll rules

end

theorem mem_nodesOfAll_iff {node : Rule} {rules : List Rule} :
    node ∈ nodesOfAll rules ↔ ∃ rule ∈ rules, node ∈ rule.nodes := by
  induction rules with
  | nil => simp [nodesOfAll]
  | cons rule rules ih => simp [nodesOfAll, ih]

theorem mem_nodes_self (rule : Rule) : rule ∈ rule.nodes := by
  cases rule <;> simp [nodes]

theorem nodes_subset_sequence {part : Rule} {parts : List Rule} (hpart : part ∈ parts) :
    part.nodes ⊆ (sequence parts).nodes := by
  intro node hnode
  exact List.mem_cons_of_mem _ (mem_nodesOfAll_iff.mpr ⟨part, hpart, hnode⟩)

theorem nodes_subset_choice
    {branch : Rule} {branches : List Rule} {suggestion : Option Suggestion}
    (hbranch : branch ∈ branches) :
    branch.nodes ⊆ (choice branches suggestion).nodes := by
  intro node hnode
  exact List.mem_cons_of_mem _ (mem_nodesOfAll_iff.mpr ⟨branch, hbranch, hnode⟩)

theorem nodes_subset_bound (name : String) (body : Rule) :
    body.nodes ⊆ (bound name body).nodes :=
  List.subset_cons_self _ _

theorem nodes_subset_capped (limit : Nat) (inner : Rule) :
    inner.nodes ⊆ (capped limit inner).nodes :=
  List.subset_cons_self _ _

mutual

/-- What is inside a rule inside a rule is inside that rule. -/
theorem nodes_subset_of_mem_nodes {rule node : Rule} (hnode : node ∈ rule.nodes) :
    node.nodes ⊆ rule.nodes := by
  match rule with
  | .literal _ | .range .. | .reference _ =>
      obtain rfl := List.mem_singleton.mp hnode
      exact List.Subset.refl _
  | .sequence parts | .choice parts _ =>
      rcases List.mem_cons.mp hnode with rfl | hnode
      · exact List.Subset.refl _
      · exact List.Subset.trans (nodes_subset_nodesOfAll hnode) (List.subset_cons_self _ _)
  | .bound _ inner | .capped _ inner =>
      rcases List.mem_cons.mp hnode with rfl | hnode
      · exact List.Subset.refl _
      · exact List.Subset.trans (nodes_subset_of_mem_nodes hnode) (List.subset_cons_self _ _)

/-- The same inside several rules. -/
theorem nodes_subset_nodesOfAll
    {rules : List Rule} {node : Rule} (hnode : node ∈ nodesOfAll rules) :
    node.nodes ⊆ nodesOfAll rules := by
  match rules with
  | [] => cases hnode
  | rule :: rules =>
      rcases List.mem_append.mp hnode with hnode | hnode
      · exact List.Subset.trans (nodes_subset_of_mem_nodes hnode) (List.subset_append_left _ _)
      · exact List.Subset.trans (nodes_subset_nodesOfAll hnode) (List.subset_append_right _ _)

end

/-- The suggestion that a rule carries itself. -/
def suggestion? : Rule → Option Suggestion
  | .range _ suggestion => suggestion
  | .choice _ suggestion => suggestion
  | _ => none

/-- Only ranges carry suggestions. -/
def SuggestsOnRanges (rule : Rule) : Prop :=
  ∀ branches suggestion, .choice branches suggestion ∈ rule.nodes → suggestion = none

theorem SuggestsOnRanges.of_node_subset
    {rule inner : Rule} (hrule : rule.SuggestsOnRanges) (hsubset : inner.nodes ⊆ rule.nodes) :
    inner.SuggestsOnRanges := by
  intro branches suggestion hnode
  exact hrule branches suggestion (hsubset hnode)

end Rule

mutual

/-- The rule accepts the match from the input by a finite tree.  The frames of
the context are what has been entered on the path to the root. -/
inductive Derives : Context → Rule → Text → Match → Prop
  | literal {ctx : Context} {text rest : Text} :
      Derives ctx (.literal text) (text ++ rest) ⟨text, rest⟩
  | range {ctx : Context} {span : CharRange} {suggestion : Option Suggestion} {c : Char}
      {rest : Text} (hc : span.contains c = true) :
      Derives ctx (.range span suggestion) (c :: rest) ⟨[c], rest⟩
  | offer {ctx : Context} {span : CharRange} {suggestion : Suggestion} {input : Text} {m : Match}
      (hmiss : ∀ c ∈ input.head?, span.contains c = false) (hoffer : m ∈ suggestion.offers input) :
      Derives ctx (.range span (some suggestion)) input m
  | sequence {ctx : Context} {parts : List Rule} {input : Text} {m : Match}
      (hparts : DerivesAll ctx parts input m) :
      Derives ctx (.sequence parts) input m
  | choice {ctx : Context} {branches : List Rule} {suggestion : Option Suggestion} {branch : Rule}
      {input : Text} {m : Match} (hbranch : branch ∈ branches) (hm : Derives ctx branch input m) :
      Derives ctx (.choice branches suggestion) input m
  | reference {ctx : Context} {name : String} {target : Rule} {input : Text} {m : Match}
      (hresolve : ctx.resolve? name = some target) (hnew : Frame.mk name input ∉ ctx.frames)
      (hm : Derives { ctx with frames := ⟨name, input⟩ :: ctx.frames } target input m) :
      Derives ctx (.reference name) input m
  | bound {ctx : Context} {name : String} {body : Rule} {input : Text} {m : Match}
      (hm : Derives (ctx.bind name body) body input m) :
      Derives ctx (.bound name body) input m
  | capped {ctx : Context} {limit : Nat} {inner : Rule} {input : Text} {m : Match}
      (hm : Derives ctx inner input m) :
      Derives ctx (.capped limit inner) input m

/-- The rules accept the match one after the other, each from what the one
before it leaves. -/
inductive DerivesAll : Context → List Rule → Text → Match → Prop
  | nil {ctx : Context} {input : Text} :
      DerivesAll ctx [] input ⟨[], input⟩
  | cons {ctx : Context} {part : Rule} {parts : List Rule} {input middle rest head tail : Text}
      (hhead : Derives ctx part input ⟨head, middle⟩)
      (htail : DerivesAll ctx parts middle ⟨tail, rest⟩) :
      DerivesAll ctx (part :: parts) input ⟨head ++ tail, rest⟩

end

/-! ## Every derivation is enumerated -/

mutual

theorem Derives.mem_enumerate
    {ctx : Context} {rule : Rule} {input : Text} {m : Match} (h : Derives ctx rule input m) :
    m ∈ rule.enumerate ctx input := by
  match h with
  | .literal => exact Rule.mem_enumerate_literal_iff.mpr ⟨rfl, rfl⟩
  | .range hc =>
      rw [Rule.enumerate_range_cons, if_pos hc]
      exact List.mem_singleton_self _
  | .offer hmiss hoffer =>
      cases input with
      | nil => simpa [Rule.enumerate_range_nil, Matching.offersOf] using hoffer
      | cons c rest =>
          have hc := hmiss c rfl
          simpa [Rule.enumerate_range_cons, Matching.offersOf, hc] using hoffer
  | .sequence hparts =>
      rw [Rule.enumerate_sequence]
      exact hparts.mem_enumerateSequence
  | .choice hbranch hm =>
      have hfound := List.mem_flatMap (f := (Rule.enumerate · ctx input)) |>.mpr
        ⟨_, hbranch, hm.mem_enumerate⟩
      rw [Rule.enumerate_choice, if_neg (List.ne_nil_of_mem hfound)]
      exact hfound
  | .reference hresolve hnew hm =>
      rw [Rule.enumerate_reference_of_not_mem hresolve hnew]
      exact hm.mem_enumerate
  | .bound hm =>
      rw [Rule.enumerate_bound]
      exact hm.mem_enumerate
  | .capped hm =>
      rw [Rule.enumerate_capped]
      exact hm.mem_enumerate

theorem DerivesAll.mem_enumerateSequence
    {ctx : Context} {parts : List Rule} {input : Text} {m : Match}
    (h : DerivesAll ctx parts input m) :
    m ∈ Rule.enumerateSequence parts ctx input := by
  match h with
  | .nil =>
      rw [Rule.enumerateSequence_nil]
      exact List.mem_singleton_self _
  | .cons hhead htail =>
      rw [Rule.enumerateSequence_cons]
      refine List.mem_flatMap.mpr ⟨_, hhead.mem_enumerate, ?_⟩
      exact List.mem_map.mpr ⟨_, htail.mem_enumerateSequence, Match.precededBy_mk _ _ _⟩

end

/-! ## Every match has a derivation -/

/-- Where only ranges carry suggestions, each match of a rule or of several
rules in a row has a derivation. -/
theorem derives_of_mem_enumerate_and_parts :
    (∀ (rule : Rule) (ctx : Context) (input : Text),
      rule.SuggestsOnRanges → (∀ target ∈ ctx.rules, target.SuggestsOnRanges) →
      ∀ m ∈ rule.enumerate ctx input, Derives ctx rule input m) ∧
    ∀ (parts : List Rule) (ctx : Context) (input : Text),
      (∀ part ∈ parts, part.SuggestsOnRanges) →
      (∀ target ∈ ctx.rules, target.SuggestsOnRanges) →
      ∀ m ∈ Rule.enumerateSequence parts ctx input, DerivesAll ctx parts input m := by
  apply Matching.induction_on_rules_and_parts
  case literal =>
    intro text ctx input _ _ m hm
    obtain ⟨rfl, rfl⟩ := Rule.mem_enumerate_literal_iff.mp hm
    exact .literal
  case range =>
    intro span suggestion ctx input _ _ m hm
    have hoffer (hmiss : ∀ c ∈ input.head?, span.contains c = false)
        (hm : m ∈ Matching.offersOf suggestion input) :
        Derives ctx (.range span suggestion) input m := by
      cases suggestion with
      | none => simp [Matching.offersOf] at hm
      | some suggestion => exact .offer hmiss hm
    cases input with
    | nil =>
        rw [Rule.enumerate_range_nil] at hm
        exact hoffer (by simp) hm
    | cons c rest =>
        rw [Rule.enumerate_range_cons] at hm
        split at hm
        · rename_i hc
          obtain rfl := List.mem_singleton.mp hm
          exact .range hc
        · rename_i hc
          exact hoffer (by simpa using hc) hm
  case sequence =>
    intro parts ctx input ih hrule hctx m hm
    rw [Rule.enumerate_sequence] at hm
    have hparts : ∀ part ∈ parts, part.SuggestsOnRanges := by
      intro part hpart
      exact hrule.of_node_subset (Rule.nodes_subset_sequence hpart)
    exact .sequence (ih hparts hctx m hm)
  case choice =>
    intro branches suggestion ctx input ih hrule hctx m hm
    obtain rfl : suggestion = none := hrule branches suggestion (Rule.mem_nodes_self _)
    rw [Rule.enumerate_choice] at hm
    split at hm
    · simp [Matching.offersOf] at hm
    · obtain ⟨branch, hbranch, hm⟩ := List.mem_flatMap.mp hm
      have hbranchRule := hrule.of_node_subset (Rule.nodes_subset_choice hbranch)
      exact .choice hbranch (ih branch hbranch hbranchRule hctx m hm)
  case reference =>
    intro name ctx input ih _ hctx m hm
    rw [Rule.enumerate_reference] at hm
    split at hm
    · rename_i target child hresolve henter
      have htarget := hctx target (Context.mem_rules_of_resolve? hresolve)
      have hm := ih target child hresolve henter htarget
      obtain ⟨hnew, rfl⟩ := Context.enter?_eq_some_iff.mp henter
      exact .reference hresolve (by simpa [Context.contains] using hnew) (hm hctx m ‹_›)
    · simp at hm
  case bound =>
    intro name body ctx input ih hrule hctx m hm
    rw [Rule.enumerate_bound] at hm
    have hbody := hrule.of_node_subset (Rule.nodes_subset_bound name body)
    have hbind : ∀ target ∈ (ctx.bind name body).rules, target.SuggestsOnRanges := by
      intro target htarget
      rcases List.mem_cons.mp htarget with rfl | htarget
      · exact hbody
      · exact hctx target htarget
    exact .bound (ih hbody hbind m hm)
  case capped =>
    intro limit inner ctx input ih hrule hctx m hm
    rw [Rule.enumerate_capped] at hm
    exact .capped (ih (hrule.of_node_subset (Rule.nodes_subset_capped limit inner)) hctx m hm)
  case nil =>
    intro ctx input _ _ m hm
    rw [Rule.enumerateSequence_nil] at hm
    obtain rfl := List.mem_singleton.mp hm
    exact .nil
  case cons =>
    intro part parts ctx input ihpart ihparts hrules hctx m hm
    rw [Rule.enumerateSequence_cons] at hm
    obtain ⟨head, hhead, hm⟩ := List.mem_flatMap.mp hm
    obtain ⟨tail, htail, rfl⟩ := List.mem_map.mp hm
    have hpart := ihpart (hrules part List.mem_cons_self) hctx head hhead
    have hparts := ihparts head.rest (Rule.byteLength_rest_le_of_mem_enumerate hhead)
      (fun later hlater => hrules later (List.mem_cons_of_mem _ hlater)) hctx tail htail
    obtain ⟨text, rest⟩ := tail
    rw [Match.precededBy_mk]
    exact .cons hpart hparts

/-! ## Exact enumeration -/

/-- Where only ranges carry suggestions, whatever the recursion, a rule
enumerates exactly the matches that have a derivation. -/
theorem mem_enumerate_iff_derives
    {rule : Rule} {ctx : Context} (hrule : rule.SuggestsOnRanges)
    (hctx : ∀ target ∈ ctx.rules, target.SuggestsOnRanges) (input : Text) (m : Match) :
    m ∈ rule.enumerate ctx input ↔ Derives ctx rule input m := by
  constructor
  · exact derives_of_mem_enumerate_and_parts.1 rule ctx input hrule hctx m
  · exact Derives.mem_enumerate

/-- Sums of digits by left recursion; what is not a digit becomes a zero. -/
def leftRecursiveSum : Rule :=
  .alternative [.concat [.reference "sum", .literal ['+'],
    .range (.ofBounds '0' '9') (some (.constant '0'))], .literal ['1']]

/-- The guard cuts the left recursion: the first summand has a derivation, the
whole sum has none. -/
theorem derives_leftRecursiveSum :
    let ctx := Context.fresh (Grammar.empty.insert "sum" leftRecursiveSum)
    leftRecursiveSum.SuggestsOnRanges ∧ (∀ target ∈ ctx.rules, target.SuggestsOnRanges) ∧
      Derives ctx (.reference "sum") "1+x".toList ⟨['1'], "+x".toList⟩ ∧
      Derives ctx leftRecursiveSum "1+x".toList ⟨"1+0".toList, []⟩ ∧
      ¬Derives ctx (.reference "sum") "1+x".toList ⟨"1+0".toList, []⟩ := by
  intro ctx
  have hsum : leftRecursiveSum.SuggestsOnRanges := by
    intro branches suggestion hnode
    simp [leftRecursiveSum, Rule.alternative, Rule.concat, Rule.nodes, Rule.nodesOfAll] at hnode
    exact hnode.2
  have hreference : (Rule.reference "sum").SuggestsOnRanges := by
    intro branches suggestion hnode
    simp [Rule.nodes] at hnode
  have hctx : ∀ target ∈ ctx.rules, target.SuggestsOnRanges := by
    intro target htarget
    obtain rfl := List.mem_singleton.mp htarget
    exact hsum
  refine ⟨hsum, hctx, ?_, ?_, ?_⟩
  · exact (mem_enumerate_iff_derives hreference hctx _ _).mp (by decide +kernel)
  · exact (mem_enumerate_iff_derives hsum hctx _ _).mp (by decide +kernel)
  · rw [← mem_enumerate_iff_derives hreference hctx]
    decide +kernel

end GrammarRepair
