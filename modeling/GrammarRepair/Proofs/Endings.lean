import GrammarRepair.Proofs.Derivation

/-!
# Suggestions that leave ends of the input

A match takes no more bytes than there are, but what it leaves need not be an end
of the input: a function that was given as a suggestion may leave another text of
the same size.  Results that need ends of the input ask for rules that leave ends,
as all do whose suggestions are put together from the ready-made ones.
-/

namespace GrammarRepair.Rule

/-- All suggestions in the rule leave ends of their inputs. -/
def LeavesEnds (rule : Rule) : Prop :=
  ∀ node ∈ rule.nodes, ∀ suggestion, node.suggestion? = some suggestion → suggestion.LeavesEnds

/-- All suggestions in the rule are put together from the ready-made ones. -/
def readyMade (rule : Rule) : Bool :=
  rule.nodes.all fun node => node.suggestion?.all fun suggestion => suggestion.functions.isEmpty

theorem forall_leavesEnds_of_readyMade {rules : List Rule} (hrules : rules.all readyMade = true) :
    ∀ rule ∈ rules, rule.LeavesEnds := by
  intro rule hrule node hnode suggestion hsuggestion
  have hown := List.all_eq_true.mp (List.all_eq_true.mp hrules rule hrule) node hnode
  rw [hsuggestion, Option.all_some, List.isEmpty_iff] at hown
  exact Suggestion.leavesEnds_of_functions_eq_nil hown

/-- What is inside rules that leave ends leaves ends. -/
theorem leavesEnds_of_mem_nodesOfAll
    {rules : List Rule} (hrules : ∀ rule ∈ rules, rule.LeavesEnds) {node : Rule}
    (hnode : node ∈ nodesOfAll rules) :
    node.LeavesEnds := by
  intro inner hinner
  obtain ⟨rule, hrule, hinner⟩ := mem_nodesOfAll_iff.mp (nodes_subset_nodesOfAll hnode hinner)
  exact hrules rule hrule inner hinner

theorem LeavesEnds.rest_suffix_of_mem_offersOf
    {rule : Rule} (hrule : rule.LeavesEnds) {input : Text} {m : Match}
    (hm : m ∈ Matching.offersOf rule.suggestion? input) :
    m.rest <:+ input := by
  cases hown : rule.suggestion? with
  | none =>
      rw [hown] at hm
      cases hm
  | some suggestion =>
      rw [hown] at hm
      exact hrule rule (mem_nodes_self rule) suggestion hown input m hm

end GrammarRepair.Rule
