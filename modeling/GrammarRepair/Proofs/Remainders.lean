import GrammarRepair.Proofs.Descent
import GrammarRepair.Proofs.Regular
import GrammarRepair.Proofs.Repair

/-!
# What matching leaves of its input

Whatever a rule accepts, it leaves an end of its input, as long as suggestions do;
and an end in characters is one in bytes that splits no character.  The same holds
wherever a suggestion is asked on the way: what it offers never leaves more than it
was given.

Without suggestions anywhere, the text that is accepted is the part of the input
in front of that end.  So a repair is then the input itself, as far as the
ceiling allows it.
-/

namespace GrammarRepair

/-- What is cut off in front of an end of a text takes the first bytes. -/
theorem Text.utf8_append (start rest : Text) : utf8 (start ++ rest) = utf8 start ++ utf8 rest :=
  List.flatMap_append

/-! ## Where suggestions are asked -/

namespace Call

/-- The call asks this suggestion, since nothing matches directly. -/
def Asks (suggestion : Suggestion) : Call → Prop
  | ⟨.single (.range span (some own)), _, input⟩ =>
      own = suggestion ∧ ∀ c ∈ input.head?, span.contains c = false
  | ⟨.single (.choice branches (some own)), ctx, input⟩ =>
      own = suggestion ∧ branches.flatMap (Rule.enumerate · ctx input) = []
  | _ => False

/-- A call that asks a suggestion returns what that offers. -/
theorem Asks.result_eq {suggestion : Suggestion} {call : Call} (h : call.Asks suggestion) :
    call.result = suggestion.offers call.input := by
  match call with
  | ⟨.single (.range span (some own)), ctx, []⟩ =>
      obtain ⟨rfl, -⟩ := h
      exact Rule.enumerate_range_nil span own ctx
  | ⟨.single (.range span (some own)), ctx, c :: rest⟩ =>
      obtain ⟨rfl, hmiss⟩ := h
      rw [result, Rule.enumerate_range_cons, hmiss c rfl]
      rfl
  | ⟨.single (.choice branches (some own)), ctx, input⟩ =>
      obtain ⟨rfl, hnone⟩ := h
      rw [result, Rule.enumerate_choice, if_pos hnone]
      rfl

/-- A suggestion that is asked is one of those that may come up. -/
theorem Asks.leavesEnds
    {suggestion : Suggestion} {call : Call} (h : call.Asks suggestion) (hends : call.LeavesEnds) :
    suggestion.LeavesEnds := by
  match call with
  | ⟨.single (.range span (some own)), ctx, input⟩ =>
      exact hends _ (List.mem_append_left _ (Rule.mem_nodes_self _)) _ (Rule.mem_nodes_self _) _
        (congrArg some h.1)
  | ⟨.single (.choice branches (some own)), ctx, input⟩ =>
      exact hends _ (List.mem_append_left _ (Rule.mem_nodes_self _)) _ (Rule.mem_nodes_self _) _
        (congrArg some h.1)

end Call

/-! ## Without suggestions -/

namespace Rule

/-- Nothing in the rule carries a suggestion. -/
def Unsuggested (rule : Rule) : Prop :=
  ∀ node ∈ rule.nodes, node.suggestion? = none

theorem Unsuggested.of_node_subset
    {rule inner : Rule} (hrule : rule.Unsuggested) (hsubset : inner.nodes ⊆ rule.nodes) :
    inner.Unsuggested := by
  intro node hnode
  exact hrule node (hsubset hnode)

theorem Unsuggested.own {rule : Rule} (hrule : rule.Unsuggested) : rule.suggestion? = none :=
  hrule rule (mem_nodes_self rule)

mutual

/-- There is nothing to take away. -/
theorem Unsuggested.plain_eq {rule : Rule} (hrule : rule.Unsuggested) : rule.plain = rule := by
  match rule with
  | .literal text | .reference name => rfl
  | .range span suggestion =>
      obtain rfl : suggestion = none := hrule.own
      rfl
  | .sequence parts =>
      rw [plain, plainAll_eq_self fun part hpart =>
        hrule.of_node_subset (nodes_subset_sequence hpart)]
  | .choice branches suggestion =>
      obtain rfl : suggestion = none := hrule.own
      rw [plain, plainAll_eq_self fun branch hbranch =>
        hrule.of_node_subset (nodes_subset_choice hbranch)]
  | .bound name body =>
      rw [plain, (hrule.of_node_subset (nodes_subset_bound name body)).plain_eq]
  | .capped limit inner =>
      rw [plain, (hrule.of_node_subset (nodes_subset_capped limit inner)).plain_eq]

theorem plainAll_eq_self {rules : List Rule} (hrules : ∀ rule ∈ rules, rule.Unsuggested) :
    plainAll rules = rules := by
  match rules with
  | [] => rfl
  | rule :: rules =>
      rw [plainAll, (hrules rule List.mem_cons_self).plain_eq,
        plainAll_eq_self fun later hlater => hrules later (List.mem_cons_of_mem _ hlater)]

end

end Rule

/-- A change that leaves all rules of a context as they are leaves the context
as it is. -/
theorem Context.mapRules_eq_self
    {f : Rule → Rule} {ctx : Context} (hrules : ∀ rule ∈ ctx.rules, f rule = rule) :
    ctx.mapRules f = ctx := by
  have hentries {entries : List (String × Rule)} (hmem : ∀ entry ∈ entries, entry.2 ∈ ctx.rules) :
      entries.map (fun entry => (entry.1, f entry.2)) = entries := by
    rw [List.map_congr_left (g := id) fun entry hentry => by rw [hrules _ (hmem entry hentry)]; rfl,
      List.map_id]
  have hgrammar := hentries fun entry (hentry : entry ∈ ctx.grammar.entries) =>
    List.mem_append_right _ (List.mem_map_of_mem hentry)
  have hbindings := hentries fun entry (hentry : entry ∈ ctx.bindings) =>
    List.mem_append_left _ (List.mem_map_of_mem hentry)
  obtain ⟨⟨entries, hnodup⟩, bindings, frames⟩ := ctx
  simp only [mapRules, Table.mapValues, hgrammar, hbindings]

/-- Where nothing carries a suggestion, what is accepted and what is left make up
the input. -/
theorem Rule.text_append_rest_of_unsuggested
    {rule : Rule} {ctx : Context} (hrules : ∀ other ∈ rule :: ctx.rules, other.Unsuggested)
    {input : Text} {m : Match} (hm : m ∈ rule.enumerate ctx input) :
    m.text ++ m.rest = input := by
  obtain ⟨hrule, hctx⟩ := List.forall_mem_cons.mp hrules
  have hplain : m ∈ rule.plain.enumerate (ctx.mapRules plain) input := by
    rwa [hrule.plain_eq, Context.mapRules_eq_self fun other hother => (hctx other hother).plain_eq]
  exact text_append_rest_of_mem_plain hplain

/-! ## All matches -/

/-- If suggestions leave ends of their inputs, then every match leaves an end of
the input that begins between two characters, and so does every offer of a
suggestion that is asked on the way, of the input at that place.  Without
suggestions in the rule, in the grammar and in the bindings, a match copies what
is in front of that end, and a repair is the input within the ceiling. -/
theorem rest_suffix_and_text_append_rest (rule : Rule) :
    (∀ (ctx : Context) (input : Text), (∀ other ∈ rule :: ctx.rules, other.LeavesEnds) →
      ∀ m ∈ rule.enumerate ctx input,
        ∃ start, input = start ++ m.rest ∧ input.utf8 = start.utf8 ++ m.rest.utf8) ∧
    (∀ (ctx : Context) (input : Text), (∀ other ∈ rule :: ctx.rules, other.LeavesEnds) →
      ∀ call, Call.Descends ⟨.single rule, ctx, input⟩ call →
        ∀ suggestion, call.Asks suggestion →
          call.input <:+ input ∧ call.result = suggestion.offers call.input ∧
            ∀ offer ∈ suggestion.offers call.input,
              offer.rest <:+ call.input ∧ offer.rest.byteLength ≤ call.input.byteLength) ∧
    (∀ ctx : Context, (∀ other ∈ rule :: ctx.rules, other.Unsuggested) →
      ∀ input, ∀ m ∈ rule.enumerate ctx input, m.text ++ m.rest = input) ∧
    ∀ grammar : Grammar, (∀ other ∈ rule :: (Context.fresh grammar).rules, other.Unsuggested) →
      ∀ input, grammar.repairs rule input = [] ∨
        grammar.repairs rule input = [Text.within rule.ceiling? input] := by
  refine ⟨fun ctx input hends m hm => ?_, fun ctx input hends call hcall suggestion hasks => ?_,
    fun ctx hrules input m hm => Rule.text_append_rest_of_unsuggested hrules hm,
    fun grammar hrules input => ?_⟩
  · obtain ⟨start, hstart⟩ := Rule.rest_suffix_of_mem_enumerate hends hm
    refine ⟨start, hstart.symm, ?_⟩
    rw [← hstart, Text.utf8_append]
  · have hbelow := Call.below_of_descends (Call.leavesEnds_of_rules hends input) hcall
    refine ⟨hbelow.input, hasks.result_eq, fun offer hoffer => ?_⟩
    have hrest := hasks.leavesEnds hbelow.leavesEnds _ offer hoffer
    exact ⟨hrest, Text.byteLength_le_of_suffix hrest⟩
  · apply Grammar.repairs_eq_nil_or_eq_singleton
    intro text htext
    obtain ⟨hm, -⟩ := (Grammar.mem_repairs_iff ..).mp htext
    simpa using Rule.text_append_rest_of_unsuggested hrules hm

/-- Sums in which nothing is repaired, and a letter in front of a mark, for which
two repairs are tried before a third. -/
theorem rest_suffix_and_text_append_rest_sum_and_letter :
    let grammar : Grammar := Grammar.empty.insert "sum" leftRecursiveSum.plain
    let sum : Rule := .capped 5 leftRecursiveSum.plain
    let repair : Suggestion :=
      .orElse (.merge [.replaceWhen ["-at-".toList] '@', .lowercase]) (.insertOrReplace [['x']])
    let letter : Rule := .range (.ofBounds 'a' 'z') (some repair)
    let marked : Rule := .concat [letter, .literal ['!']]
    let call : Call := ⟨.single letter, .fresh grammar, "é!".toList⟩
    (∀ other ∈ marked :: (Context.fresh grammar).rules, other.LeavesEnds) ∧
      (∀ other ∈ sum :: (Context.fresh grammar).rules, other.Unsuggested) ∧
      (∀ m ∈ sum.enumerate (.fresh grammar) "1+1+1".toList, m.text ++ m.rest = "1+1+1".toList) ∧
      (grammar.repairs sum "1+1é".toList = [] ∨
        grammar.repairs sum "1+1é".toList = ["1+1é".toList]) ∧
      Call.Descends ⟨.single marked, .fresh grammar, "é!".toList⟩ call ∧
      call.Asks repair ∧
      (∀ offer ∈ repair.offers "é!".toList, offer.rest.byteLength ≤ 3) ∧
      repair.offers "é!".toList = [⟨['x'], "é!".toList⟩, ⟨['x'], ['!']⟩] := by
  intro grammar sum repair letter marked call
  have hends : ∀ other ∈ marked :: (Context.fresh grammar).rules, other.LeavesEnds :=
    Rule.forall_leavesEnds_of_readyMade (by decide +kernel)
  have hplain : leftRecursiveSum.plain.Unsuggested := by
    intro node hnode
    simp only [leftRecursiveSum, Rule.alternative, Rule.concat, Rule.plain, Rule.plainAll,
      Rule.nodes, Rule.nodesOfAll, List.append_nil, List.cons_append, List.nil_append,
      List.mem_cons, List.not_mem_nil, or_false] at hnode
    rcases hnode with rfl | rfl | rfl | rfl | rfl | rfl <;> rfl
  have hrules : ∀ other ∈ sum :: (Context.fresh grammar).rules, other.Unsuggested := by
    refine List.forall_mem_cons.mpr ⟨?_, List.forall_mem_singleton.mpr hplain⟩
    exact List.forall_mem_cons.mpr ⟨rfl, hplain⟩
  have hdescends : Call.Descends ⟨.single marked, .fresh grammar, "é!".toList⟩ call :=
    .head (List.mem_singleton_self _) (.single List.mem_cons_self)
  have hasks : call.Asks repair := by
    refine ⟨rfl, fun c hc => ?_⟩
    have hfirst : 'é' = c := Option.some.inj hc
    rw [← hfirst]
    decide
  obtain ⟨-, -, hcopies, hrepairs⟩ := rest_suffix_and_text_append_rest sum
  obtain ⟨-, hoffers, -, -⟩ := rest_suffix_and_text_append_rest marked
  refine ⟨hends, hrules, hcopies _ hrules _, hrepairs grammar hrules _, hdescends, hasks, ?_, rfl⟩
  intro offer hoffer
  exact ((hoffers _ _ hends call hdescends repair hasks).2.2 offer hoffer).2

end GrammarRepair
