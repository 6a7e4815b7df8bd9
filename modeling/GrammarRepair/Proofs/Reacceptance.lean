import GrammarRepair.Proofs.Regular

/-!
# Repairs are accepted again

A rule that is put together without references by hand is regular.  Suppose that
each of its suggestions offers only texts that the range or choice carrying it
matches by itself.  Then a repair is a text of the language of the rule, so it
is matched in full when it is the input, and is one of its own repairs.
-/

namespace GrammarRepair

namespace Rule

/-- The rule is put together from texts and ranges, without references by
hand. -/
inductive Composed : Rule → Prop
  | literal (text : Text) : Composed (.literal text)
  | range (low high : Char) : Composed (.range (.ofBounds low high) none)
  | concat {rules : List Rule} (hrules : ∀ rule ∈ rules, Composed rule) : Composed (.concat rules)
  | andThen {first second : Rule} (hfirst : Composed first) (hsecond : Composed second) :
      Composed (first.andThen second)
  | alternative {rules : List Rule} (hrules : ∀ rule ∈ rules, Composed rule) :
      Composed (.alternative rules)
  | orElse {first second : Rule} (hfirst : Composed first) (hsecond : Composed second) :
      Composed (first.orElse second)
  | optional {rule : Rule} (hrule : Composed rule) : Composed rule.optional
  | repeated {rule result : Rule} {low : Nat} {high : Option Nat} {builder after : Builder}
      (hrule : Composed rule)
      (hrun : Build.run (Build.repeated low high rule) builder = (.ok result, after)) :
      Composed result
  | capped (limit : Nat) {rule : Rule} (hrule : Composed rule) : Composed (.capped limit rule)
  | suggesting {rule result : Rule} {suggestion : Suggestion} (hrule : Composed rule)
      (hresult : rule.withSuggestion suggestion = .ok result) :
      Composed result

/-- Every suggestion in the rule offers only texts that the rule carrying it
matches without suggestions, in front of any other text. -/
def OffersMatched (rule : Rule) : Prop :=
  ∀ node ∈ rule.nodes, ∀ suggestion, node.suggestion? = some suggestion →
    ∀ input, ∀ offer ∈ suggestion.offers input, ∀ rest,
      ⟨offer.text, rest⟩ ∈
        node.plain.enumerate (Context.fresh Grammar.empty) (offer.text ++ rest)

/-! ## Composed rules are regular -/

theorem Regular.concat {rules : List Rule} (hrules : ∀ rule ∈ rules, rule.Regular) :
    (Rule.concat rules).Regular :=
  holds_concat .sequence hrules

theorem Regular.copies {rule : Rule} (hrule : rule.Regular) (count : Nat) :
    (Rule.copies count rule).Regular :=
  holds_copies .sequence hrule count

theorem Regular.repeatBetween {rule : Rule} (hrule : rule.Regular) (low high : Nat) :
    (Rule.repeatBetween low high rule).Regular :=
  holds_repeatBetween .sequence (.choice none) hrule low high

theorem Regular.repeated
    {rule result : Rule} (hrule : rule.Regular) {low : Nat} {high : Option Nat}
    {builder after : Builder}
    (hrun : Build.run (Build.repeated low high rule) builder = (.ok result, after)) :
    result.Regular := by
  cases high with
  | some high =>
      cases hrun
      exact hrule.repeatBetween low high
  | none =>
      obtain ⟨name, rfl, -, -⟩ := Build.run_repeated_none_eq_ok hrun
      refine Regular.concat (List.forall_mem_cons.mpr ⟨hrule.copies low, ?_⟩)
      exact List.forall_mem_singleton.mpr (.anyNumber name hrule)

theorem Regular.withSuggestion
    {rule result : Rule} (hrule : rule.Regular) {suggestion : Suggestion}
    (hresult : rule.withSuggestion suggestion = .ok result) :
    result.Regular := by
  induction hrule generalizing result with
  | literal | sequence | anyNumber => cases hresult
  | range span => cases hresult; exact .range span _
  | choice _ hbranches => cases hresult; exact .choice _ hbranches
  | @capped limit inner hinner ih =>
      rw [Rule.withSuggestion] at hresult
      cases hattached : inner.withSuggestion suggestion with
      | error => simp [hattached, Except.map] at hresult
      | ok attached =>
          rw [hattached] at hresult
          cases hresult
          exact .capped limit (ih hattached)

theorem Composed.regular {rule : Rule} (hrule : rule.Composed) : rule.Regular := by
  induction hrule with
  | literal text => exact .literal text
  | range low high => exact .range _ none
  | concat _ ih => exact Regular.concat ih
  | andThen _ _ ihfirst ihsecond =>
      exact Regular.concat (List.forall_mem_cons.mpr
        ⟨ihfirst, List.forall_mem_singleton.mpr ihsecond⟩)
  | alternative _ ih => exact .choice none ih
  | orElse _ _ ihfirst ihsecond =>
      exact .choice none (List.forall_mem_cons.mpr
        ⟨ihfirst, List.forall_mem_singleton.mpr ihsecond⟩)
  | optional _ ih => exact ih.repeatBetween 0 1
  | repeated _ hrun ih => exact ih.repeated hrun
  | capped limit _ ih => exact .capped limit ih
  | suggesting _ hresult ih => exact ih.withSuggestion hresult

/-! ## Offers that are matched are in the language -/

mutual

theorem suggestion?_of_mem_nodes_plain
    {rule node : Rule} (hnode : node ∈ rule.plain.nodes) : node.suggestion? = none := by
  match rule with
  | .literal text =>
      obtain rfl := List.mem_singleton.mp hnode
      rfl
  | .range span suggestion =>
      obtain rfl := List.mem_singleton.mp hnode
      rfl
  | .sequence parts =>
      rcases List.mem_cons.mp hnode with rfl | hnode
      · rfl
      · exact suggestion?_of_mem_nodesOfAll_plainAll hnode
  | .choice branches suggestion =>
      rcases List.mem_cons.mp hnode with rfl | hnode
      · rfl
      · exact suggestion?_of_mem_nodesOfAll_plainAll hnode
  | .reference name =>
      obtain rfl := List.mem_singleton.mp hnode
      rfl
  | .bound name body =>
      rcases List.mem_cons.mp hnode with rfl | hnode
      · rfl
      · exact suggestion?_of_mem_nodes_plain hnode
  | .capped limit inner =>
      rcases List.mem_cons.mp hnode with rfl | hnode
      · rfl
      · exact suggestion?_of_mem_nodes_plain hnode

theorem suggestion?_of_mem_nodesOfAll_plainAll
    {rules : List Rule} {node : Rule} (hnode : node ∈ nodesOfAll (plainAll rules)) :
    node.suggestion? = none := by
  match rules with
  | [] => cases hnode
  | rule :: rules =>
      rcases List.mem_append.mp hnode with hnode | hnode
      · exact suggestion?_of_mem_nodes_plain hnode
      · exact suggestion?_of_mem_nodesOfAll_plainAll hnode

end

/-- Without suggestions there are no offers. -/
theorem offersDenoted_plain (rule : Rule) : rule.plain.OffersDenoted := by
  intro node hnode suggestion hsuggestion
  rw [suggestion?_of_mem_nodes_plain hnode] at hsuggestion
  cases hsuggestion

/-- In a regular rule, what carries a suggestion is regular: the references of
repetitions stand beside it, not inside. -/
theorem Regular.of_mem_nodes
    {rule node : Rule} (hrule : rule.Regular) (hnode : node ∈ rule.nodes)
    {suggestion : Suggestion} (hsuggestion : node.suggestion? = some suggestion) :
    node.Regular := by
  induction hrule with
  | literal text =>
      obtain rfl := List.mem_singleton.mp hnode
      cases hsuggestion
  | range span carried =>
      obtain rfl := List.mem_singleton.mp hnode
      exact .range span carried
  | sequence hparts ih =>
      rcases List.mem_cons.mp hnode with rfl | hnode
      · cases hsuggestion
      · obtain ⟨part, hpart, hnode⟩ := mem_nodesOfAll_iff.mp hnode
        exact ih part hpart hnode
  | choice carried hbranches ih =>
      rcases List.mem_cons.mp hnode with rfl | hnode
      · exact .choice carried hbranches
      · obtain ⟨branch, hbranch, hnode⟩ := mem_nodesOfAll_iff.mp hnode
        exact ih branch hbranch hnode
  | anyNumber name hrule ih =>
      simp only [nodes, Build.anyNumber, alternative, epsilon, Rule.concat, nodesOfAll,
        List.mem_cons, List.mem_append, List.not_mem_nil, or_false] at hnode
      rcases hnode with rfl | rfl | rfl | hnode | rfl | hnode | rfl
      · cases hsuggestion
      · cases hsuggestion
      · cases hsuggestion
      · exact ih hnode
      · cases hsuggestion
      · exact ih hnode
      · cases hsuggestion
  | capped limit hinner ih =>
      rcases List.mem_cons.mp hnode with rfl | hnode
      · cases hsuggestion
      · exact ih hnode

theorem OffersMatched.offersDenoted
    {rule : Rule} (hoffers : rule.OffersMatched) (hrule : rule.Regular) : rule.OffersDenoted := by
  intro node hnode suggestion hsuggestion input offer hoffer
  have hregular := hrule.of_mem_nodes hnode hsuggestion
  have hmatched := hoffers node hnode suggestion hsuggestion input offer hoffer []
  have hplain := hregular.plain.denotes_of_mem_enumerate (offersDenoted_plain node) hmatched
  exact hregular.denotes_of_plain hplain

end Rule

/-! ## Repairs of repairs -/

/-- Put a rule together without references by hand, and let every suggestion
offer only texts that its carrier matches by itself.  Then every repair of an
input is a repair of itself. -/
theorem mem_repairs_of_mem_repairs
    (grammar : Grammar) {rule : Rule} (hrule : rule.Composed) (hoffers : rule.OffersMatched)
    {input text : Text} (htext : text ∈ grammar.repairs rule input) :
    text ∈ grammar.repairs rule text := by
  rw [Grammar.mem_repairs_iff] at htext
  obtain ⟨hm, hfits⟩ := htext
  have hdenotes := hrule.regular.denotes_of_mem_enumerate (hoffers.offersDenoted hrule.regular) hm
  rw [Grammar.mem_repairs_iff, Text.within_eq_self (Text.fits_eq_true_iff.mp hfits)]
  exact ⟨hdenotes.mem_enumerate_fresh grammar, hfits⟩

/-- A letter or a written-out sign, which also stands for the sign itself. -/
def letterOrAt : Rule :=
  .choice [.range (.ofBounds 'a' 'z') none, .literal "-at-".toList]
    (some (.insertOrReplace ["-at-".toList]))

/-- Any number of these, each of which may be missing, within six bytes. -/
def lettersAndSigns : Rule :=
  .capped 6 (.concat [.copies 0 letterOrAt.optional,
    .bound "seq-0000000000000000" (Build.anyNumber "seq-0000000000000000" letterOrAt.optional)])

theorem composed_lettersAndSigns : lettersAndSigns.Composed := by
  have hletter : letterOrAt.Composed := by
    refine .suggesting (.alternative ?_) rfl
    exact List.forall_mem_cons.mpr
      ⟨.range 'a' 'z', List.forall_mem_singleton.mpr (.literal "-at-".toList)⟩
  have hrun : (Build.run (Build.repeated 0 none letterOrAt.optional)
      { supply := .counting }).1 = .ok (.concat [.copies 0 letterOrAt.optional,
        .bound "seq-0000000000000000"
          (Build.anyNumber "seq-0000000000000000" letterOrAt.optional)]) := by
    rfl
  exact .capped 6 (.repeated hletter.optional (Prod.ext hrun rfl))

theorem offersMatched_lettersAndSigns : lettersAndSigns.OffersMatched := by
  have hnodes : ∀ node ∈ lettersAndSigns.nodes, ∀ suggestion,
      node.suggestion? = some suggestion →
      node = letterOrAt ∧ suggestion = .insertOrReplace ["-at-".toList] := by
    simp [lettersAndSigns, letterOrAt, Rule.copies, Rule.concat, Build.anyNumber,
      Rule.optional_eq, Rule.alternative, Rule.epsilon, Rule.nodes, Rule.nodesOfAll,
      Rule.suggestion?]
  intro node hnode suggestion hsuggestion input offer hoffer rest
  obtain ⟨rfl, rfl⟩ := hnodes node hnode suggestion hsuggestion
  have htext : offer.text = "-at-".toList := by
    cases input with
    | nil => simp_all [Suggestion.offers]
    | cons c rest =>
        simp only [Suggestion.offers, List.flatMap_singleton, List.mem_pair] at hoffer
        rcases hoffer with rfl | rfl
        · rfl
        · rfl
  rw [htext, letterOrAt, Rule.enumerate_plain_choice]
  refine List.mem_flatMap.mpr ⟨_, List.mem_cons_of_mem _ List.mem_cons_self, ?_⟩
  exact Rule.mem_enumerate_literal_iff.mpr ⟨rfl, rfl⟩

theorem mem_repairs_letters_and_signs :
    lettersAndSigns.Composed ∧ lettersAndSigns.OffersMatched ∧
      "a-at-b".toList ∈ Grammar.empty.repairs lettersAndSigns "a@b".toList ∧
      "a-at-b".toList ∈ Grammar.empty.repairs lettersAndSigns "a-at-b".toList := by
  have hrepair : "a-at-b".toList ∈ Grammar.repairs Grammar.empty lettersAndSigns "a@b".toList := by
    decide +kernel
  exact ⟨composed_lettersAndSigns, offersMatched_lettersAndSigns, hrepair,
    mem_repairs_of_mem_repairs Grammar.empty composed_lettersAndSigns
      offersMatched_lettersAndSigns hrepair⟩

end GrammarRepair
