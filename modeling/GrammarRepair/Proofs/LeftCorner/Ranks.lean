import GrammarRepair.Proofs.LeftCorner

/-!
# A check for left recursion

Whether a rule can leave its input as it was, and what it begins with, shows
from its shape, once it is known of which names the former holds.  Suggestions
that insert text can; those that only replace characters cannot.

So a grammar shows that it is not left recursive by two tables: one marks the
names that may leave their input as it was, the other ranks the names such that
each is above all that its rules begin with.  Both are checked by computation.
-/

namespace GrammarRepair

namespace Suggestion

mutual

/-- Whether an offer may leave the input as it was.  Nothing is known of a
function. -/
def mayStay : Suggestion → Bool
  | .replace _ => false
  | .insertOrReplace texts => !texts.isEmpty
  | .replaceUnless _ _ => false
  | .replaceWhen _ _ => false
  | .lowercase => false
  | .merge parts => anyMayStay parts
  | .orElse primary fallback => primary.mayStay || fallback.mayStay
  | .custom _ _ => true

/-- Whether an offer of some suggestion may. -/
def anyMayStay : List Suggestion → Bool
  | [] => false
  | part :: parts => part.mayStay || anyMayStay parts

end

mutual

theorem mayStay_of_mem_offers
    {suggestion : Suggestion} {input : Text} {m : Match} (hm : m ∈ suggestion.offers input)
    (hsame : m.rest = input) :
    suggestion.mayStay = true := by
  match suggestion, input with
  | .replace _, [] | .replaceUnless _ _, [] | .replaceWhen _ _, [] | .lowercase, [] =>
      simp [offers] at hm
  | .replace texts, c :: rest =>
      obtain ⟨text, -, rfl⟩ := List.mem_map.mp (by simpa [offers] using hm)
      exact absurd hsame.symm (List.cons_ne_self c rest)
  | .insertOrReplace texts, input =>
      have htexts : texts ≠ [] := by
        rintro rfl
        cases input <;> simp [offers] at hm
      simpa [mayStay] using htexts
  | .replaceUnless char except, c :: rest =>
      simp only [offers] at hm
      split at hm
      · cases hm
      · rw [List.mem_singleton.mp hm] at hsame
        exact absurd hsame.symm (List.cons_ne_self c rest)
  | .replaceWhen texts trigger, c :: rest =>
      simp only [offers] at hm
      split at hm
      · obtain ⟨text, -, rfl⟩ := List.mem_map.mp hm
        exact absurd hsame.symm (List.cons_ne_self c rest)
      · cases hm
  | .lowercase, c :: rest =>
      simp only [offers] at hm
      split at hm
      · rw [List.mem_singleton.mp hm] at hsame
        exact absurd hsame.symm (List.cons_ne_self c rest)
      · cases hm
  | .merge parts, input =>
      rw [mayStay]
      exact anyMayStay_of_mem_offersOfAll (by simpa [offers] using hm) hsame
  | .orElse primary fallback, input =>
      rw [mayStay, Bool.or_eq_true]
      simp only [offers] at hm
      split at hm
      · exact .inr (mayStay_of_mem_offers hm hsame)
      · exact .inl (mayStay_of_mem_offers hm hsame)
  | .custom _ _, input => rfl

theorem anyMayStay_of_mem_offersOfAll
    {parts : List Suggestion} {input : Text} {m : Match} (hm : m ∈ offersOfAll parts input)
    (hsame : m.rest = input) :
    anyMayStay parts = true := by
  match parts with
  | [] => simp [offersOfAll] at hm
  | part :: parts =>
      rw [anyMayStay, Bool.or_eq_true]
      rcases List.mem_append.mp (by simpa [offersOfAll] using hm) with hm | hm
      · exact .inl (mayStay_of_mem_offers hm hsame)
      · exact .inr (anyMayStay_of_mem_offersOfAll hm hsame)

end

/-- The same for a suggestion that may be missing. -/
theorem mayStay_of_mem_offersOf
    {suggestion : Option Suggestion} {input : Text} {m : Match}
    (hm : m ∈ Matching.offersOf suggestion input) (hsame : m.rest = input) :
    suggestion.any mayStay = true := by
  cases suggestion with
  | none => cases hm
  | some suggestion => exact mayStay_of_mem_offers hm hsame

end Suggestion

/-! ## What shows from the shape of a rule -/

section Shape

variable (stays : String → Bool)

mutual

/-- Whether a rule may leave its input as it was, if the marked names may. -/
def Rule.mayStay : Rule → Bool
  | .literal text => text.isEmpty
  | .range _ suggestion => suggestion.any Suggestion.mayStay
  | .sequence parts => allMayStay parts
  | .choice branches suggestion => anyMayStay branches || suggestion.any Suggestion.mayStay
  | .reference name => stays name
  | .bound _ body => body.mayStay
  | .capped _ inner => inner.mayStay

/-- Whether all rules may, one after the other. -/
def Rule.allMayStay : List Rule → Bool
  | [] => true
  | rule :: rules => rule.mayStay && allMayStay rules

/-- Whether some rule may. -/
def Rule.anyMayStay : List Rule → Bool
  | [] => false
  | rule :: rules => rule.mayStay || anyMayStay rules

end

mutual

/-- The names that a rule begins with, if the marked names may leave their input
as it was. -/
def Rule.beginnings : Rule → List String
  | .literal _ => []
  | .range .. => []
  | .sequence parts => beginningsOfRow parts
  | .choice branches _ => beginningsOfAll branches
  | .reference name => [name]
  | .bound _ body => body.beginnings
  | .capped _ inner => inner.beginnings

/-- The names that rules begin with, one rule after the other. -/
def Rule.beginningsOfRow : List Rule → List String
  | [] => []
  | rule :: rules => rule.beginnings ++ if rule.mayStay stays then beginningsOfRow rules else []

/-- The names that some rule begins with. -/
def Rule.beginningsOfAll : List Rule → List String
  | [] => []
  | rule :: rules => rule.beginnings ++ beginningsOfAll rules

end

/-- The names that a task begins with. -/
def Task.beginnings : Task → List String
  | .single rule => rule.beginnings stays
  | .row parts => Rule.beginningsOfRow stays parts

end Shape

namespace LeftCorner

variable {grammar : Grammar} {root : Rule} {stays : String → Bool}

theorem anyMayStay_of_mem {rule : Rule} {rules : List Rule} (hrule : rule ∈ rules)
    (hstays : rule.mayStay stays = true) :
    Rule.anyMayStay stays rules = true := by
  induction rules with
  | nil => cases hrule
  | cons first rules ih =>
      rw [Rule.anyMayStay, Bool.or_eq_true]
      rcases List.mem_cons.mp hrule with rfl | hrule
      · exact .inl hstays
      · exact .inr (ih hrule)

theorem mem_beginningsOfAll {rule : Rule} {rules : List Rule} (hrule : rule ∈ rules)
    {name : String} (hname : name ∈ rule.beginnings stays) :
    name ∈ Rule.beginningsOfAll stays rules := by
  induction rules with
  | nil => cases hrule
  | cons first rules ih =>
      rw [Rule.beginningsOfAll, List.mem_append]
      rcases List.mem_cons.mp hrule with rfl | hrule
      · exact .inl hname
      · exact .inr (ih hrule)

/-- The marks and the ranks fit the rules. -/
structure Ranked
    (grammar : Grammar) (root : Rule) (stays : String → Bool) (rank : String → Nat) : Prop where
  marked : ∀ meaning ∈ meanings grammar root,
    meaning.2.mayStay stays = true → stays meaning.1 = true
  falling : ∀ meaning ∈ meanings grammar root,
    ∀ other ∈ meaning.2.beginnings stays, rank other < rank meaning.1

/-- What leaves its input as it was may do so by its shape. -/
theorem mayStay_of_mem_enumerate_and_parts
    (hends : ∀ node ∈ scope grammar root, node.LeavesEnds)
    (hmarked : ∀ meaning ∈ meanings grammar root,
      meaning.2.mayStay stays = true → stays meaning.1 = true) :
    (∀ (rule : Rule) (ctx : Context) (input : Text),
      rule.nodes ⊆ scope grammar root → InScope grammar root ctx →
      (∃ m ∈ rule.enumerate ctx input, m.rest = input) → rule.mayStay stays = true) ∧
    ∀ (parts : List Rule) (ctx : Context) (input : Text),
      Rule.nodesOfAll parts ⊆ scope grammar root → InScope grammar root ctx →
      (∃ m ∈ Rule.enumerateSequence parts ctx input, m.rest = input) →
      Rule.allMayStay stays parts = true := by
  apply Matching.induction_on_rules_and_parts
  case literal =>
    rintro text ctx input - - ⟨m, hm, hsame⟩
    obtain ⟨-, hinput⟩ := Rule.mem_enumerate_literal_iff.mp hm
    rw [hsame] at hinput
    simpa [Rule.mayStay] using hinput
  case range =>
    rintro span suggestion ctx input - - ⟨m, hm, hsame⟩
    cases input with
    | nil =>
        rw [Rule.enumerate_range_nil] at hm
        exact Suggestion.mayStay_of_mem_offersOf hm hsame
    | cons c rest =>
        rw [Rule.enumerate_range_cons] at hm
        split at hm
        · rw [List.mem_singleton.mp hm] at hsame
          exact absurd hsame.symm (List.cons_ne_self c rest)
        · exact Suggestion.mayStay_of_mem_offersOf hm hsame
  case sequence =>
    intro parts ctx input ih hnodes hctx hsame
    rw [Rule.enumerate_sequence] at hsame
    exact ih (List.Subset.trans (List.subset_cons_self _ _) hnodes) hctx hsame
  case choice =>
    rintro branches suggestion ctx input ih hnodes hctx ⟨m, hm, hsame⟩
    rw [Rule.mayStay, Bool.or_eq_true]
    rw [Rule.enumerate_choice] at hm
    split at hm
    · exact .inr (Suggestion.mayStay_of_mem_offersOf hm hsame)
    · obtain ⟨branch, hbranch, hm⟩ := List.mem_flatMap.mp hm
      have hinner := List.Subset.trans (Rule.nodes_subset_choice hbranch) hnodes
      exact .inl (anyMayStay_of_mem hbranch (ih branch hbranch hinner hctx ⟨m, hm, hsame⟩))
  case reference =>
    rintro name ctx input ih - hctx ⟨m, hm, hsame⟩
    rw [Rule.enumerate_reference] at hm
    split at hm
    · rename_i target child hresolve henter
      have hmeaning := hctx.mem_meanings_of_resolve? hresolve
      have htarget := nodes_subset_scope_of_mem_meanings hmeaning
      have hchild : InScope grammar root child := by
        obtain ⟨-, rfl⟩ := Context.enter?_eq_some_iff.mp henter
        exact ⟨hctx.grammar_eq, hctx.bindings⟩
      exact hmarked _ hmeaning (ih target child hresolve henter htarget hchild ⟨m, hm, hsame⟩)
    · cases hm
  case bound =>
    intro name body ctx input ih hnodes hctx hsame
    rw [Rule.enumerate_bound] at hsame
    have hbind := hctx.bind (hnodes (Rule.mem_nodes_self _))
    exact ih (List.Subset.trans (Rule.nodes_subset_bound name body) hnodes) hbind hsame
  case capped =>
    intro limit inner ctx input ih hnodes hctx hsame
    rw [Rule.enumerate_capped] at hsame
    exact ih (List.Subset.trans (Rule.nodes_subset_capped limit inner) hnodes) hctx hsame
  case nil =>
    intro ctx input _ _ _
    rfl
  case cons =>
    rintro part parts ctx input ihpart ihparts hnodes hctx ⟨m, hm, hsame⟩
    obtain ⟨head, hhead, tail, htail, rfl⟩ := Rule.mem_enumerateSequence_cons_iff.mp hm
    -- the head leaves all of the input, since the tail does
    have hpart : (Task.single part).nodes ⊆ scope grammar root :=
      List.Subset.trans (List.subset_append_left _ _) hnodes
    have hparts : (Task.row parts).nodes ⊆ scope grammar root :=
      List.Subset.trans (List.subset_append_right _ _) hnodes
    have hheads : Call.LeavesEnds ⟨.single part, ctx, input⟩ := hctx.leavesEnds hends hpart input
    have htails : Call.LeavesEnds ⟨.row parts, ctx, head.rest⟩ := hctx.leavesEnds hends hparts _
    have hrest : head.rest <:+ input := hheads.rest_suffix_of_mem_result head hhead
    have hinput : input <:+ head.rest := by
      have hsuffix : tail.rest <:+ head.rest := htails.rest_suffix_of_mem_result tail htail
      rwa [show tail.rest = input from hsame] at hsuffix
    have hstays : head.rest = input := hrest.eq_of_length_le hinput.length_le
    rw [Rule.allMayStay, Bool.and_eq_true]
    constructor
    · exact ihpart hpart hctx ⟨head, hhead, hstays⟩
    · exact ihparts head.rest (Text.byteLength_le_of_suffix hrest) hparts hctx
        ⟨tail, htail, hsame.trans hstays.symm⟩

/-- What a task begins with shows from its shape. -/
theorem mem_beginnings_of_beginsWith
    (hends : ∀ node ∈ scope grammar root, node.LeavesEnds)
    (hmarked : ∀ meaning ∈ meanings grammar root,
      meaning.2.mayStay stays = true → stays meaning.1 = true)
    {task : Task} {name : String} (hbegins : BeginsWith grammar root task name)
    (hnodes : task.nodes ⊆ scope grammar root) :
    name ∈ task.beginnings stays := by
  induction hbegins with
  | reference => exact List.mem_singleton_self _
  | sequence hparts ih => exact ih (List.Subset.trans (List.subset_cons_self _ _) hnodes)
  | choice hbranch hbegins ih =>
      exact mem_beginningsOfAll hbranch
        (ih (List.Subset.trans (Rule.nodes_subset_choice hbranch) hnodes))
  | bound hbody ih => exact ih (List.Subset.trans (Rule.nodes_subset_bound _ _) hnodes)
  | capped hinner ih => exact ih (List.Subset.trans (Rule.nodes_subset_capped _ _) hnodes)
  | head hpart ih =>
      exact List.mem_append_left _ (ih (List.Subset.trans (List.subset_append_left _ _) hnodes))
  | @tail part parts name hstay hparts ih =>
      obtain ⟨ctx, hctx, input, m, hm, hsame⟩ := hstay
      have hpart : part.mayStay stays = true :=
        (mayStay_of_mem_enumerate_and_parts hends hmarked).1 part ctx input
          (List.Subset.trans (List.subset_append_left _ _) hnodes) hctx ⟨m, hm, hsame⟩
      have hlater := ih (List.Subset.trans (List.subset_append_right _ _) hnodes)
      rw [Task.beginnings, Rule.beginningsOfRow, if_pos hpart]
      exact List.mem_append_right _ hlater

/-- Marks and ranks that fit show that there is no left recursion. -/
theorem Ranked.not_leftRecursive
    (hends : ∀ node ∈ scope grammar root, node.LeavesEnds) {rank : String → Nat}
    (hranked : Ranked grammar root stays rank) :
    ¬LeftRecursive grammar root := by
  have hfalls : ∀ {name other}, LeadsTo grammar root name other → rank other < rank name := by
    rintro name other ⟨target, hmeaning, hbegins⟩
    have hnodes := nodes_subset_scope_of_mem_meanings hmeaning
    exact hranked.falling _ hmeaning other
      (mem_beginnings_of_beginsWith hends hranked.marked hbegins hnodes)
  rintro ⟨name, hcycle⟩
  have hlower : ∀ {other}, Relation.TransGen (LeadsTo grammar root) name other →
      rank other < rank name := by
    intro other hchain
    induction hchain with
    | single hleads => exact hfalls hleads
    | tail _ hleads ih => exact (hfalls hleads).trans ih
  exact (hlower hcycle).false

end LeftCorner
end GrammarRepair
