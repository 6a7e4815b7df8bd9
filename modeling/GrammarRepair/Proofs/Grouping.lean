import GrammarRepair.Proofs.Combinations

/-!
# Grouping

Rules one after the other, and rules side by side, can be grouped in many ways:
groups stand in groups, two at a time or more, and a group may hold a single
member or none.  None of this shows in the matches, which are the same list, in
the same order and with the same duplicates, as for the rules without any
grouping.

For sequences this is no matter of course.  A group hands on its matches whole,
with the texts of its members already joined, where a flat sequence hands on
those of each member; and what is joined first is not joined in the same order.
-/

namespace GrammarRepair

/-- A way to group rules.  A group holds any number of members, a pair two. -/
inductive Grouping where
  | single (rule : Rule)
  | group (members : List Grouping)
  | pair (first second : Grouping)

namespace Grouping

mutual

/-- The rules that are grouped, from left to right. -/
def rules : Grouping → List Rule
  | .single rule => [rule]
  | .group members => rulesOfAll members
  | .pair first second => first.rules ++ second.rules

/-- The rules in several members. -/
def rulesOfAll : List Grouping → List Rule
  | [] => []
  | member :: members => member.rules ++ rulesOfAll members

end

mutual

/-- The rule that is built group by group, with a combination for any number of
rules and one for two. -/
def combined (many : List Rule → Rule) (two : Rule → Rule → Rule) : Grouping → Rule
  | .single rule => rule
  | .group members => many (combinedAll many two members)
  | .pair first second => two (first.combined many two) (second.combined many two)

/-- The rules that are built from several members. -/
def combinedAll (many : List Rule → Rule) (two : Rule → Rule → Rule) : List Grouping → List Rule
  | [] => []
  | member :: members => member.combined many two :: combinedAll many two members

end

example (a b c : Rule) :
    (group [single a, group [], pair (single b) (group [single c])]).combined .concat .andThen =
      .sequence [a, .sequence [], .sequence [b, c]] :=
  rfl

/-- Combined rules match what `found` lists for them, and `found` of a list does
not change where part of the list is exchanged for rules for which it is the
same. -/
structure Associates
    (ctx : Context) (many : List Rule → Rule) (two : Rule → Rule → Rule)
    (found : List Rule → Text → List Match) : Prop where
  enumerate_many : ∀ rules input, (many rules).enumerate ctx input = found rules input
  two_eq : ∀ first second, two first second = many [first, second]
  found_single : ∀ rule input, found [rule] input = rule.enumerate ctx input
  found_append : ∀ {first first' later later' : List Rule}, found first = found first' →
    found later = found later' → found (first ++ later) = found (first' ++ later')

namespace Associates

variable {ctx : Context} {many : List Rule → Rule} {two : Rule → Rule → Rule}
  {found : List Rule → Text → List Match}

mutual

/-- A grouping matches what its rules match without it. -/
theorem found_combined (h : Associates ctx many two found) (grouping : Grouping) :
    found [grouping.combined many two] = found grouping.rules := by
  match grouping with
  | .single rule => rfl
  | .group members =>
      funext input
      rw [combined, h.found_single, h.enumerate_many, rules, h.found_combinedAll members]
  | .pair first second =>
      have hboth : found ([first.combined many two] ++ [second.combined many two]) =
          found (first.rules ++ second.rules) :=
        h.found_append (h.found_combined first) (h.found_combined second)
      funext input
      rw [combined, h.found_single, h.two_eq, h.enumerate_many, rules, ← hboth]
      rfl

theorem found_combinedAll (h : Associates ctx many two found) (members : List Grouping) :
    found (combinedAll many two members) = found (rulesOfAll members) := by
  match members with
  | [] => rfl
  | member :: members =>
      exact h.found_append (h.found_combined member) (h.found_combinedAll members)

end

theorem enumerate_combined
    (h : Associates ctx many two found) (grouping : Grouping) (input : Text) :
    (grouping.combined many two).enumerate ctx input =
      (many grouping.rules).enumerate ctx input := by
  rw [← h.found_single, h.found_combined, h.enumerate_many]

end Associates

theorem associates_concat (ctx : Context) :
    Associates ctx .concat .andThen (Rule.enumerateSequence · ctx) where
  enumerate_many rules input := Rule.enumerate_concat rules ctx input
  two_eq _ _ := rfl
  found_single rule input := Rule.enumerateSequence_singleton rule ctx input
  found_append hfirst hlater := by
    funext input
    simp only [Rule.enumerateSequence_append, hfirst, hlater]

theorem associates_alternative (ctx : Context) :
    Associates ctx .alternative .orElse fun rules input =>
      rules.flatMap (Rule.enumerate · ctx input) where
  enumerate_many rules input := Rule.enumerate_alternative rules ctx input
  two_eq _ _ := rfl
  found_single rule input := List.flatMap_singleton _ rule
  found_append hfirst hlater := by
    funext input
    rw [List.flatMap_append, List.flatMap_append, congrFun hfirst input, congrFun hlater input]

end Grouping

/-- Branches may be followed by a rule each, or all of them by the same one. -/
theorem Rule.enumerate_concat_alternative
    (branches : List Rule) (rule : Rule) (ctx : Context) (input : Text) :
    (concat [alternative branches, rule]).enumerate ctx input =
      (alternative (branches.map fun branch => concat [branch, rule])).enumerate ctx input := by
  rw [enumerate_alternative, List.flatMap_map, enumerate_concat, enumerateSequence_cons,
    enumerate_alternative, List.flatMap_assoc]
  apply List.flatMap_congr
  intro branch _
  rw [enumerate_concat, enumerateSequence_cons]

/-- However rules are grouped, one after the other or side by side, they have the
same matches in the same order as without any groups; and what follows a choice
without a suggestion may as well follow each of its branches. -/
theorem enumerate_combined_and_alternative (grouping : Grouping) (ctx : Context) (input : Text) :
    (grouping.combined .concat .andThen).enumerate ctx input =
        (Rule.concat grouping.rules).enumerate ctx input ∧
      (grouping.combined .alternative .orElse).enumerate ctx input =
        (Rule.alternative grouping.rules).enumerate ctx input ∧
      ∀ (branches : List Rule) (rule : Rule),
        (Rule.concat [.alternative branches, rule]).enumerate ctx input =
          (Rule.alternative (branches.map fun branch => .concat [branch, rule])).enumerate
            ctx input := by
  refine ⟨?_, ?_, fun branches rule => ?_⟩
  · exact (Grouping.associates_concat ctx).enumerate_combined grouping input
  · exact (Grouping.associates_alternative ctx).enumerate_combined grouping input
  · exact Rule.enumerate_concat_alternative branches rule ctx input

end GrammarRepair
