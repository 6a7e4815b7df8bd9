import GrammarRepair.Proofs.Combinations
import GrammarRepair.Proofs.SelfContained

/-!
# Attached suggestions

A suggestion goes to a range or a choice, through whatever ceilings stand around
it, and nowhere else.  `Attaches` tells what comes out: the same rule, with the
new suggestion at that one place.  So a suggestion that stood there is gone, and
those further inside are still there.

What an attached suggestion does is to step in where the rule has no match
without it.  Whether there is one is for the rule to say, with the suggestions
further inside; these are asked before.
-/

namespace GrammarRepair

namespace Rule

/-- The rule inside all ceilings around it. -/
def core : Rule → Rule
  | .capped _ inner => inner.core
  | rule => rule

/-- The rule without the suggestion of its core; those further inside stay. -/
def withoutSuggestion : Rule → Rule
  | .range span _ => .range span none
  | .choice branches _ => .choice branches none
  | .capped limit inner => .capped limit inner.withoutSuggestion
  | rule => rule

/-- The rule has a place for a suggestion. -/
def TakesSuggestion (rule : Rule) : Prop :=
  rule.core.kind = .range ∨ rule.core.kind = .choice

/-- The result is the rule with this suggestion at its core. -/
inductive Attaches (suggestion : Suggestion) : Rule → Rule → Prop
  | range (span : CharRange) (earlier : Option Suggestion) :
      Attaches suggestion (.range span earlier) (.range span (some suggestion))
  | choice (branches : List Rule) (earlier : Option Suggestion) :
      Attaches suggestion (.choice branches earlier) (.choice branches (some suggestion))
  | capped (limit : Nat) {inner result : Rule} (h : Attaches suggestion inner result) :
      Attaches suggestion (.capped limit inner) (.capped limit result)

/-- A suggestion is attached, or it is refused for the kind of the core. -/
theorem attaches_or_withSuggestion_eq_error (suggestion : Suggestion) (rule : Rule) :
    (∃ result, rule.withSuggestion suggestion = .ok result ∧ Attaches suggestion rule result) ∨
      rule.withSuggestion suggestion = .error (.suggestionUnsupported rule.core.kind) ∧
        ¬rule.TakesSuggestion := by
  induction rule using withSuggestion.induct with
  | case1 span earlier => exact .inl ⟨_, rfl, .range span earlier⟩
  | case2 branches earlier => exact .inl ⟨_, rfl, .choice branches earlier⟩
  | case3 limit inner ih =>
      rw [withSuggestion]
      rcases ih with ⟨result, hresult, hattaches⟩ | ⟨herror, hplace⟩
      · rw [hresult]
        exact .inl ⟨_, rfl, hattaches.capped limit⟩
      · rw [herror]
        exact .inr ⟨rfl, hplace⟩
  | case4 | case5 | case6 | case7 => exact .inr ⟨rfl, by simp [TakesSuggestion, core, kind]⟩

namespace Attaches

variable {suggestion : Suggestion} {rule result : Rule}

theorem of_eq_ok (h : rule.withSuggestion suggestion = .ok result) :
    Attaches suggestion rule result := by
  rcases attaches_or_withSuggestion_eq_error suggestion rule with
    ⟨other, hother, hattaches⟩ | ⟨herror, -⟩
  · rw [h] at hother
    cases hother
    exact hattaches
  · rw [h] at herror
    cases herror

theorem takesSuggestion (h : Attaches suggestion rule result) : rule.TakesSuggestion := by
  induction h with
  | range => exact .inl rfl
  | choice => exact .inr rfl
  | capped _ _ ih => exact ih

theorem ceiling?_eq (h : Attaches suggestion rule result) : result.ceiling? = rule.ceiling? := by
  cases h with
  | range | choice | capped => rfl

theorem withoutSuggestion_eq (h : Attaches suggestion rule result) :
    result.withoutSuggestion = rule.withoutSuggestion := by
  induction h with
  | range | choice => rfl
  | capped limit _ ih => exact congrArg (Rule.capped limit) ih

/-- A later suggestion takes the place of the one that was attached. -/
theorem withSuggestion_eq (h : Attaches suggestion rule result) (later : Suggestion) :
    result.withSuggestion later = rule.withSuggestion later := by
  induction h with
  | range | choice => rfl
  | capped limit _ ih => rw [withSuggestion, withSuggestion, ih]

theorem enumerate_eq (h : Attaches suggestion rule result) (ctx : Context) (input : Text) :
    result.enumerate ctx input =
      if rule.withoutSuggestion.enumerate ctx input = [] then suggestion.offers input
      else rule.withoutSuggestion.enumerate ctx input := by
  induction h with
  | range span earlier =>
      rw [withoutSuggestion]
      cases input with
      | nil =>
          rw [enumerate_range_nil, enumerate_range_nil]
          rfl
      | cons c rest =>
          rw [enumerate_range_cons, enumerate_range_cons]
          by_cases hc : span.contains c = true
          · simp only [hc, if_true]
            rfl
          · simp only [hc]
            rfl
  | choice branches earlier =>
      rw [withoutSuggestion, ← alternative, enumerate_alternative, enumerate_choice]
      rfl
  | capped limit _ ih =>
      rw [withoutSuggestion, enumerate_capped, enumerate_capped]
      exact ih

end Attaches

theorem exists_withSuggestion_eq_ok_iff (suggestion : Suggestion) (rule : Rule) :
    (∃ result, rule.withSuggestion suggestion = .ok result) ↔ rule.TakesSuggestion := by
  constructor
  · rintro ⟨result, hresult⟩
    exact (Attaches.of_eq_ok hresult).takesSuggestion
  · intro hplace
    rcases attaches_or_withSuggestion_eq_error suggestion rule with
      ⟨result, hresult, -⟩ | ⟨-, hnone⟩
    · exact ⟨result, hresult⟩
    · exact absurd hplace hnone

theorem withSuggestion_eq_error_iff (suggestion : Suggestion) (rule : Rule) :
    rule.withSuggestion suggestion = .error (.suggestionUnsupported rule.core.kind) ↔
      ¬rule.TakesSuggestion := by
  constructor
  · intro herror hplace
    obtain ⟨result, hresult⟩ := (exists_withSuggestion_eq_ok_iff suggestion rule).mpr hplace
    rw [herror] at hresult
    cases hresult
  · intro hnone
    rcases attaches_or_withSuggestion_eq_error suggestion rule with
      ⟨result, -, hattaches⟩ | ⟨herror, -⟩
    · exact absurd hattaches.takesSuggestion hnone
    · exact herror

end Rule

/-- A rule takes a suggestion if, inside its ceilings, it is a range or a choice,
and else the refusal names the kind that it is there.  The rule with the
suggestion has the same ceiling and refers to the same names; it has the matches
that the rule has without a suggestion of its own, if there are any, and else
those that the suggestion offers.  Apart from the suggestion nothing is changed,
and another one takes its place as if it had never been attached. -/
theorem takesSuggestion_iff_and_enumerate_eq (rule : Rule) (suggestion : Suggestion) :
    ((∃ result, rule.withSuggestion suggestion = .ok result) ↔
        rule.core.kind = .range ∨ rule.core.kind = .choice) ∧
      (rule.withSuggestion suggestion = .error (.suggestionUnsupported rule.core.kind) ↔
        ¬(rule.core.kind = .range ∨ rule.core.kind = .choice)) ∧
      ∀ result, rule.withSuggestion suggestion = .ok result →
        result.ceiling? = rule.ceiling? ∧
          result.references = rule.references ∧
          (∀ ctx input, result.enumerate ctx input =
            if rule.withoutSuggestion.enumerate ctx input = [] then suggestion.offers input
            else rule.withoutSuggestion.enumerate ctx input) ∧
          result.withoutSuggestion = rule.withoutSuggestion ∧
          ∀ later, result.withSuggestion later = rule.withSuggestion later := by
  refine ⟨rule.exists_withSuggestion_eq_ok_iff suggestion,
    rule.withSuggestion_eq_error_iff suggestion, fun result hresult => ?_⟩
  have hattaches := Rule.Attaches.of_eq_ok hresult
  exact ⟨hattaches.ceiling?_eq, Rule.references_of_withSuggestion hresult, hattaches.enumerate_eq,
    hattaches.withoutSuggestion_eq, hattaches.withSuggestion_eq⟩

/-- A letter or a reference under two ceilings, with a suggestion for the whole
and one for the letter. -/
def cappedLetterOrName (suggestion : Suggestion) : Rule :=
  .capped 9 (.capped 5 (.choice [.range (.ofBounds 'a' 'z') (some .lowercase), .reference "name"]
    (some suggestion)))

/-- The letter is put in lower case as before; where that is no use, the later
suggestion is asked, and no more the earlier one. -/
theorem takesSuggestion_cappedLetterOrName :
    let earlier := cappedLetterOrName (.replace [['y']])
    let later := cappedLetterOrName (.replace [['x']])
    earlier.withSuggestion (.replace [['x']]) = .ok later ∧
      later.ceiling? = some 9 ∧ later.references = ["name"] ∧
      later.enumerate (.fresh .empty) "A".toList = [⟨"a".toList, []⟩] ∧
      later.enumerate (.fresh .empty) "1".toList = [⟨"x".toList, []⟩] ∧
      later.withSuggestion (.replace [['y']]) = .ok earlier := by
  intro earlier later
  have hok : earlier.withSuggestion (.replace [['x']]) = .ok later := rfl
  obtain ⟨-, -, hattached⟩ := takesSuggestion_iff_and_enumerate_eq earlier (.replace [['x']])
  obtain ⟨hceiling, hreferences, henumerate, -, hagain⟩ := hattached later hok
  refine ⟨hok, hceiling, ?_, ?_, ?_, hagain (.replace [['y']])⟩
  · rw [hreferences]
    rfl
  · rw [henumerate]
    decide +kernel
  · rw [henumerate]
    decide +kernel

end GrammarRepair
