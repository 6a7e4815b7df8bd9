import GrammarRepair.CharacterClass
import GrammarRepair.Proofs.Combinations
import Mathlib.Data.List.Forall2

/-!
# Matches of character classes

A class takes one character if it has it, and asks its suggestion otherwise.
Where all that is offered stands in place of one character, a rule is described
by the texts that each character may become.  A run of such a rule rewrites one
character after the other, each on its own.
-/

namespace GrammarRepair.CharacterClass

/-- A first character that is accepted, or what the suggestion offers where
there is none. -/
def oneOf (accepts : Char → Bool) (suggestion : Option Suggestion) : Text → List Match
  | [] => Matching.offersOf suggestion []
  | c :: rest =>
      if accepts c then [⟨[c], rest⟩] else Matching.offersOf suggestion (c :: rest)

/-- The rule matches what `oneOf` lists. -/
def MatchesOne (accepts : Char → Bool) (suggestion : Option Suggestion) (rule : Rule) : Prop :=
  ∀ ctx input m, m ∈ rule.enumerate ctx input ↔ m ∈ oneOf accepts suggestion input

section OneOf

variable {accepts : Char → Bool} {suggestion : Option Suggestion} {input : Text} {m : Match}

theorem mem_oneOf_cons_iff {c : Char} {rest : Text} :
    m ∈ oneOf accepts none (c :: rest) ↔ accepts c = true ∧ m = ⟨[c], rest⟩ := by
  by_cases hc : accepts c = true
  · simp [oneOf, hc]
  · simp [oneOf, hc, Matching.offersOf]

theorem mem_oneOf_any_iff {classes : List (Char → Bool)} :
    m ∈ oneOf (fun c => classes.any (· c)) none input ↔
      ∃ accepts ∈ classes, m ∈ oneOf accepts none input := by
  cases input with
  | nil => simp [oneOf, Matching.offersOf]
  | cons c rest =>
      simp only [mem_oneOf_cons_iff, List.any_eq_true]
      constructor
      · rintro ⟨⟨accepts, hmem, hc⟩, rfl⟩
        exact ⟨accepts, hmem, hc, rfl⟩
      · rintro ⟨accepts, hmem, hc, rfl⟩
        exact ⟨⟨accepts, hmem, hc⟩, rfl⟩

/-- Suggestions are asked where no character is accepted. -/
theorem oneOf_eq_ite :
    oneOf accepts suggestion input =
      if oneOf accepts none input = [] then Matching.offersOf suggestion input
      else oneOf accepts none input := by
  cases input with
  | nil => simp [oneOf, Matching.offersOf]
  | cons c rest =>
      by_cases hc : accepts c = true
      · simp [oneOf, hc]
      · simp [oneOf, hc, Matching.offersOf]

end OneOf

theorem matchesOne_range (span : CharRange) (suggestion : Option Suggestion) :
    MatchesOne span.contains suggestion (.range span suggestion) := by
  intro ctx input m
  cases input with
  | nil => rw [Rule.enumerate_range_nil, oneOf]
  | cons c rest => rw [Rule.enumerate_range_cons, oneOf]

theorem matchesOne_hyphen : MatchesOne (· == '-') none hyphen := by
  intro ctx input m
  rw [hyphen, Rule.mem_enumerate_literal_iff]
  cases input with
  | nil => simp [oneOf, Matching.offersOf]
  | cons c rest =>
      obtain ⟨text, later⟩ := m
      rw [mem_oneOf_cons_iff, beq_iff_eq]
      constructor
      · rintro ⟨rfl, hinput⟩
        obtain ⟨rfl, rfl⟩ := List.cons.inj hinput
        exact ⟨rfl, rfl⟩
      · rintro ⟨rfl, hmatch⟩
        cases hmatch
        exact ⟨rfl, rfl⟩

/-- A choice among classes is the class of what any of them accepts. -/
theorem matchesOne_choice
    {branches : List Rule} {classes : List (Char → Bool)}
    (hbranches : List.Forall₂ (fun branch accepts => MatchesOne accepts none branch)
      branches classes)
    (suggestion : Option Suggestion) :
    MatchesOne (fun c => classes.any (· c)) suggestion (.choice branches suggestion) := by
  intro ctx input m
  have hfound : ∀ m, m ∈ branches.flatMap (Rule.enumerate · ctx input) ↔
      m ∈ oneOf (fun c => classes.any (· c)) none input := by
    intro m
    rw [mem_oneOf_any_iff, List.mem_flatMap]
    induction hbranches with
    | nil => simp
    | cons hbranch _ ih => simp only [List.exists_mem_cons_iff, hbranch ctx input m, ih]
  have hnone : branches.flatMap (Rule.enumerate · ctx input) = [] ↔
      oneOf (fun c => classes.any (· c)) none input = [] := by
    simp only [List.eq_nil_iff_forall_not_mem, hfound]
  rw [Rule.enumerate_choice, oneOf_eq_ite]
  by_cases hempty : oneOf (fun c => classes.any (· c)) none input = []
  · rw [if_pos (hnone.mpr hempty), if_pos hempty]
  · rw [if_neg (hnone.not.mpr hempty), if_neg hempty, hfound]

/-! ## The classes -/

theorem contains_lowerLetters (c : Char) : lowerLetters.contains c = c.isLower := rfl

theorem contains_upperLetters (c : Char) : upperLetters.contains c = c.isUpper :=
  (Bool.decide_and _ _).symm

theorem matchesOne_letter (suggestion : Option Suggestion) :
    MatchesOne Char.isAlpha suggestion (letter suggestion) := by
  have hchoice := matchesOne_choice
    (.cons (matchesOne_range lowerLetters none) (.cons (matchesOne_range upperLetters none) .nil))
    suggestion
  have hclass : (fun c => [lowerLetters.contains, upperLetters.contains].any (· c)) =
      Char.isAlpha := by
    funext c
    simp only [List.any_cons, List.any_nil, Bool.or_false, contains_lowerLetters,
      contains_upperLetters]
    exact Bool.or_comm _ _
  rwa [hclass] at hchoice

theorem matchesOne_digit (suggestion : Option Suggestion) :
    MatchesOne Char.isDigit suggestion (digit suggestion) :=
  matchesOne_range digits suggestion

theorem matchesOne_letterOrDigit (suggestion : Option Suggestion) :
    MatchesOne Char.isAlphanum suggestion (letterOrDigit suggestion) := by
  have hchoice := matchesOne_choice
    (.cons (matchesOne_letter none) (.cons (matchesOne_digit none) .nil)) suggestion
  have hclass : (fun c => [Char.isAlpha, Char.isDigit].any (· c)) = Char.isAlphanum := by
    funext c
    simp only [List.any_cons, List.any_nil, Bool.or_false]
    rfl
  rwa [hclass] at hchoice

/-- A letter, a digit or a hyphen. -/
def isInterior (c : Char) : Bool :=
  c.isAlphanum || c == '-'

theorem isInterior_iff {c : Char} : isInterior c = true ↔ c.isAlphanum = true ∨ c = '-' := by
  rw [isInterior, Bool.or_eq_true, beq_iff_eq]

theorem matchesOne_letterDigitOrHyphen (suggestion : Option Suggestion) :
    MatchesOne isInterior suggestion (letterDigitOrHyphen suggestion) := by
  have hchoice := matchesOne_choice
    (.cons (matchesOne_letter none) (.cons (matchesOne_digit none) (.cons matchesOne_hyphen .nil)))
    suggestion
  have hclass : (fun c => [Char.isAlpha, Char.isDigit, (· == '-')].any (· c)) = isInterior := by
    funext c
    simp only [List.any_cons, List.any_nil, Bool.or_false]
    exact (Bool.or_assoc _ _ _).symm
  rwa [hclass] at hchoice

/-! ## Runs -/

/-- Each character becomes one of its options, on its own. -/
inductive Rewrites (options : Char → List Text) : Text → Text → Prop
  | nil : Rewrites options [] []
  | cons {c : Char} {source piece text : Text} (hpiece : piece ∈ options c)
      (hrest : Rewrites options source text) :
      Rewrites options (c :: source) (piece ++ text)

/-- The rule puts one of its options in place of a character. -/
def Replaces (options : Char → List Text) (rule : Rule) : Prop :=
  ∀ ctx input m, m ∈ rule.enumerate ctx input ↔ ∃ c, m.text ∈ options c ∧ input = c :: m.rest

/-- The match rewrites the beginning of the input, at least one character. -/
def RewritesBeginning (options : Char → List Text) (input : Text) (m : Match) : Prop :=
  ∃ source, source ≠ [] ∧ input = source ++ m.rest ∧ Rewrites options source m.text

theorem exists_cons_eq_iff (related : Char → Prop) {c : Char} {input rest : Text} :
    (∃ d, related d ∧ c :: input = d :: rest) ↔ related c ∧ rest = input := by
  constructor
  · rintro ⟨d, hd, heq⟩
    obtain ⟨rfl, rfl⟩ := List.cons.inj heq
    exact ⟨hd, rfl⟩
  · rintro ⟨hc, rfl⟩
    exact ⟨c, hc, rfl⟩

section Runs

variable {options : Char → List Text} {name : String} {item : Rule}

theorem mem_runBody_iff {ctx : Context} {input : Text} {m : Match} :
    m ∈ (runBody name item).enumerate ctx input ↔
      m ∈ item.enumerate ctx input ∨
        ∃ head ∈ item.enumerate ctx input,
          ∃ tail ∈ (Rule.reference name).enumerate ctx head.rest,
            m = ⟨head.text ++ tail.text, tail.rest⟩ := by
  rw [runBody, Rule.orElse, Rule.enumerate_alternative]
  simp [Rule.mem_enumerate_andThen_iff]

theorem rewritesBeginning_cons_iff {c : Char} {input : Text} {m : Match} :
    RewritesBeginning options (c :: input) m ↔
      ∃ piece ∈ options c, m = ⟨piece, input⟩ ∨
        ∃ tail, RewritesBeginning options input tail ∧ m = ⟨piece ++ tail.text, tail.rest⟩ := by
  constructor
  · rintro ⟨source, hsource, heq, hrewrites⟩
    obtain ⟨text, rest⟩ := m
    cases hrewrites with
    | nil => exact absurd rfl hsource
    | @cons _ source piece text hpiece hrewrites =>
        obtain ⟨rfl, rfl⟩ := List.cons.inj heq
        refine ⟨piece, hpiece, ?_⟩
        by_cases hlast : source = []
        · subst hlast
          cases hrewrites
          exact .inl (by simp)
        · exact .inr ⟨⟨text, rest⟩, ⟨source, hlast, rfl, hrewrites⟩, rfl⟩
  · rintro ⟨piece, hpiece, rfl | ⟨tail, ⟨source, -, rfl, hrewrites⟩, rfl⟩⟩
    · have hrewrites := Rewrites.cons hpiece .nil
      rw [List.append_nil] at hrewrites
      exact ⟨[c], List.cons_ne_nil _ _, rfl, hrewrites⟩
    · exact ⟨c :: source, List.cons_ne_nil _ _, rfl, .cons hpiece hrewrites⟩

theorem mem_enumerate_runBody_iff
    (hitem : Replaces options item) {ctx : Context} {input : Text} {m : Match}
    (hresolve : ctx.resolve? name = some (runBody name item))
    (hframes : ∀ frame ∈ ctx.frames, input.length ≤ frame.input.length) :
    m ∈ (runBody name item).enumerate ctx input ↔ RewritesBeginning options input m := by
  induction input generalizing ctx m with
  | nil =>
      rw [mem_runBody_iff]
      constructor
      · rintro (hm | ⟨head, hhead, -⟩)
        · obtain ⟨c, -, heq⟩ := (hitem _ _ _).mp hm
          cases heq
        · obtain ⟨c, -, heq⟩ := (hitem _ _ _).mp hhead
          cases heq
      · rintro ⟨source, hsource, heq, -⟩
        exact absurd (List.append_eq_nil_iff.mp heq.symm).1 hsource
  | cons c input ih =>
      have hpiece {m : Match} :
          m ∈ item.enumerate ctx (c :: input) ↔ m.text ∈ options c ∧ m.rest = input := by
        rw [hitem, exists_cons_eq_iff (m.text ∈ options ·)]
      have hreference {m : Match} :
          m ∈ (Rule.reference name).enumerate ctx input ↔ RewritesBeginning options input m := by
        have hnew : Frame.mk name input ∉ ctx.frames := by
          intro hframe
          exact absurd (hframes _ hframe) (by simp)
        rw [Rule.enumerate_reference_of_not_mem hresolve hnew]
        refine ih hresolve fun frame hframe => ?_
        rcases List.mem_cons.mp hframe with rfl | hframe
        · exact Nat.le_refl _
        · exact Nat.le_of_succ_le (hframes frame hframe)
      rw [mem_runBody_iff, rewritesBeginning_cons_iff]
      constructor
      · rintro (hm | ⟨head, hhead, tail, htail, rfl⟩)
        · obtain ⟨htext, rfl⟩ := hpiece.mp hm
          exact ⟨m.text, htext, .inl rfl⟩
        · obtain ⟨htext, rfl⟩ := hpiece.mp hhead
          exact ⟨head.text, htext, .inr ⟨tail, hreference.mp htail, rfl⟩⟩
      · rintro ⟨piece, htext, rfl | ⟨tail, htail, rfl⟩⟩
        · exact .inl (hpiece.mpr ⟨htext, rfl⟩)
        · have hhead : ⟨piece, input⟩ ∈ item.enumerate ctx (c :: input) := hpiece.mpr ⟨htext, rfl⟩
          exact .inr ⟨_, hhead, tail, hreference.mpr htail, rfl⟩

/-- A run matches any number of characters that the item matches, at least one,
and rewrites each on its own. -/
theorem mem_enumerate_run_iff
    (hitem : Replaces options item) {ctx : Context} {input : Text} {m : Match}
    (hframes : ∀ frame ∈ ctx.frames, input.length ≤ frame.input.length) :
    m ∈ (Rule.bound name (runBody name item)).enumerate ctx input ↔
      RewritesBeginning options input m := by
  rw [Rule.enumerate_bound]
  refine mem_enumerate_runBody_iff hitem ?_ hframes
  rw [Context.resolve?_bind, if_pos rfl]

/-- Where a run is optional, the number of characters may be zero. -/
theorem mem_enumerate_optional_run_iff
    (hitem : Replaces options item) {ctx : Context} {input : Text} {m : Match}
    (hframes : ∀ frame ∈ ctx.frames, input.length ≤ frame.input.length) :
    m ∈ (Rule.optional (.bound name (runBody name item))).enumerate ctx input ↔
      ∃ source, input = source ++ m.rest ∧ Rewrites options source m.text := by
  rw [Rule.enumerate_optional, List.mem_cons, mem_enumerate_run_iff hitem hframes]
  constructor
  · rintro (rfl | ⟨source, -, hsource, hrewrites⟩)
    · exact ⟨[], rfl, .nil⟩
    · exact ⟨source, hsource, hrewrites⟩
  · rintro ⟨source, hsource, hrewrites⟩
    by_cases hempty : source = []
    · obtain ⟨text, rest⟩ := m
      subst hempty
      cases hrewrites
      exact .inl (by rw [hsource, List.nil_append])
    · exact .inr ⟨source, hempty, hsource, hrewrites⟩

end Runs

end GrammarRepair.CharacterClass
