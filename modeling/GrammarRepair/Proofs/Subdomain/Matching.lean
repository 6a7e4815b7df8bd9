import GrammarRepair.Proofs.Building
import GrammarRepair.Proofs.CharacterClass
import GrammarRepair.Repair
import GrammarRepair.Subdomain

/-!
# Matches of the subdomain rule

What the rule of subdomain names matches, told without contexts and names.  A
label takes a first letter or makes one up, rewrites an interior run, and ends
with a character that is a letter or digit or becomes an `x`; or it stops after
the first letter.  A name is a label, or a label, a dot and a name.

The guard never interferes: a name is entered again only behind a dot, and a run
behind a character that it has rewritten, so what is on the stack was entered on
longer inputs.
-/

namespace GrammarRepair.Subdomain

open CharacterClass

/-- What an interior character may become; the dot is none. -/
def interiorTexts (c : Char) : List Text :=
  if isInterior c then [[c]]
  else if c = '@' then ["-at-".toList, ['-']]
  else if c = '.' then []
  else [['-']]

/-- What the last character of a label becomes. -/
def lastChar (c : Char) : Char :=
  if c.isAlphanum then c else 'x'

/-- A label begins with the letter and leaves the rest. -/
inductive Begins : Text → Char → Text → Prop
  | letter {c : Char} {rest : Text} (hc : c.isAlpha = true) : Begins (c :: rest) c rest
  | insert {input : Text} (hmiss : ∀ c ∈ input.head?, c.isAlpha = false) : Begins input 'x' input
  | replace {c : Char} {rest : Text} (hc : c.isAlpha = false) : Begins (c :: rest) 'x' rest

/-- A label matches the beginning of the input. -/
inductive LabelMatch : Text → Match → Prop
  | short {input rest : Text} {first : Char} (hfirst : Begins input first rest) :
      LabelMatch input ⟨[first], rest⟩
  | long {input source interior rest : Text} {first last : Char}
      (hfirst : Begins input first (source ++ last :: rest))
      (hinterior : Rewrites interiorTexts source interior) :
      LabelMatch input ⟨first :: (interior ++ [lastChar last]), rest⟩

/-- A name matches the beginning of the input. -/
inductive NameMatch : Text → Match → Prop
  | single {input : Text} {m : Match} (hlabel : LabelMatch input m) : NameMatch input m
  | dotted {input middle label text rest : Text}
      (hlabel : LabelMatch input ⟨label, '.' :: middle⟩) (hlater : NameMatch middle ⟨text, rest⟩) :
      NameMatch input ⟨label ++ '.' :: text, rest⟩

theorem lastChar_isAlphanum (c : Char) : (lastChar c).isAlphanum = true := by
  by_cases hc : c.isAlphanum = true
  · rwa [lastChar, if_pos hc]
  · rw [lastChar, if_neg hc]
    rfl

theorem lastChar_of_isAlphanum {c : Char} (hc : c.isAlphanum = true) : lastChar c = c :=
  if_pos hc

theorem Begins.isAlpha {input rest : Text} {first : Char} (h : Begins input first rest) :
    first.isAlpha = true := by
  cases h with
  | letter hc => exact hc
  | insert _ => rfl
  | replace _ => rfl

theorem begins_cons_iff
    {c first : Char} {input rest : Text} (hc : c.isAlpha = true) :
    Begins (c :: input) first rest ↔ first = c ∧ rest = input := by
  constructor
  · intro h
    cases h with
    | letter _ => exact ⟨rfl, rfl⟩
    | insert hmiss => exact absurd hc (by simp [hmiss c rfl])
    | replace hmiss => exact absurd hc (by simp [hmiss])
  · rintro ⟨rfl, rfl⟩
    exact .letter hc

def firstRule : Rule :=
  letter (some (.insertOrReplace [['x']]))

def interiorRule (run : String) : Rule :=
  .optional (.bound run (runBody run (letterDigitOrHyphen (some interiorRepair))))

def lastRule : Rule :=
  letterOrDigit (some (.replace [['x']]))

/-- The rule of a label, whose interior run has this name. -/
def labelRule (run : String) : Rule :=
  firstRule.andThen (.optional ((interiorRule run).andThen lastRule))

/-- The rule of names. -/
def nameRule (run : String) : Rule :=
  .capped maxLength (.bound name (body (labelRule run)))

/-- Building never fails, since the first name drawn is free.  The name of the
rule stands for the body alone. -/
theorem exists_grammar_eq_ok_and_find?_name (supply : NameSupply) :
    ∃ grammar run, Subdomain.grammar supply = .ok (grammar, nameRule run) ∧
      grammar.find? name = some (body (labelRule run)) := by
  have hfresh : Build.run (Build.freshName "ldh-str") { supply } =
      (.ok (mintedName "ldh-str" (supply.draw supply.used)),
        { supply := { supply with used := supply.used + 1 } }) := by
    simp [Build.run_freshName, Build.nameAttempts, NameSupply.fresh, NameSupply.next,
      Table.contains, Grammar.empty]
  simp only [Subdomain.grammar, register, label, letterDigitHyphenRun, runOf, Build.run_bind,
    hfresh, Build.run_defineBound, Build.run_pure]
  exact ⟨_, _, rfl, Table.find?_insert_self ..⟩

theorem exists_grammar_eq_ok (supply : NameSupply) :
    ∃ grammar run, Subdomain.grammar supply = .ok (grammar, nameRule run) := by
  obtain ⟨grammar, run, hgrammar, -⟩ := exists_grammar_eq_ok_and_find?_name supply
  exact ⟨grammar, run, hgrammar⟩

theorem replaces_interior :
    Replaces interiorTexts (letterDigitOrHyphen (some interiorRepair)) := by
  intro ctx input m
  rw [matchesOne_letterDigitOrHyphen]
  obtain ⟨text, rest⟩ := m
  cases input with
  | nil =>
      simp [oneOf, Matching.offersOf, interiorRepair, Suggestion.offers_merge, Suggestion.offers]
  | cons c input =>
      rw [exists_cons_eq_iff (text ∈ interiorTexts ·)]
      by_cases hc : isInterior c = true
      · simp [oneOf, interiorTexts, hc]
      · by_cases hat : c = '@'
        · subst hat
          simp [oneOf, interiorTexts, hc, Matching.offersOf, interiorRepair,
            Suggestion.offers_merge, Suggestion.offers, or_and_right]
        · simp [oneOf, interiorTexts, hc, hat, Matching.offersOf, interiorRepair,
            Suggestion.offers_merge, Suggestion.offers, and_assoc]

theorem mem_last_iff {ctx : Context} {input : Text} {m : Match} :
    m ∈ lastRule.enumerate ctx input ↔
      ∃ c, m.text = [lastChar c] ∧ input = c :: m.rest := by
  rw [lastRule, matchesOne_letterOrDigit]
  obtain ⟨text, rest⟩ := m
  cases input with
  | nil => simp [oneOf, Matching.offersOf, Suggestion.offers]
  | cons c input =>
      rw [exists_cons_eq_iff (text = [lastChar ·])]
      by_cases hc : c.isAlphanum = true
      · simp [oneOf, lastChar, hc]
      · simp [oneOf, lastChar, hc, Matching.offersOf, Suggestion.offers]

theorem mem_first_iff {ctx : Context} {input : Text} {m : Match} :
    m ∈ firstRule.enumerate ctx input ↔
      ∃ c, m.text = [c] ∧ Begins input c m.rest := by
  rw [firstRule, matchesOne_letter]
  obtain ⟨text, rest⟩ := m
  constructor
  · intro hm
    cases input with
    | nil =>
        obtain ⟨rfl, rfl⟩ : text = ['x'] ∧ rest = [] := by
          simpa [oneOf, Matching.offersOf, Suggestion.offers] using hm
        exact ⟨'x', rfl, .insert (by simp)⟩
    | cons c input =>
        by_cases hc : c.isAlpha = true
        · obtain ⟨rfl, rfl⟩ : text = [c] ∧ rest = input := by simpa [oneOf, hc] using hm
          exact ⟨c, rfl, .letter hc⟩
        · obtain ⟨rfl, rfl⟩ | ⟨rfl, rfl⟩ :
              text = ['x'] ∧ rest = c :: input ∨ text = ['x'] ∧ rest = input := by
            simpa [oneOf, hc, Matching.offersOf, Suggestion.offers] using hm
          · exact ⟨'x', rfl, .insert (by simpa using hc)⟩
          · exact ⟨'x', rfl, .replace (by simpa using hc)⟩
  · rintro ⟨first, rfl, hfirst⟩
    cases hfirst with
    | letter hc => simp [oneOf, hc]
    | insert hmiss =>
        cases rest with
        | nil => simp [oneOf, Matching.offersOf, Suggestion.offers]
        | cons c rest =>
            have hc : c.isAlpha = false := hmiss c rfl
            simp [oneOf, hc, Matching.offersOf, Suggestion.offers]
    | replace hc => simp [oneOf, hc, Matching.offersOf, Suggestion.offers]

/-! ## The rules -/

variable {ctx : Context} {input : Text} {m : Match}

theorem Begins.length_le
    {first : Char} {rest : Text} (h : Begins input first rest) : rest.length ≤ input.length := by
  cases h with
  | letter hc => exact Nat.le_succ _
  | insert hmiss => exact Nat.le_refl _
  | replace hc => exact Nat.le_succ _

theorem LabelMatch.length_le (h : LabelMatch input m) : m.rest.length ≤ input.length := by
  cases h with
  | short hfirst => exact hfirst.length_le
  | @long source _ rest _ last hfirst _ =>
      have hle : rest.length ≤ (source ++ last :: rest).length := by
        rw [List.length_append, List.length_cons]
        omega
      exact Nat.le_trans hle hfirst.length_le

theorem mem_interiorRule_iff
    {run : String} (hframes : ∀ frame ∈ ctx.frames, input.length ≤ frame.input.length) :
    m ∈ (interiorRule run).enumerate ctx input ↔
      ∃ source, input = source ++ m.rest ∧ Rewrites interiorTexts source m.text :=
  mem_enumerate_optional_run_iff replaces_interior hframes

/-- An interior and a last character match the beginning of the input. -/
theorem mem_interior_andThen_last_iff
    {run : String} (hframes : ∀ frame ∈ ctx.frames, input.length ≤ frame.input.length) :
    m ∈ ((interiorRule run).andThen lastRule).enumerate ctx input ↔
      ∃ source interior last, input = source ++ last :: m.rest ∧
        Rewrites interiorTexts source interior ∧ m.text = interior ++ [lastChar last] := by
  rw [Rule.mem_enumerate_andThen_iff]
  constructor
  · rintro ⟨head, hhead, tail, htail, rfl⟩
    obtain ⟨source, hsource, hinterior⟩ := (mem_interiorRule_iff hframes).mp hhead
    obtain ⟨last, htext, hlast⟩ := mem_last_iff.mp htail
    exact ⟨source, head.text, last, by rw [hsource, hlast], hinterior, by rw [htext]⟩
  · rintro ⟨source, interior, last, hsource, hinterior, htext⟩
    have hhead : ⟨interior, last :: m.rest⟩ ∈ (interiorRule run).enumerate ctx input :=
      (mem_interiorRule_iff hframes).mpr ⟨source, hsource, hinterior⟩
    have htail : ⟨[lastChar last], m.rest⟩ ∈ lastRule.enumerate ctx (last :: m.rest) :=
      mem_last_iff.mpr ⟨last, rfl, rfl⟩
    exact ⟨_, hhead, _, htail, by rw [← htext]⟩

theorem mem_labelRule_iff
    {run : String} (hframes : ∀ frame ∈ ctx.frames, input.length ≤ frame.input.length) :
    m ∈ (labelRule run).enumerate ctx input ↔ LabelMatch input m := by
  rw [labelRule, Rule.mem_enumerate_andThen_iff]
  simp only [Rule.enumerate_optional, List.mem_cons]
  have hlater {first : Char} {middle : Text} (hbegins : Begins input first middle) :
      ∀ frame ∈ ctx.frames, middle.length ≤ frame.input.length :=
    fun frame hframe => Nat.le_trans hbegins.length_le (hframes frame hframe)
  constructor
  · rintro ⟨⟨text, middle⟩, hhead, ⟨later, rest⟩, htail, rfl⟩
    obtain ⟨first, rfl, hbegins⟩ := mem_first_iff.mp hhead
    rcases htail with heq | htail
    · obtain ⟨rfl, rfl⟩ := Match.mk.inj heq
      exact .short hbegins
    · obtain ⟨source, interior, last, rfl, hinterior, rfl⟩ :=
        (mem_interior_andThen_last_iff (hlater hbegins)).mp htail
      exact .long hbegins hinterior
  · intro hm
    cases hm with
    | @short rest first hbegins =>
        have hhead : ⟨[first], rest⟩ ∈ firstRule.enumerate ctx input :=
          mem_first_iff.mpr ⟨first, rfl, hbegins⟩
        exact ⟨_, hhead, _, .inl rfl, rfl⟩
    | @long source interior rest first last hbegins hinterior =>
        have hhead : ⟨[first], source ++ last :: rest⟩ ∈ firstRule.enumerate ctx input :=
          mem_first_iff.mpr ⟨first, rfl, hbegins⟩
        have htail : ⟨interior ++ [lastChar last], rest⟩ ∈
            ((interiorRule run).andThen lastRule).enumerate ctx (source ++ last :: rest) :=
          (mem_interior_andThen_last_iff (hlater hbegins)).mpr
            ⟨source, interior, last, rfl, hinterior, rfl⟩
        exact ⟨_, hhead, _, .inr htail, rfl⟩

theorem mem_body_iff
    {run : String} (hframes : ∀ frame ∈ ctx.frames, input.length ≤ frame.input.length)
    (hresolve : ctx.resolve? name = some (body (labelRule run))) :
    m ∈ (body (labelRule run)).enumerate ctx input ↔ NameMatch input m := by
  induction hlength : input.length using Nat.strongRecOn generalizing ctx input m with
  | ind length ih =>
      have hreference {middle : Text} (hlt : middle.length < input.length) {m : Match} :
          m ∈ (Rule.reference name).enumerate ctx middle ↔ NameMatch middle m := by
        have hnew : Frame.mk name middle ∉ ctx.frames := by
          intro hframe
          exact absurd (hframes _ hframe) (Nat.not_le_of_lt hlt)
        rw [Rule.enumerate_reference_of_not_mem hresolve hnew]
        refine ih middle.length (hlength ▸ hlt) (fun frame hframe => ?_) hresolve rfl
        rcases List.mem_cons.mp hframe with rfl | hframe
        · exact Nat.le_refl _
        · exact Nat.le_of_lt (Nat.lt_of_lt_of_le hlt (hframes frame hframe))
      rw [body, Rule.enumerate_alternative]
      simp only [List.flatMap_cons, List.flatMap_nil, List.append_nil, List.mem_append,
        Rule.enumerate_concat, Rule.mem_enumerateSequence_cons_iff,
        Rule.enumerateSequence_singleton, mem_labelRule_iff hframes, Rule.mem_enumerate_literal_iff]
      constructor
      · rintro (hm | ⟨⟨label, middle⟩, hlabel, tail, ⟨dot, ⟨htext, hdot⟩, later, hlater, rfl⟩, rfl⟩)
        · exact .single hm
        · obtain rfl : middle = '.' :: dot.rest := hdot
          rw [hreference hlabel.length_le] at hlater
          rw [htext]
          exact .dotted hlabel hlater
      · intro hm
        cases hm with
        | single hlabel => exact .inl hlabel
        | @dotted _ middle label text rest hlabel hlater =>
            refine .inr ⟨_, hlabel, ⟨'.' :: text, rest⟩, ?_, rfl⟩
            exact ⟨⟨['.'], middle⟩, ⟨rfl, rfl⟩, _, (hreference hlabel.length_le).mpr hlater, rfl⟩

theorem mem_name_iff
    {run : String} (hframes : ∀ frame ∈ ctx.frames, input.length ≤ frame.input.length) :
    m ∈ (Rule.bound name (body (labelRule run))).enumerate ctx input ↔ NameMatch input m := by
  rw [Rule.enumerate_bound]
  refine mem_body_iff hframes ?_
  rw [Context.resolve?_bind, if_pos rfl]

/-- The repairs are the names that match all of the cut input and fit. -/
theorem mem_repairs_nameRule_iff {grammar : Grammar} {run : String} {text : Text} :
    text ∈ grammar.repairs (nameRule run) input ↔
      NameMatch (Text.truncate maxLength input) ⟨text, []⟩ ∧ Text.byteLength text ≤ maxLength := by
  rw [Grammar.mem_repairs_iff, nameRule, Rule.enumerate_capped, mem_name_iff]
  · simp [Rule.ceiling?, Text.within, Text.fits]
  · intro frame hframe
    cases hframe

end GrammarRepair.Subdomain
