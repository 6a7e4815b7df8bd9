import GrammarRepair.Proofs.Congruence
import GrammarRepair.Proofs.Building
import GrammarRepair.Repair
import GrammarRepair.Subdomain

/-!
# Rules that do not depend on the grammar

A rule depends on a grammar through the names that it refers to, and through
those that the rules of these names refer to.  Two grammars that agree on all of
them give the same repairs.

Bindings make this less obvious than it sounds.  A body is matched again wherever
its name comes up, under bindings that stood nowhere near it when it was
written, and a binding may hide a name of the grammar from the grammar's own
rules.  What matching keeps is that every name it can come upon is bound or
reachable, and which rule a bound name stands for is no matter of the grammar.

A rule without references of its own reaches nothing.  Every rule that is put
together without references by hand is of this kind, whatever builders its parts
come from.
-/

namespace GrammarRepair

/-- The rule refers to the name, or the rule of a name that is reachable does. -/
inductive Grammar.Reachable (grammar : Grammar) (rule : Rule) : String → Prop
  | reference {name : String} (hname : name ∈ rule.references) : Reachable grammar rule name
  | target {name other : String} {target : Rule} (hname : Reachable grammar rule name)
      (hfind : grammar.find? name = some target) (hother : other ∈ target.references) :
      Reachable grammar rule other

/-! ## Names that matching can come upon -/

namespace Context

variable {reach : String → Prop} {ctx ctx' : Context} {rule : Rule} {name : String}

/-- The name is bound, or it is one of those that can be reached. -/
def Covers (reach : String → Prop) (ctx : Context) (name : String) : Prop :=
  (∃ rule, ctx.bindings.lookup name = some rule) ∨ reach name

/-- The contexts differ in their grammars only, and these agree on all that
matching the rule can come upon. -/
structure Confined (reach : String → Prop) (rule : Rule) (ctx ctx' : Context) : Prop where
  bindings : ctx'.bindings = ctx.bindings
  frames : ctx'.frames = ctx.frames
  agrees : ∀ name, reach name → ctx'.grammar.find? name = ctx.grammar.find? name
  closed : ∀ {name target}, reach name → ctx.grammar.find? name = some target →
    ∀ other ∈ target.references, reach other
  references : ∀ name ∈ rule.references, ctx.Covers reach name
  bodies : ∀ {name body}, ctx.bindings.lookup name = some body →
    ∀ other ∈ body.references, ctx.Covers reach other

theorem Confined.of_references_subset
    (h : Confined reach rule ctx ctx') {inner : Rule}
    (hsubset : inner.references ⊆ rule.references) :
    Confined reach inner ctx ctx' :=
  { h with references := fun name hname => h.references name (hsubset hname) }

/-- A name that is covered stands for the same rule in both contexts, and what
that rule refers to is covered. -/
theorem Confined.resolve?_eq
    (h : Confined reach rule ctx ctx') (hname : ctx.Covers reach name) :
    ctx'.resolve? name = ctx.resolve? name ∧
      ∀ target, ctx.resolve? name = some target →
        ∀ other ∈ target.references, ctx.Covers reach other := by
  rw [resolve?, resolve?, h.bindings]
  cases hlookup : ctx.bindings.lookup name with
  | some body =>
      refine ⟨rfl, fun target htarget => ?_⟩
      obtain rfl := Option.some.inj htarget
      exact h.bodies hlookup
  | none =>
      have hreach : reach name := by
        rcases hname with ⟨body, hbody⟩ | hreach
        · rw [hlookup] at hbody
          cases hbody
        · exact hreach
      refine ⟨h.agrees name hreach, fun target htarget other hother => ?_⟩
      exact .inr (h.closed hreach htarget other hother)

/-- A name that is covered remains so under one more binding. -/
theorem Covers.bind (hname : ctx.Covers reach name) (other : String) (body : Rule) :
    (ctx.bind other body).Covers reach name := by
  refine hname.imp_left fun ⟨rule, hrule⟩ => ?_
  rw [Context.bind, List.lookup_cons]
  cases name == other with
  | true => exact ⟨body, rfl⟩
  | false => exact ⟨rule, hrule⟩

theorem Confined.bind
    {body : Rule} (h : Confined reach (.bound name body) ctx ctx') :
    Confined reach body (ctx.bind name body) (ctx'.bind name body) := by
  have hname : (ctx.bind name body).Covers reach name := .inl ⟨body, by simp [Context.bind]⟩
  have hbody : ∀ other ∈ body.references, (ctx.bind name body).Covers reach other :=
    Rule.forall_mem_references_of_bound hname fun other hother =>
      (h.references other hother).bind name body
  refine ⟨congrArg ((name, body) :: ·) h.bindings, h.frames, h.agrees, h.closed, hbody, ?_⟩
  intro key found hfound
  rw [Context.bind, List.lookup_cons] at hfound
  split at hfound
  · obtain rfl := Option.some.inj hfound
    exact hbody
  · intro other hother
    exact (h.bodies hfound other hother).bind name body

theorem preserved_confined (reach : String → Prop) :
    Preserved fun rule _ ctx ctx' => Confined reach rule ctx ctx' where
  later h _ _ := h
  sequence h part hpart := h.of_references_subset fun name hname =>
    Rule.mem_referencesOfAll_iff.mpr ⟨part, hpart, hname⟩
  choice h branch hbranch := h.of_references_subset fun name hname =>
    Rule.mem_referencesOfAll_iff.mpr ⟨branch, hbranch, hname⟩
  bound := Confined.bind
  capped h := h.of_references_subset (List.Subset.refl _)
  resolve? h := (h.resolve?_eq (h.references _ List.mem_cons_self)).1
  contains h := by rw [contains, contains, h.frames]
  target h hresolve henter henter' := by
    obtain ⟨-, rfl⟩ := enter?_eq_some_iff.mp henter
    obtain ⟨-, rfl⟩ := enter?_eq_some_iff.mp henter'
    have htarget := (h.resolve?_eq (h.references _ List.mem_cons_self)).2 _ hresolve
    exact ⟨h.bindings, congrArg (_ :: ·) h.frames, h.agrees, h.closed, htarget, h.bodies⟩

end Context

/-- Grammars that agree on all names that the rule reaches give it the same
matches. -/
theorem enumerate_fresh_eq_of_reachable
    {first second : Grammar} {rule : Rule}
    (hagrees : ∀ name, first.Reachable rule name → second.find? name = first.find? name)
    (input : Text) :
    rule.enumerate (.fresh second) input = rule.enumerate (.fresh first) input := by
  have hconfined : Context.Confined (first.Reachable rule) rule (.fresh first) (.fresh second) :=
    ⟨rfl, rfl, hagrees, fun hname hfind _ hother => .target hname hfind hother,
      fun _ hname => .inr (.reference hname), nofun⟩
  exact (Context.preserved_confined _).enumerate_eq hconfined

/-! ## Rules without references -/

namespace Rule

theorem references_concat (rules : List Rule) :
    (concat rules).references = rules.flatMap references := by
  match rules with
  | [] => rfl
  | [rule] => simp [concat]
  | first :: second :: later => exact referencesOfAll_eq_flatMap (first :: second :: later)

theorem references_alternative (rules : List Rule) :
    (alternative rules).references = rules.flatMap references :=
  referencesOfAll_eq_flatMap rules

theorem references_sequence_eq_nil
    {parts : List Rule} (hparts : ∀ part ∈ parts, part.references = []) :
    (sequence parts).references = [] := by
  rw [references, referencesOfAll_eq_flatMap]
  exact List.flatMap_eq_nil_iff.mpr hparts

theorem references_alternative_eq_nil
    {rules : List Rule} (hrules : ∀ rule ∈ rules, rule.references = []) :
    (alternative rules).references = [] := by
  rw [references_alternative]
  exact List.flatMap_eq_nil_iff.mpr hrules

theorem references_concat_eq_nil
    {rules : List Rule} (hrules : ∀ rule ∈ rules, rule.references = []) :
    (concat rules).references = [] :=
  holds_concat references_sequence_eq_nil hrules

theorem references_copies_eq_nil {rule : Rule} (hrule : rule.references = []) (count : Nat) :
    (copies count rule).references = [] :=
  holds_copies references_sequence_eq_nil hrule count

theorem references_repeatBetween_eq_nil
    {rule : Rule} (hrule : rule.references = []) (low high : Nat) :
    (repeatBetween low high rule).references = [] :=
  holds_repeatBetween references_sequence_eq_nil references_alternative_eq_nil hrule low high

/-- A binding whose body refers to its own name only refers to nothing. -/
theorem references_bound_eq_nil
    {name : String} {body : Rule} (hbody : ∀ other ∈ body.references, other = name) :
    (bound name body).references = [] := by
  rw [references, List.filter_eq_nil_iff]
  intro other hother
  simp [hbody other hother]

theorem references_of_withSuggestion
    {suggestion : Suggestion} {rule result : Rule}
    (hresult : rule.withSuggestion suggestion = .ok result) :
    result.references = rule.references := by
  induction rule using withSuggestion.induct generalizing result with
  | case1 | case2 => cases hresult; rfl
  | case3 limit inner ih =>
      rw [withSuggestion] at hresult
      cases hattached : inner.withSuggestion suggestion with
      | error => simp [hattached, Except.map] at hresult
      | ok attached =>
          rw [hattached] at hresult
          cases hresult
          rw [references, references]
          exact ih hattached
  | _ => cases hresult

/-- The rule is put together by these means alone, without references by hand.
Each part may come from a builder of its own. -/
inductive SelfContained : Rule → Prop
  | literal (text : Text) : SelfContained (.literal text)
  | range (span : CharRange) (suggestion : Option Suggestion) :
      SelfContained (.range span suggestion)
  | concat {rules : List Rule} (hrules : ∀ rule ∈ rules, SelfContained rule) :
      SelfContained (.concat rules)
  | alternative {rules : List Rule} (hrules : ∀ rule ∈ rules, SelfContained rule) :
      SelfContained (.alternative rules)
  | optional {rule : Rule} (hrule : SelfContained rule) : SelfContained rule.optional
  | repeated {rule result : Rule} {low : Nat} {high : Option Nat} {builder after : Builder}
      (hrule : SelfContained rule)
      (hrun : Build.run (Build.repeated low high rule) builder = (.ok result, after)) :
      SelfContained result
  | letterDigitHyphenRun {suggestion : Option Suggestion} {result : Rule} {builder after : Builder}
      (hrun : Build.run (CharacterClass.letterDigitHyphenRun suggestion) builder =
        (.ok result, after)) :
      SelfContained result
  | lowerLetterDigitHyphenRun {suggestion : Option Suggestion} {result : Rule}
      {builder after : Builder}
      (hrun : Build.run (CharacterClass.lowerLetterDigitHyphenRun suggestion) builder =
        (.ok result, after)) :
      SelfContained result
  | label {suggestion : Option Suggestion} {result : Rule} {builder after : Builder}
      (hrun : Build.run (Subdomain.label suggestion) builder = (.ok result, after)) :
      SelfContained result
  | subdomain {result : Rule} {builder after : Builder}
      (hrun : Build.run Subdomain.register builder = (.ok result, after)) : SelfContained result
  | capped (limit : Nat) {rule : Rule} (hrule : SelfContained rule) :
      SelfContained (.capped limit rule)
  | suggesting {rule result : Rule} {suggestion : Suggestion} (hrule : SelfContained rule)
      (hresult : rule.withSuggestion suggestion = .ok result) :
      SelfContained result

theorem references_anyNumber_subset {name : String} {rule : Rule} (hrule : rule.references = []) :
    ∀ other ∈ (Build.anyNumber name rule).references, other = name := by
  simp [Build.anyNumber, references_alternative, references_concat, epsilon, references,
    referencesOfAll, hrule]

theorem references_of_run_repeated
    {rule result : Rule} {low : Nat} {high : Option Nat} {builder after : Builder}
    (hrun : Build.run (Build.repeated low high rule) builder = (.ok result, after))
    (hrule : rule.references = []) :
    result.references = [] := by
  cases high with
  | some high =>
      cases hrun
      exact references_repeatBetween_eq_nil hrule low high
  | none =>
      obtain ⟨name, rfl, -, -⟩ := Build.run_repeated_none_eq_ok hrun
      apply references_concat_eq_nil
      intro part hpart
      rcases List.mem_pair.mp hpart with rfl | rfl
      · exact references_copies_eq_nil hrule low
      · exact references_bound_eq_nil (references_anyNumber_subset hrule)

theorem references_of_run_runOf
    {stem : String} {item result : Rule} {builder after : Builder}
    (hrun : Build.run (CharacterClass.runOf stem item) builder = (.ok result, after))
    (hitem : item.references = []) :
    result.references = [] := by
  obtain ⟨name, drawn, -, hbound⟩ := Build.run_bind_eq_ok_iff.mp hrun
  rw [Build.run_defineBound] at hbound
  cases hbound
  apply references_bound_eq_nil
  simp [CharacterClass.runBody, orElse, andThen, references_alternative, references_concat,
    references, hitem]

theorem references_of_run_label
    {suggestion : Option Suggestion} {result : Rule} {builder after : Builder}
    (hrun : Build.run (Subdomain.label suggestion) builder = (.ok result, after)) :
    result.references = [] := by
  obtain ⟨run, drawn, hdrawn, heq⟩ := Build.run_bind_eq_ok_iff.mp hrun
  cases heq
  have hinterior := references_of_run_runOf hdrawn rfl
  simp [references_concat, optional_eq, references_alternative, epsilon, hinterior, references,
    referencesOfAll, CharacterClass.letter, CharacterClass.letterOrDigit, CharacterClass.digit]

theorem references_of_run_register
    {result : Rule} {builder after : Builder}
    (hrun : Build.run Subdomain.register builder = (.ok result, after)) :
    result.references = [] := by
  obtain ⟨label, drawn, hlabel, hrest⟩ := Build.run_bind_eq_ok_iff.mp hrun
  obtain ⟨bound, defined, hbound, heq⟩ := Build.run_bind_eq_ok_iff.mp hrest
  rw [Build.run_defineBound] at hbound
  cases hbound
  cases heq
  apply references_bound_eq_nil
  simp [Subdomain.body, references_alternative, references_concat, references,
    references_of_run_label hlabel]

/-- Whatever is put together without references by hand has none that its own
bindings leave open. -/
theorem SelfContained.references_eq_nil {rule : Rule} (h : rule.SelfContained) :
    rule.references = [] := by
  induction h with
  | literal | range => rfl
  | concat _ ih => exact references_concat_eq_nil ih
  | alternative _ ih => exact references_alternative_eq_nil ih
  | optional _ ih => exact references_repeatBetween_eq_nil ih 0 1
  | repeated _ hrun ih => exact references_of_run_repeated hrun ih
  | letterDigitHyphenRun hrun => exact references_of_run_runOf hrun rfl
  | lowerLetterDigitHyphenRun hrun => exact references_of_run_runOf hrun rfl
  | label hrun => exact references_of_run_label hrun
  | subdomain hrun => exact references_of_run_register hrun
  | capped limit _ ih => exact ih
  | suggesting _ hresult ih => rw [references_of_withSuggestion hresult, ih]

end Rule

/-- Grammars that agree on all names that the rule reaches give it the same
repairs.  A rule that reaches none has the same repairs in every grammar as in
none at all, and such are the rules that are put together without references by
hand. -/
theorem repairs_eq_of_reachable_and_of_selfContained (rule : Rule) (input : Text) :
    (∀ first second : Grammar,
      (∀ name, first.Reachable rule name → second.find? name = first.find? name) →
        second.repairs rule input = first.repairs rule input) ∧
      (rule.references = [] → ∀ grammar : Grammar,
        grammar.repairs rule input = rule.repairs input) ∧
      (rule.SelfContained → rule.references = []) := by
  have hagreeing : ∀ first second : Grammar,
      (∀ name, first.Reachable rule name → second.find? name = first.find? name) →
        second.repairs rule input = first.repairs rule input := by
    intro first second hagrees
    rw [Grammar.repairs, Grammar.repairs, enumerate_fresh_eq_of_reachable hagrees]
  refine ⟨hagreeing, fun hnone grammar => ?_, Rule.SelfContained.references_eq_nil⟩
  apply hagreeing
  intro name hname
  -- Nothing is reachable, for there is no reference to start from.
  induction hname with
  | reference hname =>
      rw [hnone] at hname
      cases hname
  | target _ hfind => cases hfind

/-- Any number of exclamation marks, as a builder makes them. -/
def exclamationMarks : Rule :=
  .concat [.copies 0 (.literal ['!']),
    .bound "seq-0000000000000000" (Build.anyNumber "seq-0000000000000000" (.literal ['!']))]

/-- A word, and exclamation marks after it. -/
def markedWord : Rule :=
  .concat [.reference "word", exclamationMarks]

/-- Words of letters, without or with other rules; one of these goes by the name
that stands for exclamation marks inside `markedWord`. -/
def wordsOfLetters (others : Bool) : Grammar :=
  let words := (Grammar.empty.insert "letter" (.range (.ofBounds 'a' 'z') none)).insert "word"
    (.alternative [.reference "letter", .concat [.reference "letter", .reference "word"]])
  if others then (words.insert "digit" (.range (.ofBounds '0' '9') none)).insert
    "seq-0000000000000000" (.literal ['?'])
  else words

theorem eq_of_reachable_markedWord
    {name : String} (hname : (wordsOfLetters false).Reachable markedWord name) :
    name = "word" ∨ name = "letter" := by
  have hmarked : markedWord.references = ["word"] := by decide +kernel
  have hrules : ∀ entry ∈ (wordsOfLetters false).entries, ∀ other ∈ entry.2.references,
      other = "word" ∨ other = "letter" := by
    decide +kernel
  induction hname with
  | reference hname =>
      rw [hmarked] at hname
      exact .inl (List.mem_singleton.mp hname)
  | target _ hfind hother => exact hrules _ (Table.mem_entries_of_find? hfind) _ hother

/-- The other rules make no difference to either rule, though one of them has a
name that is bound inside. -/
theorem repairs_markedWord_and_exclamationMarks :
    (∀ name, (wordsOfLetters false).Reachable markedWord name →
      (wordsOfLetters true).find? name = (wordsOfLetters false).find? name) ∧
      (wordsOfLetters true).repairs markedWord "ab!!".toList =
        (wordsOfLetters false).repairs markedWord "ab!!".toList ∧
      (wordsOfLetters false).repairs markedWord "ab!!".toList = ["ab!!".toList] ∧
      exclamationMarks.SelfContained ∧ exclamationMarks.references = [] ∧
      (wordsOfLetters true).repairs exclamationMarks "!!".toList =
        exclamationMarks.repairs "!!".toList := by
  have hagrees : ∀ name, (wordsOfLetters false).Reachable markedWord name →
      (wordsOfLetters true).find? name = (wordsOfLetters false).find? name := by
    intro name hname
    rcases eq_of_reachable_markedWord hname with rfl | rfl
    · rfl
    · rfl
  have hrun : (Build.run (Build.repeated 0 none (.literal ['!'])) { supply := .counting }).1 =
      .ok exclamationMarks := by
    rfl
  have hself : exclamationMarks.SelfContained :=
    .repeated (.literal ['!']) (Prod.ext hrun rfl)
  obtain ⟨hagreeing, -, -⟩ :=
    repairs_eq_of_reachable_and_of_selfContained markedWord "ab!!".toList
  obtain ⟨-, hnone, hreferences⟩ :=
    repairs_eq_of_reachable_and_of_selfContained exclamationMarks "!!".toList
  exact ⟨hagrees, hagreeing _ _ hagrees, by decide +kernel, hself, hreferences hself,
    hnone (hreferences hself) _⟩

end GrammarRepair
