import GrammarRepair.Proofs.Correspondence
import GrammarRepair.Subdomain

/-!
# Steps side by side

A step of building is taken from two builders that correspond.  If neither run
mints an own name or runs out of names, both succeed or both fail with the same
cause, the results differ by the new permutation, and the builders still
correspond: such steps are parallel.  Steps one after the other are parallel if
each is.  All steps that do no more than mint names and register rules under
them are.
-/

namespace GrammarRepair

open Builder
open Source (addedNames mem_addedNames_iff)

variable {own : List String} {σ : Equiv.Perm String} {first second : Builder}

namespace Build

variable {α β : Type}

/-- Both succeed with related results, or both fail with the same cause. -/
inductive Alike (related : α → α → Prop) : Except GrammarError α → Except GrammarError α → Prop
  | ok {a b : α} (hrelated : related a b) : Alike related (.ok a) (.ok b)
  | error (error : GrammarError) : Alike related (.error error) (.error error)

/-- It did not fail for want of a name. -/
def Unexhausted (outcome : Except GrammarError α) : Prop :=
  ∀ stem attempts, outcome ≠ .error (.namesExhausted stem attempts)

/-- The step registers nothing under an own name, and finds a name whenever it
mints one. -/
structure Clean (own : List String) (step : Build α) (builder : Builder) : Prop where
  apart : ∀ name ∈ addedNames builder (run step builder).2, name ∉ own
  found : Unexhausted (run step builder).1

/-- From these builders, clean runs of the steps advance and turn out alike.  How
results are related depends on the permutation and on the first builder. -/
def Parallel (own : List String) (σ : Equiv.Perm String) (first second : Builder)
    (related : Equiv.Perm String → Builder → α → α → Prop) (step step' : Build α) : Prop :=
  Clean own step first → Clean own step' second →
    ∃ τ, Advances own σ τ first second (run step first).2 (run step' second).2 ∧
      Alike (related τ (run step first).2) (run step first).1 (run step' second).1

variable {related : Equiv.Perm String → Builder → α → α → Prop}
  {related' : Equiv.Perm String → Builder → β → β → Prop}

/-! ## Steps one after the other -/

/-- If the whole did not fail for want of a name, neither did the first part. -/
theorem unexhausted_of_bind
    {step : Build α} {next : α → Build β} {builder : Builder}
    (hfound : Unexhausted (run (step >>= next) builder).1) :
    Unexhausted (run step builder).1 := by
  intro stem attempts herror
  refine hfound stem attempts ?_
  rw [run_bind]
  rcases hrun : run step builder with ⟨error | a, after⟩
  · rw [hrun] at herror
    exact congrArg Except.error (Except.error.inj herror)
  · rw [hrun] at herror
    cases herror

theorem Clean.of_bind
    {step : Build α} {next : α → Build β} {builder : Builder}
    (hclean : Clean own (step >>= next) builder)
    (hgrows : ∀ a (builder : Builder), builder.Grows (run (next a) builder).2) :
    Clean own step builder := by
  refine ⟨fun name hname => hclean.apart name ?_, unexhausted_of_bind hclean.found⟩
  rw [run_bind]
  rcases hrun : run step builder with ⟨error | a, middle⟩
  · rwa [hrun] at hname
  · rw [hrun] at hname
    exact addedNames_subset_of_later (fun _ h => (hgrows a middle).extends.contains h) hname

theorem Clean.of_bind_ok
    {step : Build α} {next : α → Build β} {builder middle : Builder} {a : α}
    (hclean : Clean own (step >>= next) builder) (hrun : run step builder = (.ok a, middle))
    (hkeeps : ∀ name, builder.grammar.contains name = true → middle.grammar.contains name = true) :
    Clean own (next a) middle := by
  obtain ⟨hapart, hfound⟩ := hclean
  simp only [run_bind, hrun] at hapart hfound
  exact ⟨fun name hname => hapart name (addedNames_subset_of_earlier hkeeps hname), hfound⟩

theorem parallel_pure
    (h : Corresponds own σ first second) {a b : α} (hrelated : related σ first a b) :
    Parallel own σ first second related (pure a) (pure b) :=
  fun _ _ => ⟨σ, .refl h, .ok hrelated⟩

theorem parallel_throw (h : Corresponds own σ first second) (error : GrammarError) :
    Parallel own σ first second related (throw error) (throw error) :=
  fun _ _ => ⟨σ, .refl h, .error error⟩

theorem Parallel.bind
    {step step' : Build α} {next next' : α → Build β}
    (hstep : Parallel own σ first second related step step')
    (hgrows : ∀ a (builder : Builder), builder.Grows (run (next a) builder).2)
    (hgrows' : ∀ a (builder : Builder), builder.Grows (run (next' a) builder).2)
    (hnext : ∀ τ a b middle middle', Advances own σ τ first second middle middle' →
      related τ middle a b → Parallel own τ middle middle' related' (next a) (next' b)) :
    Parallel own σ first second related' (step >>= next) (step' >>= next') := by
  intro hclean hclean'
  obtain ⟨τ, hadvances, halike⟩ := hstep (hclean.of_bind hgrows) (hclean'.of_bind hgrows')
  rw [run_bind, run_bind]
  rcases hrun : run step first with ⟨outcome, middle⟩
  rcases hrun' : run step' second with ⟨outcome', middle'⟩
  simp only [hrun, hrun'] at hadvances halike
  cases halike with
  | error error => exact ⟨τ, hadvances, .error error⟩
  | ok hrelated =>
      have hlater := hclean.of_bind_ok hrun hadvances.keeps_first
      have hlater' := hclean'.of_bind_ok hrun' hadvances.keeps_second
      obtain ⟨υ, hadvances', halike'⟩ :=
        hnext τ _ _ middle middle' hadvances hrelated hlater hlater'
      exact ⟨υ, hadvances.trans hadvances', halike'⟩

/-- A step may look at the builder first. -/
theorem parallel_get
    {next next' : Builder → Build α}
    (hnext : Parallel own σ first second related (next first) (next' second)) :
    Parallel own σ first second related (get >>= next) (get >>= next') := by
  have hrun : run (get >>= next) first = run (next first) first := by rw [run_bind, run_get]
  have hrun' : run (get >>= next') second = run (next' second) second := by rw [run_bind, run_get]
  rintro ⟨hapart, hfound⟩ ⟨hapart', hfound'⟩
  rw [hrun] at hapart hfound ⊢
  rw [hrun'] at hapart' hfound' ⊢
  exact hnext ⟨hapart, hfound⟩ ⟨hapart', hfound'⟩

/-! ## Steps that mint -/

/-- A clean run mints a name that was not known. -/
theorem Clean.run_mint
    {stem : String} {body : String → Rule} {builder : Builder}
    (hclean : Clean own (mint stem body) builder) :
    ∃ name supply, ¬builder.Knows own name ∧
      run (mint stem body) builder = (.ok (.bound name (body name)),
        { builder with grammar := builder.grammar.insert name (body name), supply }) := by
  obtain ⟨hapart, hfound⟩ := hclean
  rw [mint, run_bind, run_freshName] at hapart hfound ⊢
  rcases hfresh : builder.supply.fresh (Table.contains builder.grammar) stem nameAttempts with
    ⟨none | name, supply⟩
  · simp only [hfresh] at hfound
    exact absurd rfl (hfound stem nameAttempts)
  · simp only [hfresh, run_defineBound] at hapart ⊢
    have hnew : builder.grammar.contains name = false :=
      (NameSupply.exists_draw_and_not_taken_of_fresh hfresh).2
    have hregistered :=
      (Table.contains_insert_iff builder.grammar name (body name) name).mpr (.inl rfl)
    refine ⟨name, supply, ?_, rfl⟩
    rintro (hown | hold)
    · exact hapart name (mem_addedNames_iff.mpr ⟨hregistered, hnew⟩) hown
    · rw [hold] at hnew
      cases hnew

/-- Register corresponding rules under fresh names.  The bodies are the same up
to the names in them. -/
theorem parallel_mint
    (h : Corresponds own σ first second) (stem : String) {body body' : String → Rule}
    (hbody : ∀ new (τ : Equiv.Perm String), (∀ name, first.Knows own name → τ name = σ name) →
      body' (τ new) = (body new).rename τ)
    (hknown : ∀ new, ∀ name ∈ (body new).names, name = new ∨ first.Knows own name) :
    Parallel own σ first second (Renamed own) (mint stem body) (mint stem body') := by
  intro hclean hclean'
  obtain ⟨new, supply, hnew, hrun⟩ := hclean.run_mint
  obtain ⟨new', supply', hnew', hrun'⟩ := hclean'.run_mint
  rw [hrun, hrun']
  obtain ⟨τ, hadvances, hrenamed⟩ := h.register_new hnew hnew' (hbody new) (hknown new)
  exact ⟨τ, hadvances, .ok hrenamed⟩

theorem names_anyNumber (name : String) (rule : Rule) :
    (anyNumber name rule).names = rule.names ++ (rule.names ++ [name]) := by
  simp [anyNumber, Rule.names_alternative, Rule.names_concat, Rule.epsilon, Rule.names,
    Rule.namesOfAll]

/-- Corresponding repetitions of corresponding rules. -/
theorem parallel_repeated
    (h : Corresponds own σ first second) (low : Nat) (high : Option Nat) {rule rule' : Rule}
    (hrule : Renamed own σ first rule rule') :
    Parallel own σ first second (Renamed own) (repeated low high rule)
      (repeated low high rule') := by
  cases high with
  | some high => exact parallel_pure h (hrule.repeatBetween low high)
  | none =>
      rw [repeated_none_eq, repeated_none_eq]
      refine Parallel.bind (parallel_mint h "seq" ?_ ?_) (fun _ => Grows.refl)
        (fun _ => Grows.refl) ?_
      · intro new τ hagrees
        have hrename : rule' = rule.rename τ := by
          rw [hrule.eq]
          exact Rule.rename_congr fun name hname => (hagrees name (hrule.known name hname)).symm
        rw [hrename]
        rfl
      · intro new name hname
        rw [names_anyNumber, List.mem_append, List.mem_append, List.mem_singleton] at hname
        rcases hname with hname | hname | hname
        · exact .inr (hrule.known name hname)
        · exact .inr (hrule.known name hname)
        · exact .inl hname
      · intro τ tail tail' middle middle' hadvances htail
        have hcopies := (hrule.advance hadvances).copies low
        exact parallel_pure hadvances.corresponds (.concat (.cons hcopies (.cons htail .nil)))

theorem names_runBody (name : String) (item : Rule) :
    (CharacterClass.runBody name item).names = item.names ++ (item.names ++ [name]) := by
  simp [CharacterClass.runBody, Rule.orElse, Rule.andThen, Rule.names_alternative,
    Rule.names_concat, Rule.names]

/-- A run of an item that has own names only. -/
theorem parallel_runOf
    (h : Corresponds own σ first second) (stem : String) {item : Rule} (hitem : item.names ⊆ own) :
    Parallel own σ first second (Renamed own) (CharacterClass.runOf stem item)
      (CharacterClass.runOf stem item) := by
  refine parallel_mint h stem ?_ ?_
  · intro new τ hagrees
    have hself : item.rename τ = item := by
      apply Rule.rename_eq_self
      intro name hname
      rw [hagrees name (.inl (hitem hname)), h.fixed name (hitem hname)]
    have hrename : (CharacterClass.runBody new item).rename τ =
        CharacterClass.runBody (τ new) (item.rename τ) := rfl
    rw [hrename, hself]
  · intro new name hname
    rw [names_runBody, List.mem_append, List.mem_append, List.mem_singleton] at hname
    rcases hname with hname | hname | hname
    · exact .inr (.inl (hitem hname))
    · exact .inr (.inl (hitem hname))
    · exact .inl hname

/-- A label, whatever repairs its interior. -/
theorem parallel_label (h : Corresponds own σ first second) (suggestion : Option Suggestion) :
    Parallel own σ first second (Renamed own) (Subdomain.label suggestion)
      (Subdomain.label suggestion) := by
  refine Parallel.bind (parallel_runOf h "ldh-str" (List.nil_subset own)) (fun _ => Grows.refl)
    (fun _ => Grows.refl) ?_
  intro τ run run' middle middle' hadvances hrun
  have hmiddle := hadvances.corresponds
  have hletter := hmiddle.renamed_self (CharacterClass.letter (some (.insertOrReplace [['x']])))
    (List.nil_subset own)
  have hlast := hmiddle.renamed_self (CharacterClass.letterOrDigit (some (.replace [['x']])))
    (List.nil_subset own)
  have hinner := Renamed.concat (.cons (hrun.repeatBetween 0 1) (.cons hlast .nil))
  exact parallel_pure hmiddle (.concat (.cons hletter (.cons (hinner.repeatBetween 0 1) .nil)))

end Build

/-! ## Building expressions -/

namespace Source

open Build

/-- Attach a suggestion to corresponding rules. -/
theorem parallel_withSuggestion
    (h : Corresponds own σ first second) {rule rule' : Rule}
    (hrule : Renamed own σ first rule rule')
    (suggestion : Suggestion) :
    Parallel own σ first second (Renamed own) (Build.liftExcept (rule.withSuggestion suggestion))
      (Build.liftExcept (rule'.withSuggestion suggestion)) := by
  rw [hrule.eq, Rule.withSuggestion_rename]
  cases hwith : rule.withSuggestion suggestion with
  | error error => exact parallel_throw h error
  | ok found =>
      refine parallel_pure h ⟨rfl, fun name hname => hrule.known name ?_⟩
      rwa [Rule.names_eq_of_withSuggestion hwith] at hname

mutual

/-- Expressions that refer to own names only. -/
theorem parallel_build
    {first second : Builder} {σ : Equiv.Perm String} (h : Corresponds own σ first second)
    (name : String) (expr : Expr) (hreferences : expr.references ⊆ own) :
    Parallel own σ first second (Renamed own) (expr.build name) (expr.build name) := by
  match expr with
  | .literal _ | .range _ _ => exact parallel_pure h (h.renamed_self _ (List.nil_subset own))
  | .reference other => exact parallel_pure h (h.renamed_self _ hreferences)
  | .sequence items =>
      rw [Expr.build]
      refine Parallel.bind (parallel_buildAll h name items hreferences) (fun _ => Grows.refl)
        (fun _ => Grows.refl) ?_
      intro τ rules rules' middle middle' hadvances hrules
      exact parallel_pure hadvances.corresponds (.concat hrules)
  | .choice branches =>
      rw [Expr.build]
      refine Parallel.bind (parallel_buildAll h name branches hreferences) (fun _ => Grows.refl)
        (fun _ => Grows.refl) ?_
      intro τ rules rules' middle middle' hadvances hrules
      exact parallel_pure hadvances.corresponds (.alternative hrules)
  | .repeated inner low high =>
      rw [Expr.build]
      refine Parallel.bind (parallel_build h name inner hreferences) (grows_repeated low high)
        (grows_repeated low high) ?_
      intro τ rule rule' middle middle' hadvances hrule
      exact parallel_repeated hadvances.corresponds low high hrule
  | .suggesting inner suggestion =>
      rw [Expr.build]
      refine parallel_get ?_
      rw [h.suggestions]
      cases first.suggestions.find? suggestion with
      | none => exact parallel_throw h _
      | some found =>
          have hgrows (rule : Rule) (builder : Builder) :
              builder.Grows (run (Build.liftExcept (rule.withSuggestion found)) builder).2 := by
            cases rule.withSuggestion found <;> exact Grows.refl builder
          refine Parallel.bind (parallel_build h name inner hreferences) hgrows hgrows ?_
          intro τ rule rule' middle middle' hadvances hrule
          exact parallel_withSuggestion hadvances.corresponds hrule found

theorem parallel_buildAll
    {first second : Builder} {σ : Equiv.Perm String} (h : Corresponds own σ first second)
    (name : String) (exprs : List Expr) (hreferences : Expr.referencesOfAll exprs ⊆ own) :
    Parallel own σ first second (fun τ builder => List.Forall₂ (Renamed own τ builder))
      (buildAll name exprs) (buildAll name exprs) := by
  match exprs with
  | [] => exact parallel_pure h .nil
  | expr :: exprs =>
      obtain ⟨hexpr, hexprs⟩ := List.append_subset.mp hreferences
      have hgrows (rule : Rule) (builder : Builder) :
          builder.Grows (run (do
            let rules ← buildAll name exprs
            return rule :: rules) builder).2 :=
        grows_bind (grows_buildAll name exprs builder) fun _ => Grows.refl
      rw [buildAll]
      refine Parallel.bind (parallel_build h name expr hexpr) hgrows hgrows ?_
      intro τ rule rule' middle middle' hadvances hrule
      refine Parallel.bind (parallel_buildAll hadvances.corresponds name exprs hexprs)
        (fun _ => Grows.refl) (fun _ => Grows.refl) ?_
      intro υ rules rules' after after' hadvances' hrules
      exact parallel_pure hadvances'.corresponds (.cons (hrule.advance hadvances') hrules)

end

end Source
end GrammarRepair
