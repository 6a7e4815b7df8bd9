import GrammarRepair.Proofs.Minting

/-!
# Whether definitions can be built

Building an expression mints names, registers rules and may run out of names.
None of this decides whether it succeeds otherwise.  A suggestion has to be
known, and what it is attached to has to be a range or a choice; so it is enough
to know the kinds of the rules, which can be told from the expression.

`Expr.kind?` is the kind of the rule that an expression is built to, or the cause
that stops it.  From this, `verdict` is what becomes of registering definitions
whenever no name is missing: which rules the builder has, and which names it
draws, makes no difference.
-/

namespace GrammarRepair

open Build

/-! ## Kinds of combinations -/

namespace RuleKind

/-- The kind of rules of these kinds one after the other. -/
def concat : List RuleKind → RuleKind
  | [kind] => kind
  | _ => .sequence

/-- The kind of a repetition of a rule of this kind. -/
def repeated (low : Nat) (high : Option Nat) (kind : RuleKind) : RuleKind :=
  match high with
  | some high => if high ≤ low then concat (List.replicate low kind) else .choice
  | none => .sequence

/-- The kind of a rule of this kind with a suggestion, if it can have one. -/
def suggesting : RuleKind → Except GrammarError RuleKind
  | .range => .ok .range
  | .choice => .ok .choice
  | kind => .error (.suggestionUnsupported kind)

theorem concat_ne_capped {kinds : List RuleKind} (hkinds : .capped ∉ kinds) :
    concat kinds ≠ .capped := by
  match kinds with
  | [] | _ :: _ :: _ => exact nofun
  | [kind] => exact fun heq => hkinds (List.mem_singleton.mpr heq.symm)

theorem repeated_ne_capped
    {kind : RuleKind} (hkind : kind ≠ .capped) (low : Nat) (high : Option Nat) :
    repeated low high kind ≠ .capped := by
  unfold repeated
  split
  · split
    · exact concat_ne_capped fun hmem => hkind (List.eq_of_mem_replicate hmem).symm
    · exact nofun
  · exact nofun

theorem suggesting_ne_capped {kind result : RuleKind} (h : kind.suggesting = .ok result) :
    result ≠ .capped := by
  cases kind with
  | range | choice =>
      cases h
      exact nofun
  | _ => cases h

end RuleKind

namespace Rule

theorem kind_concat (rules : List Rule) :
    (concat rules).kind = RuleKind.concat (rules.map kind) := by
  match rules with
  | [] | [_] | _ :: _ :: _ => rfl

theorem kind_repeatBetween (low high : Nat) (rule : Rule) :
    (repeatBetween low high rule).kind = RuleKind.repeated low (some high) rule.kind := by
  rw [repeatBetween, RuleKind.repeated]
  split
  · rw [copies, kind_concat, List.map_replicate]
  · rfl

/-- Attaching a suggestion depends on the kind alone, as long as there is no
ceiling to pass it through. -/
theorem map_kind_withSuggestion
    (suggestion : Suggestion) {rule : Rule} (hrule : rule.kind ≠ .capped) :
    (rule.withSuggestion suggestion).map kind = rule.kind.suggesting := by
  cases rule with
  | capped => exact absurd rfl hrule
  | _ => rfl

end Rule

theorem Build.run_liftExcept {α : Type} (result : Except GrammarError α) (builder : Builder) :
    run (liftExcept result) builder = (result, builder) := by
  cases result <;> rfl

/-- A repetition that does not run out of names has a kind that can be told. -/
theorem Build.map_kind_run_repeated
    {low : Nat} {high : Option Nat} {rule : Rule} {builder : Builder}
    (hfound : Unexhausted (run (repeated low high rule) builder).1) :
    (run (repeated low high rule) builder).1.map Rule.kind =
      .ok (RuleKind.repeated low high rule.kind) := by
  cases high with
  | some high => exact congrArg Except.ok (Rule.kind_repeatBetween low high rule)
  | none =>
      rw [repeated] at hfound ⊢
      have hname := unexhausted_of_bind hfound
      rw [run_freshName] at hname
      rw [run_bind, run_freshName]
      rcases hfresh : builder.supply.fresh (Table.contains builder.grammar) "seq" nameAttempts with
        ⟨none | name, supply⟩
      · simp only [hfresh] at hname
        exact absurd rfl (hname "seq" nameAttempts)
      · rfl

namespace Source

/-! ## Kinds of expressions -/

mutual

/-- The kind of the rule that an expression is built to in the definition of
`name`, where these suggestions are known, or why there is none. -/
def Expr.kind? (suggestions : Table Suggestion) (name : String) :
    Expr → Except GrammarError RuleKind
  | .literal _ => .ok .literal
  | .range _ _ => .ok .range
  | .reference _ => .ok .reference
  | .sequence items => (kinds? suggestions name items).map RuleKind.concat
  | .choice branches => (kinds? suggestions name branches).map fun _ => .choice
  | .repeated inner low high => (inner.kind? suggestions name).map (RuleKind.repeated low high)
  | .suggesting inner suggestion =>
      match suggestions.find? suggestion with
      | none => .error (.unknownSuggestion suggestion name)
      | some _ => (inner.kind? suggestions name).bind RuleKind.suggesting

/-- The kinds of the rules that several expressions are built to. -/
def kinds? (suggestions : Table Suggestion) (name : String) :
    List Expr → Except GrammarError (List RuleKind)
  | [] => .ok []
  | expr :: exprs =>
      (expr.kind? suggestions name).bind fun kind =>
        (kinds? suggestions name exprs).map (kind :: ·)

end

variable {suggestions : Table Suggestion} {name : String}

theorem exists_of_map_eq_ok
    {ε α β : Type} {f : α → β} {outcome : Except ε α} {b : β} (h : outcome.map f = .ok b) :
    ∃ a, outcome = .ok a ∧ f a = b := by
  cases outcome with
  | error error => cases h
  | ok a => exact ⟨a, rfl, Except.ok.inj h⟩

theorem exists_of_bind_eq_ok
    {ε α β : Type} {f : α → Except ε β} {outcome : Except ε α} {b : β}
    (h : outcome.bind f = .ok b) :
    ∃ a, outcome = .ok a ∧ f a = .ok b := by
  cases outcome with
  | error error => cases h
  | ok a => exact ⟨a, rfl, h⟩

mutual

/-- No expression is built to a rule with a ceiling. -/
theorem Expr.kind?_ne_capped {expr : Expr} {kind : RuleKind}
    (hkind : expr.kind? suggestions name = .ok kind) : kind ≠ .capped := by
  match expr with
  | .literal _ | .range _ _ | .reference _ =>
      cases hkind
      exact nofun
  | .sequence items =>
      obtain ⟨kinds, hitems, rfl⟩ := exists_of_map_eq_ok hkind
      exact RuleKind.concat_ne_capped (not_mem_kinds? hitems)
  | .choice branches =>
      obtain ⟨kinds, -, rfl⟩ := exists_of_map_eq_ok hkind
      exact nofun
  | .repeated inner low high =>
      obtain ⟨found, hinner, rfl⟩ := exists_of_map_eq_ok hkind
      exact RuleKind.repeated_ne_capped (Expr.kind?_ne_capped hinner) low high
  | .suggesting inner suggestion =>
      rw [Expr.kind?] at hkind
      split at hkind
      · cases hkind
      · obtain ⟨found, -, hsuggesting⟩ := exists_of_bind_eq_ok hkind
        exact RuleKind.suggesting_ne_capped hsuggesting

theorem not_mem_kinds? {exprs : List Expr} {kinds : List RuleKind}
    (hkinds : kinds? suggestions name exprs = .ok kinds) : .capped ∉ kinds := by
  match exprs with
  | [] =>
      cases hkinds
      exact List.not_mem_nil
  | expr :: exprs =>
      obtain ⟨kind, hexpr, hmap⟩ := exists_of_bind_eq_ok hkinds
      obtain ⟨later, hexprs, rfl⟩ := exists_of_map_eq_ok hmap
      exact List.not_mem_cons_of_ne_of_not_mem (Expr.kind?_ne_capped hexpr).symm
        (not_mem_kinds? hexprs)

end

/-! ## Building goes by the kinds -/

mutual

/-- As long as no name is missing, an expression is built to a rule of the kind
that can be told, or fails with the cause that can be told. -/
theorem map_kind_run_build
    (name : String) (expr : Expr) (builder : Builder)
    (hfound : Unexhausted (run (expr.build name) builder).1) :
    (run (expr.build name) builder).1.map Rule.kind = expr.kind? builder.suggestions name := by
  match expr with
  | .literal _ | .range _ _ | .reference _ =>
      rw [Expr.build, Expr.kind?]
      rfl
  | .sequence items =>
      rw [Expr.build] at hfound
      have hitems := map_kind_run_buildAll name items builder (unexhausted_of_bind hfound)
      rw [Expr.build, Expr.kind?, run_bind, ← hitems]
      rcases run (buildAll name items) builder with ⟨error | rules, after⟩
      · rfl
      · exact congrArg Except.ok (Rule.kind_concat rules)
  | .choice branches =>
      rw [Expr.build] at hfound
      have hbranches := map_kind_run_buildAll name branches builder (unexhausted_of_bind hfound)
      rw [Expr.build, Expr.kind?, run_bind, ← hbranches]
      rcases run (buildAll name branches) builder with ⟨error | rules, after⟩
      · rfl
      · rfl
  | .repeated inner low high =>
      rw [Expr.build] at hfound
      have hinner := map_kind_run_build name inner builder (unexhausted_of_bind hfound)
      rw [run_bind] at hfound
      rw [Expr.build, Expr.kind?, run_bind, ← hinner]
      rcases hrun : run (inner.build name) builder with ⟨error | rule, after⟩
      · rfl
      · rw [hrun] at hfound
        exact map_kind_run_repeated hfound
  | .suggesting inner suggestion =>
      rw [Expr.build, run_bind, run_get] at hfound
      rw [Expr.build, Expr.kind?, run_bind, run_get]
      cases hsuggestion : builder.suggestions.find? suggestion with
      | none =>
          simp only [hsuggestion]
          rfl
      | some found =>
          simp only [hsuggestion] at hfound ⊢
          have hinner := map_kind_run_build name inner builder (unexhausted_of_bind hfound)
          rw [run_bind, ← hinner]
          rcases hrun : run (inner.build name) builder with ⟨error | rule, after⟩
          · rfl
          · rw [hrun] at hinner
            simp only [run_liftExcept]
            exact Rule.map_kind_withSuggestion found (Expr.kind?_ne_capped hinner.symm)

theorem map_kind_run_buildAll
    (name : String) (exprs : List Expr) (builder : Builder)
    (hfound : Unexhausted (run (buildAll name exprs) builder).1) :
    (run (buildAll name exprs) builder).1.map (List.map Rule.kind) =
      kinds? builder.suggestions name exprs := by
  match exprs with
  | [] => rfl
  | expr :: exprs =>
      rw [buildAll] at hfound
      have hexpr := map_kind_run_build name expr builder (unexhausted_of_bind hfound)
      have hsuggestions := (extends_build name expr builder).suggestions
      rw [run_bind] at hfound
      rw [buildAll, kinds?, run_bind, ← hexpr]
      rcases hrun : run (expr.build name) builder with ⟨error | rule, middle⟩
      · rfl
      · rw [hrun] at hfound hsuggestions
        have hexprs := map_kind_run_buildAll name exprs middle (unexhausted_of_bind hfound)
        rw [hsuggestions] at hexprs
        simp only [run_bind, ← hexprs]
        rcases run (buildAll name exprs) middle with ⟨error | rules, after⟩
        · rfl
        · rfl

end

/-! ## Registering and loading -/

/-- What becomes of registering a definition. -/
def Definition.verdict (suggestions : Table Suggestion) (definition : Definition) :
    Except GrammarError Unit :=
  (definition.body.kind? suggestions definition.name).map fun _ => ()

/-- What becomes of registering definitions one by one. -/
def verdictAll (suggestions : Table Suggestion) : List Definition → Except GrammarError Unit
  | [] => .ok ()
  | definition :: definitions =>
      (definition.verdict suggestions).bind fun _ => verdictAll suggestions definitions

/-- What becomes of definitions that are registered if their names are
different. -/
def verdict (suggestions : Table Suggestion) (definitions : List Definition) :
    Except GrammarError Unit :=
  match firstRepeated? [] (definitions.map Definition.name) with
  | some name => .error (.duplicateRule name)
  | none => verdictAll suggestions definitions

theorem verdictAll_eq_ok_iff {definitions : List Definition} :
    verdictAll suggestions definitions = .ok () ↔
      ∀ definition ∈ definitions, definition.verdict suggestions = .ok () := by
  induction definitions with
  | nil => simp [verdictAll]
  | cons definition definitions ih =>
      rw [verdictAll, List.forall_mem_cons, ← ih]
      rcases definition.verdict suggestions with error | ⟨⟨⟩⟩
      · simp [Except.bind]
      · simp [Except.bind]

/-- Definitions get through if their names are different and each of them can be
built. -/
theorem verdict_eq_ok_iff {definitions : List Definition} :
    verdict suggestions definitions = .ok () ↔
      (definitions.map Definition.name).Nodup ∧
        ∀ definition ∈ definitions, definition.verdict suggestions = .ok () := by
  rw [verdict, ← verdictAll_eq_ok_iff]
  have hrepeated := @firstRepeated?_eq_none_iff [] (definitions.map Definition.name)
  cases hfirst : firstRepeated? [] (definitions.map Definition.name) with
  | some name =>
      rw [hfirst] at hrepeated
      simp at hrepeated
      simp [hrepeated]
  | none =>
      have hnodup := (hrepeated.mp hfirst).1
      simp [hnodup]

theorem fst_run_registerAll
    {definitions : List Definition} {builder : Builder}
    (hfound : Unexhausted (run (registerAll definitions) builder).1) :
    (run (registerAll definitions) builder).1 = verdictAll builder.suggestions definitions := by
  induction definitions generalizing builder with
  | nil => rfl
  | cons definition definitions ih =>
      rw [registerAll] at hfound
      have hregister := unexhausted_of_bind hfound
      rw [Definition.register] at hregister
      have hkind := map_kind_run_build _ _ builder (unexhausted_of_bind hregister)
      have hsuggestions := (extends_build definition.name definition.body builder).suggestions
      rw [run_bind, run_register] at hfound
      rw [registerAll, run_bind, run_register, verdictAll, Definition.verdict, ← hkind]
      rcases hrun : run (definition.body.build definition.name) builder with ⟨error | rule, built⟩
      · rfl
      · rw [hrun] at hfound hsuggestions
        rw [← hsuggestions]
        exact ih hfound

theorem fst_run_register
    {definitions : List Definition} {builder : Builder}
    (hfound : Unexhausted (run (register definitions) builder).1) :
    (run (register definitions) builder).1 = verdict builder.suggestions definitions := by
  rw [register] at hfound ⊢
  rw [verdict]
  cases hrepeated : firstRepeated? [] (definitions.map Definition.name) with
  | some name => rfl
  | none =>
      rw [hrepeated] at hfound
      exact fst_run_registerAll hfound

/-- Registering definitions leaves the suggestions as they are, whether it
succeeds or fails. -/
theorem suggestions_run_registerAll (definitions : List Definition) (builder : Builder) :
    (run (registerAll definitions) builder).2.suggestions = builder.suggestions := by
  induction definitions generalizing builder with
  | nil => rfl
  | cons definition definitions ih =>
      have hbuilt := (extends_build definition.name definition.body builder).suggestions
      rw [registerAll, run_bind, run_register]
      rcases hrun : run (definition.body.build definition.name) builder with ⟨error | rule, built⟩
      · rwa [hrun] at hbuilt
      · rw [hrun] at hbuilt
        exact (ih _).trans hbuilt

/-- The outcome of loading is that a name was missing. -/
def Exhausted (outcome : Except LoadError Unit) : Prop :=
  ∃ stem attempts, outcome = .error (.invalid (.namesExhausted stem attempts))

/-- As long as no name is missing, loading a source that can be read comes to
what the definitions deserve, whatever rules there are already. -/
theorem fst_load_eq_verdict
    {source : Text} {definitions : List Definition} {builder : Builder}
    (hread : read source = .ok definitions) (hfound : ¬Exhausted (load source builder).1) :
    (load source builder).1 =
      (verdict builder.suggestions definitions).mapError LoadError.invalid := by
  have hregister : Unexhausted (run (register definitions) builder).1 := by
    intro stem attempts herror
    refine hfound ⟨stem, attempts, ?_⟩
    rw [load, hread]
    simp only [herror, Except.mapError]
  rw [← fst_run_register hregister, load, hread]

theorem load_eq_ok_iff_verdict
    {source : Text} {definitions : List Definition} {builder : Builder}
    (hread : read source = .ok definitions) (hfound : ¬Exhausted (load source builder).1) :
    (load source builder).1 = .ok () ↔ verdict builder.suggestions definitions = .ok () := by
  rw [fst_load_eq_verdict hread hfound]
  cases verdict builder.suggestions definitions with
  | error error => simp [Except.mapError]
  | ok _ => simp [Except.mapError]

end Source
end GrammarRepair
