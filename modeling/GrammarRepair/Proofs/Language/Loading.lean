import GrammarRepair.Context
import GrammarRepair.Proofs.Building
import GrammarRepair.Proofs.Language
import GrammarRepair.Source.Load

/-!
# What loading leaves in the grammar

Building an expression keeps every rule that is registered already and adds
rules under minted names only.  `Built` describes the rule that comes out, up to
the choice of these names.  From this, loading a whole source leaves every
definition under its name, as long as the minted names do not occur in the
source: then neither does a definition replace a minted rule, nor does a
reference of the source name one.
-/

namespace GrammarRepair.Source

theorem high_ofBounds_eq_max (low high : Char) :
    (CharRange.ofBounds low high).high = max low high := by
  rw [CharRange.high_ofBounds, max_def]

mutual

/-- The rule is what the expression is built to, with names from `minted` for
its unbounded repetitions and none of these among its references. -/
inductive Built (minted : List String) : Expr → Rule → Prop
  | literal (text : Text) :
      Built minted (.literal text) (.literal text)
  | range (low high : Char) :
      Built minted (.range low high) (.range (.ofBounds low high) none)
  | reference {name : String} (hname : name ∉ minted) :
      Built minted (.reference name) (.reference name)
  | sequence {items : List Expr} {rules : List Rule} (hitems : BuiltAll minted items rules) :
      Built minted (.sequence items) (.concat rules)
  | choice {branches : List Expr} {rules : List Rule} (hbranches : BuiltAll minted branches rules) :
      Built minted (.choice branches) (.alternative rules)
  | between {inner : Expr} {rule : Rule} (low high : Nat) (hinner : Built minted inner rule) :
      Built minted (.repeated inner low (some high)) (.repeatBetween low high rule)
  | atLeast {inner : Expr} {rule : Rule} {name : String} (low : Nat) (hname : name ∈ minted)
      (hinner : Built minted inner rule) :
      Built minted (.repeated inner low none)
        (.concat [.copies low rule, .bound name (Build.anyNumber name rule)])

/-- The rules are what the expressions are built to. -/
inductive BuiltAll (minted : List String) : List Expr → List Rule → Prop
  | nil : BuiltAll minted [] []
  | cons {item : Expr} {items : List Expr} {rule : Rule} {rules : List Rule}
      (hitem : Built minted item rule) (hitems : BuiltAll minted items rules) :
      BuiltAll minted (item :: items) (rule :: rules)

end

theorem BuiltAll.exists_of_mem
    {exprs : List Expr} {rules : List Rule} (h : BuiltAll minted exprs rules) {expr : Expr}
    (hmem : expr ∈ exprs) :
    ∃ rule ∈ rules, Built minted expr rule := by
  match h with
  | .nil => cases hmem
  | @BuiltAll.cons _ _ _ rule _ hitem hitems =>
      rcases List.mem_cons.mp hmem with rfl | hmem
      · exact ⟨rule, List.mem_cons_self, hitem⟩
      · obtain ⟨other, hother, hbuilt⟩ := hitems.exists_of_mem hmem
        exact ⟨other, List.mem_cons_of_mem _ hother, hbuilt⟩

/-! ## Building expressions -/

mutual

theorem grows_build (name : String) (expr : Expr) (builder : Builder) :
    builder.Grows (Build.run (expr.build name) builder).2 := by
  match expr with
  | .literal text => simpa [Expr.build] using Builder.Grows.refl builder
  | .range low high => simpa [Expr.build] using Builder.Grows.refl builder
  | .reference other => simpa [Expr.build] using Builder.Grows.refl builder
  | .sequence items =>
      rw [Expr.build]
      exact Build.grows_bind (grows_buildAll name items builder) fun _ => Builder.Grows.refl
  | .choice branches =>
      rw [Expr.build]
      exact Build.grows_bind (grows_buildAll name branches builder) fun _ => Builder.Grows.refl
  | .repeated inner low high =>
      rw [Expr.build]
      exact Build.grows_bind (grows_build name inner builder) (Build.grows_repeated low high)
  | .suggesting inner suggestion =>
      rw [Expr.build]
      refine Build.grows_bind (Builder.Grows.refl builder) fun found after => ?_
      split
      · exact Builder.Grows.refl after
      · refine Build.grows_bind (grows_build name inner after) fun rule last => ?_
        cases rule.withSuggestion _ <;> exact Builder.Grows.refl last

theorem grows_buildAll (name : String) (exprs : List Expr) (builder : Builder) :
    builder.Grows (Build.run (buildAll name exprs) builder).2 := by
  match exprs with
  | [] => simpa [buildAll] using Builder.Grows.refl builder
  | expr :: exprs =>
      rw [buildAll]
      refine Build.grows_bind (grows_build name expr builder) fun rule middle => ?_
      exact Build.grows_bind (grows_buildAll name exprs middle) fun _ => Builder.Grows.refl

end

theorem extends_build (name : String) (expr : Expr) (builder : Builder) :
    builder.Extends (Build.run (expr.build name) builder).2 :=
  (grows_build name expr builder).extends

theorem extends_buildAll (name : String) (exprs : List Expr) (builder : Builder) :
    builder.Extends (Build.run (buildAll name exprs) builder).2 :=
  (grows_buildAll name exprs builder).extends

mutual

/-- An expression that is built without suggestions gives a rule of the
described form; all that is registered on the way has a minted name. -/
theorem built_of_run
    {minted : List String} {name : String} {expr : Expr} {rule : Rule} {builder after : Builder}
    (hrun : Build.run (expr.build name) builder = (.ok rule, after))
    (hsuggestions : builder.suggestions = Table.empty)
    (hadded : ∀ other, after.grammar.contains other = true →
      builder.grammar.contains other = true ∨ other ∈ minted)
    (hreferences : ∀ other ∈ expr.references, other ∉ minted) :
    Built minted expr rule := by
  match expr with
  | .literal text =>
      cases hrun
      exact .literal text
  | .range low high =>
      cases hrun
      exact .range low high
  | .reference other =>
      cases hrun
      exact .reference (hreferences other (List.mem_singleton_self other))
  | .sequence items =>
      rw [Expr.build] at hrun
      obtain ⟨rules, middle, hitems, heq⟩ := Build.run_bind_eq_ok_iff.mp hrun
      cases heq
      exact .sequence (builtAll_of_run hitems hsuggestions hadded hreferences)
  | .choice branches =>
      rw [Expr.build] at hrun
      obtain ⟨rules, middle, hbranches, heq⟩ := Build.run_bind_eq_ok_iff.mp hrun
      cases heq
      exact .choice (builtAll_of_run hbranches hsuggestions hadded hreferences)
  | .repeated inner low high =>
      rw [Expr.build] at hrun
      obtain ⟨body, middle, hbody, hrepeated⟩ := Build.run_bind_eq_ok_iff.mp hrun
      have hlater : middle.Extends after := by
        have h := Build.extends_repeated low high body middle
        rwa [hrepeated] at h
      have hinner : Built minted inner body :=
        built_of_run hbody hsuggestions (fun other h => hadded other (hlater.contains h))
          hreferences
      cases high with
      | some high =>
          cases hrepeated
          exact .between low high hinner
      | none =>
          obtain ⟨tail, rfl, hnew, hregistered⟩ := Build.run_repeated_none_eq_ok hrepeated
          have hextends := extends_build name inner builder
          rw [hbody] at hextends
          have hminted : tail ∈ minted := by
            refine (hadded tail hregistered).resolve_left ?_
            rw [hextends.contains_eq_false hnew]
            exact Bool.false_ne_true
          exact .atLeast low hminted hinner
  | .suggesting inner suggestion =>
      rw [Expr.build] at hrun
      obtain ⟨found, middle, hfound, hrun⟩ := Build.run_bind_eq_ok_iff.mp hrun
      cases hfound
      simp [hsuggestions] at hrun

theorem builtAll_of_run
    {minted : List String} {name : String} {exprs : List Expr} {rules : List Rule}
    {builder after : Builder}
    (hrun : Build.run (buildAll name exprs) builder = (.ok rules, after))
    (hsuggestions : builder.suggestions = Table.empty)
    (hadded : ∀ other, after.grammar.contains other = true →
      builder.grammar.contains other = true ∨ other ∈ minted)
    (hreferences : ∀ other ∈ Expr.referencesOfAll exprs, other ∉ minted) :
    BuiltAll minted exprs rules := by
  match exprs with
  | [] =>
      cases hrun
      exact .nil
  | expr :: exprs =>
      rw [buildAll] at hrun
      obtain ⟨rule, middle, hexpr, hrun⟩ := Build.run_bind_eq_ok_iff.mp hrun
      obtain ⟨rest, last, hexprs, heq⟩ := Build.run_bind_eq_ok_iff.mp hrun
      cases heq
      have hfirst := extends_build name expr builder
      rw [hexpr] at hfirst
      have hlater := extends_buildAll name exprs middle
      rw [hexprs] at hlater
      refine .cons ?_ ?_
      · refine built_of_run hexpr hsuggestions
          (fun other h => hadded other (hlater.contains h)) fun other h => ?_
        exact hreferences other (List.mem_append_left _ h)
      · refine builtAll_of_run hexprs (hfirst.suggestions.trans hsuggestions)
          (fun other h => (hadded other h).imp_left hfirst.contains) fun other h => ?_
        exact hreferences other (List.mem_append_right _ h)

end

/-! ## Loading definitions -/

/-- The names that the later builder has rules for and the earlier one has not. -/
def addedNames (before after : Builder) : List String :=
  (Table.names after.grammar).filter fun name => !before.grammar.contains name

theorem mem_addedNames_iff {before after : Builder} {name : String} :
    name ∈ addedNames before after ↔
      after.grammar.contains name = true ∧ before.grammar.contains name = false := by
  rw [addedNames, List.mem_filter, Table.mem_names_iff, Bool.not_eq_true']
  rfl

/-- The names minted while definitions are registered one by one, up to the
first that cannot be built. -/
def mintedUntilError : List Definition → Builder → List String
  | [], _ => []
  | definition :: definitions, builder =>
      addedNames builder (Build.run (definition.body.build definition.name) builder).2 ++
        match Build.run definition.register builder with
        | (.ok (), after) => mintedUntilError definitions after
        | (.error _, _) => []

/-- Every definition's name means what its body is built to, under its ceiling,
and apart from minted names no other name means anything. -/
structure Interprets (definitions : List Definition) (minted : List String)
    (meaning : String → Option Rule) : Prop where
  apart : ∀ definition ∈ definitions, definition.name ∉ minted
  defined : ∀ definition ∈ definitions, ∃ rule, Built minted definition.body rule ∧
    meaning definition.name = some (rule.withCeiling definition.ceiling)
  only : ∀ {name : String} {target : Rule}, meaning name = some target →
    name ∈ minted ∨ ∃ definition ∈ definitions, definition.name = name

/-- A minted name may get another meaning. -/
theorem Interprets.bind
    {definitions : List Definition} {minted : List String} {meaning : String → Option Rule}
    (h : Interprets definitions minted meaning) {name : String} (hname : name ∈ minted)
    (body : Rule) :
    Interprets definitions minted fun other =>
      if other = name then some body else meaning other := by
  refine ⟨h.apart, fun definition hmem => ?_, fun {other target} hmeaning => ?_⟩
  · obtain ⟨rule, hbuilt, hmeaning⟩ := h.defined definition hmem
    have hne : definition.name ≠ name := by
      rintro rfl
      exact h.apart definition hmem hname
    exact ⟨rule, hbuilt, by rw [if_neg hne, hmeaning]⟩
  · split at hmeaning
    · rename_i heq
      exact .inl (heq ▸ hname)
    · exact h.only hmeaning

theorem firstRepeated?_eq_none_iff {seen names : List String} :
    firstRepeated? seen names = none ↔ names.Nodup ∧ ∀ name ∈ names, name ∉ seen := by
  induction names generalizing seen with
  | nil => simp [firstRepeated?]
  | cons name names ih =>
      rw [firstRepeated?]
      split
      · rename_i hseen
        simp [hseen]
      · rename_i hseen
        rw [ih, List.nodup_cons]
        simp only [List.mem_cons, not_or, forall_eq_or_imp]
        constructor
        · rintro ⟨hnodup, hnew⟩
          exact ⟨⟨fun hmem => (hnew name hmem).1 rfl, hnodup⟩, hseen,
            fun other h => (hnew other h).2⟩
        · rintro ⟨⟨hname, hnodup⟩, -, hnew⟩
          refine ⟨hnodup, fun other h => ⟨?_, hnew other h⟩⟩
          rintro rfl
          exact hname h

/-- A definition that is registered has been built, and stands under its name. -/
theorem run_register_eq_ok
    {definition : Definition} {builder after : Builder}
    (hrun : Build.run definition.register builder = (.ok (), after)) :
    ∃ rule built, Build.run (definition.body.build definition.name) builder = (.ok rule, built) ∧
      after = { built with
        grammar :=
          built.grammar.insert definition.name (rule.withCeiling definition.ceiling) } := by
  rw [Definition.register] at hrun
  obtain ⟨rule, built, hbuild, hdefine⟩ := Build.run_bind_eq_ok_iff.mp hrun
  cases hdefine
  exact ⟨rule, built, hbuild, rfl⟩

/-- Registering definitions leaves all other names as they are. -/
theorem find?_registerAll
    {definitions : List Definition} {builder after : Builder} {name : String} {rule : Rule}
    (hrun : Build.run (registerAll definitions) builder = (.ok (), after))
    (hother : ∀ definition ∈ definitions, name ≠ definition.name)
    (hfind : builder.grammar.find? name = some rule) :
    after.grammar.find? name = some rule := by
  induction definitions generalizing builder with
  | nil =>
      cases hrun
      exact hfind
  | cons definition definitions ih =>
      rw [registerAll] at hrun
      obtain ⟨⟨⟩, middle, hregister, hrun⟩ := Build.run_bind_eq_ok_iff.mp hrun
      obtain ⟨body, built, hbuild, rfl⟩ := run_register_eq_ok hregister
      refine ih hrun (fun later hlater => hother later (List.mem_cons_of_mem _ hlater)) ?_
      have hextends := extends_build definition.name definition.body builder
      rw [hbuild] at hextends
      rw [Table.find?_insert_of_ne _ _ (hother definition List.mem_cons_self)]
      exact hextends.find? hfind

/-- After all definitions are registered, each stands under its name. -/
theorem exists_built_of_registerAll
    {minted : List String} {definitions : List Definition} {builder after : Builder}
    (hrun : Build.run (registerAll definitions) builder = (.ok (), after))
    (hsuggestions : builder.suggestions = Table.empty)
    (hnodup : (definitions.map Definition.name).Nodup)
    (hminted : mintedUntilError definitions builder ⊆ minted)
    (hapart : ∀ definition ∈ definitions, ∀ name ∈ definition.names, name ∉ minted)
    {definition : Definition} (hmem : definition ∈ definitions) :
    ∃ rule, Built minted definition.body rule ∧
      after.grammar.find? definition.name = some (rule.withCeiling definition.ceiling) := by
  induction definitions generalizing builder with
  | nil => cases hmem
  | cons first definitions ih =>
      rw [registerAll] at hrun
      obtain ⟨⟨⟩, middle, hregister, hrest⟩ := Build.run_bind_eq_ok_iff.mp hrun
      obtain ⟨rule, built, hbuild, hmiddle⟩ := run_register_eq_ok hregister
      rw [mintedUntilError, hregister, hbuild] at hminted
      rw [List.map_cons, List.nodup_cons] at hnodup
      rcases List.mem_cons.mp hmem with rfl | hmem
      · refine ⟨rule, built_of_run hbuild hsuggestions ?_ ?_, find?_registerAll hrest ?_ ?_⟩
        · intro name hname
          by_cases hold : builder.grammar.contains name = true
          · exact .inl hold
          · have hadded := mem_addedNames_iff.mpr ⟨hname, Bool.eq_false_of_not_eq_true hold⟩
            exact .inr (hminted (List.mem_append_left _ hadded))
        · intro name hname
          exact hapart definition List.mem_cons_self name (List.mem_cons_of_mem _ hname)
        · intro later hlater hname
          exact hnodup.1 (List.mem_map.mpr ⟨later, hlater, hname.symm⟩)
        · rw [hmiddle, Table.find?_insert_self]
      · have hextends := extends_build first.name first.body builder
        rw [hbuild] at hextends
        have hempty : middle.suggestions = Table.empty := by
          rw [hmiddle]
          exact hextends.suggestions.trans hsuggestions
        exact ih hrest hempty hnodup.2 (fun name hname => hminted (List.mem_append_right _ hname))
          (fun later hlater => hapart later (List.mem_cons_of_mem _ hlater)) hmem

/-- After all definitions are registered, a name that has a rule had one before,
is minted, or is defined. -/
theorem contains_registerAll
    {definitions : List Definition} {builder after : Builder} {name : String}
    (hrun : Build.run (registerAll definitions) builder = (.ok (), after))
    (hname : after.grammar.contains name = true) :
    builder.grammar.contains name = true ∨ name ∈ mintedUntilError definitions builder ∨
      ∃ definition ∈ definitions, definition.name = name := by
  induction definitions generalizing builder with
  | nil =>
      cases hrun
      exact .inl hname
  | cons definition definitions ih =>
      rw [registerAll] at hrun
      obtain ⟨⟨⟩, middle, hregister, hrest⟩ := Build.run_bind_eq_ok_iff.mp hrun
      obtain ⟨rule, built, hbuild, hmiddle⟩ := run_register_eq_ok hregister
      rw [mintedUntilError, hregister, hbuild]
      rcases ih hrest with hmid | hlater | ⟨later, hmem, hlater⟩
      · by_cases hself : name = definition.name
        · exact .inr (.inr ⟨definition, List.mem_cons_self, hself.symm⟩)
        · have hbuilt : built.grammar.contains name = true := by
            simpa [hmiddle, Table.contains, Table.find?_insert_of_ne _ _ hself] using hmid
          by_cases hold : builder.grammar.contains name = true
          · exact .inl hold
          · have hadded := mem_addedNames_iff.mpr ⟨hbuilt, Bool.eq_false_of_not_eq_true hold⟩
            exact .inr (.inl (List.mem_append_left _ hadded))
      · exact .inr (.inl (List.mem_append_right _ hlater))
      · exact .inr (.inr ⟨later, List.mem_cons_of_mem _ hmem, hlater⟩)

/-- A loaded grammar interprets the definitions of its source. -/
theorem interprets_of_ofSource
    {supply : NameSupply} {source : Text} {definitions : List Definition} {grammar : Grammar}
    (hread : read source = .ok definitions) (hload : Grammar.ofSource supply source = .ok grammar)
    (hapart : ∀ name ∈ mintedUntilError definitions { supply }, ∀ definition ∈ definitions,
      name ∉ definition.names) :
    Interprets definitions (mintedUntilError definitions { supply }) grammar.find? := by
  have hregister : ∃ after, Build.run (register definitions) { supply } = (.ok (), after) ∧
      after.grammar = grammar := by
    rw [Grammar.ofSource, load, hread] at hload
    rcases hrun : Build.run (register definitions) { supply } with ⟨error | ⟨⟩, after⟩
    · simp [hrun, Except.mapError] at hload
    · simp only [hrun, Except.mapError, Except.ok.injEq] at hload
      exact ⟨after, rfl, hload⟩
  obtain ⟨after, hrun, rfl⟩ := hregister
  rw [register] at hrun
  split at hrun
  · cases hrun
  · rename_i hnone
    refine ⟨fun definition hmem h => ?_, fun definition hmem => ?_, fun {name target} hfind => ?_⟩
    · exact hapart _ h definition hmem List.mem_cons_self
    · refine exists_built_of_registerAll hrun rfl (firstRepeated?_eq_none_iff.mp hnone).1
        (List.Subset.refl _) (fun definition hmem name hname h => ?_) hmem
      exact hapart name h definition hmem hname
    · have hname : after.grammar.contains name = true := by simp [Table.contains, hfind]
      rcases contains_registerAll hrun hname with h | h
      · simp [Table.contains, Grammar.empty] at h
      · exact h

end GrammarRepair.Source
