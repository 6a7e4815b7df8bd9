import GrammarRepair.Proofs.JoinedLoading

/-!
# Which sources are loaded

A source that can be read is loaded if it defines no name twice, every
suggestion in it is known, and every node that carries one has a place for it.
Whether a node has a place for a suggestion can be seen from the node, though
groups, repetitions and suggestions may be nested at will: it has to come down
to a range or to a choice.

All this is checked in the order of the source.  A suggestion has to be known
before anything inside the node that carries it is checked, and whether the node
has a place for it is checked last.  `Expr.checks` lists the conditions in this
order, and the first one that fails is the one that is reported.
-/

namespace GrammarRepair

/-- What comes of a result if these causes stand against it: the first one of
them is reported. -/
def unlessAny {α : Type} (causes : List GrammarError) (result : α) : Except GrammarError α :=
  match causes with
  | [] => .ok result
  | cause :: _ => .error cause

theorem unlessAny_eq_ok_iff
    {α : Type} {causes : List GrammarError} {result : α} :
    unlessAny causes result = .ok result ↔ causes = [] := by
  cases causes with
  | nil => simp [unlessAny]
  | cons cause causes => simp [unlessAny]

theorem map_unlessAny
    {α β : Type} (f : α → β) (causes : List GrammarError) (result : α) :
    (unlessAny causes result).map f = unlessAny causes (f result) := by
  cases causes with
  | nil => rfl
  | cons cause causes => rfl

/-- Causes against a first result come before those against a second one. -/
theorem bind_unlessAny
    {α β : Type} {f : α → Except GrammarError β} {causes later : List GrammarError} {result : α}
    {next : β} (hnext : f result = unlessAny later next) :
    (unlessAny causes result).bind f = unlessAny (causes ++ later) next := by
  cases causes with
  | nil => exact hnext
  | cons cause causes => rfl

namespace Source

/-! ## Places for suggestions -/

/-- The node has a place for a suggestion. -/
inductive Expr.Suggestible : Expr → Prop
  | range (low high : Char) : Suggestible (.range low high)
  | choice (branches : List Expr) : Suggestible (.choice branches)
  | suggesting {inner : Expr} (suggestion : String) (hinner : Suggestible inner) :
      Suggestible (.suggesting inner suggestion)
  /-- More copies than the least number are a choice. -/
  | between {low high : Nat} (inner : Expr) (hmore : low < max low high) :
      Suggestible (.repeated inner low (some high))
  | once {high : Nat} {inner : Expr} (honce : max 1 high = 1) (hinner : Suggestible inner) :
      Suggestible (.repeated inner 1 (some high))

/-- The kind of rule that the node comes down to. -/
def Expr.shape : Expr → RuleKind
  | .literal _ => .literal
  | .range _ _ => .range
  | .reference _ => .reference
  | .sequence _ => .sequence
  | .choice _ => .choice
  | .repeated inner low (some high) =>
      if low < max low high then .choice else if low = 1 then inner.shape else .sequence
  | .repeated _ _ none => .sequence
  | .suggesting inner _ => inner.shape

theorem Expr.Suggestible.shape_eq {expr : Expr} (h : expr.Suggestible) :
    expr.shape = .range ∨ expr.shape = .choice := by
  induction h with
  | range low high => exact .inl rfl
  | choice branches => exact .inr rfl
  | suggesting suggestion _ ih => exact ih
  | between inner hmore => exact .inr (if_pos hmore)
  | once honce _ ih =>
      rw [shape, honce, if_neg (Nat.lt_irrefl 1), if_pos rfl]
      exact ih

theorem Expr.suggestible_of_shape_eq {expr : Expr}
    (h : expr.shape = .range ∨ expr.shape = .choice) : expr.Suggestible := by
  match expr with
  | .literal _ | .reference _ | .sequence _ | .repeated _ _ none => simp [shape] at h
  | .range low high => exact .range low high
  | .choice branches => exact .choice branches
  | .suggesting inner suggestion => exact .suggesting suggestion (suggestible_of_shape_eq h)
  | .repeated inner low (some high) =>
      rw [shape] at h
      split at h
      · rename_i hmore
        exact .between inner hmore
      · rename_i hexact
        split at h
        · rename_i hlow
          subst hlow
          have honce : max 1 high = 1 := by omega
          exact .once honce (suggestible_of_shape_eq h)
        · simp at h

theorem Expr.suggestible_iff {expr : Expr} :
    expr.Suggestible ↔ expr.shape = .range ∨ expr.shape = .choice :=
  ⟨Suggestible.shape_eq, suggestible_of_shape_eq⟩

instance (expr : Expr) : Decidable expr.Suggestible :=
  decidable_of_iff _ Expr.suggestible_iff.symm

/-- In the expression, the node carries the suggestion of this name. -/
inductive Expr.Carries : Expr → Expr → String → Prop
  | here (node : Expr) (suggestion : String) :
      Carries (.suggesting node suggestion) node suggestion
  | suggesting {inner node : Expr} {suggestion : String} (outer : String)
      (h : Carries inner node suggestion) : Carries (.suggesting inner outer) node suggestion
  | repeated {inner node : Expr} {suggestion : String} (low : Nat) (high : Option Nat)
      (h : Carries inner node suggestion) : Carries (.repeated inner low high) node suggestion
  | sequence {items : List Expr} {item node : Expr} {suggestion : String} (hmem : item ∈ items)
      (h : Carries item node suggestion) : Carries (.sequence items) node suggestion
  | choice {branches : List Expr} {branch node : Expr} {suggestion : String}
      (hmem : branch ∈ branches) (h : Carries branch node suggestion) :
      Carries (.choice branches) node suggestion

/-! ## Conditions in order -/

/-- A condition that a suggestion in a source has to meet. -/
inductive Check where
  /-- There is a suggestion of this name. -/
  | known (suggestion : String)
  /-- The node that carries it has a place for it. -/
  | placed (node : Expr)

/-- Why the condition is not met in the definition of `name`, if it is not. -/
def Check.cause? (suggestions : Table Suggestion) (name : String) : Check → Option GrammarError
  | .known suggestion =>
      if suggestions.contains suggestion then none else some (.unknownSuggestion suggestion name)
  | .placed node =>
      if node.Suggestible then none else some (.suggestionUnsupported node.shape)

mutual

/-- The conditions that an expression has to meet, in order. -/
def Expr.checks : Expr → List Check
  | .literal _ | .range _ _ | .reference _ => []
  | .sequence items => checksOfAll items
  | .choice branches => checksOfAll branches
  | .repeated inner _ _ => inner.checks
  | .suggesting inner suggestion => .known suggestion :: (inner.checks ++ [.placed inner])

/-- The conditions that several expressions have to meet. -/
def checksOfAll : List Expr → List Check
  | [] => []
  | expr :: exprs => expr.checks ++ checksOfAll exprs

end

/-- The causes for which conditions are not met in the definition of `name`. -/
def unmet (suggestions : Table Suggestion) (name : String) (checks : List Check) :
    List GrammarError :=
  checks.filterMap (Check.cause? suggestions name)

/-- The causes that stand against a definition, in order. -/
def Definition.causes (suggestions : Table Suggestion) (definition : Definition) :
    List GrammarError :=
  unmet suggestions definition.name definition.body.checks

theorem mem_checksOfAll_iff {exprs : List Expr} {check : Check} :
    check ∈ checksOfAll exprs ↔ ∃ expr ∈ exprs, check ∈ expr.checks := by
  induction exprs with
  | nil => simp [checksOfAll]
  | cons expr exprs ih => simp [checksOfAll, ih]

/-- Every condition is one on a node that carries a suggestion. -/
theorem Expr.exists_carries_of_mem_checks (expr : Expr) {check : Check}
    (hcheck : check ∈ expr.checks) :
    ∃ node suggestion, expr.Carries node suggestion ∧
      (check = .known suggestion ∨ check = .placed node) := by
  match expr with
  | .literal _ | .range _ _ | .reference _ => simp [checks] at hcheck
  | .sequence items =>
      obtain ⟨item, hmem, hcheck⟩ := mem_checksOfAll_iff.mp hcheck
      obtain ⟨node, suggestion, hcarries, hcheck⟩ := exists_carries_of_mem_checks item hcheck
      exact ⟨node, suggestion, .sequence hmem hcarries, hcheck⟩
  | .choice branches =>
      obtain ⟨branch, hmem, hcheck⟩ := mem_checksOfAll_iff.mp hcheck
      obtain ⟨node, suggestion, hcarries, hcheck⟩ := exists_carries_of_mem_checks branch hcheck
      exact ⟨node, suggestion, .choice hmem hcarries, hcheck⟩
  | .repeated inner low high =>
      obtain ⟨node, suggestion, hcarries, hcheck⟩ := exists_carries_of_mem_checks inner hcheck
      exact ⟨node, suggestion, .repeated low high hcarries, hcheck⟩
  | .suggesting inner outer =>
      rw [checks, List.mem_cons, List.mem_append, List.mem_singleton] at hcheck
      rcases hcheck with rfl | hcheck | rfl
      · exact ⟨inner, outer, .here inner outer, .inl rfl⟩
      · obtain ⟨node, suggestion, hcarries, hcheck⟩ := exists_carries_of_mem_checks inner hcheck
        exact ⟨node, suggestion, .suggesting outer hcarries, hcheck⟩
      · exact ⟨inner, outer, .here inner outer, .inr rfl⟩

theorem Expr.Carries.mem_checks {expr node : Expr} {suggestion : String}
    (h : expr.Carries node suggestion) :
    .known suggestion ∈ expr.checks ∧ .placed node ∈ expr.checks := by
  induction h with
  | here node suggestion => simp [checks]
  | suggesting outer _ ih => simp [checks, ih]
  | repeated low high _ ih => exact ih
  | sequence hmem _ ih | choice hmem _ ih =>
      exact ⟨mem_checksOfAll_iff.mpr ⟨_, hmem, ih.1⟩, mem_checksOfAll_iff.mpr ⟨_, hmem, ih.2⟩⟩

theorem unmet_append
    (suggestions : Table Suggestion) (name : String) (first second : List Check) :
    unmet suggestions name (first ++ second) =
      unmet suggestions name first ++ unmet suggestions name second :=
  List.filterMap_append

/-- Nothing stands against a definition if all suggestions in it are known and
have a place. -/
theorem Definition.causes_eq_nil_iff {suggestions : Table Suggestion} {definition : Definition} :
    definition.causes suggestions = [] ↔
      ∀ node suggestion, definition.body.Carries node suggestion →
        suggestions.contains suggestion = true ∧ node.Suggestible := by
  rw [causes, unmet, List.filterMap_eq_nil_iff]
  constructor
  · intro hnone node suggestion hcarries
    obtain ⟨hknown, hplaced⟩ := hcarries.mem_checks
    have hknown := hnone _ hknown
    have hplaced := hnone _ hplaced
    exact ⟨by simpa [Check.cause?] using hknown, by simpa [Check.cause?] using hplaced⟩
  · intro hall check hcheck
    obtain ⟨node, suggestion, hcarries, rfl | rfl⟩ :=
      definition.body.exists_carries_of_mem_checks hcheck
    · exact if_pos (hall node suggestion hcarries).1
    · exact if_pos (hall node suggestion hcarries).2

/-! ## What is told from the kinds is what the conditions say -/

variable {suggestions : Table Suggestion} {name : String}

theorem concat_kinds_of_length {kinds : List RuleKind}
    (hlength : kinds.length = 0 ∨ 2 ≤ kinds.length) : RuleKind.concat kinds = .sequence := by
  match kinds with
  | [] => rfl
  | [_] => simp at hlength
  | _ :: _ :: _ => rfl

theorem repeated_shape (inner : Expr) (low : Nat) (high : Option Nat) :
    RuleKind.repeated low high inner.shape = (Expr.repeated inner low high).shape := by
  cases high with
  | none => rfl
  | some high =>
      rw [RuleKind.repeated, Expr.shape]
      by_cases hmore : low < max low high
      · rw [if_pos hmore, if_neg (by omega)]
      · rw [if_neg hmore, if_pos (by omega)]
        obtain _ | _ | low := low
        · rfl
        · rfl
        · rfl

/-- The kind of a node with a suggestion, if the node has a place for it. -/
theorem suggesting_shape (expr : Expr) (suggestion : String) :
    expr.shape.suggesting =
      unlessAny (unmet suggestions name [.placed expr])
        (Expr.suggesting expr suggestion).shape := by
  have hiff := @Expr.suggestible_iff expr
  by_cases hplaced : expr.Suggestible
  · have hnone : unmet suggestions name [.placed expr] = [] := by
      simp [unmet, Check.cause?, hplaced]
    rw [hnone, Expr.shape]
    rcases hiff.mp hplaced with hshape | hshape
    · rw [hshape]
      rfl
    · rw [hshape]
      rfl
  · have hcause : unmet suggestions name [.placed expr] = [.suggestionUnsupported expr.shape] := by
      simp [unmet, Check.cause?, hplaced]
    rw [hcause]
    obtain ⟨hrange, hchoice⟩ := not_or.mp (mt hiff.mpr hplaced)
    cases hshape : expr.shape with
    | range => exact absurd hshape hrange
    | choice => exact absurd hshape hchoice
    | _ => rfl

mutual

/-- The kind of a compact expression is its shape, unless a condition is not
met. -/
theorem Expr.Compact.kind?_eq {expr : Expr} (h : expr.Compact) :
    expr.kind? suggestions name = unlessAny (unmet suggestions name expr.checks) expr.shape := by
  match expr, h with
  | .literal _, _ | .range _ _, _ | .reference _, _ => rfl
  | .sequence items, .sequence hlength hitems =>
      have hshapes : RuleKind.concat (items.map Expr.shape) = .sequence :=
        concat_kinds_of_length (by rwa [List.length_map])
      rw [Expr.kind?, kinds?_eq hitems, map_unlessAny, hshapes]
      rfl
  | .choice branches, .choice _ hbranches =>
      rw [Expr.kind?, kinds?_eq hbranches, map_unlessAny]
      rfl
  | .repeated inner low high, .repeated _ _ hinner =>
      rw [Expr.kind?, hinner.kind?_eq, map_unlessAny, repeated_shape]
      rfl
  | .suggesting inner suggestion, .suggesting _ hinner =>
      rw [Expr.kind?, Expr.checks]
      cases hfind : suggestions.find? suggestion with
      | none => simp [unmet, Check.cause?, Table.contains, hfind, unlessAny]
      | some found =>
          have hknown : unmet suggestions name [.known suggestion] = [] := by
            simp [unmet, Check.cause?, Table.contains, hfind]
          rw [← List.singleton_append, unmet_append, hknown, List.nil_append, unmet_append,
            hinner.kind?_eq]
          exact bind_unlessAny (suggesting_shape inner suggestion)

theorem kinds?_eq {exprs : List Expr} (h : ∀ expr ∈ exprs, expr.Compact) :
    kinds? suggestions name exprs =
      unlessAny (unmet suggestions name (checksOfAll exprs)) (exprs.map Expr.shape) := by
  match exprs with
  | [] => rfl
  | expr :: exprs =>
      obtain ⟨hexpr, hexprs⟩ := List.forall_mem_cons.mp h
      rw [kinds?, checksOfAll, unmet_append, hexpr.kind?_eq]
      refine bind_unlessAny ?_
      rw [kinds?_eq hexprs, map_unlessAny]
      rfl

end

theorem verdictAll_eq_unlessAny {definitions : List Definition}
    (h : ∀ definition ∈ definitions, definition.body.Compact) :
    verdictAll suggestions definitions =
      unlessAny (definitions.flatMap (Definition.causes suggestions)) () := by
  induction definitions with
  | nil => rfl
  | cons definition definitions ih =>
      obtain ⟨hbody, hlater⟩ := List.forall_mem_cons.mp h
      rw [verdictAll, Definition.verdict, hbody.kind?_eq, map_unlessAny, List.flatMap_cons]
      exact bind_unlessAny (ih hlater)

/-! ## Loading -/

/-- The name stands behind itself in the list, and no name does so earlier. -/
def FirstRepeated (name : String) (names : List String) : Prop :=
  ∃ earlier later, names = earlier ++ name :: later ∧ earlier.Nodup ∧ name ∈ earlier

theorem firstRepeated_of_firstRepeated?
    {seen names : List String} (hseen : seen.Nodup) (h : firstRepeated? seen names = some name) :
    FirstRepeated name (seen.reverse ++ names) := by
  induction names generalizing seen with
  | nil => cases h
  | cons first names ih =>
      rw [firstRepeated?] at h
      split at h
      · rename_i hmem
        obtain rfl := Option.some.inj h
        exact ⟨seen.reverse, names, rfl, List.nodup_reverse.mpr hseen, List.mem_reverse.mpr hmem⟩
      · rename_i hnew
        have hrest := ih (List.nodup_cons.mpr ⟨hnew, hseen⟩) h
        rwa [List.reverse_cons, List.append_assoc] at hrest

/-- What the definitions deserve if a name is defined twice. -/
theorem exists_verdict_eq_duplicateRule {definitions : List Definition}
    (hrepeated : ¬(definitions.map Definition.name).Nodup) :
    ∃ name, FirstRepeated name (definitions.map Definition.name) ∧
      verdict suggestions definitions = .error (.duplicateRule name) := by
  have hnone := @firstRepeated?_eq_none_iff [] (definitions.map Definition.name)
  rw [verdict]
  cases hfirst : firstRepeated? [] (definitions.map Definition.name) with
  | some name => exact ⟨name, firstRepeated_of_firstRepeated? List.nodup_nil hfirst, rfl⟩
  | none => exact absurd (hnone.mp hfirst).1 hrepeated

theorem verdict_eq_unlessAny {definitions : List Definition}
    (hnodup : (definitions.map Definition.name).Nodup)
    (hcompact : ∀ definition ∈ definitions, definition.body.Compact) :
    verdict suggestions definitions =
      unlessAny (definitions.flatMap (Definition.causes suggestions)) () := by
  have hfirst : firstRepeated? [] (definitions.map Definition.name) = none :=
    firstRepeated?_eq_none_iff.mpr ⟨hnodup, fun _ _ => List.not_mem_nil⟩
  rw [verdict, hfirst]
  exact verdictAll_eq_unlessAny hcompact

/-- As long as no name is missing, a source that can be read is loaded exactly if
its definitions have different names, every suggestion in them is known, and
every node that carries one has a place for it.  If a name is defined twice, the
first one that is defined again is reported; otherwise the first cause that
stands against a definition. -/
theorem load_eq_ok_iff_suggestible_and_first_cause
    {source : Text} {definitions : List Definition} {builder : Builder}
    (hread : read source = .ok definitions) (hfound : ¬Exhausted (load source builder).1) :
    ((load source builder).1 = .ok () ↔
      (definitions.map Definition.name).Nodup ∧
        ∀ definition ∈ definitions, ∀ node suggestion,
          definition.body.Carries node suggestion →
            builder.suggestions.contains suggestion = true ∧ node.Suggestible) ∧
      (¬(definitions.map Definition.name).Nodup →
        ∃ name, FirstRepeated name (definitions.map Definition.name) ∧
          (load source builder).1 = .error (.invalid (.duplicateRule name))) ∧
      ((definitions.map Definition.name).Nodup →
        (load source builder).1 =
          (unlessAny (definitions.flatMap (Definition.causes builder.suggestions)) ()).mapError
            .invalid) := by
  have hcompact := (read_eq_ok_iff.mp hread).compact
  have hload := fst_load_eq_verdict hread hfound
  refine ⟨?_, fun hrepeated => ?_, fun hnodup => ?_⟩
  · rw [load_eq_ok_iff_verdict hread hfound, verdict_eq_ok_iff, ← verdictAll_eq_ok_iff,
      verdictAll_eq_unlessAny hcompact, unlessAny_eq_ok_iff, List.flatMap_eq_nil_iff]
    simp only [Definition.causes_eq_nil_iff]
  · obtain ⟨name, hfirst, hverdict⟩ :=
      @exists_verdict_eq_duplicateRule builder.suggestions definitions hrepeated
    refine ⟨name, hfirst, ?_⟩
    rw [hload, hverdict]
    rfl
  · rw [hload, verdict_eq_unlessAny hnodup hcompact]

/-- One copy of a letter takes a suggestion, as the letter does. -/
def nestedDefinition : Definition :=
  ⟨"nested", none, .suggesting (.repeated (.suggesting (.range 'a' 'z') "low") 1 (some 1)) "low"⟩

/-- Two or three copies take a suggestion, but a text inside of them does not. -/
def misplacedDefinition : Definition :=
  ⟨"misplaced", none,
    .suggesting (.repeated (.suggesting (.literal ['t']) "low") 2 (some 3)) "loud"⟩

def nestedSource : Text :=
  "nested = (('a'..'z'@low){1})@low; misplaced = ((\"t\"@low){2,3})@loud;".toList

theorem read_nestedSource : read nestedSource = .ok [nestedDefinition, misplacedDefinition] := by
  decide +kernel

/-- The outer suggestion of the second definition is asked for first.  Once it is
known, the text inside is what is wrong, and nothing else is. -/
theorem load_nestedSource_unknown_and_misplaced :
    let louder := { listBuilder with
      suggestions := listBuilder.suggestions.insert "loud" .lowercase }
    read nestedSource = .ok [nestedDefinition, misplacedDefinition] ∧
      ¬Exhausted (load nestedSource listBuilder).1 ∧
      ¬Exhausted (load nestedSource louder).1 ∧
      (load nestedSource listBuilder).1 =
        .error (.invalid (.unknownSuggestion "loud" "misplaced")) ∧
      (load nestedSource louder).1 = .error (.invalid (.suggestionUnsupported .literal)) := by
  intro louder
  have hfound : ¬Exhausted (load nestedSource listBuilder).1 := by
    have houtcome : (load nestedSource listBuilder).1 =
        .error (.invalid (.unknownSuggestion "loud" "misplaced")) := by decide +kernel
    rw [houtcome]
    exact nofun
  have hfound' : ¬Exhausted (load nestedSource louder).1 := by
    have houtcome : (load nestedSource louder).1 =
        .error (.invalid (.suggestionUnsupported .literal)) := by decide +kernel
    rw [houtcome]
    exact nofun
  have hnodup : ([nestedDefinition, misplacedDefinition].map Definition.name).Nodup := by decide
  obtain ⟨-, -, hcause⟩ := load_eq_ok_iff_suggestible_and_first_cause read_nestedSource hfound
  obtain ⟨-, -, hcause'⟩ := load_eq_ok_iff_suggestible_and_first_cause read_nestedSource hfound'
  exact ⟨read_nestedSource, hfound, hfound', hcause hnodup, hcause' hnodup⟩

end Source
end GrammarRepair
