import GrammarRepair.Proofs.SideBySide

/-!
# Names minted on the way

Two runs that correspond mint corresponding names, one after the other in the
same order.  A step that only mints adds exactly the names that it mints.  A
definition that is registered, and a rule that is given an own name, may take
the place of another rule, so there the minted names are those that building
the rule has added.  Loading mints names up to the first definition that cannot
be built.
-/

namespace GrammarRepair

open Build
open Source (addedNames mem_addedNames_iff)

variable {own : List String} {σ τ υ : Equiv.Perm String}
  {first second first' second' first'' second'' : Builder} {new new' later later' : List String}

namespace Builder

/-- Two runs go on and mint these names: the builders still correspond, and no
names are moved but those that were moved before and those that are minted. -/
structure Mints
    (own : List String) (σ τ : Equiv.Perm String) (first second first' second' : Builder)
    (new new' : List String) : Prop where
  corresponds : Corresponds own τ first' second'
  agrees : ∀ name, first.Knows own name → τ name = σ name
  keeps : ∀ name, first.grammar.contains name = true → first'.grammar.contains name = true
  moves : ∀ name, τ name ≠ name → σ name ≠ name ∨ name ∈ new ∨ name ∈ new'
  renamed : new' = new.map τ
  registered : ∀ name ∈ new, first'.grammar.contains name = true

theorem Mints.refl (h : Corresponds own σ first second) :
    Mints own σ σ first second first second [] [] :=
  ⟨h, fun _ _ => rfl, fun _ => id, fun _ => .inl, rfl, by simp⟩

theorem Mints.knows
    (h : Mints own σ τ first second first' second' new new') {name : String}
    (hname : first.Knows own name) :
    first'.Knows own name :=
  hname.imp_right (h.keeps name)

theorem Mints.trans
    (h : Mints own σ τ first second first' second' new new')
    (h' : Mints own τ υ first' second' first'' second'' later later') :
    Mints own σ υ first second first'' second'' (new ++ later) (new' ++ later') where
  corresponds := h'.corresponds
  agrees name hname := (h'.agrees name (h.knows hname)).trans (h.agrees name hname)
  keeps name hname := h'.keeps name (h.keeps name hname)
  moves name hmoved := by
    rw [List.mem_append, List.mem_append]
    rcases h'.moves name hmoved with hmoved | hlater | hlater
    · exact (h.moves name hmoved).imp_right (Or.imp .inl .inl)
    · exact .inr (.inl (.inr hlater))
    · exact .inr (.inr (.inr hlater))
  renamed := by
    have hnew : new.map τ = new.map υ := by
      apply List.map_congr_left
      intro name hname
      exact (h'.agrees name (.inr (h.registered name hname))).symm
    rw [h.renamed, h'.renamed, hnew, List.map_append]
  registered name hname := by
    rcases List.mem_append.mp hname with hname | hname
    · exact h'.keeps name (h.registered name hname)
    · exact h'.registered name hname

/-- Where only minting adds names, the names added are the names minted. -/
theorem Advances.mints
    (hadvances : Advances own σ τ first second first' second')
    (h : Corresponds own σ first second) :
    Mints own σ τ first second first' second' (addedNames first first')
      (addedNames second second') where
  corresponds := hadvances.corresponds
  agrees := hadvances.agrees
  keeps := hadvances.keeps_first
  moves := hadvances.moves
  renamed := by
    have hbefore (name : String) :
        second.grammar.contains (τ name) = first.grammar.contains name :=
      (h.of_agrees hadvances.agrees).contains name
    rw [addedNames, addedNames, hadvances.corresponds.grammar, Grammar.names_rename,
      List.filter_map]
    congr 1
    apply List.filter_congr
    intro name _
    rw [Function.comp_apply, hbefore]
  registered _ hname := (mem_addedNames_iff.mp hname).1

theorem Renamed.mint
    {rule other : Rule} (hrule : Renamed own σ first rule other)
    (h : Mints own σ τ first second first' second' new new') :
    Renamed own τ first' rule other :=
  hrule.of_agrees h.agrees fun _ => h.knows

/-- Giving an own name to corresponding rules mints nothing. -/
theorem Corresponds.mints_insert
    (h : Corresponds own σ first second) {name : String} (hname : name ∈ own) {rule other : Rule}
    (hrule : Renamed own σ first rule other) :
    Mints own σ σ first second { first with grammar := first.grammar.insert name rule }
      { second with grammar := second.grammar.insert name other } [] [] where
  corresponds := by
    have hinsert := h.insert name first.supply second.supply fun other hother =>
      .inr (hrule.known other hother)
    rwa [h.fixed name hname, ← hrule.eq] at hinsert
  agrees _ _ := rfl
  keeps _ hold := (Table.contains_insert_iff ..).mpr (.inr hold)
  moves _ := .inl
  renamed := rfl
  registered := by simp

end Builder

namespace Source

open Builder

/-! ## Loading -/

/-- The names minted while a source is loaded. -/
def mintedByLoad (source : Text) (builder : Builder) : List String :=
  match read source with
  | .error _ => []
  | .ok definitions =>
      match firstRepeated? [] (definitions.map Definition.name) with
      | some _ => []
      | none => mintedUntilError definitions builder

theorem run_register (definition : Definition) (builder : Builder) :
    run definition.register builder =
      match run (definition.body.build definition.name) builder with
      | (.ok rule, built) => (.ok (), { built with
          grammar := built.grammar.insert definition.name (rule.withCeiling definition.ceiling) })
      | (.error error, built) => (.error error, built) := by
  rw [Definition.register, run_bind]
  rcases run (definition.body.build definition.name) builder with ⟨_ | rule, built⟩ <;> rfl

/-- Registering a definition mints what building its body adds. -/
theorem mints_register
    (h : Corresponds own σ first second) {definition : Definition} (hnames : definition.names ⊆ own)
    (hapart : ∀ name ∈ addedNames first (run (definition.body.build definition.name) first).2,
      name ∉ own)
    (hapart' : ∀ name ∈ addedNames second (run (definition.body.build definition.name) second).2,
      name ∉ own)
    (hfound : Unexhausted (run definition.register first).1)
    (hfound' : Unexhausted (run definition.register second).1) :
    ∃ τ, Mints own σ τ first second (run definition.register first).2
        (run definition.register second).2
        (addedNames first (run (definition.body.build definition.name) first).2)
        (addedNames second (run (definition.body.build definition.name) second).2) ∧
      (run definition.register second).1 = (run definition.register first).1 := by
  obtain ⟨hname, hreferences⟩ := List.cons_subset.mp hnames
  rw [Definition.register] at hfound hfound'
  obtain ⟨τ, hadvances, halike⟩ := parallel_build h definition.name definition.body hreferences
    ⟨hapart, unexhausted_of_bind hfound⟩ ⟨hapart', unexhausted_of_bind hfound'⟩
  have hmints := hadvances.mints h
  rw [run_register, run_register]
  rcases hrun : run (definition.body.build definition.name) first with ⟨outcome, built⟩
  rcases hrun' : run (definition.body.build definition.name) second with ⟨outcome', built'⟩
  rw [hrun, hrun'] at hmints halike
  cases halike with
  | error error => exact ⟨τ, hmints, rfl⟩
  | ok hrule =>
      have hinsert := hmints.corresponds.mints_insert hname (hrule.withCeiling definition.ceiling)
      have hboth := hmints.trans hinsert
      rw [List.append_nil, List.append_nil] at hboth
      exact ⟨τ, hboth, rfl⟩

theorem mints_registerAll
    {first second : Builder} {σ : Equiv.Perm String} (h : Corresponds own σ first second)
    {definitions : List Definition} (hnames : ∀ definition ∈ definitions, definition.names ⊆ own)
    (hapart : ∀ name ∈ mintedUntilError definitions first, name ∉ own)
    (hapart' : ∀ name ∈ mintedUntilError definitions second, name ∉ own)
    (hfound : Unexhausted (run (registerAll definitions) first).1)
    (hfound' : Unexhausted (run (registerAll definitions) second).1) :
    ∃ τ, Mints own σ τ first second (run (registerAll definitions) first).2
        (run (registerAll definitions) second).2 (mintedUntilError definitions first)
        (mintedUntilError definitions second) ∧
      (run (registerAll definitions) second).1 = (run (registerAll definitions) first).1 := by
  induction definitions generalizing first second σ with
  | nil => exact ⟨σ, .refl h, rfl⟩
  | cons definition definitions ih =>
      have hdefinition : definition.names ⊆ own := hnames definition List.mem_cons_self
      have hlater : ∀ later ∈ definitions, later.names ⊆ own := fun later hmem =>
        hnames later (List.mem_cons_of_mem _ hmem)
      rw [mintedUntilError] at hapart hapart'
      rw [registerAll] at hfound hfound' ⊢
      have hbody := fun name hname => hapart name (List.mem_append_left _ hname)
      have hbody' := fun name hname => hapart' name (List.mem_append_left _ hname)
      obtain ⟨τ, hmints, houtcome⟩ := mints_register h hdefinition hbody hbody'
        (unexhausted_of_bind hfound) (unexhausted_of_bind hfound')
      rw [run_bind] at hfound hfound' ⊢
      rw [run_bind, mintedUntilError, mintedUntilError]
      rcases hrun : run definition.register first with ⟨outcome, middle⟩
      rcases hrun' : run definition.register second with ⟨outcome', middle'⟩
      simp only [hrun, hrun'] at hmints houtcome hapart hapart' hfound hfound'
      subst houtcome
      cases outcome' with
      | error error =>
          refine ⟨τ, ?_, rfl⟩
          simpa using hmints
      | ok _ =>
          obtain ⟨υ, hmints', houtcome⟩ := ih hmints.corresponds hlater
            (fun name hname => hapart name (List.mem_append_right _ hname))
            (fun name hname => hapart' name (List.mem_append_right _ hname)) hfound hfound'
          exact ⟨υ, hmints.trans hmints', houtcome⟩

/-- Loading a source whose names are own names. -/
theorem mints_load
    (h : Corresponds own σ first second) {source : Text}
    (hnames : ∀ definitions, read source = .ok definitions →
      ∀ definition ∈ definitions, definition.names ⊆ own)
    (hapart : ∀ name ∈ mintedByLoad source first, name ∉ own)
    (hapart' : ∀ name ∈ mintedByLoad source second, name ∉ own)
    (hfound : ∀ stem attempts,
      (load source first).1 ≠ .error (.invalid (.namesExhausted stem attempts)))
    (hfound' : ∀ stem attempts,
      (load source second).1 ≠ .error (.invalid (.namesExhausted stem attempts))) :
    ∃ τ, Mints own σ τ first second (load source first).2 (load source second).2
        (mintedByLoad source first) (mintedByLoad source second) ∧
      (load source second).1 = (load source first).1 := by
  unfold mintedByLoad at hapart hapart' ⊢
  unfold load at hfound hfound' ⊢
  cases hread : read source with
  | error error => exact ⟨σ, .refl h, rfl⟩
  | ok definitions =>
      simp only [hread, register] at hapart hapart' hfound hfound' ⊢
      cases hrepeated : firstRepeated? [] (definitions.map Definition.name) with
      | some name => exact ⟨σ, .refl h, rfl⟩
      | none =>
          simp only [hrepeated] at hapart hapart' hfound hfound'
          have hinvalid {builder : Builder}
              (hfound : ∀ stem attempts, (run (registerAll definitions) builder).1.mapError
                LoadError.invalid ≠ .error (.invalid (.namesExhausted stem attempts))) :
              Unexhausted (run (registerAll definitions) builder).1 := by
            intro stem attempts herror
            exact hfound stem attempts (by rw [herror, Except.mapError])
          obtain ⟨τ, hmints, houtcome⟩ := mints_registerAll h (hnames definitions hread) hapart
            hapart' (hinvalid hfound) (hinvalid hfound')
          exact ⟨τ, hmints, by rw [houtcome]⟩

end Source
end GrammarRepair
