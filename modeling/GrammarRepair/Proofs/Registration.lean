import GrammarRepair.Proofs.JoinedLoading
import GrammarRepair.Proofs.Program.Independence

/-!
# What loading leaves behind

Building registers rules on the way, so a definition that cannot be built may
leave something behind.  A grammar gains entries and minted names when every
entry stands under its name, every minted name was free before, and all other
names have what they had.  Building a body gains minted names only, also when it
fails; registering a definition gains one entry more; and gains of one step after
the other add up.  So a load that fails leaves the definitions in front of the
one that fails, and nothing else under a name that had a rule.
-/

namespace GrammarRepair

open Build

/-- A step that succeeds has no failure. -/
theorem Build.fst_run_ne_error
    {α : Type} {step : Build α} {builder : Builder} {a : α} (hstep : (run step builder).1 = .ok a)
    (error : GrammarError) :
    (run step builder).1 ≠ .error error := by
  rw [hstep]
  intro heq
  cases heq

/-- A step in two parts has no failure that none of the parts has. -/
theorem Build.fst_run_bind_ne_error
    {α β : Type} {step : Build α} {next : α → Build β} {builder : Builder} {error : GrammarError}
    (hstep : (run step builder).1 ≠ .error error)
    (hnext : ∀ a middle, (run (next a) middle).1 ≠ .error error) :
    (run (step >>= next) builder).1 ≠ .error error := by
  rw [run_bind]
  rcases hrun : run step builder with ⟨cause | a, middle⟩
  · rw [hrun] at hstep
    exact fun heq => hstep (congrArg Except.error (Except.error.inj heq))
  · exact hnext a middle

/-! ## Gains -/

/-- The later grammar has these entries, and names that were minted for rules of
their own; all else is as in the earlier one. -/
structure Grammar.Gains
    (before after : Grammar) (entries : List (String × Rule)) (minted : List String) : Prop where
  registered : ∀ entry ∈ entries, after.find? entry.1 = some entry.2
  unbound : ∀ name ∈ minted, before.contains name = false
  drawn : ∀ name ∈ minted, ∃ stem draw, name = mintedName stem draw
  bound : ∀ name ∈ minted, after.contains name = true
  others : ∀ name, name ∉ entries.map Prod.fst → name ∉ minted →
    after.find? name = before.find? name

namespace Grammar.Gains

variable {before middle after : Grammar} {entries later : List (String × Rule)}
  {minted new : List String}

theorem refl (grammar : Grammar) : Gains grammar grammar [] [] where
  registered := by simp
  unbound := by simp
  drawn := by simp
  bound := by simp
  others _ _ _ := rfl

/-- Whatever has a rule and is not registered anew keeps its rule. -/
theorem keeps
    (h : Gains before after entries minted) {name : String} (hname : name ∉ entries.map Prod.fst)
    {rule : Rule} (hfind : before.find? name = some rule) :
    after.find? name = some rule := by
  have hminted : name ∉ minted := by
    intro hmem
    simpa [Table.contains, hfind] using h.unbound name hmem
  rw [h.others name hname hminted, hfind]

theorem contains
    (h : Gains before after entries minted) {name : String}
    (hname : before.contains name = true) :
    after.contains name = true := by
  by_cases hentry : name ∈ entries.map Prod.fst
  · obtain ⟨entry, hmem, rfl⟩ := List.mem_map.mp hentry
    simp [Table.contains, h.registered entry hmem]
  · obtain ⟨rule, hrule⟩ := Option.isSome_iff_exists.mp hname
    simp [Table.contains, h.keeps hentry hrule]

/-- Gains add up, as long as no entry takes the place of another. -/
theorem trans
    (h : Gains before middle entries minted) (h' : Gains middle after later new)
    (hapart : ∀ entry ∈ entries, entry.1 ∉ later.map Prod.fst) :
    Gains before after (entries ++ later) (minted ++ new) where
  registered entry hentry := by
    rcases List.mem_append.mp hentry with hentry | hentry
    · exact h'.keeps (hapart entry hentry) (h.registered entry hentry)
    · exact h'.registered entry hentry
  unbound name hname := by
    rcases List.mem_append.mp hname with hname | hname
    · exact h.unbound name hname
    · -- The first step takes no name away, so what is free behind it was free before.
      have hfree := h'.unbound name hname
      rw [← Bool.not_eq_true] at hfree ⊢
      exact fun hbefore => hfree (h.contains hbefore)
  drawn name hname := (List.mem_append.mp hname).elim (h.drawn name) (h'.drawn name)
  bound name hname := by
    rcases List.mem_append.mp hname with hname | hname
    · exact h'.contains (h.bound name hname)
    · exact h'.bound name hname
  others name hentries hnames := by
    rw [List.map_append, List.mem_append, not_or] at hentries
    rw [List.mem_append, not_or] at hnames
    rw [h'.others name hentries.2 hnames.2, h.others name hentries.1 hnames.1]

/-- To insert a rule is to gain its entry. -/
theorem insert (grammar : Grammar) (name : String) (rule : Rule) :
    Gains grammar (Table.insert grammar name rule) [(name, rule)] [] where
  registered := by simp
  unbound := by simp
  drawn := by simp
  bound := by simp
  others other hother _ := Table.find?_insert_of_ne _ _ (by simpa using hother)

end Grammar.Gains

open Grammar (Gains)
open Source (addedNames mem_addedNames_iff)

/-- A builder that grows gains the names that are added. -/
theorem Builder.Grows.gains {before after : Builder} (h : Builder.Grows before after) :
    Gains before.grammar after.grammar [] (addedNames before after) where
  registered := by simp
  unbound _ hname := (mem_addedNames_iff.mp hname).2
  drawn name hname := by
    obtain ⟨hafter, hbefore⟩ := mem_addedNames_iff.mp hname
    rcases h.contains hafter with hold | ⟨stem, -, draw, rfl⟩
    · rw [hold] at hbefore
      cases hbefore
    · exact ⟨stem, draw, rfl⟩
  bound _ hname := (mem_addedNames_iff.mp hname).1
  others name _ hname := by
    cases hfind : before.grammar.find? name with
    | some rule => exact h.extends.find? hfind
    | none =>
        have hfree : before.grammar.contains name = false := by simp [Table.contains, hfind]
        have hnone : ¬after.grammar.contains name = true := fun hafter =>
          hname (mem_addedNames_iff.mpr ⟨hafter, hfree⟩)
        simpa [Table.contains] using hnone

namespace Source

/-! ## Definitions one after the other -/

/-- From a builder, these definitions are built and registered one after the
other.  The entries are their names with their rules, under their ceilings. -/
inductive Registers : List Definition → Builder → List (String × Rule) → Builder → Prop
  | nil (builder : Builder) : Registers [] builder [] builder
  | cons {definition : Definition} {definitions : List Definition} {builder built after : Builder}
      {rule : Rule} {entries : List (String × Rule)}
      (hbuild : run (definition.body.build definition.name) builder = (.ok rule, built))
      (hlater : Registers definitions { built with
        grammar := built.grammar.insert definition.name (rule.withCeiling definition.ceiling) }
        entries after) :
      Registers (definition :: definitions) builder
        ((definition.name, rule.withCeiling definition.ceiling) :: entries) after

theorem Registers.names
    {definitions : List Definition} {builder after : Builder} {entries : List (String × Rule)}
    (h : Registers definitions builder entries after) :
    entries.map Prod.fst = definitions.map Definition.name := by
  induction h with
  | nil => rfl
  | cons _ _ ih => rw [List.map_cons, List.map_cons, ih]

theorem Registers.run_registerAll
    {definitions : List Definition} {builder after : Builder} {entries : List (String × Rule)}
    (h : Registers definitions builder entries after) :
    run (registerAll definitions) builder = (.ok (), after) := by
  induction h with
  | nil => rfl
  | cons hbuild _ ih =>
      rw [registerAll, run_bind, run_register, hbuild]
      exact ih

/-- Definitions are registered to the end, or up to one that cannot be built. -/
theorem registers_or_exists_failing (definitions : List Definition) (builder : Builder) :
    (∃ entries after, Registers definitions builder entries after) ∨
      ∃ earlier failing later entries middle error after,
        definitions = earlier ++ failing :: later ∧ Registers earlier builder entries middle ∧
          run (failing.body.build failing.name) middle = (.error error, after) := by
  induction definitions generalizing builder with
  | nil => exact .inl ⟨[], builder, .nil builder⟩
  | cons definition definitions ih =>
      rcases hbuild : run (definition.body.build definition.name) builder with ⟨error | rule, built⟩
      · exact .inr ⟨[], definition, definitions, [], builder, error, built, rfl, .nil builder,
          hbuild⟩
      · rcases ih { built with
            grammar := built.grammar.insert definition.name (rule.withCeiling definition.ceiling) }
          with ⟨entries, after, hlater⟩ | ⟨earlier, failing, later, entries, middle, error, after,
            rfl, hearlier, hfailing⟩
        · exact .inl ⟨_, after, .cons hbuild hlater⟩
        · exact .inr ⟨definition :: earlier, failing, later, _, middle, error, after, rfl,
            .cons hbuild hearlier, hfailing⟩

/-- The cause that stops one definition is the outcome of all. -/
theorem run_registerAll_eq_error
    {earlier later : List Definition} {failing : Definition} {builder middle after : Builder}
    {entries : List (String × Rule)} {error : GrammarError}
    (hearlier : Registers earlier builder entries middle)
    (hfailing : run (failing.body.build failing.name) middle = (.error error, after)) :
    run (registerAll (earlier ++ failing :: later)) builder = (.error error, after) := by
  rw [registerAll_append, run_bind, hearlier.run_registerAll, registerAll]
  simp only [run_bind, run_register, hfailing]

/-- Definitions with different names gain their entries. -/
theorem Registers.gains
    {definitions : List Definition} {builder after : Builder} {entries : List (String × Rule)}
    (h : Registers definitions builder entries after)
    (hnodup : (definitions.map Definition.name).Nodup) :
    Gains builder.grammar after.grammar entries (mintedUntilError definitions builder) := by
  induction h with
  | nil builder => exact .refl builder.grammar
  | @cons definition definitions builder built after rule entries hbuild hlater ih =>
      obtain ⟨hname, hnodup⟩ := List.nodup_cons.mp hnodup
      have hbody := (grows_build definition.name definition.body builder).gains
      rw [hbuild] at hbody
      have hentry := hbody.trans (.insert built.grammar definition.name
        (rule.withCeiling definition.ceiling)) (by simp)
      rw [List.append_nil] at hentry
      rw [mintedUntilError, run_register, hbuild]
      -- A later definition has another name, and minting takes no name that has a rule.
      refine hentry.trans (ih hnodup) fun entry hmem => ?_
      obtain rfl := List.mem_singleton.mp hmem
      rwa [hlater.names]

/-- A definition that cannot be built gains the names it has minted. -/
theorem Registers.gains_of_failing
    {earlier later : List Definition} {failing : Definition} {builder middle after : Builder}
    {entries : List (String × Rule)} {error : GrammarError}
    (hearlier : Registers earlier builder entries middle)
    (hfailing : run (failing.body.build failing.name) middle = (.error error, after))
    (hnodup : (earlier.map Definition.name).Nodup) :
    Gains builder.grammar after.grammar entries
      (mintedUntilError (earlier ++ failing :: later) builder) := by
  have hbody := (grows_build failing.name failing.body middle).gains
  rw [hfailing] at hbody
  have hboth := (hearlier.gains hnodup).trans hbody (by simp)
  rw [List.append_nil] at hboth
  rw [mintedUntilError_append hearlier.run_registerAll, mintedUntilError, run_register, hfailing]
  simpa only [List.append_nil] using hboth

/-! ## Names that are defined twice -/

theorem withSuggestion_ne_duplicateRule
    (suggestion : Suggestion) (rule : Rule) (other : String) :
    rule.withSuggestion suggestion ≠ .error (.duplicateRule other) := by
  match rule with
  | .literal _ | .sequence _ | .reference _ | .bound _ _ | .range _ _ | .choice _ _ =>
      intro heq
      cases heq
  | .capped limit inner =>
      have hinner := withSuggestion_ne_duplicateRule suggestion inner other
      rw [Rule.withSuggestion]
      cases hresult : inner.withSuggestion suggestion with
      | error cause =>
          rw [hresult] at hinner
          exact fun heq => hinner (congrArg Except.error (Except.error.inj heq))
      | ok found =>
          intro heq
          cases heq

theorem fst_run_repeated_ne_duplicateRule
    (low : Nat) (high : Option Nat) (rule : Rule) (builder : Builder) (other : String) :
    (run (repeated low high rule) builder).1 ≠ .error (.duplicateRule other) := by
  cases high with
  | some high => exact fst_run_ne_error rfl _
  | none =>
      rw [repeated]
      refine fst_run_bind_ne_error ?_ fun name middle => fst_run_ne_error rfl _
      rw [run_freshName]
      intro heq
      split at heq
      · cases heq
      · cases heq

mutual

/-- Building does not look for names that are defined twice. -/
theorem fst_run_build_ne_duplicateRule
    (name : String) (expr : Expr) (builder : Builder) (other : String) :
    (run (expr.build name) builder).1 ≠ .error (.duplicateRule other) := by
  match expr with
  | .literal _ | .range _ _ | .reference _ =>
      rw [Expr.build]
      exact fst_run_ne_error rfl _
  | .sequence items =>
      rw [Expr.build]
      exact fst_run_bind_ne_error (fst_run_buildAll_ne_duplicateRule name items builder other)
        fun _ _ => fst_run_ne_error rfl _
  | .choice branches =>
      rw [Expr.build]
      exact fst_run_bind_ne_error (fst_run_buildAll_ne_duplicateRule name branches builder other)
        fun _ _ => fst_run_ne_error rfl _
  | .repeated inner low high =>
      rw [Expr.build]
      exact fst_run_bind_ne_error (fst_run_build_ne_duplicateRule name inner builder other)
        fun rule middle => fst_run_repeated_ne_duplicateRule low high rule middle other
  | .suggesting inner suggestion =>
      rw [Expr.build]
      refine fst_run_bind_ne_error (fst_run_ne_error rfl _) fun found middle => ?_
      split
      · intro heq
        cases heq
      · refine fst_run_bind_ne_error (fst_run_build_ne_duplicateRule name inner middle other)
          fun rule last => ?_
        rw [run_liftExcept]
        exact withSuggestion_ne_duplicateRule _ rule other

theorem fst_run_buildAll_ne_duplicateRule
    (name : String) (exprs : List Expr) (builder : Builder) (other : String) :
    (run (buildAll name exprs) builder).1 ≠ .error (.duplicateRule other) := by
  match exprs with
  | [] =>
      rw [buildAll]
      exact fst_run_ne_error rfl _
  | expr :: exprs =>
      rw [buildAll]
      refine fst_run_bind_ne_error (fst_run_build_ne_duplicateRule name expr builder other)
        fun rule middle => ?_
      exact fst_run_bind_ne_error (fst_run_buildAll_ne_duplicateRule name exprs middle other)
        fun _ _ => fst_run_ne_error rfl _

end

/-! ## Loading -/

/-- What loading a source comes to, and the builder it leaves. -/
inductive LoadEffect (source : Text) (builder : Builder) : Except LoadError Unit → Builder → Prop
  | malformed {error : SyntaxError} (hread : read source = .error error) :
      LoadEffect source builder (.error (.malformed error)) builder
  | repeated {definitions : List Definition} (name : String)
      (hread : read source = .ok definitions)
      (hrepeated : ¬(definitions.map Definition.name).Nodup) :
      LoadEffect source builder (.error (.invalid (.duplicateRule name))) builder
  | failed {earlier later : List Definition} {failing : Definition}
      {entries : List (String × Rule)} {middle after : Builder} {error : GrammarError}
      (hread : read source = .ok (earlier ++ failing :: later))
      (hnodup : ((earlier ++ failing :: later).map Definition.name).Nodup)
      (hearlier : Registers earlier builder entries middle)
      (hfailing : run (failing.body.build failing.name) middle = (.error error, after)) :
      LoadEffect source builder (.error (.invalid error)) after
  | loaded {definitions : List Definition} {entries : List (String × Rule)} {after : Builder}
      (hread : read source = .ok definitions)
      (hnodup : (definitions.map Definition.name).Nodup)
      (hall : Registers definitions builder entries after) :
      LoadEffect source builder (.ok ()) after

theorem loadEffect_load (source : Text) (builder : Builder) :
    LoadEffect source builder (load source builder).1 (load source builder).2 := by
  cases hread : read source with
  | error error =>
      rw [load, hread]
      exact .malformed hread
  | ok definitions =>
      have hnone := @firstRepeated?_eq_none_iff [] (definitions.map Definition.name)
      simp only [load, hread, register]
      cases hfirst : firstRepeated? [] (definitions.map Definition.name) with
      | some name =>
          refine .repeated name hread fun hnodup => ?_
          rw [hnone.mpr ⟨hnodup, fun _ _ => List.not_mem_nil⟩] at hfirst
          cases hfirst
      | none =>
          have hnodup := (hnone.mp hfirst).1
          rcases registers_or_exists_failing definitions builder with ⟨entries, after, hall⟩ |
            ⟨earlier, failing, later, entries, middle, error, after, rfl, hearlier, hfailing⟩
          · simp only [hall.run_registerAll]
            exact .loaded hread hnodup hall
          · simp only [run_registerAll_eq_error hearlier hfailing]
            exact .failed hread hnodup hearlier hfailing

theorem suggestions_load (source : Text) (builder : Builder) :
    (load source builder).2.suggestions = builder.suggestions := by
  cases hread : read source with
  | error error => rw [load, hread]
  | ok definitions =>
      have hall := suggestions_run_registerAll definitions builder
      simp only [load, hread, register]
      split
      · rfl
      · exact hall

section

variable {source : Text} {builder after : Builder}

theorem LoadEffect.eq_of_malformed
    {error : SyntaxError} (h : LoadEffect source builder (.error (.malformed error)) after) :
    after = builder := by
  cases h with
  | malformed => rfl

theorem LoadEffect.duplicateRule
    {name : String}
    (h : LoadEffect source builder (.error (.invalid (.duplicateRule name))) after) :
    after = builder ∧ ∃ definitions, read source = .ok definitions ∧
      ¬(definitions.map Definition.name).Nodup := by
  cases h with
  | repeated _ hread hrepeated => exact ⟨rfl, _, hread, hrepeated⟩
  | @failed _ _ failing _ middle _ _ _ _ _ hfailing =>
      have hbody := fst_run_build_ne_duplicateRule failing.name failing.body middle name
      exact absurd (congrArg Prod.fst hfailing) hbody

/-- A source with a name that is defined twice is refused for that. -/
theorem LoadEffect.exists_duplicateRule
    {outcome : Except LoadError Unit} {definitions : List Definition}
    (h : LoadEffect source builder outcome after) (hread : read source = .ok definitions)
    (hrepeated : ¬(definitions.map Definition.name).Nodup) :
    ∃ name, outcome = .error (.invalid (.duplicateRule name)) := by
  cases h with
  | malformed hother => rw [hread] at hother; cases hother
  | repeated name => exact ⟨name, rfl⟩
  | failed hother hnodup | loaded hother hnodup =>
      rw [hread] at hother
      cases hother
      exact absurd hnodup hrepeated

theorem LoadEffect.gains_of_failed
    {cause : LoadError} (h : LoadEffect source builder (.error cause) after)
    (hmalformed : ∀ error, cause ≠ .malformed error)
    (hduplicate : ∀ name, cause ≠ .invalid (.duplicateRule name)) :
    ∃ earlier failing later entries middle error,
      read source = .ok (earlier ++ failing :: later) ∧ cause = .invalid error ∧
        Registers earlier builder entries middle ∧
        run (failing.body.build failing.name) middle = (.error error, after) ∧
        Gains builder.grammar after.grammar entries (mintedByLoad source builder) ∧
        ∀ definition ∈ failing :: later, definition.name ∉ entries.map Prod.fst := by
  cases h with
  | @malformed error => exact absurd rfl (hmalformed error)
  | repeated name => exact absurd rfl (hduplicate name)
  | @failed earlier later failing entries middle _ error hread hnodup hearlier hfailing =>
      refine ⟨earlier, failing, later, entries, middle, error, hread, rfl, hearlier, hfailing,
        ?_, ?_⟩
      · rw [mintedByLoad_eq hread hnodup]
        rw [List.map_append] at hnodup
        exact hearlier.gains_of_failing hfailing hnodup.of_append_left
      · intro definition hmem hentry
        rw [hearlier.names] at hentry
        rw [List.map_append] at hnodup
        exact (List.disjoint_of_nodup_append hnodup) hentry (List.mem_map_of_mem hmem)

theorem LoadEffect.gains_of_loaded (h : LoadEffect source builder (.ok ()) after) :
    ∃ definitions entries, read source = .ok definitions ∧
      Registers definitions builder entries after ∧
        Gains builder.grammar after.grammar entries (mintedByLoad source builder) := by
  cases h with
  | @loaded definitions entries _ hread hnodup hall =>
      refine ⟨definitions, entries, hread, hall, ?_⟩
      rw [mintedByLoad_eq hread hnodup]
      exact hall.gains hnodup

end

/-- Loading leaves the suggestions as they are.  A source that is malformed, or
that defines a name twice, leaves the whole builder as it is, and the latter is
reported exactly if there is such a name.  If the load fails otherwise, the
definitions in front of the one that fails are registered, and the grammar gains
their entries and minted names; the failing definition and the later ones have
what they had, since what had no rule gets one only as a minted name.  If the
load succeeds, the entries of all definitions are gained in this way. -/
theorem suggestions_load_and_gains (source : Text) (builder : Builder) :
    let outcome := (load source builder).1
    let after := (load source builder).2
    let minted := mintedByLoad source builder
    after.suggestions = builder.suggestions ∧
      (∀ error, outcome = .error (.malformed error) → after = builder) ∧
      (∀ name, outcome = .error (.invalid (.duplicateRule name)) → after = builder) ∧
      ((∃ name, outcome = .error (.invalid (.duplicateRule name))) ↔
        ∃ definitions, read source = .ok definitions ∧
          ¬(definitions.map Definition.name).Nodup) ∧
      (∀ cause, outcome = .error cause → (∀ error, cause ≠ .malformed error) →
        (∀ name, cause ≠ .invalid (.duplicateRule name)) →
          ∃ earlier failing later entries middle error,
            read source = .ok (earlier ++ failing :: later) ∧ cause = .invalid error ∧
              Registers earlier builder entries middle ∧
              run (failing.body.build failing.name) middle = (.error error, after) ∧
              Gains builder.grammar after.grammar entries minted ∧
              ∀ definition ∈ failing :: later,
                (∀ rule, builder.grammar.find? definition.name = some rule →
                  after.grammar.find? definition.name = some rule) ∧
                (definition.name ∉ minted →
                  after.grammar.find? definition.name = builder.grammar.find? definition.name)) ∧
      (outcome = .ok () → ∃ definitions entries, read source = .ok definitions ∧
        Registers definitions builder entries after ∧
          Gains builder.grammar after.grammar entries minted) := by
  intro outcome after minted
  have heffect : LoadEffect source builder outcome after := loadEffect_load source builder
  refine ⟨suggestions_load source builder, fun error houtcome => ?_, fun name houtcome => ?_,
    ⟨?_, ?_⟩, fun cause houtcome hmalformed hduplicate => ?_, fun houtcome => ?_⟩
  · rw [houtcome] at heffect
    exact heffect.eq_of_malformed
  · rw [houtcome] at heffect
    exact heffect.duplicateRule.1
  · rintro ⟨name, houtcome⟩
    rw [houtcome] at heffect
    exact heffect.duplicateRule.2
  · rintro ⟨definitions, hread, hrepeated⟩
    exact heffect.exists_duplicateRule hread hrepeated
  · rw [houtcome] at heffect
    obtain ⟨earlier, failing, later, entries, middle, error, hread, hcause, hearlier, hfailing,
      hgains, hapart⟩ := heffect.gains_of_failed hmalformed hduplicate
    refine ⟨earlier, failing, later, entries, middle, error, hread, hcause, hearlier, hfailing,
      hgains, fun definition hmem => ⟨fun rule hfind => ?_, fun hminted => ?_⟩⟩
    · exact hgains.keeps (hapart definition hmem) hfind
    · exact hgains.others _ (hapart definition hmem) hminted
  · rw [houtcome] at heffect
    exact heffect.gains_of_loaded

/-- Short words. -/
def shortDefinition : Definition :=
  ⟨"short", some 3, .repeated (.literal ['a']) 0 none⟩

/-- Words with a mark, for which there is no suggestion. -/
def markedDefinition : Definition :=
  ⟨"marked", none, .sequence [.repeated (.reference "short") 0 none,
    .suggesting (.range 'x' 'z') "loud"]⟩

def markedSource : Text :=
  "short (max 3) = \"a\"*; marked = short* 'x'..'z'@loud;".toList

theorem read_markedSource : read markedSource = .ok [shortDefinition, markedDefinition] := by
  decide +kernel

/-- The mark has no suggestion, after a name was minted for the words in front of
it.  So two minted names and the short words are left, under their ceiling, and
the dot has the rule that it had. -/
theorem suggestions_load_and_gains_markedSource :
    let after := (load markedSource listBuilder).2
    (load markedSource listBuilder).1 =
        .error (.invalid (.unknownSuggestion "loud" "marked")) ∧
      mintedByLoad markedSource listBuilder = ["seq-0000000000000000", "seq-0000000000000001"] ∧
      after.suggestions = listBuilder.suggestions ∧
      (after.grammar.find? "short").bind Rule.ceiling? = some 3 ∧
      after.grammar.contains "marked" = false ∧
      after.grammar.find? "dot" = some (.literal ['.']) := by
  intro after
  obtain ⟨houtcome, hminted, hshort, hmarked⟩ :
      (load markedSource listBuilder).1 =
        .error (.invalid (.unknownSuggestion "loud" "marked")) ∧
      mintedByLoad markedSource listBuilder = ["seq-0000000000000000", "seq-0000000000000001"] ∧
      (after.grammar.find? "short").bind Rule.ceiling? = some 3 ∧
      after.grammar.contains "marked" = false := by decide +kernel
  obtain ⟨hsuggestions, -, -, -, hfailed, -⟩ := suggestions_load_and_gains markedSource listBuilder
  obtain ⟨earlier, failing, later, entries, middle, error, hread, -, hearlier, -, hgains, -⟩ :=
    hfailed _ houtcome nofun nofun
  have hdot : "dot" ∉ entries.map Prod.fst := by
    rw [read_markedSource] at hread
    rw [hearlier.names]
    intro hmem
    have hall : "dot" ∈ [shortDefinition, markedDefinition].map Definition.name := by
      rw [Except.ok.inj hread, List.map_append]
      exact List.mem_append_left _ hmem
    revert hall
    decide
  exact ⟨houtcome, hminted, hsuggestions, hshort, hmarked, hgains.keeps hdot rfl⟩

end Source
end GrammarRepair
