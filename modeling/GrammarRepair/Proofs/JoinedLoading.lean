import GrammarRepair.Proofs.Minting
import GrammarRepair.Proofs.Source.Joining
import GrammarRepair.Proofs.Verdict

/-!
# Loading sources one after the other

Loading two sources does what loading the joined source does, as long as no name
is defined in both.  The one difference is in the order of the checks: all of a
source is checked for names that are defined twice before anything in it is
built.  So a failure may come at another point, but it comes in both cases or in
neither.

With the same draws, the two ways end in the same builder.  With other draws they
end in grammars that differ in the minted names only.
-/

namespace GrammarRepair

/-- Renaming nothing changes nothing. -/
theorem Grammar.rename_refl (grammar : Grammar) : grammar.rename (Equiv.refl String) = grammar := by
  obtain ⟨entries, hnodup⟩ := grammar
  simp [rename, Rule.rename_refl]

namespace Source

open Build
open Builder (Corresponds Mints)

/-- Load a source and then another, unless the first one fails. -/
def loadBoth (first second : Text) (builder : Builder) : Except LoadError Unit × Builder :=
  match load first builder with
  | (.ok (), middle) => load second middle
  | (.error error, middle) => (.error error, middle)

/-- The names that are minted on the way. -/
def mintedByBoth (first second : Text) (builder : Builder) : List String :=
  mintedByLoad first builder ++
    match load first builder with
    | (.ok (), middle) => mintedByLoad second middle
    | (.error _, _) => []

/-! ## The same draws -/

/-- A source is loaded if it can be read, defines no name twice, and all its
definitions are registered. -/
theorem load_eq_ok_iff {source : Text} {builder after : Builder} :
    load source builder = (.ok (), after) ↔
      ∃ definitions, read source = .ok definitions ∧
        (definitions.map Definition.name).Nodup ∧
          run (registerAll definitions) builder = (.ok (), after) := by
  rw [load]
  cases hread : read source with
  | error error => simp
  | ok definitions =>
      have hrepeated := @firstRepeated?_eq_none_iff [] (definitions.map Definition.name)
      simp only [Except.ok.injEq, exists_eq_left', register]
      cases hfirst : firstRepeated? [] (definitions.map Definition.name) with
      | some name =>
          rw [hfirst] at hrepeated
          simp at hrepeated
          simp [hrepeated, Except.mapError]
      | none =>
          rcases run (registerAll definitions) builder with ⟨error | ⟨⟩, registered⟩
          · simp [Except.mapError]
          · simp [Except.mapError, (hrepeated.mp hfirst).1]

theorem mintedByLoad_eq
    {source : Text} {definitions : List Definition} (hread : read source = .ok definitions)
    (hnodup : (definitions.map Definition.name).Nodup) (builder : Builder) :
    mintedByLoad source builder = mintedUntilError definitions builder := by
  have hfirst : firstRepeated? [] (definitions.map Definition.name) = none :=
    firstRepeated?_eq_none_iff.mpr ⟨hnodup, fun _ _ => List.not_mem_nil⟩
  simp only [mintedByLoad, hread, hfirst]

theorem loadBoth_eq_ok_iff {first second : Text} {builder after : Builder} :
    loadBoth first second builder = (.ok (), after) ↔
      ∃ middle, load first builder = (.ok (), middle) ∧ load second middle = (.ok (), after) := by
  rw [loadBoth]
  rcases load first builder with ⟨error | ⟨⟩, middle⟩
  · simp
  · simp

theorem registerAll_append (definitions later : List Definition) :
    registerAll (definitions ++ later) =
      registerAll definitions >>= fun _ => registerAll later := by
  induction definitions with
  | nil => rfl
  | cons definition definitions ih =>
      rw [List.cons_append, registerAll, registerAll, ih, bind_assoc]

theorem mintedUntilError_append
    {definitions later : List Definition} {builder middle : Builder}
    (hrun : run (registerAll definitions) builder = (.ok (), middle)) :
    mintedUntilError (definitions ++ later) builder =
      mintedUntilError definitions builder ++ mintedUntilError later middle := by
  induction definitions generalizing builder with
  | nil =>
      cases hrun
      rfl
  | cons definition definitions ih =>
      rw [registerAll] at hrun
      obtain ⟨⟨⟩, registered, hregister, hrest⟩ := run_bind_eq_ok_iff.mp hrun
      rw [List.cons_append, mintedUntilError, mintedUntilError, hregister, List.append_assoc]
      simp only [ih hrest]

/-- No name is defined in both. -/
def Apart (definitions later : List Definition) : Prop :=
  ∀ definition ∈ definitions, ∀ other ∈ later, definition.name ≠ other.name

theorem Apart.nodup_iff {definitions later : List Definition} (h : Apart definitions later) :
    ((definitions ++ later).map Definition.name).Nodup ↔
      (definitions.map Definition.name).Nodup ∧ (later.map Definition.name).Nodup := by
  rw [List.map_append, List.nodup_append]
  constructor
  · rintro ⟨hfirst, hsecond, -⟩
    exact ⟨hfirst, hsecond⟩
  · rintro ⟨hfirst, hsecond⟩
    refine ⟨hfirst, hsecond, fun name hname other hother => ?_⟩
    obtain ⟨definition, hmem, rfl⟩ := List.mem_map.mp hname
    obtain ⟨definition', hmem', rfl⟩ := List.mem_map.mp hother
    exact h definition hmem definition' hmem'

section Both

variable {first second : Text} {definitions later : List Definition} {builder after : Builder}

/-- With the same draws, both ways end in the same builder. -/
theorem loadBoth_eq_ok_iff_load_joined
    (hfirst : read first = .ok definitions) (hsecond : read second = .ok later)
    (hapart : Apart definitions later) :
    loadBoth first second builder = (.ok (), after) ↔
      load (joined first second) builder = (.ok (), after) := by
  rw [loadBoth_eq_ok_iff]
  simp only [load_eq_ok_iff, hfirst, hsecond, read_joined hfirst hsecond, Except.ok.injEq,
    exists_eq_left', registerAll_append, run_bind_eq_ok_iff, hapart.nodup_iff]
  constructor
  · rintro ⟨middle, ⟨hnodup, hrun⟩, hnodup', hrun'⟩
    exact ⟨⟨hnodup, hnodup'⟩, (), middle, hrun, hrun'⟩
  · rintro ⟨⟨hnodup, hnodup'⟩, ⟨⟩, middle, hrun, hrun'⟩
    exact ⟨middle, ⟨hnodup, hrun⟩, hnodup', hrun'⟩

theorem mintedByLoad_joined
    (hfirst : read first = .ok definitions) (hsecond : read second = .ok later)
    (hapart : Apart definitions later) (hload : loadBoth first second builder = (.ok (), after)) :
    mintedByLoad (joined first second) builder = mintedByBoth first second builder := by
  obtain ⟨middle, hmiddle, hafter⟩ := loadBoth_eq_ok_iff.mp hload
  obtain ⟨found, hread, hnodup, hrun⟩ := load_eq_ok_iff.mp hmiddle
  obtain ⟨found', hread', hnodup', -⟩ := load_eq_ok_iff.mp hafter
  rw [hfirst] at hread
  rw [hsecond] at hread'
  cases hread
  cases hread'
  rw [mintedByLoad_eq (read_joined hfirst hsecond) (hapart.nodup_iff.mpr ⟨hnodup, hnodup'⟩),
    mintedUntilError_append hrun, mintedByBoth, mintedByLoad_eq hfirst hnodup, hmiddle]
  simp only [mintedByLoad_eq hsecond hnodup']

/-! ## Other draws -/

theorem suggestions_of_load
    {source : Text} (hload : load source builder = (.ok (), after)) :
    after.suggestions = builder.suggestions := by
  obtain ⟨found, -, -, hrun⟩ := load_eq_ok_iff.mp hload
  have hsuggestions := suggestions_run_registerAll found builder
  rwa [hrun] at hsuggestions

/-- As long as no name is missing, both sources are loaded if the definitions of
both get through. -/
theorem loadBoth_eq_ok_iff_verdict
    (hfirst : read first = .ok definitions) (hsecond : read second = .ok later)
    (hfound : ¬Exhausted (loadBoth first second builder).1) :
    (loadBoth first second builder).1 = .ok () ↔
      verdict builder.suggestions definitions = .ok () ∧
        verdict builder.suggestions later = .ok () := by
  rw [loadBoth] at hfound ⊢
  rcases hload : load first builder with ⟨error | ⟨⟩, middle⟩
  · rw [hload] at hfound
    have hfound' : ¬Exhausted (load first builder).1 := by rwa [hload]
    have hverdict := load_eq_ok_iff_verdict hfirst hfound'
    rw [hload] at hverdict
    simp [← hverdict]
  · rw [hload] at hfound
    have hverdict : verdict builder.suggestions definitions = .ok () := by
      rw [← load_eq_ok_iff_verdict hfirst (by rw [hload]; exact nofun), hload]
    rw [← suggestions_of_load hload] at hverdict ⊢
    simp [hverdict, load_eq_ok_iff_verdict hsecond hfound]

/-- As long as no name is missing, both ways succeed or neither, whatever the
draws. -/
theorem loadBoth_eq_ok_iff_load_joined_of_found
    (hfirst : read first = .ok definitions) (hsecond : read second = .ok later)
    (hapart : Apart definitions later) (supply : NameSupply)
    (hfound : ¬Exhausted (loadBoth first second builder).1)
    (hfound' : ¬Exhausted (load (joined first second) { builder with supply }).1) :
    (loadBoth first second builder).1 = .ok () ↔
      (load (joined first second) { builder with supply }).1 = .ok () := by
  rw [loadBoth_eq_ok_iff_verdict hfirst hsecond hfound,
    load_eq_ok_iff_verdict (read_joined hfirst hsecond) hfound', verdict_eq_ok_iff,
    verdict_eq_ok_iff, verdict_eq_ok_iff, hapart.nodup_iff, List.forall_mem_append]
  tauto

/-- The names that the definitions, or the rules of the builder, mention. -/
def Mentioned (definitions : List Definition) (builder : Builder) (name : String) : Prop :=
  (∃ definition ∈ definitions, name ∈ definition.names) ∨
    ∃ entry ∈ builder.grammar.entries, name ∈ entry.2.names

/-- Where neither way mints a name that is mentioned, the grammars differ by a
permutation of minted names. -/
theorem exists_rename_of_loadBoth
    (hfirst : read first = .ok definitions) (hsecond : read second = .ok later)
    (hapart : Apart definitions later) (supply : NameSupply)
    (hload : (loadBoth first second builder).1 = .ok ())
    (hload' : (load (joined first second) { builder with supply }).1 = .ok ())
    (hminted : ∀ name ∈ mintedByBoth first second builder ++
      mintedByLoad (joined first second) { builder with supply },
      ¬Mentioned (definitions ++ later) builder name) :
    ∃ σ : Equiv.Perm String,
      (∀ name, σ name ≠ name → name ∈ mintedByBoth first second builder ++
        mintedByLoad (joined first second) { builder with supply }) ∧
      mintedByLoad (joined first second) { builder with supply } =
        (mintedByBoth first second builder).map σ ∧
      (load (joined first second) { builder with supply }).2.grammar =
        (loadBoth first second builder).2.grammar.rename σ := by
  let own := (definitions ++ later).flatMap Definition.names ++
    builder.grammar.entries.flatMap fun entry => entry.2.names
  have hown : ∀ name ∈ mintedByBoth first second builder ++
      mintedByLoad (joined first second) { builder with supply }, name ∉ own := by
    intro name hname hmem
    refine hminted name hname ?_
    rcases List.mem_append.mp hmem with hmem | hmem
    · exact .inl (List.mem_flatMap.mp hmem)
    · exact .inr (List.mem_flatMap.mp hmem)
  have hstart : Corresponds own (Equiv.refl String) builder { builder with supply } := by
    refine ⟨fun _ _ => rfl, (Grammar.rename_refl _).symm, rfl, ?_⟩
    intro name rule hfind other hother
    have hentry := Table.mem_entries_of_find? hfind
    exact .inl (List.mem_append_right _ (List.mem_flatMap.mpr ⟨(name, rule), hentry, hother⟩))
  have hboth : loadBoth first second builder = (.ok (), (loadBoth first second builder).2) :=
    Prod.ext hload rfl
  have hjoined := (loadBoth_eq_ok_iff_load_joined hfirst hsecond hapart).mp hboth
  have hnames := mintedByLoad_joined hfirst hsecond hapart hboth
  have hdefinitions : ∀ found, read (joined first second) = .ok found →
      ∀ definition ∈ found, definition.names ⊆ own := by
    intro found hread definition hmem name hname
    rw [read_joined hfirst hsecond] at hread
    cases hread
    exact List.mem_append_left _ (List.mem_flatMap.mpr ⟨definition, hmem, hname⟩)
  obtain ⟨σ, hmints, -⟩ := mints_load hstart hdefinitions
    (fun name hname => hown name (List.mem_append_left _ (hnames ▸ hname)))
    (fun name hname => hown name (List.mem_append_right _ hname))
    (by rw [hjoined]; exact nofun) (by rw [hload']; exact nofun)
  rw [hnames, hjoined] at hmints
  refine ⟨σ, fun name hmoved => ?_, hmints.renamed, hmints.corresponds.grammar⟩
  exact List.mem_append.mpr ((hmints.moves name hmoved).resolve_left fun h => h rfl)

end Both

/-- If two sources can be read, the joined source is read as what both say, one
after the other.  If no name is defined in both, loading the joined source does
what loading both does: with the same draws it succeeds with the same builder,
or not at all; with any draws, names being missing in neither case, it succeeds
or fails alike, and if no name that is minted is mentioned elsewhere, it ends in
a grammar that differs by a permutation of the minted names only. -/
theorem read_joined_and_load_joined_iff
    {first second : Text} {definitions later : List Definition}
    (hfirst : read first = .ok definitions) (hsecond : read second = .ok later) :
    read (joined first second) = .ok (definitions ++ later) ∧
      (Apart definitions later →
        (∀ builder after : Builder, loadBoth first second builder = (.ok (), after) ↔
          load (joined first second) builder = (.ok (), after)) ∧
        ∀ (builder : Builder) (supply : NameSupply),
          let both := loadBoth first second builder
          let atOnce := load (joined first second) { builder with supply }
          let minted := mintedByBoth first second builder
          let minted' := mintedByLoad (joined first second) { builder with supply }
          ¬Exhausted both.1 → ¬Exhausted atOnce.1 →
            (both.1 = .ok () ↔ atOnce.1 = .ok ()) ∧
            (both.1 = .ok () →
              (∀ name ∈ minted ++ minted', ¬Mentioned (definitions ++ later) builder name) →
              ∃ σ : Equiv.Perm String, (∀ name, σ name ≠ name → name ∈ minted ++ minted') ∧
                minted' = minted.map σ ∧ atOnce.2.grammar = both.2.grammar.rename σ)) := by
  refine ⟨read_joined hfirst hsecond, fun hapart => ⟨fun builder after => ?_, ?_⟩⟩
  · exact loadBoth_eq_ok_iff_load_joined hfirst hsecond hapart
  · intro builder supply both atOnce minted minted' hfound hfound'
    have hiff :=
      loadBoth_eq_ok_iff_load_joined_of_found hfirst hsecond hapart supply hfound hfound'
    exact ⟨hiff, fun hload hminted =>
      exists_rename_of_loadBoth hfirst hsecond hapart supply hload (hiff.mp hload) hminted⟩

/-- Words over three letters. -/
def wordDefinition : Definition :=
  ⟨"word", none, .repeated (.choice [.range 'a' 'a', .range 'b' 'c']) 0 none⟩

/-- A word with a last letter. -/
def listDefinition : Definition :=
  ⟨"list", none, .sequence [.reference "word", .suggesting (.range 'x' 'z') "low"]⟩

def wordSource : Text :=
  "word = ('a' | 'b'..'c')*; # words".toList

def listSource : Text :=
  "list = word 'x'..'z'@low;".toList

theorem read_wordSource : read wordSource = .ok [wordDefinition] := by
  decide +kernel

theorem read_listSource : read listSource = .ok [listDefinition] := by
  decide +kernel

/-- A builder with a rule and a suggestion. -/
def listBuilder : Builder where
  grammar := Grammar.empty.insert "dot" (.literal ['.'])
  suggestions := Table.empty.insert "low" .lowercase
  supply := .counting

/-- The line feed ends the comment at the end of the first source; and where
the second supply has other draws, one name is another. -/
theorem load_wordSource_and_listSource :
    let supply : NameSupply := { draw := fun count => UInt64.ofNat (count + 10) }
    let both := loadBoth wordSource listSource listBuilder
    let atOnce := load (joined wordSource listSource) { listBuilder with supply }
    read (joined wordSource listSource) = .ok [wordDefinition, listDefinition] ∧
      both.1 = .ok () ∧ atOnce.1 = .ok () ∧
      mintedByBoth wordSource listSource listBuilder ≠
        mintedByLoad (joined wordSource listSource) { listBuilder with supply } ∧
      load (joined wordSource listSource) listBuilder = (.ok (), both.2) ∧
      ∃ σ : Equiv.Perm String, atOnce.2.grammar = both.2.grammar.rename σ := by
  intro supply both atOnce
  have hapart : Apart [wordDefinition] [listDefinition] := by
    unfold Apart
    decide
  have hboth : both.1 = .ok () := by decide +kernel
  have hatOnce : atOnce.1 = .ok () := by decide +kernel
  have hminted : mintedByBoth wordSource listSource listBuilder = ["seq-0000000000000000"] := by
    decide +kernel
  have hminted' : mintedByLoad (joined wordSource listSource) { listBuilder with supply } =
      ["seq-000000000000000a"] := by
    decide +kernel
  obtain ⟨hread, hload⟩ := read_joined_and_load_joined_iff read_wordSource read_listSource
  obtain ⟨hsame, hother⟩ := hload hapart
  have hfound : ¬Exhausted both.1 := by
    rw [hboth]
    exact nofun
  have hfound' : ¬Exhausted atOnce.1 := by
    rw [hatOnce]
    exact nofun
  obtain ⟨σ, -, -, hgrammar⟩ := (hother listBuilder supply hfound hfound').2 hboth (by
    rw [hminted, hminted']
    unfold Mentioned
    decide +kernel)
  refine ⟨hread, hboth, hatOnce, by rw [hminted, hminted']; decide, ?_, σ, hgrammar⟩
  exact (hsame listBuilder both.2).mp (Prod.ext hboth rfl)

end Source
end GrammarRepair
