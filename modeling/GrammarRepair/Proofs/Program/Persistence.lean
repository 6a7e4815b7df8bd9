import GrammarRepair.Proofs.Registration

/-!
# Rules keep their names

Whatever the draws of the supply are, no rule is replaced by accident.  A call
overwrites a name only if it is there to define it: a definition under that name,
a source that defines it, or the subdomains, which have a name of their own.  Any
other rule that a call registers gets a name that was free.  A call for a rule of
its own registers exactly one, and one that finds no free name registers nothing.
-/

namespace GrammarRepair

open Build

/-! ## Steps that add one rule -/

/-- From this builder the step adds one rule, under a minted name that was free;
or it finds no name, and then the grammar is as it was. -/
inductive Build.AddsOne (before : Builder) : Except GrammarError Rule × Builder → Prop
  | added {after : Builder} (rule : Rule) (stem : String) (draw : UInt64) (body : Rule)
      (hfree : before.grammar.contains (mintedName stem draw) = false)
      (hafter : after.grammar = before.grammar.insert (mintedName stem draw) body) :
      AddsOne before (.ok rule, after)
  | exhausted {after : Builder} (stem : String) (attempts : Nat)
      (hafter : after.grammar = before.grammar) :
      AddsOne before (.error (.namesExhausted stem attempts), after)

namespace Build

theorem addsOne_mint (stem : String) (body : String → Rule) (builder : Builder) :
    AddsOne builder (run (mint stem body) builder) := by
  rw [mint, run_bind, run_freshName]
  rcases hfresh : builder.supply.fresh (Table.contains builder.grammar) stem nameAttempts with
    ⟨none | name, supply⟩
  · exact .exhausted stem nameAttempts rfl
  · obtain ⟨⟨draw, rfl⟩, hnew⟩ := NameSupply.exists_draw_and_not_taken_of_fresh hfresh
    exact .added _ stem draw (body (mintedName stem draw)) hnew rfl

/-- What is done with the rule afterwards does not matter. -/
theorem AddsOne.bind_pure {step : Build Rule} {builder : Builder}
    (h : AddsOne builder (run step builder)) (f : Rule → Rule) :
    AddsOne builder (run (step >>= fun rule => pure (f rule)) builder) := by
  rw [run_bind]
  generalize run step builder = result at h ⊢
  cases h with
  | added rule stem draw body hfree hafter => exact .added (f rule) stem draw body hfree hafter
  | exhausted stem attempts hafter => exact .exhausted stem attempts hafter

theorem addsOne_repeated (low : Nat) (rule : Rule) (builder : Builder) :
    AddsOne builder (run (repeated low none rule) builder) := by
  rw [repeated_none_eq]
  exact (addsOne_mint "seq" _ builder).bind_pure _

theorem addsOne_label (suggestion : Option Suggestion) (builder : Builder) :
    AddsOne builder (run (Subdomain.label suggestion) builder) :=
  (addsOne_mint "ldh-str" _ builder).bind_pure _

end Build

/-- The construction makes a rule under a name of its own. -/
def Construction.IsAnonymous : Construction → Prop
  | .repeated _ high _ => high = none
  | .letterDigitHyphenRun _ | .lowerLetterDigitHyphenRun _ | .label _ => True
  | .concat _ | .alternative _ | .capped _ _ | .suggesting _ _ => False

namespace Construction

variable {construction : Construction} {replies : List Reply} {step : Build Rule}

theorem addsOne_step?
    (hanonymous : construction.IsAnonymous) (hstep : construction.step? replies = some step)
    (builder : Builder) :
    AddsOne builder (run step builder) := by
  cases construction with
  | repeated low high rule =>
      obtain ⟨target, -, rfl⟩ := Option.map_eq_some_iff.mp hstep
      obtain rfl : high = none := hanonymous
      exact addsOne_repeated low target builder
  | letterDigitHyphenRun suggestion =>
      obtain rfl := Option.some.inj hstep
      exact addsOne_mint "ldh-str" _ builder
  | lowerLetterDigitHyphenRun suggestion =>
      obtain rfl := Option.some.inj hstep
      exact addsOne_mint "lower-ldh-str" _ builder
  | label suggestion =>
      obtain rfl := Option.some.inj hstep
      exact addsOne_label suggestion builder
  | concat _ | alternative _ | capped _ _ | suggesting _ _ => cases hanonymous

/-- Any other construction leaves the builder alone. -/
theorem snd_run_step?
    (hanonymous : ¬construction.IsAnonymous) (hstep : construction.step? replies = some step)
    (builder : Builder) :
    (run step builder).2 = builder := by
  cases construction with
  | repeated low high rule =>
      obtain ⟨target, -, rfl⟩ := Option.map_eq_some_iff.mp hstep
      cases high with
      | none => exact absurd rfl hanonymous
      | some high => rfl
  | letterDigitHyphenRun _ | lowerLetterDigitHyphenRun _ | label _ =>
      exact absurd trivial hanonymous
  | concat _ | alternative _ | capped _ _ =>
      obtain ⟨target, -, rfl⟩ := Option.map_eq_some_iff.mp hstep
      rfl
  | suggesting suggestion rule =>
      obtain ⟨target, -, rfl⟩ := Option.map_eq_some_iff.mp hstep
      rw [run_liftExcept]

end Construction

/-! ## What a call overwrites -/

/-- The call is there to give this name a rule, in place of any earlier one. -/
def Request.Overwrites (name : String) : Request → Prop
  | .define other _ => other = name
  | .subdomain => Subdomain.name = name
  | .load source => ∃ definitions, Source.read source = .ok definitions ∧
      name ∈ definitions.map Source.Definition.name
  | .make _ | .suggest _ _ => False

/-- A load keeps the rules of names that its source does not define, whether it
succeeds or fails. -/
theorem Source.LoadEffect.find?_eq_some
    {source : Text} {builder after : Builder} {outcome : Except LoadError Unit}
    (h : LoadEffect source builder outcome after) {name : String} {rule : Rule}
    (hname : ¬(Request.load source).Overwrites name)
    (hfind : builder.grammar.find? name = some rule) :
    after.grammar.find? name = some rule := by
  cases h with
  | malformed | repeated => exact hfind
  | @failed earlier later failing entries middle _ error hread hnodup hearlier hfailing =>
      rw [List.map_append] at hnodup
      have hgains : Grammar.Gains builder.grammar after.grammar entries
          (Source.mintedUntilError (earlier ++ failing :: later) builder) :=
        hearlier.gains_of_failing hfailing hnodup.of_append_left
      refine hgains.keeps (fun hmem => hname ⟨_, hread, ?_⟩) hfind
      rw [hearlier.names] at hmem
      rw [List.map_append]
      exact List.mem_append_left _ hmem
  | loaded hread hnodup hall =>
      refine (hall.gains hnodup).keeps (fun hmem => hname ⟨_, hread, ?_⟩) hfind
      rwa [hall.names] at hmem

namespace Request

/-- One call keeps the rule of a name that it does not overwrite. -/
theorem find?_answer
    {request : Request} {replies : List Reply} {builder : Builder} {name : String} {rule : Rule}
    (hname : ¬request.Overwrites name) (hfind : builder.grammar.find? name = some rule) :
    (request.answer replies builder).2.grammar.find? name = some rule := by
  cases request with
  | make construction =>
      rw [answer]
      split
      · rename_i step hstep
        exact (Construction.grows_step? hstep builder).extends.find? hfind
      · exact hfind
  | define other operand =>
      rw [answer]
      split
      · exact (Table.find?_insert_of_ne _ _ (Ne.symm hname)).trans hfind
      · exact hfind
  | subdomain =>
      have hlabel := (grows_label (some Subdomain.interiorRepair) builder).extends.find? hfind
      rw [answer, run_register_subdomain]
      rcases hrun : run (Subdomain.label (some Subdomain.interiorRepair)) builder with
        ⟨error | label, built⟩
      · rwa [hrun] at hlabel
      · rw [hrun] at hlabel
        exact (Table.find?_insert_of_ne _ _ (Ne.symm hname)).trans hlabel
  | suggest _ _ => exact hfind
  | load source => exact (Source.loadEffect_load source builder).find?_eq_some hname hfind

/-- A construction under a name of its own adds one rule, unless there is no
construction for want of an operand. -/
theorem addsOne_answer
    {construction : Construction} (hanonymous : construction.IsAnonymous) (replies : List Reply)
    (builder : Builder) :
    answer replies builder (.make construction) = (.skipped, builder) ∨
      ∃ outcome after, AddsOne builder (outcome, after) ∧
        answer replies builder (.make construction) = (.ofOutcome outcome, after) := by
  rw [answer]
  split
  · rename_i step hstep
    exact .inr ⟨_, _, construction.addsOne_step? hanonymous hstep builder, rfl⟩
  · exact .inl rfl

/-- A call that is not a load and finds no free name leaves the grammar as it
was. -/
theorem grammar_answer_of_isExhausted
    {request : Request} {replies : List Reply} {builder : Builder}
    (hload : ∀ source, request ≠ .load source)
    (hexhausted : (request.answer replies builder).1.isExhausted = true) :
    (request.answer replies builder).2.grammar = builder.grammar := by
  cases request with
  | make construction =>
      by_cases hanonymous : construction.IsAnonymous
      · rcases addsOne_answer hanonymous replies builder with hskipped |
          ⟨outcome, after, hadds, hanswer⟩
        · rw [hskipped]
        · rw [hanswer] at hexhausted ⊢
          cases hadds with
          | added => cases hexhausted
          | exhausted stem attempts hafter => exact hafter
      · rw [answer]
        split
        · rename_i step hstep
          rw [construction.snd_run_step? hanonymous hstep builder]
        · rfl
  | define other operand =>
      rw [answer] at hexhausted
      split at hexhausted
      · cases hexhausted
      · cases hexhausted
  | subdomain =>
      have hlabel := addsOne_label (some Subdomain.interiorRepair) builder
      rw [answer, run_register_subdomain] at hexhausted ⊢
      generalize run (Subdomain.label (some Subdomain.interiorRepair)) builder = result
        at hlabel hexhausted ⊢
      cases hlabel with
      | added => cases hexhausted
      | exhausted stem attempts hafter => exact hafter
  | suggest _ _ => rfl
  | load source => exact absurd rfl (hload source)

end Request

/-! ## Histories -/

/-- What a name means at some point, it means as long as no call overwrites it. -/
theorem Program.find?_run_append
    {supply : NameSupply} {program later : List Request} {name : String} {rule : Rule}
    (hfind : (run supply program).builder.grammar.find? name = some rule)
    (hlater : ∀ request ∈ later, ¬request.Overwrites name) :
    (run supply (program ++ later)).builder.grammar.find? name = some rule := by
  induction later using List.reverseRecOn with
  | nil => rwa [List.append_nil]
  | append_singleton later request ih =>
      rw [List.forall_mem_append] at hlater
      rw [← List.append_assoc, run_append_singleton]
      exact Request.find?_answer (hlater.2 request List.mem_cons_self) (ih hlater.1)

/-- After any calls with any draws: a name that has a rule keeps it through all
later calls that do not overwrite this name.  The next call, if it asks for a
rule under a name of its own and gets it, adds exactly one rule to the grammar,
under a minted name that was free.  And if the next call is not a load, and fails
for want of a name, the grammar is as it was. -/
theorem find?_run_and_addsOne_next (supply : NameSupply) (program : List Request) :
    let session := Program.run supply program
    (∀ later name rule, session.builder.grammar.find? name = some rule →
      (∀ request ∈ later, ¬request.Overwrites name) →
        (Program.run supply (program ++ later)).builder.grammar.find? name = some rule) ∧
      (∀ construction : Construction, construction.IsAnonymous → ∀ rule,
        (Request.answer session.replies session.builder (.make construction)).1 = .made rule →
          ∃ stem draw body,
            session.builder.grammar.contains (mintedName stem draw) = false ∧
              (session.serve (.make construction)).builder.grammar =
                session.builder.grammar.insert (mintedName stem draw) body) ∧
      ∀ request : Request, (∀ source, request ≠ .load source) →
        (request.answer session.replies session.builder).1.isExhausted = true →
          (session.serve request).builder.grammar = session.builder.grammar := by
  intro session
  refine ⟨fun later name rule => Program.find?_run_append, ?_, ?_⟩
  · intro construction hanonymous rule hmade
    rcases Request.addsOne_answer hanonymous session.replies session.builder with hskipped |
      ⟨outcome, after, hadds, hanswer⟩
    · rw [hskipped] at hmade
      cases hmade
    · rw [hanswer] at hmade
      rw [Session.serve, hanswer]
      cases hadds with
      | added _ stem draw body hfree hafter => exact ⟨stem, draw, body, hfree, hafter⟩
      | exhausted => cases hmade
  · intro request hload hexhausted
    exact Request.grammar_answer_of_isExhausted hload hexhausted

/-- The supply that always draws the same. -/
def stubbornSupply : NameSupply :=
  { draw := fun _ => 7 }

/-- Letters, as many as one likes, under a name. -/
def lettersProgram : List Request :=
  [.make (.repeated 0 none (.given (.literal ['a']))), .define "letters" (.result 0)]

/-- Lists of letters, which need another minted name. -/
def listRequest : Request :=
  .make (.repeated 1 none (.given (.reference "letters")))

/-- A run of identifier characters, which needs a name with another stem. -/
def runConstruction : Construction :=
  .letterDigitHyphenRun none

/-- Subdomains need a name with the stem of the run in front of them, and the
source has a suggestion that is not known. -/
def laterRequests : List Request :=
  [listRequest, .make runConstruction, .subdomain, .define "list" (.given (.literal [])),
    .load Source.listSource]

theorem exists_made_runConstruction :
    ∃ rule, (Request.answer (Program.run stubbornSupply lettersProgram).replies
      (Program.run stubbornSupply lettersProgram).builder (.make runConstruction)).1 =
        .made rule := by
  have hnames : (Request.answer (Program.run stubbornSupply lettersProgram).replies
      (Program.run stubbornSupply lettersProgram).builder
      (.make runConstruction)).1.names ≠ [] := by
    decide +kernel
  generalize (Request.answer (Program.run stubbornSupply lettersProgram).replies
    (Program.run stubbornSupply lettersProgram).builder
    (.make runConstruction)).1 = reply at hnames ⊢
  cases reply with
  | made rule => exact ⟨rule, rfl⟩
  | done | failed _ | skipped => exact absurd rfl hnames

/-- There is only one name for repetitions, and one for runs.  So the lists and
the subdomains fail, and so does the source; the letters stay. -/
theorem find?_run_and_addsOne_next_letters :
    let session := Program.run stubbornSupply lettersProgram
    ∃ rule, session.builder.grammar.find? "letters" = some rule ∧
      (∀ request ∈ laterRequests, ¬request.Overwrites "letters") ∧
      (Program.run stubbornSupply (lettersProgram ++ laterRequests)).builder.grammar.find?
        "letters" = some rule ∧
      (listRequest.answer session.replies session.builder).1.isExhausted = true ∧
      (session.serve listRequest).builder.grammar = session.builder.grammar ∧
      runConstruction.IsAnonymous ∧
      ∃ stem draw body, session.builder.grammar.contains (mintedName stem draw) = false ∧
        (session.serve (.make runConstruction)).builder.grammar =
          session.builder.grammar.insert (mintedName stem draw) body := by
  -- The session is not named, lest it be computed where two names for it meet.
  dsimp only
  obtain ⟨hkeeps, hadds, hexhausted⟩ := find?_run_and_addsOne_next stubbornSupply lettersProgram
  have hletters : ((Program.run stubbornSupply lettersProgram).builder.grammar.find?
      "letters").isSome = true := by decide +kernel
  obtain ⟨rule, hrule⟩ := Option.isSome_iff_exists.mp hletters
  have hload : ¬(Request.load Source.listSource).Overwrites "letters" := by
    rintro ⟨definitions, hread, hmem⟩
    rw [Source.read_listSource] at hread
    obtain rfl := Except.ok.inj hread
    revert hmem
    decide
  have hlater : ∀ request ∈ laterRequests, ¬request.Overwrites "letters" := by
    simp only [laterRequests, List.forall_mem_cons]
    refine ⟨id, id, ?_, ?_, hload, nofun⟩
    · exact (by decide : Subdomain.name ≠ "letters")
    · exact (by decide : "list" ≠ "letters")
  have hkept := hkeeps laterRequests "letters" rule hrule hlater
  have hnone : (listRequest.answer (Program.run stubbornSupply lettersProgram).replies
      (Program.run stubbornSupply lettersProgram).builder).1.isExhausted = true := by
    decide +kernel
  obtain ⟨run, hrun⟩ := exists_made_runConstruction
  exact ⟨rule, hrule, hlater, hkept, hnone, hexhausted listRequest (fun _ => nofun) hnone, trivial,
    hadds runConstruction trivial run hrun⟩

end GrammarRepair
