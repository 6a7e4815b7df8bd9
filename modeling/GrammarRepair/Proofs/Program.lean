import GrammarRepair.Proofs.Minting
import GrammarRepair.Repair

/-!
# Programs of builder calls

A program calls a builder, one call after the other.  A call is given rules that
the program brings along, with the names it likes in them, or rules that earlier
calls have returned.  What a program does depends on the draws of its name
supply only in the names that it mints: two runs whose minted names are none of
the program's own differ by a renaming of the minted names, and nobody can tell
them apart by matching.
-/

namespace GrammarRepair

open Build
open Builder (Corresponds Advances Mints)
open Source (addedNames mem_addedNames_iff)

/-! ## Calls and replies -/

/-- A rule that a call is given. -/
inductive Operand where
  | given (rule : Rule)
  /-- What the call with this number has returned. -/
  | result (index : Nat)

/-- A call that makes a rule, and mints whatever names it needs. -/
inductive Construction where
  | repeated (low : Nat) (high : Option Nat) (rule : Operand)
  | letterDigitHyphenRun (suggestion : Option Suggestion)
  | lowerLetterDigitHyphenRun (suggestion : Option Suggestion)
  | label (suggestion : Option Suggestion)
  | concat (rules : List Operand)
  | alternative (rules : List Operand)
  | capped (limit : Nat) (rule : Operand)
  | suggesting (suggestion : Suggestion) (rule : Operand)

/-- A call to a builder. -/
inductive Request where
  | make (construction : Construction)
  | define (name : String) (rule : Operand)
  | subdomain
  | suggest (name : String) (suggestion : Suggestion)
  | load (source : Text)

/-- What a call comes back with. -/
inductive Reply where
  | made (rule : Rule)
  | done
  | failed (error : LoadError)
  /-- There was no call, since an operand is not there. -/
  | skipped

namespace Reply

/-- The reply of a step that builds a rule. -/
def ofOutcome : Except GrammarError Rule → Reply
  | .ok rule => .made rule
  | .error error => .failed (.invalid error)

/-- The reply of loading a source. -/
def ofLoad : Except LoadError Unit → Reply
  | .ok () => .done
  | .error error => .failed error

/-- Whether the call failed for want of a name. -/
def isExhausted : Reply → Bool
  | .failed (.invalid (.namesExhausted _ _)) => true
  | _ => false

/-- The reply with other names in the rule. -/
def rename (σ : Equiv.Perm String) : Reply → Reply
  | .made rule => .made (rule.rename σ)
  | .done => .done
  | .failed error => .failed error
  | .skipped => .skipped

/-- The names in the rule, if there is one. -/
def names : Reply → List String
  | .made rule => rule.names
  | _ => []

end Reply

namespace Operand

/-- The rule itself, if the call that should return it did. -/
def rule? (replies : List Reply) : Operand → Option Rule
  | .given rule => some rule
  | .result index =>
      match replies[index]? with
      | some (.made rule) => some rule
      | _ => none

/-- The rules themselves, if all are there. -/
def rules? (replies : List Reply) : List Operand → Option (List Rule)
  | [] => some []
  | operand :: operands =>
      (operand.rule? replies).bind fun rule => (rules? replies operands).map (rule :: ·)

/-- The names that the program brings along in an operand. -/
def names : Operand → List String
  | .given rule => rule.names
  | .result _ => []

end Operand

namespace Construction

/-- What the builder is to do, if the operands are there. -/
def step? (replies : List Reply) : Construction → Option (Build Rule)
  | .repeated low high rule => (rule.rule? replies).map (Build.repeated low high)
  | .letterDigitHyphenRun suggestion => some (CharacterClass.letterDigitHyphenRun suggestion)
  | .lowerLetterDigitHyphenRun suggestion =>
      some (CharacterClass.lowerLetterDigitHyphenRun suggestion)
  | .label suggestion => some (Subdomain.label suggestion)
  | .concat rules => (Operand.rules? replies rules).map fun rules => pure (.concat rules)
  | .alternative rules => (Operand.rules? replies rules).map fun rules => pure (.alternative rules)
  | .capped limit rule => (rule.rule? replies).map fun rule => pure (.capped limit rule)
  | .suggesting suggestion rule =>
      (rule.rule? replies).map fun rule => Build.liftExcept (rule.withSuggestion suggestion)

/-- The names that the program brings along. -/
def names : Construction → List String
  | .repeated _ _ rule => rule.names
  | .letterDigitHyphenRun _ => []
  | .lowerLetterDigitHyphenRun _ => []
  | .label _ => []
  | .concat rules => rules.flatMap Operand.names
  | .alternative rules => rules.flatMap Operand.names
  | .capped _ rule => rule.names
  | .suggesting _ rule => rule.names

end Construction

namespace Request

/-- The reply to a call, and the builder after it. -/
def answer (replies : List Reply) (builder : Builder) : Request → Reply × Builder
  | .make construction =>
      match construction.step? replies with
      | some step => (.ofOutcome (run step builder).1, (run step builder).2)
      | none => (.skipped, builder)
  | .define name rule =>
      match rule.rule? replies with
      | some rule => (.ofOutcome (run (Build.define name rule) builder).1,
          (run (Build.define name rule) builder).2)
      | none => (.skipped, builder)
  | .subdomain =>
      (.ofOutcome (run Subdomain.register builder).1, (run Subdomain.register builder).2)
  | .suggest name suggestion => (.done, (run (Build.suggest name suggestion) builder).2)
  | .load source => (.ofLoad (Source.load source builder).1, (Source.load source builder).2)

/-- The names that are minted on the way. -/
def minted (replies : List Reply) (builder : Builder) : Request → List String
  | .make construction =>
      match construction.step? replies with
      | some step => addedNames builder (run step builder).2
      | none => []
  | .define _ _ => []
  | .subdomain =>
      addedNames builder (run (Subdomain.label (some Subdomain.interiorRepair)) builder).2
  | .suggest _ _ => []
  | .load source => Source.mintedByLoad source builder

/-- The names of rules that the program brings along. -/
def names : Request → List String
  | .make construction => construction.names
  | .define name rule => name :: rule.names
  | .subdomain => []
  | .suggest _ _ => []
  | .load source =>
      match Source.read source with
      | .ok definitions => definitions.flatMap Source.Definition.names
      | .error _ => []

end Request

/-- How far a run has come: the builder, what the calls came back with, and the
names that were minted. -/
structure Session where
  builder : Builder
  replies : List Reply := []
  minted : List String := []

/-- One call more. -/
def Session.serve (session : Session) (request : Request) : Session where
  builder := (request.answer session.replies session.builder).2
  replies := session.replies ++ [(request.answer session.replies session.builder).1]
  minted := session.minted ++ request.minted session.replies session.builder

namespace Program

/-- The names of rules that a program brings along. -/
def names (program : List Request) : List String :=
  program.flatMap Request.names

/-- A run of a program with a new builder. -/
def run (supply : NameSupply) (program : List Request) : Session :=
  program.foldl Session.serve { builder := { supply } }

theorem run_append_singleton (supply : NameSupply) (program : List Request) (request : Request) :
    run supply (program ++ [request]) = (run supply program).serve request := by
  rw [run, List.foldl_append]
  rfl

end Program

/-! ## Calls side by side -/

variable {own : List String} {σ τ : Equiv.Perm String} {first second first' second' : Builder}
  {replies replies' : List Reply}

/-- The other replies are the renamed replies, and the names in them are known. -/
structure Reply.Renamed
    (own : List String) (σ : Equiv.Perm String) (builder : Builder) (replies others : List Reply) :
    Prop where
  eq : others = replies.map (Reply.rename σ)
  known : ∀ reply ∈ replies, ∀ name ∈ reply.names, builder.Knows own name

theorem Reply.rename_congr
    {reply : Reply} (hagree : ∀ name ∈ reply.names, σ name = τ name) :
    reply.rename σ = reply.rename τ := by
  cases reply with
  | made rule => exact congrArg Reply.made (Rule.rename_congr hagree)
  | _ => rfl

theorem Reply.Renamed.mint
    {new new' : List String} (hreplies : Reply.Renamed own σ first replies replies')
    (h : Mints own σ τ first second first' second' new new') :
    Reply.Renamed own τ first' replies replies' where
  eq := by
    rw [hreplies.eq]
    apply List.map_congr_left
    intro reply hreply
    apply Reply.rename_congr
    intro name hname
    exact (h.agrees name (hreplies.known reply hreply name hname)).symm
  known reply hreply name hname := h.knows (hreplies.known reply hreply name hname)

theorem Operand.renamed_rule?
    (h : Corresponds own σ first second) (hreplies : Reply.Renamed own σ first replies replies')
    {operand : Operand} (hnames : operand.names ⊆ own) :
    Option.Rel (Builder.Renamed own σ first) (operand.rule? replies) (operand.rule? replies') := by
  cases operand with
  | given rule => exact .some (h.renamed_self rule hnames)
  | result index =>
      rw [rule?, rule?, hreplies.eq, List.getElem?_map]
      cases hreply : replies[index]? with
      | none => exact .none
      | some reply =>
          have hknown := hreplies.known reply (List.mem_of_getElem? hreply)
          cases reply with
          | made rule => exact .some ⟨rfl, hknown⟩
          | _ => exact .none

theorem Operand.renamed_rules?
    (h : Corresponds own σ first second) (hreplies : Reply.Renamed own σ first replies replies')
    {operands : List Operand} (hnames : operands.flatMap Operand.names ⊆ own) :
    Option.Rel (List.Forall₂ (Builder.Renamed own σ first)) (rules? replies operands)
      (rules? replies' operands) := by
  induction operands with
  | nil => exact .some .nil
  | cons operand operands ih =>
      obtain ⟨hoperand, hoperands⟩ := List.append_subset.mp hnames
      have hrule := renamed_rule? h hreplies hoperand
      have hrules := ih hoperands
      rw [rules?, rules?]
      generalize operand.rule? replies = rule, operand.rule? replies' = rule' at hrule ⊢
      generalize rules? replies operands = rules, rules? replies' operands = rules' at hrules ⊢
      cases hrule with
      | none => exact .none
      | some hrule =>
          cases hrules with
          | none => exact .none
          | some hrules => exact .some (.cons hrule hrules)

/-- Related values that are there on both sides make related steps. -/
theorem rel_map
    {α β α' β' : Type} {related : α → β → Prop} {related' : α' → β' → Prop} {a : Option α}
    {b : Option β} {f : α → α'} {g : β → β'} (h : Option.Rel related a b)
    (hmap : ∀ {a b}, related a b → related' (f a) (g b)) :
    Option.Rel related' (a.map f) (b.map g) := by
  cases h with
  | none => exact .none
  | some h => exact .some (hmap h)

/-- The same construction, from corresponding replies, is made by parallel
steps. -/
theorem Construction.parallel_step?
    (h : Corresponds own σ first second) (hreplies : Reply.Renamed own σ first replies replies')
    {construction : Construction} (hnames : construction.names ⊆ own) :
    Option.Rel (Parallel own σ first second (Builder.Renamed own)) (construction.step? replies)
      (construction.step? replies') := by
  cases construction with
  | repeated low high rule =>
      exact rel_map (Operand.renamed_rule? h hreplies hnames) (parallel_repeated h low high)
  | letterDigitHyphenRun suggestion => exact .some (parallel_runOf h _ (List.nil_subset own))
  | lowerLetterDigitHyphenRun suggestion => exact .some (parallel_runOf h _ (List.nil_subset own))
  | label suggestion => exact .some (parallel_label h suggestion)
  | concat rules =>
      exact rel_map (Operand.renamed_rules? h hreplies hnames) fun hrules =>
        parallel_pure h (.concat hrules)
  | alternative rules =>
      exact rel_map (Operand.renamed_rules? h hreplies hnames) fun hrules =>
        parallel_pure h (.alternative hrules)
  | capped limit rule =>
      exact rel_map (Operand.renamed_rule? h hreplies hnames) fun hrule =>
        parallel_pure h (hrule.withCeiling (some limit))
  | suggesting suggestion rule =>
      exact rel_map (Operand.renamed_rule? h hreplies hnames) fun hrule =>
        Source.parallel_withSuggestion h hrule suggestion

/-! ### Replies of single calls -/

theorem unexhausted_of_ofOutcome
    {outcome : Except GrammarError Rule} (hfound : (Reply.ofOutcome outcome).isExhausted = false) :
    Unexhausted outcome := by
  intro stem attempts herror
  rw [herror] at hfound
  cases hfound

theorem Reply.renamed_of_alike
    {builder : Builder} {outcome outcome' : Except GrammarError Rule}
    (h : Alike (Builder.Renamed own σ builder) outcome outcome') :
    Reply.Renamed own σ builder [.ofOutcome outcome] [.ofOutcome outcome'] := by
  cases h with
  | error error => exact ⟨rfl, by simp [ofOutcome, names]⟩
  | ok hrule =>
      refine ⟨by rw [hrule.eq]; rfl, fun reply hreply => ?_⟩
      rw [List.mem_singleton.mp hreply]
      exact hrule.known

/-- A reply without a rule is its own renaming. -/
theorem Reply.renamed_self
    {builder : Builder} {reply : Reply} (hrename : reply.rename σ = reply)
    (hnames : reply.names = []) :
    Reply.Renamed own σ builder [reply] [reply] := by
  refine ⟨by rw [List.map_singleton, hrename], fun other hother => ?_⟩
  rw [List.mem_singleton.mp hother, hnames]
  simp

theorem Reply.Renamed.append
    {builder : Builder} {later later' : List Reply}
    (h : Reply.Renamed own σ builder replies replies')
    (hlater : Reply.Renamed own σ builder later later') :
    Reply.Renamed own σ builder (replies ++ later) (replies' ++ later') where
  eq := by rw [h.eq, hlater.eq, List.map_append]
  known reply hreply := (List.mem_append.mp hreply).elim (h.known reply) (hlater.known reply)

namespace Request

/-- The call mints no own name, and finds a name whenever it mints one. -/
structure Clean
    (own : List String) (replies : List Reply) (builder : Builder) (request : Request) : Prop where
  apart : ∀ name ∈ request.minted replies builder, name ∉ own
  found : (request.answer replies builder).1.isExhausted = false

/-- In both runs the call mints corresponding names and comes back with
corresponding replies. -/
def AnswersAlike
    (own : List String) (σ : Equiv.Perm String) (first second : Builder)
    (replies replies' : List Reply) (request : Request) : Prop :=
  ∃ τ, Mints own σ τ first second (request.answer replies first).2
      (request.answer replies' second).2 (request.minted replies first)
      (request.minted replies' second) ∧
    Reply.Renamed own τ (request.answer replies first).2 [(request.answer replies first).1]
      [(request.answer replies' second).1]

theorem answersAlike_make
    (h : Corresponds own σ first second) (hreplies : Reply.Renamed own σ first replies replies')
    {construction : Construction} (hnames : construction.names ⊆ own)
    (hclean : Clean own replies first (.make construction))
    (hclean' : Clean own replies' second (.make construction)) :
    AnswersAlike own σ first second replies replies' (.make construction) := by
  obtain ⟨hapart, hfound⟩ := hclean
  obtain ⟨hapart', hfound'⟩ := hclean'
  have hstep := construction.parallel_step? h hreplies hnames
  simp only [AnswersAlike, minted, answer] at hapart hapart' hfound hfound' ⊢
  generalize construction.step? replies = step, construction.step? replies' = step'
    at hstep hapart hapart' hfound hfound' ⊢
  cases hstep with
  | none => exact ⟨σ, .refl h, Reply.renamed_self rfl rfl⟩
  | some hparallel =>
      obtain ⟨τ, hadvances, halike⟩ := hparallel ⟨hapart, unexhausted_of_ofOutcome hfound⟩
        ⟨hapart', unexhausted_of_ofOutcome hfound'⟩
      exact ⟨τ, hadvances.mints h, Reply.renamed_of_alike halike⟩

theorem answersAlike_define
    (h : Corresponds own σ first second) (hreplies : Reply.Renamed own σ first replies replies')
    {name : String} {rule : Operand} (hname : name ∈ own) (hrule : rule.names ⊆ own) :
    AnswersAlike own σ first second replies replies' (.define name rule) := by
  have hoperand := Operand.renamed_rule? h hreplies hrule
  simp only [AnswersAlike, minted, answer]
  generalize rule.rule? replies = target, rule.rule? replies' = target' at hoperand ⊢
  cases hoperand with
  | none => exact ⟨σ, .refl h, Reply.renamed_self rfl rfl⟩
  | some htarget =>
      have hmints := h.mints_insert hname htarget
      exact ⟨σ, hmints, Reply.renamed_of_alike (.ok (htarget.mint hmints))⟩

theorem run_register_subdomain (builder : Builder) :
    run Subdomain.register builder =
      match run (Subdomain.label (some Subdomain.interiorRepair)) builder with
      | (.ok label, built) =>
          (.ok (.capped Subdomain.maxLength (.bound Subdomain.name (Subdomain.body label))),
            { built with grammar := built.grammar.insert Subdomain.name (Subdomain.body label) })
      | (.error error, built) => (.error error, built) := by
  rw [Subdomain.register, run_bind]
  rcases run (Subdomain.label (some Subdomain.interiorRepair)) builder with
    ⟨_ | label, built⟩ <;> rfl

theorem renamed_subdomain_body
    (h : Corresponds own σ first second) (hname : Subdomain.name ∈ own) {label label' : Rule}
    (hlabel : Builder.Renamed own σ first label label') :
    Builder.Renamed own σ first (Subdomain.body label) (Subdomain.body label') := by
  have hdot := h.renamed_self (.literal ['.']) (List.nil_subset own)
  have hagain := h.renamed_self (.reference Subdomain.name)
    (List.cons_subset.mpr ⟨hname, List.nil_subset own⟩)
  have hlonger := Builder.Renamed.concat (.cons hlabel (.cons hdot (.cons hagain .nil)))
  exact .alternative (.cons hlabel (.cons hlonger .nil))

theorem answersAlike_subdomain
    (h : Corresponds own σ first second) (hname : Subdomain.name ∈ own)
    (hclean : Clean own replies first .subdomain) (hclean' : Clean own replies' second .subdomain) :
    AnswersAlike own σ first second replies replies' .subdomain := by
  obtain ⟨hapart, hfound⟩ := hclean
  obtain ⟨hapart', hfound'⟩ := hclean'
  have hregister : Unexhausted (run Subdomain.register first).1 := unexhausted_of_ofOutcome hfound
  have hregister' : Unexhausted (run Subdomain.register second).1 :=
    unexhausted_of_ofOutcome hfound'
  rw [Subdomain.register] at hregister hregister'
  obtain ⟨τ, hadvances, halike⟩ := parallel_label h (some Subdomain.interiorRepair)
    ⟨hapart, unexhausted_of_bind hregister⟩ ⟨hapart', unexhausted_of_bind hregister'⟩
  have hmints := hadvances.mints h
  simp only [AnswersAlike, minted, answer, run_register_subdomain]
  rcases hrun : run (Subdomain.label (some Subdomain.interiorRepair)) first with ⟨outcome, built⟩
  rcases hrun' : run (Subdomain.label (some Subdomain.interiorRepair)) second with
    ⟨outcome', built'⟩
  rw [hrun, hrun'] at hmints halike
  cases halike with
  | error error => exact ⟨τ, hmints, Reply.renamed_of_alike (.error error)⟩
  | ok hlabel =>
      have hbody := renamed_subdomain_body hmints.corresponds hname hlabel
      have hinsert := hmints.corresponds.mints_insert hname hbody
      have hboth := hmints.trans hinsert
      rw [List.append_nil, List.append_nil] at hboth
      have hbound := (hbody.mint hinsert).bound hinsert.corresponds hname
      exact ⟨τ, hboth, Reply.renamed_of_alike (.ok (hbound.withCeiling (some Subdomain.maxLength)))⟩

theorem answersAlike_suggest
    (h : Corresponds own σ first second) (name : String) (suggestion : Suggestion) :
    AnswersAlike own σ first second replies replies' (.suggest name suggestion) := by
  refine ⟨σ, ⟨?_, fun _ _ => rfl, fun _ => id, fun _ => .inl, rfl, by simp [minted]⟩,
    Reply.renamed_self rfl rfl⟩
  have hsuggestions : second.suggestions.insert name suggestion =
      first.suggestions.insert name suggestion := by rw [h.suggestions]
  exact ⟨h.fixed, h.grammar, hsuggestions, h.known⟩

theorem answersAlike_load
    (h : Corresponds own σ first second) {source : Text} (hnames : (load source).names ⊆ own)
    (hclean : Clean own replies first (.load source))
    (hclean' : Clean own replies' second (.load source)) :
    AnswersAlike own σ first second replies replies' (.load source) := by
  have hdefinitions : ∀ definitions, Source.read source = .ok definitions →
      ∀ definition ∈ definitions, definition.names ⊆ own := by
    intro definitions hread definition hmem name hname
    rw [names, hread] at hnames
    exact hnames (List.mem_flatMap.mpr ⟨definition, hmem, hname⟩)
  have hfound {replies : List Reply} {builder : Builder}
      (hclean : Clean own replies builder (.load source)) (stem : String) (attempts : Nat) :
      (Source.load source builder).1 ≠ .error (.invalid (.namesExhausted stem attempts)) := by
    intro herror
    have hfound := hclean.found
    rw [answer, herror] at hfound
    cases hfound
  obtain ⟨τ, hmints, houtcome⟩ := Source.mints_load h hdefinitions hclean.apart hclean'.apart
    (hfound hclean) (hfound hclean')
  refine ⟨τ, hmints, ?_⟩
  rw [answer, answer, houtcome]
  cases (Source.load source first).1 with
  | ok _ => exact Reply.renamed_self rfl rfl
  | error error => exact Reply.renamed_self rfl rfl

/-- Every call answers alike. -/
theorem answersAlike
    (h : Corresponds own σ first second) (hreplies : Reply.Renamed own σ first replies replies')
    (hsubdomain : Subdomain.name ∈ own) {request : Request} (hnames : request.names ⊆ own)
    (hclean : Clean own replies first request) (hclean' : Clean own replies' second request) :
    AnswersAlike own σ first second replies replies' request := by
  cases request with
  | make construction => exact answersAlike_make h hreplies hnames hclean hclean'
  | define name rule =>
      obtain ⟨hname, hrule⟩ := List.cons_subset.mp hnames
      exact answersAlike_define h hreplies hname hrule
  | subdomain => exact answersAlike_subdomain h hsubdomain hclean hclean'
  | suggest name suggestion => exact answersAlike_suggest h name suggestion
  | load source => exact answersAlike_load h hnames hclean hclean'

end Request
end GrammarRepair
