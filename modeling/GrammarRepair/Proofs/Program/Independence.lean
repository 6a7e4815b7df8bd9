import GrammarRepair.Proofs.Program
import Mathlib.Data.List.Induction

/-!
# Programs do not depend on their name supplies

A program is run twice, with two supplies of names.  As long as no name that is
minted is one that the program itself uses, and none of the supplies runs out,
the runs correspond call by call.  In the end one permutation of the names
relates all replies and both grammars, and matching does not see it.
-/

namespace GrammarRepair

open Build
open Builder (Mints Grows)
open Source (addedNames mem_addedNames_iff)

variable {own : List String} {σ τ : Equiv.Perm String} {session other : Session}
  {supply supply' : NameSupply}

/-! ## Runs side by side -/

/-- Two runs of a program that differ in minted names only. -/
structure Session.Corresponds
    (own : List String) (σ : Equiv.Perm String) (session other : Session) : Prop where
  builders : Builder.Corresponds own σ session.builder other.builder
  replies : Reply.Renamed own σ session.builder session.replies other.replies
  minted : other.minted = session.minted.map σ
  registered : ∀ name ∈ session.minted, session.builder.grammar.contains name = true
  moved : ∀ name, σ name ≠ name → name ∈ session.minted ∨ name ∈ other.minted

/-- One call more in both runs. -/
theorem Session.Corresponds.serve
    (h : Session.Corresponds own σ session other) (hsubdomain : Subdomain.name ∈ own)
    {request : Request} (hnames : request.names ⊆ own)
    (hclean : request.Clean own session.replies session.builder)
    (hclean' : request.Clean own other.replies other.builder) :
    ∃ τ, Session.Corresponds own τ (session.serve request) (other.serve request) := by
  obtain ⟨τ, hmints, hreply⟩ :=
    request.answersAlike h.builders h.replies hsubdomain hnames hclean hclean'
  refine ⟨τ, hmints.corresponds, (h.replies.mint hmints).append hreply, ?_, ?_, ?_⟩
  · have hminted : session.minted.map σ = session.minted.map τ := by
      apply List.map_congr_left
      intro name hname
      exact (hmints.agrees name (.inr (h.registered name hname))).symm
    rw [Session.serve, Session.serve, h.minted, hmints.renamed, hminted, List.map_append]
  · intro name hname
    rcases List.mem_append.mp hname with hname | hname
    · exact hmints.keeps name (h.registered name hname)
    · exact hmints.registered name hname
  · intro name hmoved
    rw [Session.serve, Session.serve, List.mem_append, List.mem_append]
    rcases hmints.moves name hmoved with hmoved | hnew | hnew
    · exact (h.moved name hmoved).imp .inl .inl
    · exact .inl (.inr hnew)
    · exact .inr (.inr hnew)

theorem corresponds_start (supply supply' : NameSupply) :
    Session.Corresponds own (Equiv.refl String) { builder := { supply } }
      { builder := { supply := supply' } } where
  builders := {
    fixed := fun _ _ => rfl
    grammar := rfl
    suggestions := rfl
    known := fun name rule hfind => by cases hfind }
  replies := ⟨rfl, by simp⟩
  minted := rfl
  registered := by simp
  moved := fun name hmoved => absurd rfl hmoved

/-- Runs that mint no own name and never run out of names correspond. -/
theorem exists_corresponds_run
    (hsubdomain : Subdomain.name ∈ own) {program : List Request}
    (hnames : Program.names program ⊆ own)
    (hapart : ∀ name ∈ (Program.run supply program).minted, name ∉ own)
    (hapart' : ∀ name ∈ (Program.run supply' program).minted, name ∉ own)
    (hfound : ∀ reply ∈ (Program.run supply program).replies, reply.isExhausted = false)
    (hfound' : ∀ reply ∈ (Program.run supply' program).replies, reply.isExhausted = false) :
    ∃ σ, Session.Corresponds own σ (Program.run supply program) (Program.run supply' program) := by
  induction program using List.reverseRecOn with
  | nil => exact ⟨_, corresponds_start supply supply'⟩
  | append_singleton program request ih =>
      rw [Program.run_append_singleton] at hapart hapart' hfound hfound' ⊢
      rw [Program.run_append_singleton]
      have hsplit : Program.names program ⊆ own ∧ request.names ⊆ own := by
        simpa [Program.names, List.append_subset] using hnames
      obtain ⟨σ, h⟩ := ih hsplit.1
        (fun name hname => hapart name (List.mem_append_left _ hname))
        (fun name hname => hapart' name (List.mem_append_left _ hname))
        (fun reply hreply => hfound reply (List.mem_append_left _ hreply))
        (fun reply hreply => hfound' reply (List.mem_append_left _ hreply))
      refine h.serve hsubdomain hsplit.2 ⟨?_, ?_⟩ ⟨?_, ?_⟩
      · exact fun name hname => hapart name (List.mem_append_right _ hname)
      · exact hfound _ (List.mem_append_right _ (List.mem_singleton_self _))
      · exact fun name hname => hapart' name (List.mem_append_right _ hname)
      · exact hfound' _ (List.mem_append_right _ (List.mem_singleton_self _))

/-! ## Minted names are not the name of subdomains -/

/-- What a builder grows by has minted names. -/
theorem Builder.Grows.contains
    {before after : Builder} (h : Grows before after) {name : String}
    (hname : after.grammar.contains name = true) :
    before.grammar.contains name = true ∨
      ∃ stem ∈ ["seq", "ldh-str", "lower-ldh-str"], ∃ draw, name = mintedName stem draw := by
  induction h with
  | refl => exact .inl hname
  | draws _ _ ih => exact ih hname
  | mints draw rule hstem _ _ ih =>
      rcases (Table.contains_insert_iff ..).mp hname with hself | hold
      · exact .inr ⟨_, hstem, draw, hself⟩
      · exact ih hold

theorem mintedName_ne_subdomain
    {stem : String} (hstem : stem ∈ ["seq", "ldh-str", "lower-ldh-str"]) (draw : UInt64) :
    mintedName stem draw ≠ Subdomain.name := by
  intro heq
  have hhead := congrArg (fun name : String => name.toList.head?) heq
  simp only [List.mem_cons, List.not_mem_nil, or_false] at hstem
  rcases hstem with rfl | rfl | rfl <;> simp [mintedName, Subdomain.name] at hhead

theorem Builder.Grows.ne_subdomain
    {before after : Builder} (h : Grows before after) {name : String}
    (hname : name ∈ addedNames before after) :
    name ≠ Subdomain.name := by
  obtain ⟨hafter, hbefore⟩ := mem_addedNames_iff.mp hname
  rcases h.contains hafter with hold | ⟨stem, hstem, draw, rfl⟩
  · rw [hold] at hbefore
    cases hbefore
  · exact mintedName_ne_subdomain hstem draw

theorem grows_label (suggestion : Option Suggestion) (builder : Builder) :
    builder.Grows (run (Subdomain.label suggestion) builder).2 :=
  grows_bind (grows_mint (by decide) _ builder) fun _ => Grows.refl

/-- A construction only mints. -/
theorem Construction.grows_step?
    {construction : Construction} {replies : List Reply} {step : Build Rule}
    (hstep : construction.step? replies = some step) (builder : Builder) :
    builder.Grows (run step builder).2 := by
  cases construction with
  | repeated low high rule =>
      obtain ⟨target, -, rfl⟩ := Option.map_eq_some_iff.mp hstep
      exact grows_repeated low high target builder
  | letterDigitHyphenRun suggestion =>
      obtain rfl := Option.some.inj hstep
      exact grows_mint (by decide) _ builder
  | lowerLetterDigitHyphenRun suggestion =>
      obtain rfl := Option.some.inj hstep
      exact grows_mint (by decide) _ builder
  | label suggestion =>
      obtain rfl := Option.some.inj hstep
      exact grows_label suggestion builder
  | concat rules | alternative rules | capped limit rule =>
      obtain ⟨target, -, rfl⟩ := Option.map_eq_some_iff.mp hstep
      exact .refl builder
  | suggesting suggestion rule =>
      obtain ⟨target, -, rfl⟩ := Option.map_eq_some_iff.mp hstep
      cases target.withSuggestion suggestion <;> exact .refl builder

theorem Source.ne_subdomain_of_mem_mintedUntilError
    {definitions : List Definition} {builder : Builder} {name : String}
    (hname : name ∈ mintedUntilError definitions builder) :
    name ≠ Subdomain.name := by
  induction definitions generalizing builder with
  | nil => cases hname
  | cons definition definitions ih =>
      rcases List.mem_append.mp hname with hname | hname
      · exact (grows_build definition.name definition.body builder).ne_subdomain hname
      · split at hname
        · exact ih hname
        · cases hname

theorem Request.ne_subdomain_of_mem_minted
    {request : Request} {replies : List Reply} {builder : Builder} {name : String}
    (hname : name ∈ request.minted replies builder) :
    name ≠ Subdomain.name := by
  cases request with
  | make construction =>
      rw [minted] at hname
      split at hname
      · rename_i step hstep
        exact (Construction.grows_step? hstep builder).ne_subdomain hname
      · cases hname
  | define _ _ | suggest _ _ => cases hname
  | subdomain => exact (grows_label _ builder).ne_subdomain hname
  | load source =>
      rw [minted, Source.mintedByLoad] at hname
      split at hname
      · cases hname
      · split at hname
        · cases hname
        · exact Source.ne_subdomain_of_mem_mintedUntilError hname

theorem Program.ne_subdomain_of_mem_minted
    {program : List Request} {name : String} (hname : name ∈ (run supply program).minted) :
    name ≠ Subdomain.name := by
  induction program using List.reverseRecOn with
  | nil => cases hname
  | append_singleton program request ih =>
      rw [run_append_singleton] at hname
      rcases List.mem_append.mp hname with hname | hname
      · exact ih hname
      · exact Request.ne_subdomain_of_mem_minted hname

/-! ## Matching after both runs -/

/-- In their grammars the rules cannot be told apart by matching, neither from
the start nor from frames without names that are minted. -/
structure Indistinguishable
    (minted : List String) (grammar grammar' : Grammar) (rule rule' : Rule) : Prop where
  repairs : ∀ input, grammar'.repairs rule' input = grammar.repairs rule input
  alone : ∀ input, rule'.repairs input = rule.repairs input
  enumerate : ∀ frames : List Frame, (∀ frame ∈ frames, frame.name ∉ minted) →
    ∀ input, rule'.enumerate { grammar := grammar', frames } input =
      rule.enumerate { grammar, frames } input

theorem indistinguishable_rename
    {minted : List String} (hfixed : ∀ name, name ∉ minted → σ name = name) (grammar : Grammar)
    (rule : Rule) :
    Indistinguishable minted grammar (grammar.rename σ) rule (rule.rename σ) where
  repairs input := Grammar.repairs_rename σ grammar rule input
  alone input := Grammar.repairs_rename σ Grammar.empty rule input
  enumerate frames hframes input := by
    have hstay : frames.map (fun frame => ⟨σ frame.name, frame.input⟩) = frames := by
      have hsame : ∀ frame ∈ frames, Frame.mk (σ frame.name) frame.input = frame := by
        intro frame hframe
        rw [hfixed frame.name (hframes frame hframe)]
      rw [List.map_congr_left hsame, List.map_id']
    have hctx : ({ grammar := grammar.rename σ, frames } : Context) =
        ({ grammar, frames } : Context).rename σ := by
      rw [Context.rename, hstay]
      rfl
    rw [hctx, Rule.enumerate_rename]

namespace Session.Corresponds

theorem eq_self
    (h : Session.Corresponds own σ session other) {name : String}
    (hname : name ∉ session.minted ++ other.minted) :
    σ name = name := by
  by_contra hmoved
  exact hname (List.mem_append.mpr (h.moved name hmoved))

/-- A name that is not minted means the renamed rule. -/
theorem find?_eq
    (h : Session.Corresponds own σ session other) {name : String}
    (hname : name ∉ session.minted ++ other.minted) :
    other.builder.grammar.find? name =
      (session.builder.grammar.find? name).map (Rule.rename σ) := by
  have hrename := Grammar.find?_rename σ session.builder.grammar name
  rwa [h.eq_self hname, ← h.builders.grammar] at hrename

theorem repairsBy_eq
    (h : Session.Corresponds own σ session other) {name : String}
    (hname : name ∉ session.minted ++ other.minted) (input : Text) :
    other.builder.grammar.repairsBy name input = session.builder.grammar.repairsBy name input := by
  rw [Grammar.repairsBy, Grammar.repairsBy, h.find?_eq hname]
  cases session.builder.grammar.find? name with
  | none => rfl
  | some rule =>
      simp only [Option.map_some]
      rw [h.builders.grammar, Grammar.repairs_rename]

theorem indistinguishable
    (h : Session.Corresponds own σ session other) (rule : Rule) :
    Indistinguishable (session.minted ++ other.minted) session.builder.grammar
      other.builder.grammar rule (rule.rename σ) := by
  rw [h.builders.grammar]
  exact indistinguishable_rename (fun _ => h.eq_self) session.builder.grammar rule

end Session.Corresponds

/-- Two runs of a program, with any two supplies of names, such that neither
mints a name that the program brings along or runs out of names.  The runs
differ by a permutation that maps the names minted in the one to the names
minted in the other, and moves no other names: all calls come back with the
same, up to the permutation, and so the grammars are the same.  Every name that
is minted in neither run means what cannot be told apart, and so do all rules
that corresponding calls come back with.  That a run mints no name twice need
not be assumed. -/
theorem exists_renaming_and_indistinguishable
    (program : List Request) (supply supply' : NameSupply)
    (hapart : ∀ name ∈ (Program.run supply program).minted, name ∉ Program.names program)
    (hapart' : ∀ name ∈ (Program.run supply' program).minted, name ∉ Program.names program)
    (hfound : ∀ reply ∈ (Program.run supply program).replies, reply.isExhausted = false)
    (hfound' : ∀ reply ∈ (Program.run supply' program).replies, reply.isExhausted = false) :
    let first := Program.run supply program
    let second := Program.run supply' program
    let minted := first.minted ++ second.minted
    ∃ σ : Equiv.Perm String,
      (∀ name, name ∉ minted → σ name = name) ∧ second.minted = first.minted.map σ ∧
      second.replies = first.replies.map (Reply.rename σ) ∧
      second.builder.grammar = first.builder.grammar.rename σ ∧
      (∀ name, name ∉ minted →
        (∀ input, second.builder.grammar.repairsBy name input =
          first.builder.grammar.repairsBy name input) ∧
        ∀ rule rule', first.builder.grammar.find? name = some rule →
          second.builder.grammar.find? name = some rule' →
          Indistinguishable minted first.builder.grammar second.builder.grammar rule rule') ∧
      ∀ (index : Nat) (rule rule' : Rule), first.replies[index]? = some (Reply.made rule) →
        second.replies[index]? = some (Reply.made rule') →
        Indistinguishable minted first.builder.grammar second.builder.grammar rule rule' := by
  intro first second minted
  have hown {supply : NameSupply}
      (hapart : ∀ name ∈ (Program.run supply program).minted, name ∉ Program.names program) :
      ∀ name ∈ (Program.run supply program).minted,
        name ∉ Subdomain.name :: Program.names program := by
    intro name hname
    exact List.not_mem_cons_of_ne_of_not_mem (Program.ne_subdomain_of_mem_minted hname)
      (hapart name hname)
  obtain ⟨σ, h⟩ := exists_corresponds_run List.mem_cons_self (List.subset_cons_self _ _)
    (hown hapart) (hown hapart') hfound hfound'
  refine ⟨σ, fun _ => h.eq_self, h.minted, h.replies.eq, h.builders.grammar,
    fun name hname => ⟨h.repairsBy_eq hname, ?_⟩, ?_⟩
  · intro rule rule' hrule hrule'
    rw [h.find?_eq hname, hrule] at hrule'
    rw [← Option.some.inj hrule']
    exact h.indistinguishable rule
  · intro index rule rule' hrule hrule'
    rw [h.replies.eq, List.getElem?_map, hrule] at hrule'
    rw [← Reply.made.inj (Option.some.inj hrule')]
    exact h.indistinguishable rule

/-- Lists of words, which are repeated without bound, and subdomains beside
them.  The last call fails, since a sequence takes no suggestion. -/
def wordListProgram : List Request :=
  [.make (.repeated 1 none (.given (.range CharacterClass.lowerLetters (some .lowercase)))),
    .make (.concat [.result 0, .given (.literal [',']), .given (.reference "list")]),
    .make (.alternative [.result 0, .result 1]), .define "list" (.result 2), .subdomain,
    .make (.suggesting (.constant 'x') (.result 0))]

/-- Two supplies, one of them with draws of its own. -/
theorem exists_renaming_wordListProgram :
    let supply' : NameSupply := { draw := fun count => UInt64.ofNat (count + 10) }
    let first := Program.run .counting wordListProgram
    let second := Program.run supply' wordListProgram
    first.minted ≠ second.minted ∧
      (∀ name ∈ first.minted, name ∉ Program.names wordListProgram) ∧
      (∀ name ∈ second.minted, name ∉ Program.names wordListProgram) ∧
      (∀ reply ∈ first.replies, reply.isExhausted = false) ∧
      (∀ reply ∈ second.replies, reply.isExhausted = false) ∧
      first.builder.grammar.repairsBy "list" "aB,c".toList = .ok ["ab,c".toList] ∧
      second.builder.grammar.repairsBy "list" "aB,c".toList = .ok ["ab,c".toList] := by
  intro supply' first second
  have hapart : ∀ name ∈ first.minted, name ∉ Program.names wordListProgram := by decide +kernel
  have hapart' : ∀ name ∈ second.minted, name ∉ Program.names wordListProgram := by decide +kernel
  have hfound : ∀ reply ∈ first.replies, reply.isExhausted = false := by decide +kernel
  have hfound' : ∀ reply ∈ second.replies, reply.isExhausted = false := by decide +kernel
  have hlist : "list" ∉ first.minted ++ second.minted := by decide +kernel
  have hfirst : first.builder.grammar.repairsBy "list" "aB,c".toList = .ok ["ab,c".toList] := by
    decide +kernel
  obtain ⟨σ, -, -, -, -, hnames, -⟩ := exists_renaming_and_indistinguishable wordListProgram
    .counting supply' hapart hapart' hfound hfound'
  have hsame := (hnames "list" hlist).1 "aB,c".toList
  exact ⟨by decide +kernel, hapart, hapart', hfound, hfound', hfirst, hsame.trans hfirst⟩

end GrammarRepair
