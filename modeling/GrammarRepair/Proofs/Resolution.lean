import GrammarRepair.Proofs.ByteOrder
import GrammarRepair.Proofs.Descent

/-!
# Unresolved names

A grammar lists the names that its rules refer to and that none of its rules
has.  A reference inside a binding of its own name does not count, since the
binding says what it stands for.

If the list is empty, matching never comes upon a reference that stands for
nothing.  The list goes by where a reference is written, and a name is looked up
where it is matched, under bindings that may have come from anywhere.  But
bindings only ever get more on the way down, so a name that stands for a rule
goes on doing so, even if for another rule; and every rule that a name can stand
for refers to such names only.
-/

namespace GrammarRepair

/-! ## References that no binding covers -/

namespace Rule

/-- The rule refers to the name somewhere outside the rules that bind it. -/
inductive RefersTo (name : String) : Rule → Prop
  | reference : RefersTo name (.reference name)
  | sequence {parts : List Rule} {part : Rule} (hpart : part ∈ parts) (h : RefersTo name part) :
      RefersTo name (.sequence parts)
  | choice {branches : List Rule} {branch : Rule} {suggestion : Option Suggestion}
      (hbranch : branch ∈ branches) (h : RefersTo name branch) :
      RefersTo name (.choice branches suggestion)
  | bound {other : String} {body : Rule} (hother : name ≠ other) (h : RefersTo name body) :
      RefersTo name (.bound other body)
  | capped {limit : Nat} {inner : Rule} (h : RefersTo name inner) :
      RefersTo name (.capped limit inner)

mutual

theorem refersTo_of_mem_references
    {name : String} {rule : Rule} (hname : name ∈ rule.references) : rule.RefersTo name := by
  match rule with
  | .literal _ | .range .. => cases hname
  | .sequence parts =>
      obtain ⟨part, hpart, h⟩ := exists_refersTo_of_mem_referencesOfAll hname
      exact .sequence hpart h
  | .choice branches _ =>
      obtain ⟨branch, hbranch, h⟩ := exists_refersTo_of_mem_referencesOfAll hname
      exact .choice hbranch h
  | .reference other =>
      obtain rfl := List.mem_singleton.mp hname
      exact .reference
  | .bound other body =>
      obtain ⟨hbody, hother⟩ := List.mem_filter.mp hname
      exact .bound (by simpa using hother) (refersTo_of_mem_references hbody)
  | .capped _ inner => exact .capped (refersTo_of_mem_references hname)

theorem exists_refersTo_of_mem_referencesOfAll
    {name : String} {rules : List Rule} (hname : name ∈ referencesOfAll rules) :
    ∃ rule ∈ rules, rule.RefersTo name := by
  match rules with
  | [] => cases hname
  | rule :: rules =>
      rcases List.mem_append.mp hname with hname | hname
      · exact ⟨rule, List.mem_cons_self, refersTo_of_mem_references hname⟩
      · obtain ⟨later, hlater, h⟩ := exists_refersTo_of_mem_referencesOfAll hname
        exact ⟨later, List.mem_cons_of_mem _ hlater, h⟩

end

theorem RefersTo.mem_references {name : String} {rule : Rule} (h : rule.RefersTo name) :
    name ∈ rule.references := by
  induction h with
  | reference => exact List.mem_singleton_self name
  | sequence hpart _ ih => exact mem_referencesOfAll_iff.mpr ⟨_, hpart, ih⟩
  | choice hbranch _ ih => exact mem_referencesOfAll_iff.mpr ⟨_, hbranch, ih⟩
  | bound hother _ ih => exact List.mem_filter.mpr ⟨ih, by simpa using hother⟩
  | capped _ ih => exact ih

theorem mem_references_iff {name : String} {rule : Rule} :
    name ∈ rule.references ↔ rule.RefersTo name :=
  ⟨refersTo_of_mem_references, RefersTo.mem_references⟩

end Rule

/-! ## The list -/

theorem Text.alphabetic_of_lex {a b : Text} (h : List.Lex (· < ·) a b) : alphabetic a b = true := by
  induction h with
  | nil => rfl
  | rel hlt => exact (alphabetic_cons_iff _ _ _ _).mpr (.inl hlt)
  | cons _ ih => exact (alphabetic_cons_iff _ _ _ _).mpr (.inr ⟨rfl, ih⟩)

/-- The order of names is the order of their bytes. -/
theorem lex_utf8_of_le {a b : String} (hle : a ≤ b) (hne : a ≠ b) :
    List.Lex (· < ·) (Text.utf8 a.toList) (Text.utf8 b.toList) := by
  have hlt : List.Lex (· < ·) a.toList b.toList :=
    String.lt_iff.mp (Std.lt_of_le_of_ne hle hne)
  exact Text.lex_utf8_of_alphabetic (Text.alphabetic_of_lex hlt) (String.toList_inj.ne.mpr hne)

namespace Grammar

theorem pairwise_unresolved (grammar : Grammar) :
    grammar.unresolved.Pairwise fun a b =>
      List.Lex (· < ·) (Text.utf8 a.toList) (Text.utf8 b.toList) := by
  have hordered : grammar.unresolved.Pairwise fun a b => decide (a ≤ b) = true ∧ a ≠ b := by
    apply pairwise_ordered
    · intro a b
      simpa using String.le_total a b
    · intro a b c hab hbc
      exact decide_eq_true (String.le_trans (of_decide_eq_true hab) (of_decide_eq_true hbc))
    · intro a b hab hba
      exact String.le_antisymm (of_decide_eq_true hab) (of_decide_eq_true hba)
  exact hordered.imp fun hab => lex_utf8_of_le (of_decide_eq_true hab.1) hab.2

theorem mem_references_iff (grammar : Grammar) (name : String) :
    name ∈ grammar.references ↔
      ∃ key rule, grammar.find? key = some rule ∧ rule.RefersTo name := by
  rw [references, Rule.mem_referencesOfAll_iff]
  constructor
  · rintro ⟨rule, hrule, hname⟩
    obtain ⟨⟨key, rule⟩, hentry, rfl⟩ := List.mem_map.mp hrule
    exact ⟨key, rule, Table.find?_of_mem_entries hentry, Rule.mem_references_iff.mp hname⟩
  · rintro ⟨key, rule, hfind, hname⟩
    exact ⟨rule, List.mem_map.mpr ⟨_, Table.mem_entries_of_find? hfind, rfl⟩, hname.mem_references⟩

theorem mem_unresolved_iff (grammar : Grammar) (name : String) :
    name ∈ grammar.unresolved ↔
      (∃ key rule, grammar.find? key = some rule ∧ rule.RefersTo name) ∧
        grammar.find? name = none := by
  rw [mem_unresolved, mem_references_iff, Table.contains, Option.isSome_eq_false_iff,
    Option.isNone_iff_eq_none]

end Grammar

/-! ## Names that come up in matching -/

/-- The name stands for some rule. -/
def Context.Resolves (ctx : Context) (name : String) : Prop :=
  ∃ rule, ctx.resolve? name = some rule

/-- The references of a task that the rules of the task do not bind. -/
def Task.references : Task → List String
  | .single rule => rule.references
  | .row parts => Rule.referencesOfAll parts

/-- One binding more leaves no name without a rule. -/
theorem Context.Resolves.bind
    {ctx : Context} {name : String} (h : ctx.Resolves name) (other : String) (body : Rule) :
    (ctx.bind other body).Resolves name := by
  rw [Resolves, resolve?_bind]
  split
  · exact ⟨body, rfl⟩
  · exact h

namespace Call

/-- The names that the task refers to stand for rules, and where some name stands
for a rule, so do the names that this rule refers to. -/
structure Closed (call : Call) : Prop where
  task : ∀ name ∈ call.task.references, call.ctx.Resolves name
  targets : ∀ {name target}, call.ctx.resolve? name = some target →
    ∀ other ∈ target.references, call.ctx.Resolves other

theorem Closed.of_references_subset
    {task later : Task} {ctx : Context} {input rest : Text} (h : Closed ⟨task, ctx, input⟩)
    (hsubset : later.references ⊆ task.references) :
    Closed ⟨later, ctx, rest⟩ :=
  ⟨fun name hname => h.task name (hsubset hname), h.targets⟩

/-- Inside a binding its own name stands for a rule as well, and the names that
this rule refers to are that one and names that stood for rules before. -/
theorem Closed.bind
    {name : String} {body : Rule} {ctx : Context} {input : Text}
    (h : Closed ⟨.single (.bound name body), ctx, input⟩) :
    Closed ⟨.single body, ctx.bind name body, input⟩ := by
  have hname : (ctx.bind name body).Resolves name :=
    ⟨body, by rw [Context.resolve?_bind, if_pos rfl]⟩
  have hbody : ∀ other ∈ body.references, (ctx.bind name body).Resolves other :=
    Rule.forall_mem_references_of_bound hname fun other hother =>
      (h.task other hother).bind name body
  refine ⟨hbody, fun {key target} htarget => ?_⟩
  rw [Context.resolve?_bind] at htarget
  split at htarget
  · obtain rfl := Option.some.inj htarget
    exact hbody
  · intro other hother
    exact (h.targets htarget other hother).bind name body

/-- The calls that are made are closed as well. -/
theorem Closed.of_mem_next
    {call later : Call} (h : call.Closed) (hlater : later ∈ call.next result) : later.Closed := by
  match call with
  | ⟨.single (.literal _), _, _⟩ | ⟨.single (.range ..), _, _⟩ | ⟨.row [], _, _⟩ => cases hlater
  | ⟨.single (.sequence parts), ctx, input⟩ | ⟨.single (.capped _ inner), ctx, input⟩ =>
      obtain rfl := List.mem_singleton.mp hlater
      exact h.of_references_subset (List.Subset.refl _)
  | ⟨.single (.choice branches suggestion), ctx, input⟩ =>
      obtain ⟨branch, hbranch, rfl⟩ := List.mem_map.mp hlater
      exact h.of_references_subset fun name hname =>
        Rule.mem_referencesOfAll_iff.mpr ⟨branch, hbranch, hname⟩
  | ⟨.single (.reference name), ctx, input⟩ =>
      rw [next] at hlater
      split at hlater
      · rename_i target child hresolve henter
        obtain rfl := List.mem_singleton.mp hlater
        obtain ⟨-, rfl⟩ := Context.enter?_eq_some_iff.mp henter
        -- The rule may have been written far from here, under other bindings.
        exact ⟨h.targets hresolve, h.targets⟩
      · cases hlater
  | ⟨.single (.bound name body), ctx, input⟩ =>
      obtain rfl := List.mem_singleton.mp hlater
      exact h.bind
  | ⟨.row (part :: parts), ctx, input⟩ =>
      rcases List.mem_cons.mp hlater with rfl | hlater
      · exact h.of_references_subset (List.subset_append_left _ _)
      · obtain ⟨head, -, rfl⟩ := List.mem_map.mp hlater
        exact h.of_references_subset (List.subset_append_right _ _)

theorem Closed.of_descends
    {start call : Call} (h : start.Closed) (hdescends : Descends start call) : call.Closed := by
  induction hdescends with
  | refl => exact h
  | tail _ hlater ih => exact ih.of_mem_next hlater

end Call

/-- Without unresolved names, matching a rule of the grammar starts from a closed
call. -/
theorem Grammar.closed_of_unresolved_eq_nil
    {grammar : Grammar} (hnone : grammar.unresolved = []) {key : String} {rule : Rule}
    (hrule : grammar.find? key = some rule) (input : Text) :
    Call.Closed ⟨.single rule, .fresh grammar, input⟩ := by
  have htargets : ∀ {name target}, grammar.find? name = some target →
      ∀ other ∈ target.references, (Context.fresh grammar).Resolves other := by
    intro name target htarget other hother
    by_contra hmissing
    have hmem : other ∈ grammar.unresolved := by
      refine (grammar.mem_unresolved_iff other).mpr
        ⟨⟨name, target, htarget, Rule.mem_references_iff.mp hother⟩, ?_⟩
      exact Option.eq_none_iff_forall_ne_some.mpr fun found hfound => hmissing ⟨found, hfound⟩
    rw [hnone] at hmem
    cases hmem
  exact ⟨htargets hrule, htargets⟩

/-! ## The list and the matching -/

/-- The unresolved names of a grammar, however it was built, rise strictly by
their bytes.  They are the names that some named rule refers to outside the rules
that bind them and that have no rule.  If there are none, then wherever matching
a named rule descends to a reference, its name stands for a rule. -/
theorem pairwise_unresolved_and_exists_resolve?_eq (grammar : Grammar) :
    (grammar.unresolved.Pairwise fun a b =>
        List.Lex (· < ·) (Text.utf8 a.toList) (Text.utf8 b.toList)) ∧
      (∀ name, name ∈ grammar.unresolved ↔
        (∃ key rule, grammar.find? key = some rule ∧ rule.RefersTo name) ∧
          grammar.find? name = none) ∧
      (grammar.unresolved = [] → ∀ key rule, grammar.find? key = some rule →
        ∀ input call, Call.Descends ⟨.single rule, .fresh grammar, input⟩ call →
          ∀ name, call.task = .single (.reference name) →
            ∃ target, call.ctx.resolve? name = some target) := by
  refine ⟨grammar.pairwise_unresolved, grammar.mem_unresolved_iff, ?_⟩
  intro hnone key rule hrule input call hdescends name htask
  have hclosed : call.Closed :=
    (grammar.closed_of_unresolved_eq_nil hnone hrule input).of_descends hdescends
  apply hclosed.task
  rw [htask]
  exact List.mem_singleton_self name

/-- A letter in front of whatever ends a word. -/
def word : Rule :=
  .concat [.literal ['a'], .reference "end"]

/-- A word that ends differently. -/
def shout : Rule :=
  .bound "end" (.alternative [.literal ['!'], .reference "word"])

/-- Words end with a dot. -/
def wordsAndShouts : Grammar :=
  ((Grammar.empty.insert "end" (.literal ['.'])).insert "word" word).insert "shout" shout

/-- In a shout the reference in the rule of words comes up under the binding, so
it stands for another rule than the grammar has.  Without that rule it would be
unresolved, even though a shout binds its name. -/
theorem exists_resolve?_eq_wordsAndShouts :
    wordsAndShouts.unresolved = [] ∧
      wordsAndShouts.find? "shout" = some shout ∧
      (∃ call target, Call.Descends ⟨.single shout, .fresh wordsAndShouts, "a!".toList⟩ call ∧
        call.task = .single (.reference "end") ∧ call.ctx.frames = [⟨"word", "a!".toList⟩] ∧
        call.ctx.resolve? "end" = some target ∧ target ≠ .literal ['.']) ∧
      "end" ∈ Grammar.unresolved ((Grammar.empty.insert "word" word).insert "shout" shout) := by
  have hnone : wordsAndShouts.unresolved = [] := by decide +kernel
  let body : Rule := .alternative [.literal ['!'], .reference "word"]
  let ctx := (Context.fresh wordsAndShouts).bind "end" body
  let child : Context := { ctx with frames := [⟨"word", "a!".toList⟩] }
  have hinto : Call.Descends ⟨.single shout, .fresh wordsAndShouts, "a!".toList⟩
      ⟨.single word, child, "a!".toList⟩ :=
    .head (List.mem_singleton_self _)
      (.head (List.mem_cons_of_mem _ List.mem_cons_self) (.single (List.mem_singleton_self _)))
  have hletter : ⟨['a'], ['!']⟩ ∈ Call.result ⟨.single (.literal ['a']), child, "a!".toList⟩ := by
    rw [Call.result, Rule.enumerate_literal]
    exact List.mem_singleton_self _
  have hend : Call.Descends ⟨.single word, child, "a!".toList⟩
      ⟨.single (.reference "end"), child, ['!']⟩ :=
    .head (List.mem_singleton_self _)
      (.head (List.mem_cons_of_mem _ (List.mem_map.mpr ⟨_, hletter, rfl⟩))
        (.single List.mem_cons_self))
  obtain ⟨-, -, hresolves⟩ := pairwise_unresolved_and_exists_resolve?_eq wordsAndShouts
  obtain ⟨target, htarget⟩ :=
    hresolves hnone "shout" shout rfl "a!".toList _ (hinto.trans hend) "end" rfl
  obtain ⟨-, hmissing, -⟩ := pairwise_unresolved_and_exists_resolve?_eq
    ((Grammar.empty.insert "word" word).insert "shout" shout)
  refine ⟨hnone, rfl, ⟨_, target, hinto.trans hend, rfl, rfl, htarget, ?_⟩, ?_⟩
  · obtain rfl : body = target := Option.some.inj htarget
    exact nofun
  · refine (hmissing "end").mpr ⟨⟨"word", word, rfl, ?_⟩, rfl⟩
    exact .sequence (List.mem_cons_of_mem _ List.mem_cons_self) .reference

end GrammarRepair
