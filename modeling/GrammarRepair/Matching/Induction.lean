import GrammarRepair.Matching

/-!
# Induction along matching

What holds of a rule, provided that it holds of everything its matching looks
at, holds of all rules: parts of a sequence on any input that takes no more bytes,
branches of a choice, the body of a binding in the context that binds it, and the
target of a reference in the context that has entered it.
-/

namespace GrammarRepair.Matching

theorem size_lt_sizeOfAll {rule : Rule} {rules : List Rule} (hrule : rule ∈ rules) :
    rule.size < Rule.sizeOfAll rules := by
  induction rules with
  | nil => simp at hrule
  | cons first rules ih =>
      rw [Rule.sizeOfAll]
      rcases List.mem_cons.mp hrule with rfl | hrule
      · omega
      · have := ih hrule
        omega

theorem mentions_subset_mentionsOfAll {rule : Rule} {rules : List Rule} (hrule : rule ∈ rules) :
    rule.mentions ⊆ Rule.mentionsOfAll rules := fun name hname => by
  rw [Rule.mentionsOfAll_eq_flatMap]
  exact List.mem_flatMap.mpr ⟨rule, hrule, hname⟩

variable {onRule : Rule → Context → Text → Prop} {onParts : List Rule → Context → Text → Prop}

/-- Induction along matching, on rules and on the parts of sequences. -/
theorem induction_on_rules_and_parts
    (literal : ∀ text ctx input, onRule (.literal text) ctx input)
    (range : ∀ span suggestion ctx input, onRule (.range span suggestion) ctx input)
    (sequence : ∀ parts ctx input, onParts parts ctx input → onRule (.sequence parts) ctx input)
    (choice : ∀ branches suggestion ctx input, (∀ branch ∈ branches, onRule branch ctx input) →
      onRule (.choice branches suggestion) ctx input)
    (reference : ∀ name ctx input, (∀ target child, ctx.resolve? name = some target →
      ctx.enter? name input = some child → onRule target child input) →
      onRule (.reference name) ctx input)
    (bound : ∀ name body ctx input, onRule body (ctx.bind name body) input →
      onRule (.bound name body) ctx input)
    (capped : ∀ limit inner ctx input, onRule inner ctx input →
      onRule (.capped limit inner) ctx input)
    (nil : ∀ ctx input, onParts [] ctx input)
    (cons : ∀ part parts ctx input, onRule part ctx input →
      (∀ rest : Text, rest.byteLength ≤ input.byteLength → onParts parts ctx rest) →
      onParts (part :: parts) ctx input) :
    (∀ rule ctx input, onRule rule ctx input) ∧ ∀ parts ctx input, onParts parts ctx input := by
  suffices hbelow : ∀ n,
      (∀ (rule : Rule) (ctx : Context) (input : Text),
        ctx.effort rule.mentions rule.size input.byteLength < n → onRule rule ctx input) ∧
      ∀ (parts : List Rule) (ctx : Context) (input : Text),
        ctx.effort (Rule.mentionsOfAll parts) (Rule.sizeOfAll parts) input.byteLength < n →
          onParts parts ctx input from
    ⟨fun rule ctx input => (hbelow _).1 rule ctx input (Nat.lt_succ_self _),
      fun parts ctx input => (hbelow _).2 parts ctx input (Nat.lt_succ_self _)⟩
  intro n
  induction n with
  | zero =>
      exact ⟨fun _ _ _ h => absurd h (Nat.not_lt_zero _),
        fun _ _ _ h => absurd h (Nat.not_lt_zero _)⟩
  | succ n ih =>
      refine ⟨fun rule ctx input hrule => ?_, fun parts ctx input hparts => ?_⟩
      · have hless := Nat.le_of_lt_succ hrule
        cases rule with
        | literal text => exact literal text ctx input
        | range span suggestion => exact range span suggestion ctx input
        | sequence parts =>
            refine sequence parts ctx input (ih.2 parts ctx input (Nat.lt_of_lt_of_le ?_ hless))
            exact Context.effort_lt_of_size_lt _ rfl (List.Subset.refl _) (Nat.le_max_right _ _)
              (Nat.lt_succ_self _)
        | choice branches suggestion =>
            refine choice branches suggestion ctx input fun branch hbranch =>
              ih.1 branch ctx input (Nat.lt_of_lt_of_le ?_ hless)
            refine Context.effort_lt_of_size_lt _ rfl (fun name hname => ?_) (Nat.le_max_right _ _)
              (Nat.lt_succ_of_lt (size_lt_sizeOfAll hbranch))
            rw [List.mem_append] at hname ⊢
            exact hname.imp_left (mentions_subset_mentionsOfAll hbranch ·)
        | reference name =>
            refine reference name ctx input fun target child hresolve henter =>
              ih.1 target child input (Nat.lt_of_lt_of_le ?_ hless)
            exact Context.effort_target_lt hresolve henter (List.mem_singleton_self name)
        | bound name body =>
            refine bound name body ctx input (ih.1 body _ input (Nat.lt_of_lt_of_le ?_ hless))
            refine Context.effort_lt_of_size_lt _ rfl ?_ ?_ (Nat.lt_succ_self _)
            · simp [Rule.mentions, Context.mentions_bind]
            · simp only [Context.largest_bind, Rule.size]
              omega
        | capped limit inner =>
            refine capped limit inner ctx input (ih.1 inner ctx input (Nat.lt_of_lt_of_le ?_ hless))
            exact Context.effort_lt_of_size_lt _ rfl (List.Subset.refl _) (Nat.le_max_right _ _)
              (Nat.lt_succ_self _)
      · have hless := Nat.le_of_lt_succ hparts
        cases parts with
        | nil => exact nil ctx input
        | cons part parts =>
            have htail : Rule.mentionsOfAll parts ++ ctx.mentions ⊆
                Rule.mentionsOfAll (part :: parts) ++ ctx.mentions := by
              simp [Rule.mentionsOfAll]
            refine cons part parts ctx input (ih.1 part ctx input (Nat.lt_of_lt_of_le ?_ hless))
              fun rest hrest => ih.2 parts ctx rest (Nat.lt_of_lt_of_le ?_ hless)
            · exact Context.effort_lt_of_size_lt _ rfl (by simp [Rule.mentionsOfAll])
                (Nat.le_max_right _ _) (by simp only [Rule.sizeOfAll]; omega)
            · rcases Nat.lt_or_eq_of_le hrest with hlt | heq
              · exact Context.effort_lt_of_bytes_lt hlt htail (Nat.le_max_right _ _)
                  (by simp only [Rule.sizeOfAll]; omega)
              · rw [heq]
                exact Context.effort_lt_of_size_lt _ rfl htail (Nat.le_max_right _ _)
                  (by simp only [Rule.sizeOfAll]; omega)

end GrammarRepair.Matching
