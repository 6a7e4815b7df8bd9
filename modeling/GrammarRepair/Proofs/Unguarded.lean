import GrammarRepair.Builder
import GrammarRepair.Matching.Induction
import GrammarRepair.Proofs.Combinations

/-!
# Matches of bounded height

A coarse account of matching, in which the guard does not count and a suggestion
may be asked even where something matches directly.  `MayMatch` bounds the
height of the tree that shows a match, so facts about it go by induction on the
height, and a step may look at trees several levels down.  Everything that a
rule enumerates may match at some height.

Repetitions have a simple form here: each match is one of some number of copies
in a row.
-/

namespace GrammarRepair

/-- The rules accept the match one after the other, each in the given sense. -/
inductive Chain (accepts : Rule → Text → Match → Prop) : List Rule → Text → Match → Prop
  | nil (input : Text) : Chain accepts [] input ⟨[], input⟩
  | cons {part : Rule} {parts : List Rule} {input middle rest head tail : Text}
      (hhead : accepts part input ⟨head, middle⟩)
      (htail : Chain accepts parts middle ⟨tail, rest⟩) :
      Chain accepts (part :: parts) input ⟨head ++ tail, rest⟩

/-- The rule may accept the match by a tree of at most this height, where names
have these meanings. -/
def MayMatch : Nat → (String → Option Rule) → Rule → Text → Match → Prop
  | 0, _, _, _, _ => False
  | _ + 1, _, .literal text, input, m => m.text = text ∧ input = text ++ m.rest
  | _ + 1, _, .range span suggestion, input, m =>
      (∃ c, span.contains c = true ∧ m.text = [c] ∧ input = c :: m.rest) ∨
        m ∈ Matching.offersOf suggestion input
  | height + 1, meaning, .sequence parts, input, m => Chain (MayMatch height meaning) parts input m
  | height + 1, meaning, .choice branches suggestion, input, m =>
      (∃ branch ∈ branches, MayMatch height meaning branch input m) ∨
        m ∈ Matching.offersOf suggestion input
  | height + 1, meaning, .reference name, input, m =>
      ∃ target, meaning name = some target ∧ MayMatch height meaning target input m
  | height + 1, meaning, .bound name body, input, m =>
      MayMatch height (fun other => if other = name then some body else meaning other) body input m
  | height + 1, meaning, .capped _ inner, input, m => MayMatch height meaning inner input m

/-! ## Chains -/

section Chain

variable {accepts accepts' : Rule → Text → Match → Prop}

theorem Chain.imp
    {parts : List Rule} {input : Text} {m : Match} (h : Chain accepts parts input m)
    (himp : ∀ part ∈ parts, ∀ input m, accepts part input m → accepts' part input m) :
    Chain accepts' parts input m := by
  induction h with
  | nil input => exact .nil input
  | cons hhead _ ih =>
      refine .cons (himp _ List.mem_cons_self _ _ hhead) (ih fun part hpart => ?_)
      exact himp part (List.mem_cons_of_mem _ hpart)

theorem chain_singleton_iff {part : Rule} {input : Text} {m : Match} :
    Chain accepts [part] input m ↔ accepts part input m := by
  obtain ⟨text, rest⟩ := m
  constructor
  · intro h
    obtain _ | ⟨hhead, htail⟩ := h
    cases htail
    simpa using hhead
  · intro h
    have hchain := Chain.cons h (Chain.nil rest)
    rwa [List.append_nil] at hchain

end Chain

/-! ## Heights -/

/-- There is no tree of height zero. -/
theorem MayMatch.exists_eq_succ
    {height : Nat} {meaning : String → Option Rule} {rule : Rule} {input : Text} {m : Match}
    (h : MayMatch height meaning rule input m) :
    ∃ lower, height = lower + 1 := by
  cases height with
  | zero => exact h.elim
  | succ lower => exact ⟨lower, rfl⟩

theorem MayMatch.mono
    {height height' : Nat} {meaning : String → Option Rule} {rule : Rule} {input : Text} {m : Match}
    (h : MayMatch height meaning rule input m) (hle : height ≤ height') :
    MayMatch height' meaning rule input m := by
  induction height generalizing height' meaning rule input m with
  | zero => exact h.elim
  | succ height ih =>
      cases height' with
      | zero => omega
      | succ height' =>
          have hle := Nat.le_of_succ_le_succ hle
          cases rule with
          | literal text => exact h
          | range span suggestion => exact h
          | sequence parts => exact Chain.imp h fun part _ input m hpart => ih hpart hle
          | choice branches suggestion =>
              refine Or.imp_left ?_ h
              rintro ⟨branch, hbranch, hm⟩
              exact ⟨branch, hbranch, ih hm hle⟩
          | reference name =>
              obtain ⟨target, htarget, hm⟩ := h
              exact ⟨target, htarget, ih hm hle⟩
          | bound name body =>
              have hbody : MayMatch height' _ body input m := ih h hle
              exact hbody
          | capped limit inner =>
              have hinner : MayMatch height' meaning inner input m := ih h hle
              exact hinner

/-- What a rule, or several in a row, enumerate, they may match. -/
theorem mayMatch_of_mem_enumerate_and_parts :
    (∀ (rule : Rule) (ctx : Context) (input : Text), ∀ m ∈ rule.enumerate ctx input,
      ∃ height, MayMatch height ctx.resolve? rule input m) ∧
    ∀ (parts : List Rule) (ctx : Context) (input : Text),
      ∀ m ∈ Rule.enumerateSequence parts ctx input,
        ∃ height, Chain (MayMatch height ctx.resolve?) parts input m := by
  apply Matching.induction_on_rules_and_parts
  case literal =>
    intro text ctx input m hm
    exact ⟨1, Rule.mem_enumerate_literal_iff.mp hm⟩
  case range =>
    intro span suggestion ctx input m hm
    cases input with
    | nil =>
        rw [Rule.enumerate_range_nil] at hm
        exact ⟨1, .inr hm⟩
    | cons c rest =>
        rw [Rule.enumerate_range_cons] at hm
        split at hm
        · rename_i hc
          obtain rfl := List.mem_singleton.mp hm
          exact ⟨1, .inl ⟨c, hc, rfl, rfl⟩⟩
        · exact ⟨1, .inr hm⟩
  case sequence =>
    intro parts ctx input ih m hm
    rw [Rule.enumerate_sequence] at hm
    obtain ⟨height, hchain⟩ := ih m hm
    exact ⟨height + 1, hchain⟩
  case choice =>
    intro branches suggestion ctx input ih m hm
    rw [Rule.enumerate_choice] at hm
    split at hm
    · exact ⟨1, .inr hm⟩
    · obtain ⟨branch, hbranch, hm⟩ := List.mem_flatMap.mp hm
      obtain ⟨height, hm⟩ := ih branch hbranch m hm
      exact ⟨height + 1, .inl ⟨branch, hbranch, hm⟩⟩
  case reference =>
    intro name ctx input ih m hm
    rw [Rule.enumerate_reference] at hm
    split at hm
    · rename_i target child hresolve henter
      obtain ⟨height, hm⟩ := ih target child hresolve henter m hm
      obtain ⟨-, rfl⟩ := Context.enter?_eq_some_iff.mp henter
      exact ⟨height + 1, target, hresolve, hm⟩
    · simp at hm
  case bound =>
    intro name body ctx input ih m hm
    rw [Rule.enumerate_bound] at hm
    obtain ⟨height, hm⟩ := ih m hm
    rw [Context.resolve?_bind_eq] at hm
    exact ⟨height + 1, hm⟩
  case capped =>
    intro limit inner ctx input ih m hm
    rw [Rule.enumerate_capped] at hm
    obtain ⟨height, hm⟩ := ih m hm
    exact ⟨height + 1, hm⟩
  case nil =>
    intro ctx input m hm
    rw [Rule.enumerateSequence_nil] at hm
    obtain rfl := List.mem_singleton.mp hm
    exact ⟨0, .nil input⟩
  case cons =>
    intro part parts ctx input ihpart ihparts m hm
    rw [Rule.enumerateSequence_cons] at hm
    obtain ⟨head, hhead, hm⟩ := List.mem_flatMap.mp hm
    obtain ⟨⟨text, rest⟩, htail, rfl⟩ := List.mem_map.mp hm
    obtain ⟨height, hpart⟩ := ihpart head hhead
    obtain ⟨height', hparts⟩ :=
      ihparts head.rest (Rule.byteLength_rest_le_of_mem_enumerate hhead) ⟨text, rest⟩ htail
    rw [Match.precededBy_mk]
    refine ⟨max height height', .cons (hpart.mono (Nat.le_max_left _ _)) ?_⟩
    exact hparts.imp fun part _ input m h => h.mono (Nat.le_max_right _ _)

/-! ## Combinations -/

variable {height : Nat} {meaning : String → Option Rule} {input : Text} {m : Match}

theorem chain_of_mayMatch_concat
    {rules : List Rule} (h : MayMatch height meaning (.concat rules) input m) :
    Chain (MayMatch height meaning) rules input m := by
  have hsequence (h : MayMatch height meaning (.sequence rules) input m) :
      Chain (MayMatch height meaning) rules input m := by
    obtain ⟨lower, rfl⟩ := h.exists_eq_succ
    exact Chain.imp h fun part _ input m hpart => hpart.mono (Nat.le_succ lower)
  match rules with
  | [] => exact hsequence h
  | [rule] => exact chain_singleton_iff.mpr h
  | _ :: _ :: _ => exact hsequence h

/-- A match of an alternative is one of a branch. -/
theorem exists_branch_of_mayMatch_alternative
    {rules : List Rule} (h : MayMatch height meaning (.alternative rules) input m) :
    ∃ branch ∈ rules, MayMatch height meaning branch input m := by
  obtain ⟨lower, rfl⟩ := h.exists_eq_succ
  rcases h with ⟨branch, hbranch, hm⟩ | hoffer
  · exact ⟨branch, hbranch, hm.mono (Nat.le_succ lower)⟩
  · cases hoffer

/-- A match of a bounded repetition is one of an admitted number of copies. -/
theorem exists_chain_of_mayMatch_repeatBetween
    {low high : Nat} {rule : Rule}
    (h : MayMatch height meaning (.repeatBetween low high rule) input m) :
    ∃ count, low ≤ count ∧ count ≤ max low high ∧
      Chain (MayMatch height meaning) (List.replicate count rule) input m := by
  unfold Rule.repeatBetween at h
  split at h
  · exact ⟨low, Nat.le_refl low, Nat.le_max_left low high, chain_of_mayMatch_concat h⟩
  · obtain ⟨branch, hbranch, hm⟩ := exists_branch_of_mayMatch_alternative h
    obtain ⟨count, hcount, rfl⟩ := List.mem_map.mp hbranch
    rw [List.mem_range'_1] at hcount
    exact ⟨count, hcount.1, by omega, chain_of_mayMatch_concat hm⟩

/-- A match of an unbounded repetition, under the meaning it has itself, is one
of some number of copies. -/
theorem exists_chain_of_mayMatch_anyNumber
    {name : String} {rule : Rule} (hname : meaning name = some (Build.anyNumber name rule))
    (h : MayMatch height meaning (Build.anyNumber name rule) input m) :
    ∃ count, Chain (MayMatch height meaning) (List.replicate count rule) input m := by
  induction height using Nat.strongRecOn generalizing input m with
  | ind height ih =>
      obtain ⟨branch, hbranch, hm⟩ := exists_branch_of_mayMatch_alternative h
      simp only [List.mem_cons, List.not_mem_nil, or_false] at hbranch
      rcases hbranch with rfl | rfl | rfl
      · exact ⟨0, chain_of_mayMatch_concat hm⟩
      · exact ⟨1, chain_singleton_iff.mpr hm⟩
      · have hchain := chain_of_mayMatch_concat hm
        obtain _ | ⟨hhead, htail⟩ := hchain
        rw [chain_singleton_iff] at htail
        obtain ⟨lower, rfl⟩ := htail.exists_eq_succ
        obtain ⟨target, htarget, htail⟩ := htail
        obtain rfl := Option.some.inj (hname.symm.trans htarget)
        obtain ⟨count, hcount⟩ := ih lower (Nat.lt_succ_self lower) htail
        refine ⟨count + 1, ?_⟩
        rw [List.replicate_succ]
        exact .cons hhead (hcount.imp fun _ _ _ _ h => h.mono (Nat.le_succ lower))

end GrammarRepair
