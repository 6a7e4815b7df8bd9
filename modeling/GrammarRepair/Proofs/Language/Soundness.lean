import GrammarRepair.Proofs.Language.Loading
import GrammarRepair.Proofs.Unguarded

/-!
# Matches belong to the language

Where names have the meaning that loading gives them, a rule that an expression
is built to matches only texts of its language, and it leaves the rest of the
input as it is.  Already the matches that disregard the guard are of this kind,
so the guard plays no part here.

A reference goes from a tree to a lower one and from an expression to any
other, everything else stays inside the expression.  Hence an induction on the
height of trees, and inside it one on how the rule was built.
-/

namespace GrammarRepair.Source

variable {definitions : List Definition} {minted : List String}

/-- The match takes a text of the language off the input. -/
def Recognises (definitions : List Definition) (expr : Expr) (input : Text) (m : Match) : Prop :=
  input = m.text ++ m.rest ∧ Produces definitions expr m.text

/-- The match takes a text of the product of the languages off the input. -/
def RecognisesAll
    (definitions : List Definition) (exprs : List Expr) (input : Text) (m : Match) : Prop :=
  input = m.text ++ m.rest ∧ ProducesAll definitions exprs m.text

/-- Bodies of definitions match texts of their languages, by trees lower than
this. -/
def SoundBelow (definitions : List Definition) (minted : List String) (limit : Nat) : Prop :=
  ∀ height < limit, ∀ meaning, Interprets definitions minted meaning →
    ∀ definition ∈ definitions, ∀ rule, Built minted definition.body rule →
      ∀ input m, MayMatch height meaning rule input m →
        Recognises definitions definition.body input m

theorem RecognisesAll.cons
    {item : Expr} {items : List Expr} {input middle rest head tail : Text}
    (hhead : Recognises definitions item input ⟨head, middle⟩)
    (htail : RecognisesAll definitions items middle ⟨tail, rest⟩) :
    RecognisesAll definitions (item :: items) input ⟨head ++ tail, rest⟩ := by
  obtain ⟨rfl, hhead⟩ := hhead
  obtain ⟨rfl, htail⟩ := htail
  exact ⟨(List.append_assoc _ _ _).symm, .cons hhead htail⟩

theorem recognisesAll_replicate
    {accepts : Rule → Text → Match → Prop} {inner : Expr} {rule : Rule}
    (hinner : ∀ input m, accepts rule input m → Recognises definitions inner input m)
    {count : Nat} {input : Text} {m : Match}
    (h : Chain accepts (List.replicate count rule) input m) :
    RecognisesAll definitions (List.replicate count inner) input m := by
  induction count generalizing input m with
  | zero =>
      cases h
      exact ⟨rfl, .nil⟩
  | succ count ih =>
      rw [List.replicate_succ] at h ⊢
      obtain _ | ⟨hhead, htail⟩ := h
      exact .cons (hinner _ _ hhead) (ih htail)

/-- At least `low` copies, and some more. -/
theorem RecognisesAll.recognises_repeated
    {inner : Expr} {low count : Nat} {input middle rest head tail : Text}
    (hfirst : RecognisesAll definitions (List.replicate low inner) input ⟨head, middle⟩)
    (hmore : RecognisesAll definitions (List.replicate count inner) middle ⟨tail, rest⟩) :
    Recognises definitions (.repeated inner low none) input ⟨head ++ tail, rest⟩ := by
  obtain ⟨rfl, hfirst⟩ := hfirst
  obtain ⟨rfl, hmore⟩ := hmore
  refine ⟨(List.append_assoc _ _ _).symm, .repeated (Nat.le_add_right low count) ?_ ?_⟩
  · intro bound hbound
    cases hbound
  · rw [← List.replicate_append_replicate]
    exact hfirst.append hmore

theorem mayMatch_of_withCeiling
    {height : Nat} {meaning : String → Option Rule} {rule : Rule} {ceiling : Option Nat}
    {input : Text} {m : Match}
    (h : MayMatch height meaning (rule.withCeiling ceiling) input m) :
    MayMatch height meaning rule input m := by
  cases ceiling with
  | none => exact h
  | some limit =>
      obtain ⟨lower, rfl⟩ := h.exists_eq_succ
      have hinner : MayMatch lower meaning rule input m := h
      exact hinner.mono (Nat.le_succ lower)

mutual

theorem Built.recognises
    {limit : Nat} (hbelow : SoundBelow definitions minted limit) {expr : Expr} {rule : Rule}
    (hbuilt : Built minted expr rule) {height : Nat} (hheight : height ≤ limit)
    {meaning : String → Option Rule} (hmeaning : Interprets definitions minted meaning)
    {input : Text} {m : Match} (h : MayMatch height meaning rule input m) :
    Recognises definitions expr input m := by
  match hbuilt with
  | .literal text =>
      obtain ⟨lower, rfl⟩ := h.exists_eq_succ
      obtain ⟨rfl, hinput⟩ := h
      exact ⟨hinput, .literal m.text⟩
  | .range low high =>
      obtain ⟨lower, rfl⟩ := h.exists_eq_succ
      rcases h with ⟨c, hc, htext, hinput⟩ | hoffer
      · rw [CharRange.contains_iff, CharRange.low_ofBounds, high_ofBounds_eq_max] at hc
        rw [Recognises, htext]
        exact ⟨hinput, .range hc.1 hc.2⟩
      · cases hoffer
  | .reference hname =>
      obtain ⟨lower, rfl⟩ := h.exists_eq_succ
      obtain ⟨target, htarget, hm⟩ := h
      rcases hmeaning.only htarget with hminted | ⟨definition, hmem, rfl⟩
      · exact absurd hminted hname
      · obtain ⟨rule, hrule, hdefined⟩ := hmeaning.defined definition hmem
        obtain rfl := Option.some.inj (hdefined.symm.trans htarget)
        have hbody := hbelow lower hheight meaning hmeaning definition hmem rule hrule
          input m (mayMatch_of_withCeiling hm)
        exact ⟨hbody.1, .reference hmem hbody.2⟩
  | .sequence hitems =>
      have hall := hitems.recognisesAll hbelow hheight hmeaning (chain_of_mayMatch_concat h)
      exact ⟨hall.1, .sequence hall.2⟩
  | .choice hbranches =>
      obtain ⟨rule, hrule, hm⟩ := exists_branch_of_mayMatch_alternative h
      obtain ⟨branch, hbranch, hm⟩ := hbranches.recognises_of_mem hbelow hheight hmeaning hrule hm
      exact ⟨hm.1, .choice hbranch hm.2⟩
  | .between low high hinner =>
      obtain ⟨count, hlow, hhigh, hchain⟩ := exists_chain_of_mayMatch_repeatBetween h
      have hcopies := recognisesAll_replicate
        (fun input m => hinner.recognises hbelow hheight hmeaning) hchain
      refine ⟨hcopies.1, .repeated hlow ?_ hcopies.2⟩
      rintro bound ⟨⟩
      exact hhigh
  | .atLeast low hname hinner =>
      obtain _ | ⟨hlow, hrest⟩ := chain_of_mayMatch_concat h
      rw [chain_singleton_iff] at hrest
      have hcopies := recognisesAll_replicate
        (fun input m => hinner.recognises hbelow hheight hmeaning) (chain_of_mayMatch_concat hlow)
      -- below the binding, trees are lower and the minted name means the repetition
      obtain ⟨lower, rfl⟩ := hrest.exists_eq_succ
      obtain ⟨count, hchain⟩ := exists_chain_of_mayMatch_anyNumber (if_pos rfl) hrest
      have hmore := recognisesAll_replicate (fun input m =>
        hinner.recognises hbelow (Nat.le_of_succ_le hheight) (hmeaning.bind hname _)) hchain
      exact hcopies.recognises_repeated hmore

theorem BuiltAll.recognisesAll
    {limit : Nat} (hbelow : SoundBelow definitions minted limit) {exprs : List Expr}
    {rules : List Rule} (hbuilt : BuiltAll minted exprs rules) {height : Nat}
    (hheight : height ≤ limit) {meaning : String → Option Rule}
    (hmeaning : Interprets definitions minted meaning) {input : Text} {m : Match}
    (h : Chain (MayMatch height meaning) rules input m) :
    RecognisesAll definitions exprs input m := by
  match hbuilt with
  | .nil =>
      cases h
      exact ⟨rfl, .nil⟩
  | .cons hitem hitems =>
      obtain _ | ⟨hhead, htail⟩ := h
      exact .cons (hitem.recognises hbelow hheight hmeaning hhead)
        (hitems.recognisesAll hbelow hheight hmeaning htail)

theorem BuiltAll.recognises_of_mem
    {limit : Nat} (hbelow : SoundBelow definitions minted limit) {exprs : List Expr}
    {rules : List Rule} (hbuilt : BuiltAll minted exprs rules) {height : Nat}
    (hheight : height ≤ limit) {meaning : String → Option Rule}
    (hmeaning : Interprets definitions minted meaning) {rule : Rule} (hmem : rule ∈ rules)
    {input : Text} {m : Match} (h : MayMatch height meaning rule input m) :
    ∃ expr ∈ exprs, Recognises definitions expr input m := by
  match hbuilt with
  | .nil => cases hmem
  | @BuiltAll.cons _ item _ _ _ hitem hitems =>
      rcases List.mem_cons.mp hmem with rfl | hmem
      · exact ⟨item, List.mem_cons_self, hitem.recognises hbelow hheight hmeaning h⟩
      · obtain ⟨expr, hexpr, hm⟩ := hitems.recognises_of_mem hbelow hheight hmeaning hmem h
        exact ⟨expr, List.mem_cons_of_mem _ hexpr, hm⟩

end

theorem soundBelow (limit : Nat) : SoundBelow definitions minted limit := by
  induction limit with
  | zero =>
      intro height hheight
      exact absurd hheight (Nat.not_lt_zero height)
  | succ limit ih =>
      intro height hheight meaning hmeaning definition _ rule hbuilt input m hm
      exact hbuilt.recognises ih (Nat.le_of_lt_succ hheight) hmeaning hm

/-- A rule enumerates only matches of the expression it is built from. -/
theorem recognises_of_mem_enumerate
    {expr : Expr} {rule : Rule} (hbuilt : Built minted expr rule) {ctx : Context}
    (hctx : Interprets definitions minted ctx.resolve?) {input : Text} {m : Match}
    (hm : m ∈ rule.enumerate ctx input) :
    Recognises definitions expr input m := by
  obtain ⟨height, hmay⟩ := mayMatch_of_mem_enumerate_and_parts.1 rule ctx input m hm
  exact hbuilt.recognises (soundBelow height) (Nat.le_refl height) hctx hmay

end GrammarRepair.Source
