import GrammarRepair.Proofs.Derivation
import GrammarRepair.Proofs.Language.Loading
import Mathlib.Data.List.Forall2

/-!
# The language is matched

Every text of the language of an expression has a derivation by the rule that
the expression is built to, unless the source is left-recursive.

The guard may forbid a reference on the path.  Two facts keep it from doing so.
A name of the source that stands on the path above the same input would be one
that is reached before anything is consumed.  And the minted name of a
repetition is entered only after a copy that consumes something, so nothing on
the path has stood above an input that short: copies that match the empty text
are left out, as they add nothing.
-/

namespace GrammarRepair.Source

variable {definitions : List Definition} {minted : List String}

/-- The path to here does not keep these names from being entered: it lies above
inputs that are no shorter, and where they are the same, only minted names among
these have been entered. -/
structure Clear (minted : List String) (reach : String → Prop) (ctx : Context) (input : Text) :
    Prop where
  length_le : ∀ frame ∈ ctx.frames, input.length ≤ frame.input.length
  mem_minted : ∀ frame ∈ ctx.frames, frame.input = input → reach frame.name → frame.name ∈ minted

/-- Wherever the path is clear, a rule that the expression is built to matches
the text. -/
def Completes (definitions : List Definition) (minted : List String) (expr : Expr) (text : Text) :
    Prop :=
  ∀ {rule : Rule} {ctx : Context} {rest : Text}, Built minted expr rule →
    Interprets definitions minted ctx.resolve? →
    Clear minted (Reaches definitions expr) ctx (text ++ rest) →
    Derives ctx rule (text ++ rest) ⟨text, rest⟩

section Clear

variable {reach reach' : String → Prop} {ctx : Context} {head input : Text}

theorem Clear.imp
    (h : Clear minted reach ctx input) (himp : ∀ name, reach' name → reach name) :
    Clear minted reach' ctx input :=
  ⟨h.length_le, fun frame hframe heq hreach => h.mem_minted frame hframe heq (himp _ hreach)⟩

/-- Behind text that was consumed, other names may be reached. -/
theorem Clear.after
    (h : Clear minted reach ctx (head ++ input))
    (himp : head = [] → ∀ name, reach' name → reach name) :
    Clear minted reach' ctx input := by
  have hlength : ∀ frame ∈ ctx.frames, head.length + input.length ≤ frame.input.length := by
    intro frame hframe
    simpa using h.length_le frame hframe
  refine ⟨fun frame hframe => ?_, fun frame hframe heq hreach => ?_⟩
  · have := hlength frame hframe
    omega
  · have hle := hlength frame hframe
    have hhead : head = [] := by
      rw [heq] at hle
      exact List.length_eq_zero_iff.mp (by omega)
    exact h.mem_minted frame hframe (by rw [heq, hhead, List.nil_append]) (himp hhead _ hreach)

/-- Entering a name keeps the path clear if it is minted or not reached again. -/
theorem Clear.enter
    (h : Clear minted reach ctx input) {name : String} (hname : reach name → name ∈ minted) :
    Clear minted reach { ctx with frames := ⟨name, input⟩ :: ctx.frames } input := by
  refine ⟨fun frame hframe => ?_, fun frame hframe heq hreach => ?_⟩
  · rcases List.mem_cons.mp hframe with rfl | hframe
    · exact Nat.le_refl _
    · exact h.length_le frame hframe
  · rcases List.mem_cons.mp hframe with rfl | hframe
    · exact hname hreach
    · exact h.mem_minted frame hframe heq hreach

end Clear

/-! ## Combinations -/

theorem derives_concat
    {ctx : Context} {rules : List Rule} {input : Text} {m : Match}
    (h : DerivesAll ctx rules input m) :
    Derives ctx (.concat rules) input m := by
  match h with
  | .nil => exact .sequence .nil
  | .cons hhead .nil =>
      rw [List.append_nil]
      exact hhead
  | .cons hhead (.cons hnext htail) => exact .sequence (.cons hhead (.cons hnext htail))

theorem derives_withCeiling
    {ctx : Context} {rule : Rule} {input : Text} {m : Match} (h : Derives ctx rule input m)
    (ceiling : Option Nat) :
    Derives ctx (rule.withCeiling ceiling) input m := by
  cases ceiling with
  | none => exact h
  | some limit => exact .capped h

theorem derives_repeatBetween
    {ctx : Context} {rule : Rule} {low high count : Nat} (hlow : low ≤ count)
    (hhigh : count ≤ max low high) {input : Text} {m : Match}
    (h : DerivesAll ctx (List.replicate count rule) input m) :
    Derives ctx (.repeatBetween low high rule) input m := by
  unfold Rule.repeatBetween
  split
  · obtain rfl : count = low := by omega
    exact derives_concat h
  · refine .choice (List.mem_map.mpr ⟨count, ?_, rfl⟩) (derives_concat h)
    rw [List.mem_range'_1]
    omega

variable {inner : Expr} {rule : Rule}

/-- Texts of an expression one after the other are matched by as many copies. -/
theorem derivesAll_replicate
    (hbuilt : Built minted inner rule) {ctx : Context}
    (hctx : Interprets definitions minted ctx.resolve?) {texts : List Text}
    (htexts : ∀ text ∈ texts, Completes definitions minted inner text) {rest : Text}
    (hclear : Clear minted (Reaches definitions inner) ctx (texts.flatten ++ rest)) :
    DerivesAll ctx (List.replicate texts.length rule) (texts.flatten ++ rest)
      ⟨texts.flatten, rest⟩ := by
  induction texts with
  | nil => exact .nil
  | cons text texts ih =>
      rw [List.length_cons, List.replicate_succ, List.flatten_cons]
      rw [List.flatten_cons, List.append_assoc] at hclear
      rw [List.append_assoc]
      refine .cons (htexts text List.mem_cons_self hbuilt hctx hclear) (ih ?_ ?_)
      · intro later hlater
        exact htexts later (List.mem_cons_of_mem _ hlater)
      · exact hclear.after fun _ _ hreach => hreach

/-- An admitted number of texts is matched by a bounded repetition. -/
theorem derives_between
    (hbuilt : Built minted inner rule) {ctx : Context}
    (hctx : Interprets definitions minted ctx.resolve?) {texts : List Text} {low high : Nat}
    (hlow : low ≤ texts.length) (hhigh : texts.length ≤ max low high)
    (htexts : ∀ text ∈ texts, Completes definitions minted inner text) {rest : Text}
    (hclear : texts ≠ [] → Clear minted (Reaches definitions inner) ctx (texts.flatten ++ rest)) :
    Derives ctx (.repeatBetween low high rule) (texts.flatten ++ rest) ⟨texts.flatten, rest⟩ := by
  apply derives_repeatBetween hlow hhigh
  by_cases hempty : texts = []
  · subst hempty
    exact .nil
  · exact derivesAll_replicate hbuilt hctx htexts (hclear hempty)

/-- Texts that are not empty are matched one after the other by an unbounded
repetition. -/
theorem derives_anyNumber
    (hbuilt : Built minted inner rule) {name : String} (hname : name ∈ minted) {ctx : Context}
    (hctx : Interprets definitions minted ctx.resolve?)
    (hresolve : ctx.resolve? name = some (Build.anyNumber name rule)) {texts : List Text}
    (hnonempty : ∀ text ∈ texts, text ≠ [])
    (htexts : ∀ text ∈ texts, Completes definitions minted inner text) {rest : Text}
    (hclear : Clear minted (Reaches definitions inner) ctx (texts.flatten ++ rest)) :
    Derives ctx (Build.anyNumber name rule) (texts.flatten ++ rest) ⟨texts.flatten, rest⟩ := by
  induction texts generalizing ctx with
  | nil => exact .choice List.mem_cons_self (.sequence .nil)
  | cons text texts ih =>
      rw [List.flatten_cons, List.append_assoc] at hclear
      rw [List.flatten_cons, List.append_assoc]
      have hhead := htexts text List.mem_cons_self hbuilt hctx hclear
      have hafter : Clear minted (Reaches definitions inner) ctx (texts.flatten ++ rest) :=
        hclear.after fun _ _ hreach => hreach
      -- the path lies above longer inputs, since the copy has consumed something
      have hnew : Frame.mk name (texts.flatten ++ rest) ∉ ctx.frames := by
        intro hframe
        have hlength := hclear.length_le _ hframe
        have hpos := List.length_pos_iff.mpr (hnonempty text List.mem_cons_self)
        simp only [List.length_append] at hlength
        omega
      have htail : Derives { ctx with frames := ⟨name, texts.flatten ++ rest⟩ :: ctx.frames }
          (Build.anyNumber name rule) (texts.flatten ++ rest) ⟨texts.flatten, rest⟩ := ih
        hctx hresolve (fun later hlater => hnonempty later (List.mem_cons_of_mem _ hlater))
        (fun later hlater => htexts later (List.mem_cons_of_mem _ hlater))
        (hafter.enter fun _ => hname)
      refine .choice (List.mem_cons_of_mem _ (List.mem_cons_of_mem _ List.mem_cons_self)) ?_
      have hreference := DerivesAll.cons (.reference hresolve hnew htail) .nil
      rw [List.append_nil] at hreference
      exact derives_concat (.cons hhead hreference)

/-- At least `low` copies match texts of the expression one after the other;
those behind the first copies may as well be left out when they are empty. -/
theorem derives_atLeast
    (hbuilt : Built minted inner rule) {name : String} (hname : name ∈ minted) {ctx : Context}
    (hctx : Interprets definitions minted ctx.resolve?) {texts : List Text} {low : Nat}
    (hlow : low ≤ texts.length)
    (htexts : ∀ text ∈ texts, Completes definitions minted inner text) {rest : Text}
    (hclear : Clear minted (Reaches definitions inner) ctx (texts.flatten ++ rest)) :
    Derives ctx (.concat [.copies low rule, .bound name (Build.anyNumber name rule)])
      (texts.flatten ++ rest) ⟨texts.flatten, rest⟩ := by
  have hsplit : texts.flatten =
      (texts.take low).flatten ++ ((texts.drop low).filter (!·.isEmpty)).flatten := by
    rw [List.flatten_filter_not_isEmpty, ← List.flatten_append, List.take_append_drop]
  rw [hsplit, List.append_assoc] at hclear
  rw [hsplit, List.append_assoc]
  have hfirst := derivesAll_replicate hbuilt hctx
    (fun text htext => htexts text (List.mem_of_mem_take htext)) hclear
  rw [List.length_take, Nat.min_eq_left hlow] at hfirst
  have hbind :
      Interprets definitions minted (ctx.bind name (Build.anyNumber name rule)).resolve? := by
    rw [Context.resolve?_bind_eq]
    exact hctx.bind hname _
  have hresolve : (ctx.bind name (Build.anyNumber name rule)).resolve? name =
      some (Build.anyNumber name rule) := by
    rw [Context.resolve?_bind, if_pos rfl]
  have hafter : Clear minted (Reaches definitions inner) ctx _ :=
    hclear.after fun _ _ hreach => hreach
  have hmore := derives_anyNumber hbuilt hname hbind hresolve
    (fun text htext => by simpa using (List.mem_filter.mp htext).2)
    (fun text htext => htexts text (List.mem_of_mem_drop (List.mem_filter.mp htext).1))
    ⟨hafter.length_le, hafter.mem_minted⟩
  have hmore := DerivesAll.cons (.bound hmore) .nil
  rw [List.append_nil] at hmore
  exact derives_concat (.cons (derives_concat hfirst) hmore)

/-- Texts of expressions in a row are matched in a row. -/
theorem derivesAll_of_completes
    {exprs : List Expr} {texts : List Text}
    (htexts : List.Forall₂
      (fun expr text => Produces definitions expr text ∧ Completes definitions minted expr text)
      exprs texts)
    {rules : List Rule} (hbuilt : BuiltAll minted exprs rules) {ctx : Context}
    (hctx : Interprets definitions minted ctx.resolve?) {rest : Text}
    (hclear : Clear minted (ReachesAll definitions exprs) ctx (texts.flatten ++ rest)) :
    DerivesAll ctx rules (texts.flatten ++ rest) ⟨texts.flatten, rest⟩ := by
  induction htexts generalizing rules with
  | nil =>
      cases hbuilt
      exact .nil
  | cons hhead htail ih =>
      obtain _ | ⟨hitem, hitems⟩ := hbuilt
      rw [List.flatten_cons, List.append_assoc] at hclear
      rw [List.flatten_cons, List.append_assoc]
      refine .cons (hhead.2 hitem hctx (hclear.imp fun _ => .head)) (ih hitems ?_)
      refine hclear.after fun hempty name hreach => ?_
      rw [hempty] at hhead
      exact .tail hhead.1 hreach

theorem length_eq_and_of_forall₂_replicate
    {α β : Type} {related : α → β → Prop} {a : α} {count : Nat} {items : List β}
    (h : List.Forall₂ related (List.replicate count a) items) :
    items.length = count ∧ ∀ b ∈ items, related a b := by
  obtain ⟨hlength, hrelated⟩ := List.forall₂_iff_zip.mp h
  rw [List.length_replicate] at hlength
  refine ⟨hlength.symm, fun b hb => hrelated ?_⟩
  obtain ⟨i, hi, rfl⟩ := List.getElem_of_mem hb
  refine List.mem_iff_getElem.mpr ⟨i, by simpa [hlength] using hi, ?_⟩
  rw [List.getElem_zip, List.getElem_replicate]

/-! ## The language -/

mutual

theorem Produces.completes
    (hleft : ¬LeftRecursive definitions) {expr : Expr} {text : Text}
    (h : Produces definitions expr text) :
    Completes definitions minted expr text := by
  intro rule ctx rest hbuilt hctx hclear
  match h with
  | .literal text =>
      cases hbuilt
      exact .literal
  | .range hlow hhigh =>
      cases hbuilt
      refine .range ?_
      rw [CharRange.contains_iff, CharRange.low_ofBounds, high_ofBounds_eq_max]
      exact ⟨hlow, hhigh⟩
  | .reference hmem hbody =>
      cases hbuilt
      obtain ⟨rule, hrule, hresolve⟩ := hctx.defined _ hmem
      refine .reference hresolve ?_ (derives_withCeiling ?_ _)
      · intro hframe
        exact hctx.apart _ hmem (hclear.mem_minted _ hframe rfl (.reference _))
      · refine hbody.completes hleft hrule hctx (Clear.enter ?_ ?_)
        · exact hclear.imp fun name hreach => .definition hmem hreach
        · intro hreach
          exact absurd ⟨_, hmem, hreach⟩ hleft
  | .sequence hitems =>
      cases hbuilt with
      | sequence hrules =>
          obtain ⟨texts, rfl, htexts⟩ := hitems.exists_completes hleft
          have hparts := derivesAll_of_completes htexts hrules hctx
            (hclear.imp fun name hreach => .sequence hreach)
          exact derives_concat hparts
  | .choice hmem hbranch =>
      cases hbuilt with
      | choice hrules =>
          obtain ⟨rule, hrule, hbuilt⟩ := hrules.exists_of_mem hmem
          refine .choice hrule (hbranch.completes hleft hbuilt hctx ?_)
          exact hclear.imp fun name hreach => .choice hmem hreach
  | .repeated hlow hhigh hcopies =>
      obtain ⟨texts, rfl, htexts⟩ := hcopies.exists_completes hleft
      obtain ⟨rfl, hcompletes⟩ := length_eq_and_of_forall₂_replicate htexts
      cases hbuilt with
      | between low high hinner =>
          refine derives_between hinner hctx hlow (hhigh _ rfl)
            (fun text htext => (hcompletes text htext).2) fun hne => ?_
          refine hclear.imp fun name hreach => .repeated (fun bound hbound => ?_) hreach
          exact Nat.lt_of_lt_of_le (List.length_pos_iff.mpr hne) (hhigh bound hbound)
      | atLeast low hname hinner =>
          refine derives_atLeast hinner hname hctx hlow
            (fun text htext => (hcompletes text htext).2) ?_
          refine hclear.imp fun name hreach => .repeated ?_ hreach
          rintro bound ⟨⟩
  | .suggesting hinner => cases hbuilt

theorem ProducesAll.exists_completes
    (hleft : ¬LeftRecursive definitions) {exprs : List Expr} {text : Text}
    (h : ProducesAll definitions exprs text) :
    ∃ texts : List Text, text = texts.flatten ∧
      List.Forall₂
        (fun expr text => Produces definitions expr text ∧ Completes definitions minted expr text)
        exprs texts := by
  match h with
  | .nil => exact ⟨[], rfl, .nil⟩
  | @ProducesAll.cons _ _ _ head _ hhead htail =>
      obtain ⟨texts, rfl, htexts⟩ := htail.exists_completes hleft
      exact ⟨head :: texts, rfl, .cons ⟨hhead, hhead.completes hleft⟩ htexts⟩

end

end GrammarRepair.Source
