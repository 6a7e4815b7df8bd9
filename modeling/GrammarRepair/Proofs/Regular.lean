import GrammarRepair.Proofs.Language.Completeness
import GrammarRepair.Proofs.Plain
import GrammarRepair.Proofs.Unguarded

/-!
# Regular rules

A regular rule refers to no name by hand: it is made of texts and ranges by
sequence, choice and repetition, and the only references in it are those by
which unbounded repetitions come back to themselves.  Its language is that of a
regular expression, suggestions left out.

If no suggestion offers a text from outside the language of the rule that
carries it, every match has a text of the language.  And a text of the language
is matched directly in front of anything, wherever names were entered only on
inputs that are no shorter.  Between the two, positions and frames may have
changed altogether.
-/

namespace GrammarRepair

namespace Rule

/-- The rule has no references but those of its own unbounded repetitions. -/
inductive Regular : Rule → Prop
  | literal (text : Text) : Regular (.literal text)
  | range (span : CharRange) (suggestion : Option Suggestion) : Regular (.range span suggestion)
  | sequence {parts : List Rule} (hparts : ∀ part ∈ parts, Regular part) :
      Regular (.sequence parts)
  | choice {branches : List Rule} (suggestion : Option Suggestion)
      (hbranches : ∀ branch ∈ branches, Regular branch) :
      Regular (.choice branches suggestion)
  | anyNumber (name : String) {rule : Rule} (hrule : Regular rule) :
      Regular (.bound name (Build.anyNumber name rule))
  | capped (limit : Nat) {inner : Rule} (hinner : Regular inner) : Regular (.capped limit inner)

mutual

/-- The text is in the language of the regular rule. -/
inductive Denotes : Rule → Text → Prop
  | literal (text : Text) : Denotes (.literal text) text
  | range {span : CharRange} {suggestion : Option Suggestion} {c : Char}
      (hc : span.contains c = true) :
      Denotes (.range span suggestion) [c]
  | sequence {parts : List Rule} {text : Text} (hparts : DenotesAll parts text) :
      Denotes (.sequence parts) text
  | choice {branches : List Rule} {suggestion : Option Suggestion} {branch : Rule} {text : Text}
      (hbranch : branch ∈ branches) (htext : Denotes branch text) :
      Denotes (.choice branches suggestion) text
  | anyNumber {name : String} {rule : Rule} {text : Text} (count : Nat)
      (hcopies : DenotesAll (List.replicate count rule) text) :
      Denotes (.bound name (Build.anyNumber name rule)) text
  | capped {limit : Nat} {inner : Rule} {text : Text} (htext : Denotes inner text) :
      Denotes (.capped limit inner) text

/-- The text is in the product of the languages. -/
inductive DenotesAll : List Rule → Text → Prop
  | nil : DenotesAll [] []
  | cons {part : Rule} {parts : List Rule} {head tail : Text} (hhead : Denotes part head)
      (htail : DenotesAll parts tail) :
      DenotesAll (part :: parts) (head ++ tail)

end

/-- Every suggestion in the rule offers only texts of the language of the rule
that carries it. -/
def OffersDenoted (rule : Rule) : Prop :=
  ∀ node ∈ rule.nodes, ∀ suggestion, node.suggestion? = some suggestion →
    ∀ input, ∀ offer ∈ suggestion.offers input, Denotes node offer.text

theorem OffersDenoted.of_node_subset
    {rule inner : Rule} (hrule : rule.OffersDenoted) (hsubset : inner.nodes ⊆ rule.nodes) :
    inner.OffersDenoted := by
  intro node hnode
  exact hrule node (hsubset hnode)

/-! ## The language without suggestions -/

theorem Regular.plain {rule : Rule} (hrule : rule.Regular) : rule.plain.Regular := by
  induction hrule with
  | literal text => exact .literal text
  | range span suggestion => exact .range span none
  | sequence hparts ih =>
      rw [Rule.plain, plainAll_eq_map]
      exact .sequence (List.forall_mem_map.mpr ih)
  | choice suggestion hbranches ih =>
      rw [Rule.plain, plainAll_eq_map]
      exact .choice none (List.forall_mem_map.mpr ih)
  | anyNumber name hrule ih => exact .anyNumber name ih
  | capped limit hinner ih => exact .capped limit ih

theorem DenotesAll.of_plainAll
    {parts : List Rule} {text : Text} (h : DenotesAll (plainAll parts) text)
    (hparts : ∀ part ∈ parts, ∀ text, Denotes part.plain text → Denotes part text) :
    DenotesAll parts text := by
  induction parts generalizing text with
  | nil =>
      cases h
      exact .nil
  | cons part parts ih =>
      cases h with
      | cons hhead htail =>
          refine .cons (hparts part List.mem_cons_self _ hhead) (ih htail ?_)
          exact fun later hlater => hparts later (List.mem_cons_of_mem _ hlater)

/-- The language does not depend on suggestions. -/
theorem Regular.denotes_of_plain
    {rule : Rule} (hrule : rule.Regular) {text : Text} (h : Denotes rule.plain text) :
    Denotes rule text := by
  induction hrule generalizing text with
  | literal => exact h
  | range span suggestion =>
      cases h with
      | range hc => exact .range hc
  | sequence hparts ih =>
      cases h with
      | sequence hall =>
          exact .sequence (hall.of_plainAll fun part hpart _ htext => ih part hpart htext)
  | choice suggestion hbranches ih =>
      rw [Rule.plain, plainAll_eq_map] at h
      cases h with
      | choice hbranch htext =>
          obtain ⟨branch, hmem, rfl⟩ := List.mem_map.mp hbranch
          exact .choice hmem (ih branch hmem htext)
  | anyNumber name hrule ih =>
      cases h with
      | anyNumber count hcopies =>
          refine .anyNumber count (DenotesAll.of_plainAll ?_ fun part hpart _ htext => ?_)
          · rwa [plainAll_eq_map, List.map_replicate]
          · obtain rfl := List.eq_of_mem_replicate hpart
            exact ih htext
  | capped limit hinner ih =>
      cases h with
      | capped htext => exact .capped (ih htext)

/-! ## Matches have texts of the language -/

theorem denotesAll_of_chain
    {accepts : Rule → Text → Match → Prop} {parts : List Rule} {input : Text} {m : Match}
    (h : Chain accepts parts input m)
    (hparts : ∀ part ∈ parts, ∀ input m, accepts part input m → Denotes part m.text) :
    DenotesAll parts m.text := by
  induction h with
  | nil => exact .nil
  | cons hhead _ ih =>
      refine .cons (hparts _ List.mem_cons_self _ _ hhead) (ih fun part hpart => ?_)
      exact hparts part (List.mem_cons_of_mem _ hpart)

theorem Regular.denotes_of_mayMatch
    {rule : Rule} (hrule : rule.Regular) (hoffers : rule.OffersDenoted) {height : Nat}
    {meaning : String → Option Rule} {input : Text} {m : Match}
    (h : MayMatch height meaning rule input m) :
    Denotes rule m.text := by
  induction hrule generalizing height meaning input m with
  | literal text =>
      obtain ⟨lower, rfl⟩ := h.exists_eq_succ
      rw [h.1]
      exact .literal text
  | range span suggestion =>
      obtain ⟨lower, rfl⟩ := h.exists_eq_succ
      rcases h with ⟨c, hc, htext, -⟩ | hoffer
      · rw [htext]
        exact .range hc
      · cases suggestion with
        | none => cases hoffer
        | some suggestion => exact hoffers _ (mem_nodes_self _) suggestion rfl input m hoffer
  | sequence hparts ih =>
      obtain ⟨lower, rfl⟩ := h.exists_eq_succ
      refine .sequence (denotesAll_of_chain h fun part hpart _ _ hm => ?_)
      exact ih part hpart (hoffers.of_node_subset (nodes_subset_sequence hpart)) hm
  | choice suggestion hbranches ih =>
      obtain ⟨lower, rfl⟩ := h.exists_eq_succ
      rcases h with ⟨branch, hbranch, hm⟩ | hoffer
      · exact .choice hbranch
          (ih branch hbranch (hoffers.of_node_subset (nodes_subset_choice hbranch)) hm)
      · cases suggestion with
        | none => cases hoffer
        | some suggestion => exact hoffers _ (mem_nodes_self _) suggestion rfl input m hoffer
  | @anyNumber name rule hrule ih =>
      obtain ⟨lower, rfl⟩ := h.exists_eq_succ
      obtain ⟨count, hcopies⟩ := exists_chain_of_mayMatch_anyNumber (if_pos rfl) h
      have hinner : rule.nodes ⊆ (bound name (Build.anyNumber name rule)).nodes :=
        List.Subset.trans (nodes_subset_choice (List.mem_cons_of_mem _ List.mem_cons_self))
          (nodes_subset_bound name _)
      refine .anyNumber count (denotesAll_of_chain hcopies fun part hpart _ _ hm => ?_)
      obtain rfl := List.eq_of_mem_replicate hpart
      exact ih (hoffers.of_node_subset hinner) hm
  | capped limit hinner ih =>
      obtain ⟨lower, rfl⟩ := h.exists_eq_succ
      exact .capped (ih (hoffers.of_node_subset (nodes_subset_capped limit _)) h)

/-- A match of a regular rule has a text of its language. -/
theorem Regular.denotes_of_mem_enumerate
    {rule : Rule} (hrule : rule.Regular) (hoffers : rule.OffersDenoted) {ctx : Context}
    {input : Text} {m : Match} (hm : m ∈ rule.enumerate ctx input) :
    Denotes rule m.text := by
  obtain ⟨height, h⟩ := mayMatch_of_mem_enumerate_and_parts.1 rule ctx input m hm
  exact hrule.denotes_of_mayMatch hoffers h

/-! ## Texts of the language are matched anywhere -/

/-- The text is matched directly in front of any other, wherever all names on
the path were entered on inputs that are no shorter. -/
def MatchedAnywhere (rule : Rule) (text : Text) : Prop :=
  ∀ {ctx : Context} {rest : Text},
    (∀ frame ∈ ctx.frames, (text ++ rest).length ≤ frame.input.length) →
    Derives ctx rule (text ++ rest) ⟨text, rest⟩

/-- What was entered before the text was consumed, was entered on no shorter an
input. -/
theorem length_le_of_append
    {frames : List Frame} {head input : Text}
    (h : ∀ frame ∈ frames, (head ++ input).length ≤ frame.input.length) :
    ∀ frame ∈ frames, input.length ≤ frame.input.length := by
  intro frame hframe
  have hlength := h frame hframe
  rw [List.length_append] at hlength
  omega

/-- Texts that are matched anywhere, are so in a row. -/
theorem derivesAll_of_matchedAnywhere
    {parts : List Rule} {texts : List Text} (htexts : List.Forall₂ MatchedAnywhere parts texts)
    {ctx : Context} {rest : Text}
    (hframes : ∀ frame ∈ ctx.frames, (texts.flatten ++ rest).length ≤ frame.input.length) :
    DerivesAll ctx parts (texts.flatten ++ rest) ⟨texts.flatten, rest⟩ := by
  induction htexts with
  | nil => exact .nil
  | cons hhead htail ih =>
      rw [List.flatten_cons, List.append_assoc] at hframes
      rw [List.flatten_cons, List.append_assoc]
      exact .cons (hhead hframes) (ih (length_le_of_append hframes))

/-- Texts that are matched anywhere and not empty are matched one after the
other by the body of an unbounded repetition. -/
theorem derives_anyNumber_of_matchedAnywhere
    {name : String} {rule : Rule} {texts : List Text}
    (htexts : ∀ text ∈ texts, text ≠ [] ∧ MatchedAnywhere rule text) {ctx : Context}
    (hresolve : ctx.resolve? name = some (Build.anyNumber name rule)) {rest : Text}
    (hframes : ∀ frame ∈ ctx.frames, (texts.flatten ++ rest).length ≤ frame.input.length) :
    Derives ctx (Build.anyNumber name rule) (texts.flatten ++ rest) ⟨texts.flatten, rest⟩ := by
  induction texts generalizing ctx with
  | nil => exact .choice List.mem_cons_self (.sequence .nil)
  | cons text texts ih =>
      rw [List.flatten_cons, List.append_assoc] at hframes
      rw [List.flatten_cons, List.append_assoc]
      obtain ⟨hnonempty, hmatched⟩ := htexts text List.mem_cons_self
      have hafter := length_le_of_append hframes
      -- the copy has consumed something, so nothing was entered on an input this short
      have hnew : Frame.mk name (texts.flatten ++ rest) ∉ ctx.frames := by
        intro hframe
        have hlength : (text ++ (texts.flatten ++ rest)).length ≤ (texts.flatten ++ rest).length :=
          hframes _ hframe
        have hpos := List.length_pos_iff.mpr hnonempty
        rw [List.length_append] at hlength
        omega
      have htail : Derives { ctx with frames := ⟨name, texts.flatten ++ rest⟩ :: ctx.frames }
          (Build.anyNumber name rule) (texts.flatten ++ rest) ⟨texts.flatten, rest⟩ := by
        refine ih (fun later hlater => htexts later (List.mem_cons_of_mem _ hlater)) hresolve ?_
        exact List.forall_mem_cons.mpr ⟨Nat.le_refl _, hafter⟩
      have hreference := DerivesAll.cons (.reference hresolve hnew htail) .nil
      rw [List.append_nil] at hreference
      refine .choice (List.mem_cons_of_mem _ (List.mem_cons_of_mem _ List.mem_cons_self)) ?_
      exact Source.derives_concat (.cons (hmatched hframes) hreference)

/-- So they are when some are empty: these may be left out. -/
theorem matchedAnywhere_anyNumber
    (name : String) {rule : Rule} {texts : List Text}
    (htexts : ∀ text ∈ texts, MatchedAnywhere rule text) :
    MatchedAnywhere (.bound name (Build.anyNumber name rule)) texts.flatten := by
  intro ctx rest hframes
  rw [← List.flatten_filter_not_isEmpty] at hframes ⊢
  refine .bound (derives_anyNumber_of_matchedAnywhere (fun text htext => ?_) ?_ hframes)
  · obtain ⟨hmem, hnonempty⟩ := List.mem_filter.mp htext
    exact ⟨by simpa using hnonempty, htexts text hmem⟩
  · rw [Context.resolve?_bind, if_pos rfl]

mutual

theorem Denotes.matchedAnywhere
    {rule : Rule} {text : Text} (h : Denotes rule text) : MatchedAnywhere rule text := by
  intro ctx rest hframes
  match h with
  | .literal text => exact .literal
  | .range hc => exact .range hc
  | .sequence hparts =>
      obtain ⟨texts, rfl, htexts⟩ := hparts.exists_matchedAnywhere
      exact .sequence (derivesAll_of_matchedAnywhere htexts hframes)
  | .choice hbranch htext => exact .choice hbranch (htext.matchedAnywhere hframes)
  | .anyNumber count hcopies =>
      obtain ⟨texts, rfl, htexts⟩ := hcopies.exists_matchedAnywhere
      have hall := (Source.length_eq_and_of_forall₂_replicate htexts).2
      exact matchedAnywhere_anyNumber _ hall hframes
  | .capped htext => exact .capped (htext.matchedAnywhere hframes)

theorem DenotesAll.exists_matchedAnywhere
    {parts : List Rule} {text : Text} (h : DenotesAll parts text) :
    ∃ texts : List Text, text = texts.flatten ∧ List.Forall₂ MatchedAnywhere parts texts := by
  match h with
  | .nil => exact ⟨[], rfl, .nil⟩
  | @DenotesAll.cons _ _ head _ hhead htail =>
      obtain ⟨texts, rfl, htexts⟩ := htail.exists_matchedAnywhere
      exact ⟨head :: texts, rfl, .cons hhead.matchedAnywhere htexts⟩

end

/-- A text of the language is matched in full from a fresh start. -/
theorem Denotes.mem_enumerate_fresh
    {rule : Rule} {text : Text} (h : Denotes rule text) (grammar : Grammar) :
    ⟨text, []⟩ ∈ rule.enumerate (Context.fresh grammar) text := by
  have hderives : Derives (Context.fresh grammar) rule (text ++ []) ⟨text, []⟩ :=
    h.matchedAnywhere (by simp [Context.fresh])
  rw [List.append_nil] at hderives
  exact hderives.mem_enumerate

end Rule
end GrammarRepair
