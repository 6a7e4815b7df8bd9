import GrammarRepair.Proofs.Language.Completeness
import GrammarRepair.Proofs.Language.Soundness
import GrammarRepair.Proofs.Repair
import GrammarRepair.Proofs.Source.Exactness

/-!
# Repairs of a loaded source

A source on its own has no suggestions, so its definitions repair nothing: the
only repair of an input is the input itself, cut at the ceiling of the
definition.  It is returned only if it belongs to the language of the
definition, and then it is returned unless the source is left-recursive.
-/

namespace GrammarRepair.Source

variable {definitions : List Definition} {minted : List String}

theorem ceiling?_concat {rules : List Rule} (hrules : ∀ rule ∈ rules, rule.ceiling? = none) :
    (Rule.concat rules).ceiling? = none := by
  match rules with
  | [] => rfl
  | [rule] => exact hrules rule List.mem_cons_self
  | _ :: _ :: _ => rfl

mutual

/-- Expressions declare no ceilings. -/
theorem Built.ceiling?_eq_none {expr : Expr} {rule : Rule} (h : Built minted expr rule) :
    rule.ceiling? = none := by
  match h with
  | .literal _ => rfl
  | .range _ _ => rfl
  | .reference _ => rfl
  | .sequence hitems => exact ceiling?_concat hitems.ceiling?_eq_none
  | .choice _ => rfl
  | .between low high hinner =>
      unfold Rule.repeatBetween
      split
      · refine ceiling?_concat fun copy hcopy => ?_
        rw [List.eq_of_mem_replicate hcopy]
        exact hinner.ceiling?_eq_none
      · rfl
  | .atLeast _ _ _ => rfl

theorem BuiltAll.ceiling?_eq_none
    {exprs : List Expr} {rules : List Rule} (h : BuiltAll minted exprs rules) :
    ∀ rule ∈ rules, rule.ceiling? = none := by
  intro rule hrule
  match h with
  | .nil => cases hrule
  | .cons hitem hitems =>
      rcases List.mem_cons.mp hrule with rfl | hrule
      · exact hitem.ceiling?_eq_none
      · exact hitems.ceiling?_eq_none rule hrule

end

theorem Built.ceiling?_withCeiling
    {expr : Expr} {rule : Rule} (h : Built minted expr rule) (ceiling : Option Nat) :
    (rule.withCeiling ceiling).ceiling? = ceiling := by
  cases ceiling with
  | none => exact h.ceiling?_eq_none
  | some limit => rfl

section

variable {grammar : Grammar} (hgrammar : Interprets definitions minted grammar.find?)
include hgrammar

/-- A repair by a definition is the cut input, and belongs to the language. -/
theorem eq_and_produces_of_mem_repairs
    {definition : Definition} {rule : Rule} (hbuilt : Built minted definition.body rule)
    {input text : Text}
    (htext : text ∈ grammar.repairs (rule.withCeiling definition.ceiling) input) :
    text = Text.within definition.ceiling input ∧ Produces definitions definition.body text := by
  rw [Grammar.mem_repairs_iff, hbuilt.ceiling?_withCeiling] at htext
  have hmem : ⟨text, []⟩ ∈ rule.enumerate (Context.fresh grammar)
      (Text.within definition.ceiling input) := by
    cases hceiling : definition.ceiling with
    | none => simpa [hceiling, Rule.withCeiling] using htext.1
    | some limit => simpa [hceiling, Rule.withCeiling, Rule.enumerate_capped] using htext.1
  obtain ⟨heq, hproduces⟩ := recognises_of_mem_enumerate hbuilt hgrammar hmem
  exact ⟨by simpa using heq.symm, hproduces⟩

/-- A cut input that belongs to the language is a repair, unless the source is
left-recursive. -/
theorem mem_repairs_of_produces
    (hleft : ¬LeftRecursive definitions) {definition : Definition} {rule : Rule}
    (hbuilt : Built minted definition.body rule) {input : Text}
    (hproduces : Produces definitions definition.body (Text.within definition.ceiling input)) :
    Text.within definition.ceiling input ∈
      grammar.repairs (rule.withCeiling definition.ceiling) input := by
  rw [Grammar.mem_repairs_iff, hbuilt.ceiling?_withCeiling]
  refine ⟨?_, Text.fits_within definition.ceiling input⟩
  have hclear : Clear minted (Reaches definitions definition.body) (Context.fresh grammar)
      (Text.within definition.ceiling input ++ []) :=
    ⟨fun frame hframe => absurd hframe List.not_mem_nil,
      fun frame hframe => absurd hframe List.not_mem_nil⟩
  have hctx : Interprets definitions minted (Context.fresh grammar).resolve? := hgrammar
  have hderives := hproduces.completes hleft hbuilt hctx hclear
  rw [List.append_nil] at hderives
  exact (derives_withCeiling hderives definition.ceiling).mem_enumerate

end

/-- The definitions of a loaded source recognise their languages: an input, cut
at the ceiling, is its own and only repair, or it has none.  The former holds
only for texts of the language, and for all of them unless the source is
left-recursive. -/
theorem repairsBy_eq_singleton_and_produces
    {supply : NameSupply} {source : Text} {grammar : Grammar}
    (hread : read source = .ok definitions) (hload : Grammar.ofSource supply source = .ok grammar)
    (hapart : ∀ name ∈ mintedUntilError definitions { supply }, ∀ definition ∈ definitions,
      name ∉ definition.names)
    {definition : Definition} (hmem : definition ∈ definitions) (input : Text) :
    let cut := Text.within definition.ceiling input
    (grammar.repairsBy definition.name input = .ok [] ∨
      grammar.repairsBy definition.name input = .ok [cut] ∧
        Produces definitions definition.body cut) ∧
    (¬LeftRecursive definitions → Produces definitions definition.body cut →
      grammar.repairsBy definition.name input = .ok [cut]) := by
  intro cut
  have hgrammar := interprets_of_ofSource hread hload hapart
  obtain ⟨rule, hbuilt, hfind⟩ := hgrammar.defined definition hmem
  have hby : grammar.repairsBy definition.name input =
      .ok (grammar.repairs (rule.withCeiling definition.ceiling) input) := by
    rw [Grammar.repairsBy, hfind]
  have hrepairs : ∀ text ∈ grammar.repairs (rule.withCeiling definition.ceiling) input,
      text = cut ∧ Produces definitions definition.body text :=
    fun text htext => eq_and_produces_of_mem_repairs hgrammar hbuilt htext
  rw [hby]
  rcases Grammar.repairs_eq_nil_or_eq_singleton fun text htext => (hrepairs text htext).1 with
    hnil | hone
  · refine ⟨.inl (by rw [hnil]), fun hleft hproduces => ?_⟩
    have hcut := mem_repairs_of_produces hgrammar hleft hbuilt hproduces
    rw [hnil] at hcut
    cases hcut
  · rw [hone]
    refine ⟨.inr ⟨rfl, ?_⟩, fun _ _ => rfl⟩
    exact (hrepairs cut (by rw [hone]; exact List.mem_singleton_self cut)).2

/-- A mark, or nothing. -/
def mark : Definition :=
  ⟨"mark", none, .choice [.literal ['y'], .literal []]⟩

/-- Any number of marks, each behind an optional sign, within three bytes. -/
def marks : Definition :=
  ⟨"marks", some 3,
    .repeated (.sequence [.repeated (.range 'x' 'x') 0 (some 1), .reference "mark"]) 0 none⟩

def marksSource : Text :=
  "marks (max 3) = ('x'? mark)*; mark = \"y\" | \"\";".toList

theorem read_marksSource : read marksSource = .ok [marks, mark] := by
  decide +kernel

theorem not_leftRecursive_marks : ¬LeftRecursive [marks, mark] := by
  have hmark : ∀ name, ¬Reaches [marks, mark] mark.body name := by
    intro name hreach
    cases hreach with
    | choice hbranch hreach => rcases List.mem_pair.mp hbranch with rfl | rfl <;> cases hreach
  have hreference : ∀ name, Reaches [marks, mark] (.reference "mark") name → name = "mark" := by
    intro name hreach
    generalize hexpr : Expr.reference "mark" = expr at hreach
    cases hreach with
    | reference => exact (Expr.reference.inj hexpr).symm
    | @definition definition _ hmem hreach =>
        rcases List.mem_pair.mp hmem with rfl | rfl
        · exact absurd (Expr.reference.inj hexpr) (by decide)
        · exact absurd hreach (hmark name)
    | _ => cases hexpr
  rintro ⟨definition, hmem, hreach⟩
  rcases List.mem_pair.mp hmem with rfl | rfl
  · have hitems : ReachesAll [marks, mark]
        [.repeated (.range 'x' 'x') 0 (some 1), .reference "mark"] "marks" := by
      cases hreach with
      | repeated _ hreach =>
          cases hreach with
          | sequence hitems => exact hitems
    cases hitems with
    | head hreach =>
        cases hreach with
        | repeated _ hreach => cases hreach
    | tail _ hitems =>
        cases hitems with
        | head hreach => exact absurd (hreference _ hreach) (by decide)
        | tail _ hitems => cases hitems
  · exact hmark _ hreach

theorem produces_marks : Produces [marks, mark] marks.body "xyx".toList := by
  have hsign : Produces [marks, mark] (.repeated (.range 'x' 'x') 0 (some 1)) ['x'] :=
    .repeated (Nat.zero_le 1) (by simp) (.cons (.range (by decide) (by decide)) .nil)
  have hmark {text : Text} (hchoice : Produces [marks, mark] mark.body text) :
      Produces [marks, mark] (.reference "mark") text :=
    .reference (List.mem_pair.mpr (.inr rfl)) hchoice
  have hfirst := hmark (.choice List.mem_cons_self (.literal ['y']))
  have hsecond := hmark (.choice (List.mem_cons_of_mem _ List.mem_cons_self) (.literal []))
  refine .repeated (Nat.zero_le 2) (by simp) ?_
  exact .cons (.sequence (.cons hsign (.cons hfirst .nil)))
    (.cons (.sequence (.cons hsign (.cons hsecond .nil))) .nil)

/-- The cut input is recognised, though every copy may be empty. -/
theorem repairsBy_marks :
    ∃ grammar, read marksSource = .ok [marks, mark] ∧
      Grammar.ofSource .counting marksSource = .ok grammar ∧
      (∀ name ∈ mintedUntilError [marks, mark] { supply := .counting },
        ∀ definition ∈ [marks, mark], name ∉ definition.names) ∧
      ¬LeftRecursive [marks, mark] ∧
      grammar.repairsBy "marks" "xyxyx".toList = .ok ["xyx".toList] := by
  obtain ⟨grammar, hload⟩ : ∃ grammar, Grammar.ofSource .counting marksSource = .ok grammar := by
    rw [Grammar.ofSource, load, read_marksSource]
    exact ⟨_, rfl⟩
  have hapart : ∀ name ∈ mintedUntilError [marks, mark] { supply := .counting },
      ∀ definition ∈ [marks, mark], name ∉ definition.names := by decide +kernel
  refine ⟨grammar, read_marksSource, hload, hapart, not_leftRecursive_marks, ?_⟩
  exact (repairsBy_eq_singleton_and_produces read_marksSource hload hapart List.mem_cons_self
    "xyxyx".toList).2 not_leftRecursive_marks produces_marks

end GrammarRepair.Source
