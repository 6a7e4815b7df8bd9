import GrammarRepair.Proofs.Repair
import GrammarRepair.Proofs.Subdomain.Edges

/-!
# Repairs by the subdomain rule

Whatever the input, a repair is a valid name of at most sixty-three bytes, and
repairing it again leaves it alone.  Where the labels of the input begin and end
as they should, the repairs are exactly the ways to repair the interior
characters.
-/

namespace GrammarRepair.Subdomain

open CharacterClass

/-! ## Matches are names -/

theorem isInterior_of_mem_interiorTexts
    {c d : Char} {text : Text} (htext : text ∈ interiorTexts c) (hd : d ∈ text) :
    isInterior d = true := by
  by_cases hc : isInterior c = true
  · rw [interiorTexts, if_pos hc, List.mem_singleton] at htext
    rw [htext, List.mem_singleton] at hd
    rwa [hd]
  · have hoptions : ∀ text ∈ interiorTexts c, text.all isInterior = true := by
      rw [interiorTexts, if_neg hc]
      by_cases hat : c = '@'
      · rw [if_pos hat]
        decide
      · rw [if_neg hat]
        by_cases hdot : c = '.'
        · rw [if_pos hdot]
          decide
        · rw [if_neg hdot]
          decide
    exact List.all_eq_true.mp (hoptions text htext) d hd

theorem isInterior_of_rewrites
    {source text : Text} (h : Rewrites interiorTexts source text) {c : Char} (hc : c ∈ text) :
    isInterior c = true := by
  induction h with
  | nil => cases hc
  | cons hpiece _ ih =>
      rcases List.mem_append.mp hc with hc | hc
      · exact isInterior_of_mem_interiorTexts hpiece hc
      · exact ih hc

theorem LabelMatch.isLabel {input : Text} {m : Match} (h : LabelMatch input m) :
    IsLabel m.text := by
  cases h with
  | short hfirst => exact isLabel_singleton hfirst.isAlpha
  | long hfirst hinterior =>
      refine isLabel_edges hfirst.isAlpha (lastChar_isAlphanum _) fun c hc => ?_
      exact isInterior_iff.mp (isInterior_of_rewrites hinterior hc)

/-- What matches is a valid name, whatever the input. -/
theorem NameMatch.isSubdomain {input : Text} {m : Match} (h : NameMatch input m) :
    IsSubdomain m.text := by
  induction h with
  | single hlabel => exact hlabel.isLabel.isSubdomain
  | dotted hlabel _ ih => exact hlabel.isLabel.isSubdomain_dotted ih

/-! ## The repairs -/

section Repairs

variable {grammar : Grammar} {run : String} {input text : Text}

/-- Where all labels have edges, the repairs of an input that is short enough
are known exactly. -/
theorem mem_repairs_iff_repairsName
    (hlength : Text.byteLength input ≤ maxLength)
    (hedges : ∀ label ∈ labels input, HasEdges label) :
    text ∈ grammar.repairs (nameRule run) input ↔
      RepairsName input text ∧ Text.byteLength text ≤ maxLength := by
  rw [mem_repairs_nameRule_iff, Text.truncate_of_le hlength, nameMatch_iff_repairsName hedges]

theorem repairs_eq_of_isSubdomain
    (hlength : Text.byteLength input ≤ maxLength) (hinput : IsSubdomain input) :
    grammar.repairs (nameRule run) input = [input] := by
  refine Grammar.repairs_eq_singleton fun text => ?_
  have hedges : ∀ label ∈ labels input, HasEdges label :=
    fun label hlabel => (hinput label hlabel).toHasEdges
  rw [mem_repairs_iff_repairsName hlength hedges, repairsName_iff_eq hinput]
  constructor
  · rintro ⟨heq, -⟩
    exact heq
  · rintro rfl
    exact ⟨rfl, hlength⟩

end Repairs

theorem byteLength_pos {text : Text} (h : text ≠ []) : 1 ≤ Text.byteLength text := by
  obtain ⟨c, rest, rfl⟩ := List.exists_cons_of_ne_nil h
  rw [Text.byteLength_cons]
  exact Nat.le_add_right_of_le (Char.utf8Size_pos c)

/-- Whatever the input, a repair is a valid name of one to sixty-three bytes,
and it is its own and only repair. -/
theorem isSubdomain_and_repairs_eq_of_mem_repairs (supply : NameSupply) :
    ∃ grammar rule, Subdomain.grammar supply = .ok (grammar, rule) ∧
      ∀ input, ∀ text ∈ grammar.repairs rule input,
        IsSubdomain text ∧ 1 ≤ Text.byteLength text ∧ Text.byteLength text ≤ 63 ∧
          grammar.repairs rule text = [text] := by
  obtain ⟨grammar, run, hgrammar⟩ := exists_grammar_eq_ok supply
  refine ⟨grammar, nameRule run, hgrammar, fun input text htext => ?_⟩
  obtain ⟨hmatch, hlength⟩ := mem_repairs_nameRule_iff.mp htext
  have hname : IsSubdomain text := hmatch.isSubdomain
  exact ⟨hname, byteLength_pos hname.ne_nil, hlength, repairs_eq_of_isSubdomain hlength hname⟩

/-- An input with a bad first character, an interior `@` and a dot at its end,
which the last label takes. -/
theorem isSubdomain_and_repairs_eq_of_nine_at_dot :
    ∃ grammar rule, Subdomain.grammar .counting = .ok (grammar, rule) ∧
      "x9-at-x".toList ∈ grammar.repairs rule "9@.".toList ∧
      IsSubdomain "x9-at-x".toList ∧ 1 ≤ Text.byteLength "x9-at-x".toList ∧
      Text.byteLength "x9-at-x".toList ≤ 63 ∧
      grammar.repairs rule "x9-at-x".toList = ["x9-at-x".toList] := by
  obtain ⟨grammar, rule, hgrammar, hrepairs⟩ := isSubdomain_and_repairs_eq_of_mem_repairs .counting
  have hmem : "x9-at-x".toList ∈ grammar.repairs rule "9@.".toList := by
    have hfound : (Subdomain.grammar .counting).toOption.any fun built =>
        "x9-at-x".toList ∈ built.1.repairs built.2 "9@.".toList := by
      decide +kernel
    rw [hgrammar] at hfound
    exact of_decide_eq_true hfound
  exact ⟨grammar, rule, hgrammar, hmem, hrepairs _ _ hmem⟩

/-- An input of at most sixty-three bytes, whose labels begin with a letter and
end with a letter or digit, has exactly these repairs: every interior character
is repaired on its own, and what grows beyond sixty-three bytes is left out.
They stand in their order, each once; and a valid name is its only repair. -/
theorem mem_repairs_iff_of_hasEdges (supply : NameSupply) :
    ∃ grammar rule, Subdomain.grammar supply = .ok (grammar, rule) ∧
      ∀ input, Text.byteLength input ≤ 63 → (∀ label ∈ labels input, HasEdges label) →
        (∀ text, text ∈ grammar.repairs rule input ↔
          RepairsName input text ∧ Text.byteLength text ≤ 63) ∧
        (grammar.repairs rule input).Pairwise (fun a b => Text.comesBefore a b = true ∧ a ≠ b) ∧
        (IsSubdomain input → grammar.repairs rule input = [input]) := by
  obtain ⟨grammar, run, hgrammar⟩ := exists_grammar_eq_ok supply
  refine ⟨grammar, nameRule run, hgrammar, fun input hlength hedges => ⟨fun text => ?_, ?_, ?_⟩⟩
  · exact mem_repairs_iff_repairsName hlength hedges
  · exact grammar.pairwise_repairs (nameRule run) input
  · exact repairs_eq_of_isSubdomain hlength

/-- An `@` between letters is written out or becomes a hyphen; the names that
come out are left alone. -/
theorem mem_repairs_at_sign :
    ∃ grammar rule, Subdomain.grammar .counting = .ok (grammar, rule) ∧
      Text.byteLength "a@b.c".toList ≤ 63 ∧
      (∀ label ∈ labels "a@b.c".toList, HasEdges label) ∧
      "a-at-b.c".toList ∈ grammar.repairs rule "a@b.c".toList ∧
      "a-b.c".toList ∈ grammar.repairs rule "a@b.c".toList ∧
      IsSubdomain "a-b.c".toList ∧
      grammar.repairs rule "a-b.c".toList = ["a-b.c".toList] := by
  obtain ⟨grammar, rule, hgrammar, hrepairs⟩ := mem_repairs_iff_of_hasEdges .counting
  have hlabels : labels "a@b.c".toList = ["a@b".toList, "c".toList] := by decide
  have hedges : ∀ label ∈ labels "a@b.c".toList, HasEdges label := by
    intro label hlabel
    rw [hlabels] at hlabel
    rcases List.mem_pair.mp hlabel with rfl | rfl
    · exact ⟨⟨'a', rfl, rfl⟩, ⟨'b', rfl, rfl⟩⟩
    · exact ⟨⟨'c', rfl, rfl⟩, ⟨'c', rfl, rfl⟩⟩
  have hat (piece : Text) (hpiece : piece ∈ interiorTexts '@') :
      RepairsName "a@b.c".toList ('a' :: ((piece ++ []) ++ ['b']) ++ '.' :: ['c']) := by
    have hsplit : "a@b.c".toList = "a@b".toList ++ '.' :: "c".toList := rfl
    rw [hsplit, repairsName_append_iff (by decide)]
    exact ⟨_, _, .edges 'a' 'b' (.cons hpiece .nil),
      (repairsName_of_not_mem (by decide)).mpr (.single 'c'), rfl⟩
  have hname : IsSubdomain "a-b.c".toList := by
    have hfirst : IsLabel ('a' :: (['-'] ++ ['b'])) :=
      isLabel_edges rfl rfl fun c hc => .inr (List.mem_singleton.mp hc)
    have hsecond : IsLabel "c".toList := isLabel_singleton rfl
    exact hfirst.isSubdomain_dotted hsecond.isSubdomain
  have hvalid := hrepairs "a-b.c".toList (by decide)
    fun label hlabel => (hname label hlabel).toHasEdges
  obtain ⟨hmem, -⟩ := hrepairs "a@b.c".toList (by decide) hedges
  refine ⟨grammar, rule, hgrammar, by decide, hedges, ?_, ?_, hname, hvalid.2.2 hname⟩
  · exact (hmem _).mpr ⟨hat "-at-".toList (by decide), by decide⟩
  · exact (hmem _).mpr ⟨hat ['-'] (by decide), by decide⟩

end GrammarRepair.Subdomain
