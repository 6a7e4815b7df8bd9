import GrammarRepair.Proofs.Subdomain.Totality

/-!
# The name of the subdomain rule

The ceiling is on the rule that building returns.  The name of the rule stands
for what is under the ceiling, so repairs by the name are all names that match
the input, however long: neither is the input cut nor is anything left out.

On a longer input than the ceiling allows the two lists always differ.  A
character of the input never vanishes, so no name for the whole input is shorter
than the input has characters, whereas the part that the ceiling leaves has a
name with as many bytes as that part has characters.
-/

namespace GrammarRepair.Subdomain

open CharacterClass

/-! ## No character vanishes -/

theorem ne_nil_of_mem_interiorTexts {c : Char} {piece : Text} (hpiece : piece ∈ interiorTexts c) :
    piece ≠ [] := by
  rintro rfl
  unfold interiorTexts at hpiece
  split at hpiece
  · simp at hpiece
  · split at hpiece
    · revert hpiece
      decide
    · split at hpiece
      · cases hpiece
      · simp at hpiece

theorem length_le_byteLength_of_rewrites
    {source text : Text} (h : Rewrites interiorTexts source text) :
    source.length ≤ Text.byteLength text := by
  induction h with
  | nil => exact Nat.le_refl 0
  | cons hpiece _ ih =>
      have hsize := byteLength_pos (ne_nil_of_mem_interiorTexts hpiece)
      rw [List.length_cons, Text.byteLength_append]
      omega

theorem Begins.length_le_succ
    {input rest : Text} {first : Char} (h : Begins input first rest) :
    input.length ≤ rest.length + 1 := by
  cases h with
  | letter _ | replace _ => exact Nat.le_refl _
  | insert _ => exact Nat.le_succ _

theorem LabelMatch.length_le_byteLength_add {input : Text} {m : Match} (h : LabelMatch input m) :
    input.length ≤ Text.byteLength m.text + m.rest.length := by
  cases h with
  | @short rest first hfirst =>
      have hlength := hfirst.length_le_succ
      rw [Text.byteLength_cons, hfirst.utf8Size_eq, Text.byteLength_nil]
      dsimp only
      omega
  | @long source interior rest first last hfirst hinterior =>
      have hlength := hfirst.length_le_succ
      have hrewritten := length_le_byteLength_of_rewrites hinterior
      have hlast := Char.utf8Size_pos (lastChar last)
      rw [List.length_append, List.length_cons] at hlength
      rw [Text.byteLength_cons, hfirst.utf8Size_eq, Text.byteLength_append, Text.byteLength_cons,
        Text.byteLength_nil]
      dsimp only
      omega

/-- A name has at least a byte for each character that it takes. -/
theorem NameMatch.length_le_byteLength_add {input : Text} {m : Match} (h : NameMatch input m) :
    input.length ≤ Text.byteLength m.text + m.rest.length := by
  induction h with
  | single hlabel => exact hlabel.length_le_byteLength_add
  | dotted hlabel _ ih =>
      have hlength := hlabel.length_le_byteLength_add
      have hsign := Char.utf8Size_pos '.'
      rw [List.length_cons] at hlength
      rw [Text.byteLength_append, Text.byteLength_cons]
      dsimp only at hlength ih ⊢
      omega

/-! ## Repairs by the name -/

section Repairs

variable {grammar : Grammar} {run : String} {input text : Text}

/-- Repairs by the body are all names that match the input. -/
theorem mem_repairs_body_iff (hfind : grammar.find? name = some (body (labelRule run))) :
    text ∈ grammar.repairs (body (labelRule run)) input ↔ NameMatch input ⟨text, []⟩ := by
  have hceiling : (body (labelRule run)).ceiling? = none := rfl
  have hresolve : (Context.fresh grammar).resolve? name = some (body (labelRule run)) := hfind
  rw [Grammar.mem_repairs_iff, hceiling, Text.within, mem_body_iff _ hresolve]
  · exact and_iff_left rfl
  · intro frame hframe
    cases hframe

theorem repairs_body_eq_of_isSubdomain
    (hfind : grammar.find? name = some (body (labelRule run))) (hinput : IsSubdomain input) :
    grammar.repairs (body (labelRule run)) input = [input] := by
  refine Grammar.repairs_eq_singleton fun text => ?_
  rw [mem_repairs_body_iff hfind,
    nameMatch_iff_repairsName fun label hlabel => (hinput label hlabel).toHasEdges,
    repairsName_iff_eq hinput]

theorem repairs_nameRule_truncate :
    grammar.repairs (nameRule run) (Text.truncate maxLength input) =
      grammar.repairs (nameRule run) input := by
  refine Grammar.repairs_eq_of_mem_iff fun text => ?_
  rw [mem_repairs_nameRule_iff, mem_repairs_nameRule_iff,
    Text.truncate_of_le (Text.byteLength_truncate_le maxLength input)]

/-- The ceiling leaves at least the first character. -/
theorem truncate_ne_nil (hinput : input ≠ []) : Text.truncate maxLength input ≠ [] := by
  obtain ⟨c, rest, rfl⟩ := List.exists_cons_of_ne_nil hinput
  have hfits : Text.byteLength [c] ≤ maxLength :=
    Nat.le_trans (Char.utf8Size_le_four c) (by decide)
  have hfirst : [c] <+: Text.truncate maxLength (c :: rest) :=
    Text.isPrefix_truncate (List.prefix_append [c] rest) hfits
  intro hempty
  rw [hempty, List.prefix_nil] at hfirst
  cases hfirst

/-- Of an input that is too long, the part that the ceiling leaves has a repair
that is too short for the whole. -/
theorem exists_mem_repairs_and_not_nameMatch (hlong : maxLength < Text.byteLength input) :
    ∃ text ∈ grammar.repairs (nameRule run) input, ¬NameMatch input ⟨text, []⟩ := by
  have hinput : input ≠ [] := by
    rintro rfl
    cases hlong
  obtain ⟨text, htext, hsize⟩ := (hasEvenName_and_cons _).1 (truncate_ne_nil hinput)
  refine ⟨text, mem_repairs_nameRule_iff.mpr ⟨htext, ?_⟩, fun hwhole => ?_⟩
  · rw [hsize]
    exact Nat.le_trans (length_le_byteLength _) (Text.byteLength_truncate_le maxLength input)
  · have hlength : input.length ≤ Text.byteLength text := hwhole.length_le_byteLength_add
    rw [hsize] at hlength
    exact absurd (Text.length_truncate_lt hlong) (Nat.not_lt.mpr hlength)

/-- The name repairs as the rule does where neither the input nor any name that
matches it is too long, and nowhere else. -/
theorem repairs_body_eq_repairs_nameRule_iff
    (hfind : grammar.find? name = some (body (labelRule run))) :
    grammar.repairs (body (labelRule run)) input = grammar.repairs (nameRule run) input ↔
      Text.byteLength input ≤ maxLength ∧
        ∀ text ∈ grammar.repairs (body (labelRule run)) input,
          Text.byteLength text ≤ maxLength := by
  constructor
  · intro hsame
    constructor
    · by_contra hlong
      obtain ⟨text, htext, hnone⟩ := exists_mem_repairs_and_not_nameMatch (Nat.not_le.mp hlong)
      rw [← hsame, mem_repairs_body_iff hfind] at htext
      exact hnone htext
    · intro text htext
      rw [hsame] at htext
      exact (mem_repairs_nameRule_iff.mp htext).2
  · rintro ⟨hlength, hfits⟩
    refine Grammar.repairs_eq_of_mem_iff fun text => ?_
    rw [mem_repairs_nameRule_iff, Text.truncate_of_le hlength, ← mem_repairs_body_iff hfind]
    exact ⟨fun htext => ⟨htext, hfits text htext⟩, And.left⟩

end Repairs

/-- Repairs by the name of the rule are all names that match the input, and a
valid name is left alone however long it is.  They are the repairs by the rule
if and only if the input and all of them have at most sixty-three bytes. -/
theorem exists_repairsBy_eq_and_eq_repairs_iff (supply : NameSupply) :
    ∃ grammar rule, Subdomain.grammar supply = .ok (grammar, rule) ∧
      ∀ input, ∃ names, grammar.repairsBy name input = .ok names ∧
        (∀ text, text ∈ names ↔ NameMatch input ⟨text, []⟩) ∧
        (IsSubdomain input → names = [input]) ∧
        (names = grammar.repairs rule input ↔
          Text.byteLength input ≤ 63 ∧ ∀ text ∈ names, Text.byteLength text ≤ 63) := by
  obtain ⟨grammar, run, hgrammar, hfind⟩ := exists_grammar_eq_ok_and_find?_name supply
  refine ⟨grammar, nameRule run, hgrammar, fun input => ?_⟩
  refine ⟨grammar.repairs (body (labelRule run)) input, ?_, ?_, ?_, ?_⟩
  · rw [Grammar.repairsBy, hfind]
  · exact fun text => mem_repairs_body_iff hfind
  · exact repairs_body_eq_of_isSubdomain hfind
  · exact repairs_body_eq_repairs_nameRule_iff hfind

theorem isSubdomain_replicate (count : Nat) : IsSubdomain (List.replicate (count + 2) 'a') := by
  rw [List.replicate_succ, List.replicate_succ']
  have hlabel : IsLabel ('a' :: (List.replicate count 'a' ++ ['a'])) := by
    refine isLabel_edges rfl rfl fun c hc => .inl ?_
    rw [List.eq_of_mem_replicate hc]
    rfl
  exact hlabel.isSubdomain

/-- A name of sixty-four letters is left alone by the name of the rule, and cut
by the rule. -/
theorem exists_repairsBy_ne_repairs_letters :
    ∃ grammar rule, Subdomain.grammar .counting = .ok (grammar, rule) ∧
      grammar.repairsBy name (List.replicate 64 'a') = .ok [List.replicate 64 'a'] ∧
      grammar.repairs rule (List.replicate 64 'a') = [List.replicate 63 'a'] ∧
      grammar.repairsBy name (List.replicate 64 'a') ≠
        .ok (grammar.repairs rule (List.replicate 64 'a')) := by
  obtain ⟨grammar, run, hgrammar, hfind⟩ := exists_grammar_eq_ok_and_find?_name .counting
  have hname : grammar.repairsBy name (List.replicate 64 'a') = .ok [List.replicate 64 'a'] := by
    rw [Grammar.repairsBy, hfind]
    exact congrArg _ (repairs_body_eq_of_isSubdomain hfind (isSubdomain_replicate 62))
  have hcut : Text.truncate maxLength (List.replicate 64 'a') = List.replicate 63 'a' := by decide
  have hrule :
      grammar.repairs (nameRule run) (List.replicate 64 'a') = [List.replicate 63 'a'] := by
    rw [← repairs_nameRule_truncate, hcut]
    exact repairs_eq_of_isSubdomain (by decide) (isSubdomain_replicate 61)
  refine ⟨grammar, nameRule run, hgrammar, hname, hrule, ?_⟩
  rw [hname, hrule]
  intro hsame
  have hcount : (List.replicate 64 'a').length = (List.replicate 63 'a').length :=
    congrArg List.length (List.cons.inj (Except.ok.inj hsame)).1
  exact absurd hcount (by decide)

end GrammarRepair.Subdomain
