import GrammarRepair.Matching.Measure

/-!
# Matching

`Rule.enumerate` lists every way in which a rule matches a beginning of an
input, in order and with duplicates.  Sequences pass what one part leaves to
the next; choices list the matches of their branches one after the other; a
suggestion is asked only where nothing matches directly; a reference is
followed unless its name has been entered on the same input.

The recursion descends in the effort of matching, and for that it needs to know
that a match leaves no more than the input.  So the working functions return that
fact along with each match.  The equations of `enumerate` do not show it.
-/

namespace GrammarRepair

/-- A match that leaves no more than the input. -/
abbrev MatchOf (input : Text) := { m : Match // m.rest.byteLength ≤ input.byteLength }

namespace Matching

/-- What an attached suggestion offers. -/
def offersOf (suggestion : Option Suggestion) (input : Text) : List Match :=
  match suggestion with
  | none => []
  | some suggestion => suggestion.offers input

theorem byteLength_rest_le_of_mem_offersOf
    {suggestion : Option Suggestion} {input : Text} {m : Match}
    (hm : m ∈ offersOf suggestion input) :
    m.rest.byteLength ≤ input.byteLength := by
  cases suggestion with
  | none => simp [offersOf] at hm
  | some suggestion => exact Suggestion.byteLength_rest_le_of_mem_offers hm

/-- The same as matches of the input. -/
def offered (suggestion : Option Suggestion) (input : Text) : List (MatchOf input) :=
  (offersOf suggestion input).attachWith _ fun _ => byteLength_rest_le_of_mem_offersOf

theorem unattach_offered (suggestion : Option Suggestion) (input : Text) :
    (offered suggestion input).unattach = offersOf suggestion input :=
  List.unattach_attachWith

/-- A match later in the input, after `head` has matched before it. -/
def join {input : Text} (head : MatchOf input) (tail : MatchOf head.val.rest) : MatchOf input :=
  ⟨tail.val.precededBy head.val.text, by simpa using Nat.le_trans tail.property head.property⟩

mutual

/-- The matches of a rule. -/
def ofRule (rule : Rule) (ctx : Context) (input : Text) : List (MatchOf input) :=
  match rule with
  | .literal text =>
      match h : text.isPrefixOf? input with
      | some rest => [⟨⟨text, rest⟩, Text.byteLength_le_of_isPrefixOf? h⟩]
      | none => []
  | .range span suggestion =>
      match input with
      | [] => offered suggestion []
      | c :: rest =>
          if span.contains c then [⟨⟨[c], rest⟩, Nat.le_add_left _ _⟩]
          else offered suggestion (c :: rest)
  | .sequence parts => ofSequence parts ctx input
  | .choice branches suggestion =>
      match ofChoice branches ctx input with
      | [] => offered suggestion input
      | found => found
  | .reference name =>
      match _hresolve : ctx.resolve? name with
      | none => []
      | some target =>
          match _henter : ctx.enter? name input with
          | none => []
          | some child => ofRule target child input
  | .bound name body => ofRule body (ctx.bind name body) input
  | .capped _ inner => ofRule inner ctx input
termination_by ctx.effort rule.mentions rule.size input.byteLength
decreasing_by
  · exact Context.effort_lt_of_size_lt _ rfl (List.Subset.refl _) (Nat.le_max_right _ _)
      (Nat.lt_succ_self _)
  · exact Context.effort_lt_of_size_lt _ rfl (List.Subset.refl _) (Nat.le_max_right _ _)
      (Nat.lt_succ_self _)
  · exact Context.effort_target_lt _hresolve _henter (List.mem_singleton_self name)
  · exact Context.effort_lt_of_size_lt _ rfl (by
      simp [Rule.mentions, Context.mentions_bind]) (by
      simp only [Context.largest_bind, Rule.size]; omega) (Nat.lt_succ_self _)
  · exact Context.effort_lt_of_size_lt _ rfl (List.Subset.refl _) (Nat.le_max_right _ _)
      (Nat.lt_succ_self _)

/-- The matches of rules one after the other. -/
def ofSequence (parts : List Rule) (ctx : Context) (input : Text) : List (MatchOf input) :=
  match parts with
  | [] => [⟨⟨[], input⟩, Nat.le_refl _⟩]
  | part :: parts =>
      (ofRule part ctx input).flatMap fun head =>
        (ofSequence parts ctx head.val.rest).map (join head)
termination_by ctx.effort (Rule.mentionsOfAll parts) (Rule.sizeOfAll parts) input.byteLength
decreasing_by
  · rcases Nat.lt_or_eq_of_le head.property with hlt | heq
    · exact Context.effort_lt_of_bytes_lt hlt (by simp [Rule.mentionsOfAll])
        (Nat.le_max_right _ _) (by simp only [Rule.sizeOfAll]; omega)
    · rw [heq]
      exact Context.effort_lt_of_size_lt _ rfl (by simp [Rule.mentionsOfAll])
        (Nat.le_max_right _ _) (by simp only [Rule.sizeOfAll]; omega)
  · exact Context.effort_lt_of_size_lt _ rfl (by simp [Rule.mentionsOfAll])
      (Nat.le_max_right _ _) (by simp only [Rule.sizeOfAll]; omega)

/-- The matches of alternative rules, one rule after the other. -/
def ofChoice (branches : List Rule) (ctx : Context) (input : Text) : List (MatchOf input) :=
  match branches with
  | [] => []
  | branch :: branches => ofRule branch ctx input ++ ofChoice branches ctx input
termination_by ctx.effort (Rule.mentionsOfAll branches) (Rule.sizeOfAll branches) input.byteLength
decreasing_by
  · exact Context.effort_lt_of_size_lt _ rfl (by simp [Rule.mentionsOfAll])
      (Nat.le_max_right _ _) (by simp only [Rule.sizeOfAll]; omega)
  · exact Context.effort_lt_of_size_lt _ rfl (by simp [Rule.mentionsOfAll])
      (Nat.le_max_right _ _) (by simp only [Rule.sizeOfAll]; omega)

end

end Matching

namespace Rule

/-- Every way in which a rule matches a beginning of the input, in order;
duplicates are kept. -/
def enumerate (rule : Rule) (ctx : Context) (input : Text) : List Match :=
  (Matching.ofRule rule ctx input).unattach

/-- The same for rules one after the other. -/
def enumerateSequence (parts : List Rule) (ctx : Context) (input : Text) : List Match :=
  (Matching.ofSequence parts ctx input).unattach

/-- A match leaves no more than the input. -/
theorem byteLength_rest_le_of_mem_enumerate
    {rule : Rule} {ctx : Context} {input : Text} {m : Match}
    (hm : m ∈ rule.enumerate ctx input) :
    m.rest.byteLength ≤ input.byteLength := by
  obtain ⟨hbytes, -⟩ := List.mem_unattach.mp hm
  exact hbytes

/-! The equations of `enumerate`, one for each shape of rule. -/

theorem enumerate_literal (text : Text) (ctx : Context) (input : Text) :
    (literal text).enumerate ctx input =
      match text.isPrefixOf? input with
      | some rest => [⟨text, rest⟩]
      | none => [] := by
  rw [enumerate, Matching.ofRule]
  split <;> rename_i h <;> simp [h]

theorem enumerate_range_nil
    (span : CharRange) (suggestion : Option Suggestion) (ctx : Context) :
    (range span suggestion).enumerate ctx [] = Matching.offersOf suggestion [] := by
  rw [enumerate, Matching.ofRule]
  exact Matching.unattach_offered suggestion []

theorem enumerate_range_cons
    (span : CharRange) (suggestion : Option Suggestion) (ctx : Context) (c : Char) (rest : Text) :
    (range span suggestion).enumerate ctx (c :: rest) =
      if span.contains c then [⟨[c], rest⟩]
      else Matching.offersOf suggestion (c :: rest) := by
  rw [enumerate, Matching.ofRule]
  split
  · rfl
  · exact Matching.unattach_offered suggestion (c :: rest)

theorem enumerate_sequence (parts : List Rule) (ctx : Context) (input : Text) :
    (sequence parts).enumerate ctx input = enumerateSequence parts ctx input := by
  rw [enumerate, Matching.ofRule, enumerateSequence]

theorem enumerateSequence_nil (ctx : Context) (input : Text) :
    enumerateSequence [] ctx input = [⟨[], input⟩] := by
  simp [enumerateSequence, Matching.ofSequence]

theorem enumerateSequence_cons
    (part : Rule) (parts : List Rule) (ctx : Context) (input : Text) :
    enumerateSequence (part :: parts) ctx input =
      (part.enumerate ctx input).flatMap fun head =>
        (enumerateSequence parts ctx head.rest).map (Match.precededBy head.text) := by
  simp only [enumerateSequence, enumerate, Matching.ofSequence, List.unattach, List.map_flatMap,
    List.map_map, List.flatMap_map]
  rfl

theorem unattach_ofChoice (branches : List Rule) (ctx : Context) (input : Text) :
    (Matching.ofChoice branches ctx input).unattach = branches.flatMap (enumerate · ctx input) := by
  induction branches with
  | nil => simp [Matching.ofChoice]
  | cons branch branches ih =>
      rw [Matching.ofChoice, List.unattach_append, ih]
      rfl

theorem enumerate_choice
    (branches : List Rule) (suggestion : Option Suggestion) (ctx : Context) (input : Text) :
    (choice branches suggestion).enumerate ctx input =
      if branches.flatMap (enumerate · ctx input) = [] then Matching.offersOf suggestion input
      else branches.flatMap (enumerate · ctx input) := by
  rw [← unattach_ofChoice, enumerate, Matching.ofRule]
  split
  · rename_i h
    rw [Matching.unattach_offered, h, List.unattach_nil, if_pos rfl]
  · rename_i hfound
    have hne : (Matching.ofChoice branches ctx input).unattach ≠ [] := fun h =>
      hfound (List.map_eq_nil_iff.mp h)
    rw [if_neg hne]

theorem enumerate_reference (name : String) (ctx : Context) (input : Text) :
    (reference name).enumerate ctx input =
      match ctx.resolve? name, ctx.enter? name input with
      | some target, some child => target.enumerate child input
      | _, _ => [] := by
  rw [enumerate, Matching.ofRule]
  split
  · rename_i h
    simp [h]
  · rename_i target htarget
    split
    · rename_i h
      simp [htarget, h]
    · rename_i child hchild
      simp [htarget, hchild, enumerate]

theorem enumerate_bound (name : String) (body : Rule) (ctx : Context) (input : Text) :
    (bound name body).enumerate ctx input = body.enumerate (ctx.bind name body) input := by
  rw [enumerate, Matching.ofRule, enumerate]

theorem enumerate_capped (limit : Nat) (inner : Rule) (ctx : Context) (input : Text) :
    (capped limit inner).enumerate ctx input = inner.enumerate ctx input := by
  rw [enumerate, Matching.ofRule, enumerate]

end Rule
end GrammarRepair
