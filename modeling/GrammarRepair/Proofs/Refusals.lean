import GrammarRepair.Proofs.Descent
import Mathlib.Data.List.Basic

/-!
# Refusals of the guard

Matching is cut where a reference names a rule that has been entered on the same
input.  `Call.refusals` lists these places in the order in which matching comes
to them, each as often as it does: first the refusal of the call itself, then
those of the calls that it makes.  The calls that a call makes are a
well-founded relation, which is what the list is defined by recursion on.
-/

namespace GrammarRepair.Call

/-- The frame that keeps the call from entering the rule that it refers to. -/
def refusal : Call → List Frame
  | ⟨.single (.reference name), ctx, input⟩ =>
      match ctx.resolve? name, ctx.enter? name input with
      | some _, none => [⟨name, input⟩]
      | _, _ => []
  | _ => []

theorem wellFounded_next : WellFounded fun later call : Call => later ∈ call.next result :=
  ⟨induction_on_calls fun call ih => Acc.intro call ih⟩

/-- Every refusal that matching comes to, in order. -/
def refusals (call : Call) : List Frame :=
  call.refusal ++ (call.next result).attach.flatMap fun later => later.val.refusals
termination_by wellFounded_next.wrap call
decreasing_by exact later.property

theorem refusals_eq (call : Call) :
    call.refusals = call.refusal ++ (call.next result).flatMap refusals := by
  rw [refusals]
  congr 1
  conv_rhs => rw [← List.attach_map_subtype_val (call.next result), List.flatMap_map]

/-- A refusal is that of a call to which a descent leads. -/
theorem mem_refusals_iff {call : Call} {frame : Frame} :
    frame ∈ call.refusals ↔ ∃ later, Descends call later ∧ frame ∈ later.refusal := by
  constructor
  · induction call using induction_on_calls with
    | step call ih =>
        intro hframe
        rw [refusals_eq, List.mem_append, List.mem_flatMap] at hframe
        rcases hframe with hown | ⟨later, hlater, hframe⟩
        · exact ⟨call, .refl, hown⟩
        · obtain ⟨last, hdescends, hlast⟩ := ih later hlater hframe
          exact ⟨last, .head hlater hdescends, hlast⟩
  · rintro ⟨last, hdescends, hframe⟩
    induction hdescends using Relation.ReflTransGen.head_induction_on with
    | refl =>
        rw [refusals_eq]
        exact List.mem_append_left _ hframe
    | head hlater _ ih =>
        rw [refusals_eq]
        exact List.mem_append_right _ (List.mem_flatMap.mpr ⟨_, hlater, ih⟩)

end GrammarRepair.Call
