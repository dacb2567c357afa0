import Resumable.Proofs.Lowering.Nested

/-!
This module contains how control gets past the code of a form: it stays in the block where the code
starts, or leaves it for good and goes on in a block that was opened for the code. The handlers in
force are the same in the end.
-/

namespace Resumable

namespace Plan

def Closed (plan : Plan) (b : BlockId) (v : ValueId) : Prop :=
  ∃ (i : Nat) (ins : Instruction), (plan.code b)[i]? = some ins ∧ ins.isTransfer = true ∧ ins.id < v

structure Onward (plan : Plan) (handlers : List BlockId) (s t : Spot) : Prop where
  value : s.value ≤ t.value
  starts : s.Same t ∨ plan.Starts s
  goes : t.block = s.block ∧ s.index ≤ t.index ∧
      plan.stackAt t.block t.index = plan.stackAt s.block s.index ∨
    plan.Closed s.block t.value ∧ plan.stackAt t.block t.index = handlers

variable {plan : Plan} {handlers : List BlockId} {s t u : Spot}

theorem Closed.mono {b : BlockId} {v v' : ValueId} (h : plan.Closed b v) (hle : v ≤ v')
    : plan.Closed b v' := by
  obtain ⟨i, ins, hins, htransfer, hlt⟩ := h
  exact ⟨i, ins, hins, htransfer, Nat.lt_of_lt_of_le hlt hle⟩

theorem Closed.id_lt (horderly : Orderly plan.code) {b : BlockId} {v : ValueId}
    (h : plan.Closed b v) {i : Nat} {ins : Instruction} (hins : (plan.code b)[i]? = some ins)
    : ins.id < v := by
  obtain ⟨j, last, hlast, htransfer, hlt⟩ := h
  have hlength := horderly.last hlast htransfer
  have hi := (List.getElem?_eq_some_iff.1 hins).1
  rcases Nat.lt_or_eq_of_le (Nat.le_of_lt_succ (hlength ▸ hi)) with hij | rfl
  . exact Nat.lt_trans (horderly.ordered hins hlast hij) hlt
  . cases hins.symm.trans hlast
    exact hlt

namespace Onward

theorem refl (handlers : List BlockId) (s : Spot) : plan.Onward handlers s s where
  value := Nat.le_refl _
  starts := .inl ⟨rfl, rfl, rfl⟩
  goes := .inl ⟨rfl, Nat.le_refl _, rfl⟩

theorem trans (h : plan.Onward handlers s t) (h' : plan.Onward handlers t u)
    : plan.Onward handlers s u where
  value := Nat.le_trans h.value h'.value
  starts := by
    rcases h.starts with ⟨hblock, hindex, hvalue⟩ | hstarts
    . rcases h'.starts with ⟨hblock', hindex', hvalue'⟩ | ⟨ins, hins, hid⟩
      . exact .inl ⟨hblock'.trans hblock, hindex'.trans hindex, hvalue'.trans hvalue⟩
      . rw [hblock, hindex] at hins
        exact .inr ⟨ins, hins, hid.trans hvalue⟩
    . exact .inr hstarts
  goes := by
    rcases h.goes with ⟨hblock, hindex, hstack⟩ | ⟨hclosed, hstack⟩
    . rcases h'.goes with ⟨hblock', hindex', hstack'⟩ | ⟨hclosed', hstack'⟩
      . exact .inl ⟨hblock'.trans hblock, Nat.le_trans hindex hindex', hstack'.trans hstack⟩
      . exact .inr ⟨hblock ▸ hclosed', hstack'⟩
    . refine .inr ⟨hclosed.mono h'.value, ?_⟩
      rcases h'.goes with ⟨_, _, hstack'⟩ | ⟨_, hstack'⟩
      . exact hstack'.trans hstack
      . exact hstack'

theorem one {command : Command} (handlers : List BlockId) (hholds : plan.Holds s [command])
    (hstack : ∀ handlers, command.stack handlers = handlers)
    : plan.Onward handlers s (s.skip 1) where
  value := Nat.le_succ _
  starts := .inr (hholds.starts (List.cons_ne_nil _ _))
  goes := by
    obtain ⟨span, hspan⟩ := hholds.1
    exact .inl ⟨rfl, Nat.le_succ _, (stackAt_succ hspan).trans (hstack _)⟩

theorem copies {operands : List Operand} (handlers : List BlockId)
    (hholds : plan.Holds s (operands.map fun operand => .effect (.const operand)))
    : plan.Onward handlers s (s.skip operands.length) := by
  induction operands generalizing s with
  | nil => exact refl handlers s
  | cons operand operands ih =>
    have hskip : s.skip (operand :: operands).length = (s.skip 1).skip operands.length := by
      simp only [Spot.skip, List.length_cons, Nat.add_assoc, Nat.add_comm 1]
    rw [hskip]
    exact (one handlers ⟨hholds.1, trivial⟩ fun _ => rfl).trans (ih hholds.2)

theorem enter {transfer : Transfer} {scope : Scope} {b : BlockId}
    (hholds : plan.Holds s [.transfer transfer]) (hvalue : s.value < t.value)
    (hlabel : plan.label b = .plain handlers scope) (hreceive : plan.Holds (t.goTo b) [.receive])
    : plan.Onward handlers s ((t.goTo b).skip 1) where
  value := Nat.le_succ_of_le (Nat.le_of_lt hvalue)
  starts := .inr (hholds.starts (List.cons_ne_nil _ _))
  goes := by
    obtain ⟨span, hspan⟩ := hholds.1
    obtain ⟨span', hspan'⟩ := hreceive.1
    refine .inr ⟨⟨s.index, _, hspan, rfl, Nat.lt_succ_of_lt hvalue⟩, (stackAt_succ hspan').trans ?_⟩
    change plan.stackAt b 0 = handlers
    rw [stackAt_zero, hlabel]
    rfl

end Onward

end Plan

open Plan

variable {options : CompileOptions} {plan : Plan} {handlers : List BlockId} {scope : Scope}
  {s t : Spot} {part : Part} {r : Option (List Operand)}

theorem Code.onward (h : Code options plan handlers scope s part r t) (hr : r ≠ none)
    : plan.Onward handlers s t := by
  induction h with
  | value | operandsNil | bodyNil => exact .refl _ _
  | form _ _ _ ih | body _ ih | bind _ ih | bindingsNil _ ih => exact ih hr
  | @perform handlers scope s t job items operands _ hholds ih =>
    exact (ih nofun).trans (.one _ hholds fun _ => Job.effect_stack ..)
  | select hvalue hlabel hholds harms hreceive ih =>
    exact (ih nofun).trans (.enter hholds harms.value_le hlabel hreceive)
  | loop hoperands _ hholds _ hbody hlabel _ hreceive ih =>
    rw [holds_append] at hholds
    obtain ⟨hcopies, hjump⟩ := hholds
    refine ((ih nofun).trans (.copies _ hcopies)).trans ?_
    have hlt := hbody.value_le
    rw [List.length_map] at hjump
    exact .enter hjump (Nat.lt_succ_of_lt hlt) hlabel hreceive
  | suspend _ hlabel hholds hreceive ih =>
    exact (ih nofun).trans (.enter hholds (Nat.lt_succ_self _) hlabel hreceive)
  | attempt _ _ hlabel _ _ hjump hguarded hcatching hcleanup _ hreceive =>
    have hle := Nat.le_trans (Nat.le_trans hguarded.value_le hcatching.value_le) hcleanup.value_le
    exact .enter hjump hle hlabel hreceive
  | operandsCons _ _ ih ihRest | bodyCons _ _ ih ihRest | bindingsKeep _ _ _ ih ihRest =>
    exact (ih nofun).trans (ihRest (by first | exact hr | nofun))
  | bindingsCopy _ hholds _ ih ihRest =>
    exact ((ih nofun).trans (.one _ hholds fun _ => rfl)).trans (ihRest hr)
  | _ => exact absurd rfl hr

end Resumable
