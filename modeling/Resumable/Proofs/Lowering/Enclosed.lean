import Resumable.Proofs.Lowering.Sound

/-!
This module contains what is known of the blocks that a stretch of code names: where its transfers
lead to, and that these blocks have code.
-/

namespace Resumable

namespace Plan

def Filled (plan : Plan) (b : BlockId) : Prop :=
  plan.code b ≠ []

def Avoids (plan : Plan) (low high : ValueId) (target : BlockId) : Prop :=
  ∀ {b : BlockId} {i : Nat} {ins : Instruction} {t : Transfer}, (plan.code b)[i]? = some ins →
    low ≤ ins.id → ins.id < high → ins.command = .transfer t → target ∉ t.references

def Fallen (plan : Plan) (target : BlockId) : Prop :=
  ∀ {b : BlockId} {i : Nat} {ins : Instruction} {t : Transfer}, (plan.code b)[i]? = some ins →
    ins.command = .transfer t → target ∉ t.references

def Concludes (plan : Plan) (cleanup b : BlockId) (i : Nat) (exit : BlockId) : Prop :=
  ∃ (j : Nat) (exception : ValueId) (value : Operand) (before ins : Instruction),
    plan.Takes cleanup exception ∧ i = j + 1 ∧ (plan.code b)[j]? = some before ∧
      before.command = .effect (.endFinally (.result exception)) ∧
      (plan.code b)[i]? = some ins ∧ ins.command = .handOver value exit

/--
Whether an instruction ends the code of a `finally` block from a range of blocks that no transfer
with a number in a range leads to.
-/
def Strands (plan : Plan) (s t : Spot) (b : BlockId) (i : Nat) (target : BlockId) : Prop :=
  ∃ cleanup, s.fresh ≤ cleanup ∧ cleanup < t.fresh ∧ plan.Avoids s.value t.value cleanup ∧
    plan.Concludes cleanup b i target

structure Enclosed (plan : Plan) (goals : BlockId → Prop)
    (spared : BlockId → Nat → BlockId → Prop) (s t : Spot) : Prop where
  value : s.value ≤ t.value
  fresh : s.fresh ≤ t.fresh
  filled : ∀ {b : BlockId} {i : Nat} {ins : Instruction}, (plan.code b)[i]? = some ins →
    s.value ≤ ins.id → ins.id < t.value → ∀ target ∈ ins.references,
      plan.Filled target ∨ plan.Strands s t b i target ∨ spared b i target
  within : ∀ {b : BlockId} {i : Nat} {ins : Instruction} {transfer : Transfer},
    (plan.code b)[i]? = some ins → s.value ≤ ins.id → ins.id < t.value →
      ins.command = .transfer transfer → ∀ target ∈ transfer.references,
        goals target ∨ s.fresh ≤ target ∧ target < t.fresh

def unspared (_ : BlockId) (_ : Nat) (_ : BlockId) : Prop :=
  False

variable {plan : Plan} {s t u : Spot} {goals goals' : BlockId → Prop} {spared spared' : BlockId → Nat → BlockId → Prop}

theorem Strands.mono {s' t' : Spot} {b target : BlockId} {i : Nat}
    (h : plan.Strands s t b i target) (hlow : s'.fresh ≤ s.fresh) (hhigh : t.fresh ≤ t'.fresh)
    (havoids : ∀ cleanup, s.fresh ≤ cleanup → cleanup < t.fresh →
      plan.Avoids s.value t.value cleanup → plan.Avoids s'.value t'.value cleanup)
    : plan.Strands s' t' b i target := by
  obtain ⟨cleanup, hge, hlt, havoid, hconcludes⟩ := h
  exact ⟨cleanup, Nat.le_trans hlow hge, Nat.lt_of_lt_of_le hlt hhigh,
    havoids cleanup hge hlt havoid, hconcludes⟩

namespace Enclosed

theorem refl (hvalue : s.value = t.value) (hfresh : s.fresh = t.fresh)
    : plan.Enclosed goals spared s t where
  value := Nat.le_of_eq hvalue
  fresh := Nat.le_of_eq hfresh
  filled _ hlow hhigh := by lia
  within _ hlow hhigh := by lia

theorem mono (h : plan.Enclosed goals spared s t) (hgoals : ∀ b, goals b → goals' b)
    (hspared : ∀ b i target, spared b i target →
      plan.Filled target ∨ plan.Strands s t b i target ∨ spared' b i target)
    : plan.Enclosed goals' spared' s t where
  value := h.value
  fresh := h.fresh
  filled hins hlow hhigh target htarget := by
    rcases h.filled hins hlow hhigh target htarget with hfilled | hstrands | hspare
    . exact .inl hfilled
    . exact .inr (.inl hstrands)
    . exact hspared _ _ target hspare
  within hins hlow hhigh htransfer target htarget :=
    (h.within hins hlow hhigh htransfer target htarget).imp_left (hgoals target)

theorem ofGoTo {b : BlockId} (h : plan.Enclosed goals spared (s.goTo b) t)
    : plan.Enclosed goals spared s t :=
  ⟨h.value, h.fresh, h.filled, h.within⟩

theorem trans (h : plan.Enclosed goals spared s t) (h' : plan.Enclosed goals spared t u)
    (hgoals : ∀ b, goals b → b < s.fresh)
    : plan.Enclosed goals spared s u := by
  have hfresh := h.fresh
  have hfresh' := h'.fresh
  have hvalue := h.value
  have hvalue' := h'.value
  refine ⟨Nat.le_trans hvalue hvalue', Nat.le_trans hfresh hfresh', ?_, ?_⟩
  . intro b i ins hins hlow hhigh target htarget
    by_cases hid : ins.id < t.value
    . refine (h.filled hins hlow hid target htarget).imp_right (Or.imp_left fun hstrands => ?_)
      refine hstrands.mono (Nat.le_refl _) hfresh' ?_
      intro cleanup hge hlt havoids b i ins transfer hins hlow hhigh htransfer hmem
      by_cases hid : ins.id < t.value
      . exact havoids hins hlow hid htransfer hmem
      . rcases h'.within hins (Nat.not_lt.1 hid) hhigh htransfer cleanup hmem with hgoal | hrange
        . have := hgoals cleanup hgoal
          lia
        . lia
    . refine (h'.filled hins (Nat.not_lt.1 hid) hhigh target htarget).imp_right
        (Or.imp_left fun hstrands => ?_)
      refine hstrands.mono hfresh (Nat.le_refl _) ?_
      intro cleanup hge hlt havoids b i ins transfer hins hlow hhigh htransfer hmem
      by_cases hid : ins.id < t.value
      . rcases h.within hins hlow hid htransfer cleanup hmem with hgoal | hrange
        . have := hgoals cleanup hgoal
          lia
        . lia
      . exact havoids hins (Nat.not_lt.1 hid) hhigh htransfer hmem
  . intro b i ins transfer hins hlow hhigh htransfer target htarget
    by_cases hid : ins.id < t.value
    . refine (h.within hins hlow hid htransfer target htarget).imp_right ?_
      rintro ⟨hge, hlt⟩
      exact ⟨hge, Nat.lt_of_lt_of_le hlt hfresh'⟩
    . refine (h'.within hins (Nat.not_lt.1 hid) hhigh htransfer target htarget).imp_right ?_
      rintro ⟨hge, hlt⟩
      exact ⟨Nat.le_trans hfresh hge, hlt⟩

theorem eq_of_holds {command : Command} {b : BlockId} {i : Nat} {ins : Instruction}
    (horderly : Orderly plan.code) (hholds : plan.Holds s [command])
    (hins : (plan.code b)[i]? = some ins) (hlow : s.value ≤ ins.id)
    (hhigh : ins.id < (s.skip 1).value)
    : ins.command = command ∧ b = s.block ∧ i = s.index := by
  obtain ⟨⟨span, hspan⟩, _⟩ := hholds
  have hid : ins.id = s.value := Nat.le_antisymm (Nat.le_of_lt_succ hhigh) hlow
  obtain ⟨rfl, rfl⟩ := horderly.unique hins hspan hid
  rw [hins, Option.some.injEq] at hspan
  rw [hspan]
  exact ⟨rfl, rfl, rfl⟩

theorem effect {e : Effect} (horderly : Orderly plan.code) (hholds : plan.Holds s [.effect e])
    (hfilled : ∀ target ∈ e.references, plan.Filled target)
    : plan.Enclosed goals spared s (s.skip 1) where
  value := Nat.le_succ _
  fresh := Nat.le_refl _
  filled hins hlow hhigh target htarget := by
    have hcommand := (eq_of_holds horderly hholds hins hlow hhigh).1
    rw [Instruction.references, hcommand] at htarget
    exact .inl (hfilled target htarget)
  within hins hlow hhigh htransfer := by
    have hcommand := (eq_of_holds horderly hholds hins hlow hhigh).1
    rw [htransfer] at hcommand
    cases hcommand

theorem effects {α : Type} {items : List α} {f : α → Effect} (horderly : Orderly plan.code)
    (hholds : plan.Holds s (items.map fun item => .effect (f item)))
    (hfilled : ∀ item ∈ items, ∀ target ∈ (f item).references, plan.Filled target)
    (hgoals : ∀ b, goals b → b < s.fresh)
    : plan.Enclosed goals spared s (s.skip items.length) := by
  induction items generalizing s with
  | nil => exact .refl rfl rfl
  | cons item items ih =>
    have hskip : s.skip (item :: items).length = (s.skip 1).skip items.length := by
      simp only [Spot.skip, List.length_cons, Spot.mk.injEq, true_and]
      lia
    rw [List.forall_mem_cons] at hfilled
    rw [hskip]
    exact (effect horderly ⟨hholds.1, trivial⟩ hfilled.1).trans (ih hholds.2 hfilled.2 hgoals) hgoals

theorem transfer {transfer : Transfer} (horderly : Orderly plan.code)
    (hholds : plan.Holds s [.transfer transfer])
    (hfilled : ∀ target ∈ transfer.references,
      goals target ∧ (plan.Filled target ∨ spared s.block s.index target))
    : plan.Enclosed goals spared s (s.skip 1) where
  value := Nat.le_succ _
  fresh := Nat.le_refl _
  filled hins hlow hhigh target htarget := by
    obtain ⟨hcommand, rfl, rfl⟩ := eq_of_holds horderly hholds hins hlow hhigh
    rw [Instruction.references, hcommand] at htarget
    exact (hfilled target htarget).2.imp_right .inr
  within hins hlow hhigh htransfer target htarget := by
    have hcommand := (eq_of_holds horderly hholds hins hlow hhigh).1
    rw [htransfer, Command.transfer.injEq] at hcommand
    rw [hcommand] at htarget
    exact .inl (hfilled target htarget).1

theorem openWith {transfer : Transfer} {count : Nat} (horderly : Orderly plan.code)
    (hholds : plan.Holds s [.transfer transfer])
    (hfilled : ∀ target ∈ transfer.references,
      plan.Filled target ∧ s.fresh ≤ target ∧ target < s.fresh + count)
    (h : plan.Enclosed goals' spared ((s.opened count).skip 1) t)
    (hgoals' : ∀ b, goals' b → goals b ∨ s.fresh ≤ b ∧ b < s.fresh + count)
    : plan.Enclosed goals spared s t := by
  have hfresh : s.fresh + count ≤ t.fresh := h.fresh
  have hvalue : s.value + 1 ≤ t.value := h.value
  have hfirst : ∀ {b : BlockId} {i : Nat} {ins : Instruction}, (plan.code b)[i]? = some ins →
      s.value ≤ ins.id → ¬ s.value + 1 ≤ ins.id → ins.command = .transfer transfer := by
    intro b i ins hins hlow hid
    exact (eq_of_holds horderly hholds hins hlow (Nat.lt_of_not_le hid)).1
  refine ⟨by lia, by lia, ?_, ?_⟩
  . intro b i ins hins hlow hhigh target htarget
    by_cases hid : s.value + 1 ≤ ins.id
    . refine (h.filled hins hid hhigh target htarget).imp_right (Or.imp_left fun hstrands => ?_)
      refine hstrands.mono (Nat.le_add_right _ _) (Nat.le_refl _) ?_
      intro cleanup hge hlt havoids b i ins transfer' hins hlow hhigh htransfer hmem
      by_cases hid : s.value + 1 ≤ ins.id
      . exact havoids hins hid hhigh htransfer hmem
      . have hcommand := hfirst hins hlow hid
        rw [htransfer, Command.transfer.injEq] at hcommand
        rw [hcommand] at hmem
        exact absurd (hfilled cleanup hmem).2.2 (Nat.not_lt.2 hge)
    . rw [Instruction.references, hfirst hins hlow hid] at htarget
      exact .inl (hfilled target htarget).1
  . intro b i ins transfer' hins hlow hhigh htransfer target htarget
    by_cases hid : s.value + 1 ≤ ins.id
    . rcases h.within hins hid hhigh htransfer target htarget with hgoal | ⟨hge, hlt⟩
      . refine (hgoals' target hgoal).imp_right ?_
        rintro ⟨hge, hlt⟩
        exact ⟨hge, Nat.lt_of_lt_of_le hlt hfresh⟩
      . exact .inr ⟨Nat.le_trans (Nat.le_add_right _ _) hge, hlt⟩
    . have hcommand := hfirst hins hlow hid
      rw [htransfer, Command.transfer.injEq] at hcommand
      rw [hcommand] at htarget
      obtain ⟨_, hge, hlt⟩ := hfilled target htarget
      exact .inr ⟨hge, Nat.lt_of_lt_of_le hlt hfresh⟩

end Enclosed

end Plan

end Resumable
