import Resumable.Proofs.Lowering.Sound

/-!
This module contains the order in which the results of a graph are named: those in scope have been
named before the code that they are in scope of, and so have the values of operands before the code
behind them.
-/

namespace Resumable

structure Scope.Sorted (scope : Scope) (high : ValueId) : Prop where
  locals : ∀ id, scope.binds id = true → id < high
  carried : ∀ point ∈ scope.loops, ∀ id ∈ point.carried, scope.binds id = true

namespace Plan

structure Between (plan : Plan) (P : BlockId → Nat → Instruction → Prop) (low high : ValueId) :
    Prop where
  le : low ≤ high
  each : ∀ {b : BlockId} {i : Nat} {ins : Instruction}, (plan.code b)[i]? = some ins →
    low ≤ ins.id → ins.id < high → P b i ins

namespace Between

variable {plan : Plan} {P : BlockId → Nat → Instruction → Prop} {low mid high : ValueId} {s : Spot}

theorem refl (low : ValueId) : plan.Between P low low :=
  ⟨Nat.le_refl _, fun _ hlow hhigh => absurd hhigh (Nat.not_lt.2 hlow)⟩

theorem trans (h : plan.Between P low mid) (h' : plan.Between P mid high)
    : plan.Between P low high where
  le := Nat.le_trans h.le h'.le
  each {_ _ ins} hins hlow hhigh := by
    by_cases hid : ins.id < mid
    . exact h.each hins hlow hid
    . exact h'.each hins (Nat.not_lt.1 hid) hhigh

theorem one {command : Command} (horderly : Orderly plan.code) (hholds : plan.Holds s [command])
    (h : ∀ span, P s.block s.index ⟨s.value, command, span⟩)
    : plan.Between P s.value (s.value + 1) where
  le := Nat.le_succ _
  each {_ _ ins} hins hlow hhigh := by
    obtain ⟨⟨span, hspan⟩, _⟩ := hholds
    have hid : ins.id = s.value := Nat.le_antisymm (Nat.le_of_lt_succ hhigh) hlow
    obtain ⟨rfl, rfl⟩ := horderly.unique hins hspan hid
    rw [hins, Option.some.injEq] at hspan
    rw [hspan]
    exact h span

theorem row {commands : List Command} (horderly : Orderly plan.code)
    (hholds : plan.Holds s commands)
    (h : ∀ command ∈ commands, ∀ b i id span, P b i ⟨id, command, span⟩)
    : plan.Between P s.value (s.value + commands.length) := by
  induction commands generalizing s with
  | nil => exact .refl _
  | cons command commands ih =>
    rw [List.forall_mem_cons] at h
    have hrest := ih hholds.2 h.2
    rw [List.length_cons, Nat.add_comm _ 1, ← Nat.add_assoc]
    exact (one horderly ⟨hholds.1, trivial⟩ fun span => h.1 _ _ _ span).trans hrest

end Between

end Plan

open Plan

variable {options : CompileOptions} {plan : Plan} {handlers : List BlockId} {scope : Scope}
  {s t : Spot} {r : Option (List Operand)} {high high' : ValueId}

theorem Scope.Sorted.mono (h : scope.Sorted high) (hle : high ≤ high') : scope.Sorted high' where
  locals id hid := Nat.lt_of_lt_of_le (h.locals id hid) hle
  carried := h.carried

theorem Scope.binds_of_mem {entry : String × ValueId} (h : entry ∈ scope.locals)
    : scope.binds entry.2 = true := by
  unfold binds
  rw [List.any_eq_true]
  exact ⟨entry, h, beq_self_eq_true _⟩

theorem Job.effect_writes {job : Job} {operands : List Operand} {own id : ValueId}
    (h : id ∈ (job.effect operands).writes own)
    : id = own ∨ id ∈ job.ids := by
  unfold effect at h
  split at h
  case h_6 =>
    rcases List.mem_cons.1 h with rfl | h
    . exact .inr (List.mem_singleton.2 rfl)
    . exact .inl (List.mem_singleton.1 h)
  all_goals exact .inl (List.mem_singleton.1 h)

namespace Scope

theorem binds_bind {name : String} {id w : ValueId}
    : (scope.bind name id).binds w = true ↔ id = w ∨ scope.binds w = true := by
  simp [binds, bind]

theorem Sorted.bind {id : ValueId} (h : scope.Sorted high) (name : String) (hid : id < high)
    : (scope.bind name id).Sorted high where
  locals w hw := by
    rcases binds_bind.1 hw with rfl | hw
    . exact hid
    . exact h.locals w hw
  carried point hpoint w hw := binds_bind.2 (.inr (h.carried point hpoint w hw))

theorem Sorted.guarded (h : scope.Sorted high) (handler : Option BlockId)
    : (scope.guarded handler).Sorted high :=
  ⟨h.locals, h.carried⟩

theorem Sorted.inFinally (h : scope.Sorted high) (block : BlockId)
    : (scope.inFinally block).Sorted high :=
  ⟨h.locals, h.carried⟩

theorem binds_bindAll {pairs : List (String × ValueId)} {w : ValueId}
    : (scope.bindAll pairs).binds w = true ↔ w ∈ pairs.map (·.2) ∨ scope.binds w = true := by
  unfold binds bindAll
  rw [List.any_append, List.any_reverse, Bool.or_eq_true, List.any_eq_true, List.mem_map]
  simp only [beq_iff_eq]

theorem Sorted.inLoop {names : List String} {point : LoopPoint} (h : scope.Sorted high)
    (hlength : names.length = point.carried.length) (hcarried : ∀ id ∈ point.carried, id < high)
    : ((scope.bindAll (names.zip point.carried)).inLoop point).Sorted high where
  locals w hw := by
    rcases binds_bindAll.1 hw with hw | hw
    . obtain ⟨pair, hpair, rfl⟩ := List.mem_map.1 hw
      exact hcarried _ (List.of_mem_zip hpair).2
    . exact h.locals w hw
  carried point' hpoint w hw := by
    apply binds_bindAll.2
    rcases List.mem_cons.1 hpoint with rfl | hpoint
    . left
      rwa [List.map_snd_zip (Nat.le_of_eq hlength.symm)]
    . exact .inr (h.carried point' hpoint w hw)

theorem Sorted.looped {low : ValueId} (h : scope.Sorted low)
    {pairs : List (String × Form)} {operands : List Operand}
    (hlength : operands.length = (pairs.map (·.2)).length) {point : LoopPoint}
    (hpoint : point.carried = .range' low operands.length)
    : ((scope.bindAll ((pairs.map (·.1)).zip point.carried)).inLoop point).Sorted
        (low + (operands.length + 1)) := by
  refine (h.mono (Nat.le_add_right _ _)).inLoop ?_ ?_
  . rw [hpoint, List.length_range', hlength, List.length_map, List.length_map]
  . intro id hid
    rw [hpoint, List.mem_range'_1] at hid
    lia

end Scope

theorem Code.length_operands {forms : List Form} {operands : List Operand}
    (h : Code options plan handlers scope s (.operands forms) (some operands) t)
    : operands.length = forms.length := by
  induction forms generalizing s operands with
  | nil =>
    cases h
    rfl
  | cons form forms ih =>
    cases h with
    | operandsCons _ hrest => simp [ih hrest]

def Operand.Below (high : ValueId) : Operand → Prop
  | .result id => id < high
  | .literal _ | .global _ => True
  | .pending => False

theorem Operand.Below.mono {operand : Operand} {high high' : ValueId} (h : operand.Below high)
    (hle : high ≤ high')
    : operand.Below high' := by
  cases operand with
  | result id => exact Nat.lt_of_lt_of_le h hle
  | literal | global => trivial
  | pending => exact h

theorem Code.value_le {part : Part} (h : Code options plan handlers scope s part r t)
    : s.value ≤ t.value := by
  induction h with
  | value | operandsNil | bodyNil | armsNil | catchingNone | clausesNil | cleanupNone =>
    exact Nat.le_refl _
  | form _ _ _ ih | performStop _ ih | body _ ih | selectStop _ ih | bind _ ih | loopStop _ ih
  | recurStop _ ih | suspendStop _ ih | finishStop _ ih | operandsStop _ ih | bodyStop _ ih
  | bindingsNil _ ih | bindingsStop _ ih => exact ih
  | operandsCons _ _ ih ihRest | operandsStopLater _ _ ih ihRest | bodyCons _ _ ih ihRest
  | bindingsKeep _ _ _ ih ihRest | armsDead _ _ _ ih ihRest => exact Nat.le_trans ih ihRest
  | _ =>
    simp only [Spot.skip, Spot.opened, Spot.goTo] at *
    lia

def Part.Starts (high : ValueId) : Part → Prop
  | .shape (.value operand) | .body operand _ => operand.Below high
  | _ => True

theorem Named.starts {name : String} {args : List Form} {span : Span} {shape : Shape}
    (h : Named options scope name args span shape)
    : (Part.shape shape).Starts high := by
  cases h <;> trivial

theorem Reads.starts {form : Form} {shape : Shape} (h : Reads options scope form shape)
    (hsorted : scope.Sorted high)
    : (Part.shape shape).Starts high := by
  cases h with
  | «local» hfind => exact hsorted.locals _ (Scope.binds_of_mem (Scope.mem_of_find? hfind))
  | named _ hnamed => exact hnamed.starts
  | _ => trivial

theorem Code.operands_below {part : Part} (h : Code options plan handlers scope s part r t)
    (hsorted : scope.Sorted s.value) (hpart : part.Starts s.value)
    : ∀ operand ∈ r.getD [], operand.Below t.value := by
  induction h with
  | form _ hreads _ ih => exact ih hsorted (hreads.starts hsorted)
  | value | bodyNil => exact List.forall_mem_singleton.2 hpart
  | body _ ih | bind _ ih | bindingsNil _ ih => exact ih hsorted trivial
  | operandsCons hform hrest ih ihRest =>
    rw [Option.getD_some, List.forall_mem_cons]
    refine ⟨?_, ihRest (hsorted.mono hform.value_le) trivial⟩
    exact (ih hsorted trivial _ (List.mem_singleton.2 rfl)).mono hrest.value_le
  | bodyCons hform _ ih ihRest =>
    exact ihRest (hsorted.mono hform.value_le) (ih hsorted trivial _ (List.mem_singleton.2 rfl))
  | @bindingsCopy handlers scope s r t u name _ _ _ _ hform _ _ _ ihRest =>
    refine ihRest (Scope.Sorted.bind (hsorted.mono ?_) name ?_) trivial
    . exact Nat.le_succ_of_le hform.value_le
    . exact Nat.lt_succ_self _
  | @bindingsKeep handlers scope s r t u name _ _ _ id hform _ _ ih ihRest =>
    have hid : id < t.value := ih hsorted trivial (.result id) (List.mem_singleton.2 rfl)
    exact ihRest (Scope.Sorted.bind (hsorted.mono hform.value_le) name hid) trivial
  | perform | select | loop | suspend | attempt =>
    exact List.forall_mem_singleton.2 (Nat.lt_succ_self _)
  | _ => exact fun _ hmem => (List.not_mem_nil hmem).elim

theorem Scope.sorted_ofParams (params : List String)
    : (Scope.ofParams params).Sorted params.length where
  locals id hid := by
    rw [Scope.ofParams, Scope.binds_bindAll] at hid
    rcases hid with hid | hid
    . obtain ⟨pair, hpair, rfl⟩ := List.mem_map.1 hid
      have := List.mem_range'_1.1 (List.of_mem_zip hpair).2
      lia
    . cases hid
  carried point hpoint := by simp [Scope.ofParams, Scope.bindAll] at hpoint

end Resumable
