import Resumable.Proofs.Lowering.Enclosed

/-!
This module contains the proof that the graph of a form is closed as far as control can get: an
instruction names blocks of the graph only, apart from the last instruction of a `finally` clause
that is never entered but by faults.
-/

namespace Resumable

namespace Part

def goal? : Part → Option BlockId
  | .arms meet _ live => if live then some meet else none
  | .guarded blocks _ live | .catching blocks _ live => if live then some blocks.after else none
  | .clauses after _ live => if live then some after else none
  | .cleanup blocks _ live => if live then some blocks.exit else none
  | _ => none

def Goal (scope : Scope) (part : Part) (b : BlockId) : Prop :=
  b ∈ part.goal? ∨ ∃ point ∈ scope.loops, point.header = b

def Spared (plan : Plan) : Part → BlockId → Nat → BlockId → Prop
  | .cleanup blocks _ live, b, i, target =>
    live = true ∧ target = blocks.exit ∧
      ∃ cleanup ∈ blocks.cleanup, plan.Concludes cleanup b i target
  | _, _, _, _ => False

def Awaits (plan : Plan) : Part → Prop
  | .shape whole => whole.Proper
  | .cleanup _ _ _ => True
  | .guarded blocks forms live =>
    (∀ b ∈ blocks.handlers, plan.Filled b) ∧
      ∀ b ∈ (Part.guarded blocks forms live).goal?, plan.Filled b
  | part => ∀ b ∈ part.goal?, plan.Filled b

def Placed (plan : Plan) (scope : Scope) (s : Spot) (part : Part) : Prop :=
  part.Awaits plan ∧ (∀ point ∈ scope.loops, plan.Filled point.header) ∧
    ∀ b, part.Goal scope b → b < s.fresh

def Fills (plan : Plan) (s : Spot) (r : Option (List Operand)) (t : Spot) : Part → Prop
  | .arms _ entries _ => ∀ b ∈ entries.map (·.2), plan.Filled b
  | .guarded blocks _ _ => plan.Filled blocks.entry
  | .catching blocks _ _ => ∀ b ∈ blocks.dispatch, plan.Filled b
  | .clauses _ entries _ => ∀ b ∈ entries.map (·.2), plan.Filled b
  | .cleanup blocks _ _ => ∀ b ∈ blocks.cleanup, plan.Filled b
  | _ => plan.Filled s.block ∨ r ≠ none ∧ t.block = s.block

end Part

open Plan

variable {options : CompileOptions} {plan : Plan} {handlers : List BlockId} {scope : Scope}
  {s t u : Spot} {r : Option (List Operand)}

theorem Plan.Holds.filled {command : Command} {rest : List Command}
    (h : plan.Holds s (command :: rest))
    : plan.Filled s.block := by
  obtain ⟨⟨span, hspan⟩, _⟩ := h
  intro hempty
  rw [hempty] at hspan
  cases hspan

theorem Plan.Holds.filled_of {command : Command} {rest : List Command}
    (h : plan.Holds t (command :: rest)) (hblock : plan.Filled s.block ∨ r ≠ none ∧ t.block = s.block)
    : plan.Filled s.block := by
  rcases hblock with hfilled | ⟨_, heq⟩
  . exact hfilled
  . rw [← heq]
    exact h.filled

theorem Plan.filled_trans {r' : Option (List Operand)}
    (h : plan.Filled s.block ∨ r ≠ none ∧ t.block = s.block)
    (h' : plan.Filled t.block ∨ r' ≠ none ∧ u.block = t.block)
    : plan.Filled s.block ∨ r' ≠ none ∧ u.block = s.block := by
  rcases h with hfilled | ⟨_, heq⟩
  . exact .inl hfilled
  . rw [← heq]
    exact h'

theorem Code.fills {part : Part} (h : Code options plan handlers scope s part r t)
    : part.Fills plan s r t := by
  induction h with
  | value | operandsNil | bodyNil => exact .inr ⟨by simp, rfl⟩
  | form _ _ _ ih | performStop _ ih | body _ ih | selectStop _ ih | bind _ ih | loopStop _ ih
  | recurStop _ ih | suspendStop _ ih | finishStop _ ih | operandsStop _ ih | bodyStop _ ih
  | bindingsNil _ ih | bindingsStop _ ih => exact ih
  | perform _ hholds ih | suspend _ _ hholds _ ih | finish _ _ hholds ih | recur _ _ _ _ hholds ih
  | finishBy _ _ _ hholds _ ih | bindingsCopy _ hholds _ ih _ | select _ _ hholds _ _ ih _
  | selectDead _ _ hholds _ ih _ => exact .inl (hholds.filled_of ih)
  | @loop handlers scope s t u pairs forms operands operand point _ _ hholds _ _ _ _ _ ih _ =>
    cases operands <;> exact .inl (hholds.filled_of ih)
  | @loopDead handlers scope s t u pairs forms operands point _ _ hholds _ _ ih _ =>
    cases operands <;> exact .inl (hholds.filled_of ih)
  | attempt _ _ _ _ _ hjump | attemptDead _ _ _ _ _ hjump => exact .inl hjump.filled
  | operandsStopLater _ _ ih ihRest | bodyCons _ _ ih ihRest | bindingsKeep _ _ _ ih ihRest =>
    exact filled_trans ih ihRest
  | operandsCons _ _ ih ihRest => exact (filled_trans ih ihRest).imp_right (by simp)
  | armsNil | clausesNil => simp [Part.Fills]
  | armsLive _ _ hjump _ ih ihRest =>
    exact List.forall_mem_cons.2 ⟨hjump.filled_of ih, ihRest⟩
  | armsDead _ _ _ ih ihRest => exact List.forall_mem_cons.2 ⟨ih.resolve_right (by simp), ihRest⟩
  | @guardedLive handlers scope s t blocks forms operand _ _ hpop ih =>
    generalize blocks.handlers = inner at hpop
    cases inner <;> exact hpop.filled_of ih
  | guardedDead _ _ ih => exact ih.resolve_right (by simp)
  | catchingNone hnone | cleanupNone hnone => simp [Part.Fills, hnone]
  | catching hdispatch hholds _ _ =>
    intro b hb
    cases hdispatch.symm.trans hb
    exact hholds.filled
  | clausesLive _ hreceive _ _ _ _ ihRest | clausesDead _ hreceive _ _ _ ihRest =>
    exact List.forall_mem_cons.2 ⟨hreceive.filled, ihRest⟩
  | cleanupLive hcleanup hholds _ _ _ | cleanupDead hcleanup hholds _ _ =>
    intro b hb
    cases hcleanup.symm.trans hb
    exact hholds.filled

theorem Job.effect_references (job : Job) (operands : List Operand)
    : (job.effect operands).references = [] := by
  unfold effect
  split <;> rfl

namespace Part.Placed

variable {part part' : Part} {scope' : Scope}

theorem move (h : part.Placed plan scope s) (hloops : scope'.loops = scope.loops)
    (hfresh : s.fresh ≤ t.fresh) (hawaits : part'.Awaits plan)
    (hgoal : ∀ b ∈ part'.goal?, b ∈ part.goal? ∨ b < t.fresh)
    : part'.Placed plan scope' t := by
  obtain ⟨_, hheaders, hgoals⟩ := h
  refine ⟨hawaits, by rwa [hloops], ?_⟩
  rintro b (hb | hb)
  . rcases hgoal b hb with hb | hb
    . exact Nat.lt_of_lt_of_le (hgoals b (.inl hb)) hfresh
    . exact hb
  . rw [hloops] at hb
    exact Nat.lt_of_lt_of_le (hgoals b (.inr hb)) hfresh

theorem plain (h : part.Placed plan scope s) (hloops : scope'.loops = scope.loops)
    (hfresh : s.fresh ≤ t.fresh) (hawaits : part'.Awaits plan) (hgoal : part'.goal? = none)
    : part'.Placed plan scope' t :=
  h.move hloops hfresh hawaits (by simp [hgoal])

end Part.Placed

theorem Part.goal_of_loops {scope' : Scope} {part part' : Part} (hloops : scope'.loops = scope.loops)
    (hgoal : ∀ b ∈ part'.goal?, b ∈ part.goal?) (b : BlockId) (h : part'.Goal scope' b)
    : part.Goal scope b := by
  rcases h with hb | hb
  . exact .inl (hgoal b hb)
  . exact .inr (hloops ▸ hb)

theorem Plan.Enclosed.toGoals {scope' : Scope} {part part' : Part}
    {spared : BlockId → Nat → BlockId → Prop}
    (h : plan.Enclosed (part.Goal scope) unspared s t) (hloops : scope.loops = scope'.loops)
    (hgoal : ∀ b ∈ part.goal?, b ∈ part'.goal?)
    : plan.Enclosed (part'.Goal scope') spared s t :=
  h.mono (Part.goal_of_loops hloops hgoal) fun _ _ _ hspare => hspare.elim

theorem receive_encloses {goals : BlockId → Prop} {spared : BlockId → Nat → BlockId → Prop}
    {b : BlockId} (horderly : Orderly plan.code) (hholds : plan.Holds (s.goTo b) [.receive])
    : plan.Enclosed goals spared s ((s.goTo b).skip 1) :=
  (Enclosed.effect horderly hholds (by simp [Effect.references])).ofGoTo

theorem handOver_encloses {part : Part} {spared : BlockId → Nat → BlockId → Prop}
    {operand : Operand} {target : BlockId} (horderly : Orderly plan.code)
    (hholds : plan.Holds s [.handOver operand target]) (hgoal : target ∈ part.goal?)
    (hfilled : plan.Filled target ∨ spared s.block s.index target)
    : plan.Enclosed (part.Goal scope) spared s (s.skip 1) := by
  refine .transfer horderly hholds ?_
  intro b hb
  cases List.mem_singleton.1 hb
  exact ⟨.inl hgoal, hfilled⟩

theorem push_encloses {blocks : TryBlocks} {goals : BlockId → Prop} (horderly : Orderly plan.code)
    (hholds : plan.Holds (s.goTo blocks.entry)
      (blocks.handlers.reverse.map (.effect <| .pushHandler ·)))
    (hfilled : ∀ b ∈ blocks.handlers, plan.Filled b) (hgoals : ∀ b, goals b → b < s.fresh)
    : plan.Enclosed goals unspared s ((s.goTo blocks.entry).skip blocks.handlers.length) := by
  have hpushed : plan.Enclosed goals unspared (s.goTo blocks.entry)
      ((s.goTo blocks.entry).skip blocks.handlers.reverse.length) :=
    .effects horderly hholds (by simpa [Effect.references] using hfilled) hgoals
  rw [List.length_reverse] at hpushed
  exact hpushed.ofGoTo

theorem finally_encloses {block : BlockId} {goals : BlockId → Prop}
    (spared : BlockId → Nat → BlockId → Prop) (horderly : Orderly plan.code)
    (hholds : plan.Holds (s.goTo block)
      [.receive, .effect .takeException, .effect (.popHandler block)])
    (hgoals : ∀ b, goals b → b < s.fresh)
    : plan.Enclosed goals spared s ((s.goTo block).skip 3) := by
  have hfilled : plan.Filled block := hholds.filled
  have hreceived : plan.Enclosed goals spared s ((s.goTo block).skip 1) :=
    receive_encloses horderly ⟨hholds.1, trivial⟩
  have htaken : plan.Enclosed goals spared ((s.goTo block).skip 1) ((s.goTo block).skip 2) :=
    .effect horderly ⟨hholds.2.1, trivial⟩ (by simp [Effect.references])
  have hpopped : plan.Enclosed goals spared ((s.goTo block).skip 2) ((s.goTo block).skip 3) :=
    .effect horderly hholds.2.2 (by simpa [Effect.references] using hfilled)
  exact (hreceived.trans htaken hgoals).trans hpopped hgoals

theorem goOn_encloses {goals : BlockId → Prop} {spared : BlockId → Nat → BlockId → Prop}
    {transfer : Transfer} (horderly : Orderly plan.code)
    (hholds : plan.Holds s [.transfer transfer]) (hrefs : transfer.references = [s.fresh])
    (hfilled : plan.Filled s.fresh) (hrest : plan.Enclosed goals spared ((s.opened 1).skip 1) t)
    : plan.Enclosed goals spared s t := by
  refine .openWith horderly hholds ?_ hrest fun _ hb => .inl hb
  intro target htarget
  rw [hrefs, List.mem_singleton] at htarget
  subst htarget
  exact ⟨hfilled, Nat.le_refl _, Nat.lt_succ_self _⟩

theorem branch_encloses {choice : Choice} {operand : Operand} {arms : List (Option Form)}
    {live : Bool} {v : Spot} {goals : BlockId → Prop} (horderly : Orderly plan.code)
    (hproper : choice = .test → arms.length = 2)
    (hholds : plan.Holds s [.transfer (choice.transfer operand (.range' s.fresh arms.length))])
    (harms : Code options plan handlers scope t
      (.arms (s.fresh + arms.length) (arms.zip (.range' s.fresh arms.length)) live) none u)
    (hrest : plan.Enclosed goals unspared ((s.opened (arms.length + 1)).skip 1) v)
    (hgoals : ∀ b, goals b → Part.Goal scope (.arms (s.fresh + arms.length) [] true) b)
    : plan.Enclosed (Part.Goal scope (.operands [])) unspared s v := by
  refine Enclosed.openWith horderly hholds ?_ hrest ?_
  . intro target htarget
    have hmem := Choice.transfer_references (by simpa using hproper) htarget
    have hfilled := harms.fills target (by rwa [List.map_snd_zip (by simp)])
    rw [List.mem_range'_1] at hmem
    exact ⟨hfilled, hmem.1, by lia⟩
  . intro b hb
    rcases hgoals b hb with hmeet | hloops
    . cases hmeet
      exact .inr ⟨Nat.le_add_right _ _, Nat.lt_succ_self _⟩
    . exact .inl (.inr hloops)

theorem loop_encloses {operands : List Operand} {point : LoopPoint}
    {pairs : List (String × ValueId)} (horderly : Orderly plan.code)
    (hholds : plan.Holds s (operands.map (fun operand => .effect (.const operand)) ++
      [.transfer (.jump none s.fresh)]))
    (hheader : point.header = s.fresh) (hfilled : plan.Filled s.fresh)
    (hrest : plan.Enclosed (Part.Goal ((scope.bindAll pairs).inLoop point) (.operands [])) unspared
      (((s.opened 1).skip (operands.length + 1)).goTo s.fresh) t)
    (hgoals : ∀ b, Part.Goal scope (.operands []) b → b < s.fresh)
    : plan.Enclosed (Part.Goal scope (.operands [])) unspared s t := by
  rw [holds_append, List.length_map] at hholds
  have hcopied : plan.Enclosed (Part.Goal scope (.operands [])) unspared s
      (s.skip operands.length) :=
    .effects horderly hholds.1 (by simp [Effect.references]) hgoals
  refine hcopied.trans (.openWith horderly hholds.2 ?_ hrest.ofGoTo ?_) hgoals
  . intro target htarget
    cases List.mem_singleton.1 htarget
    exact ⟨hfilled, Nat.le_refl _, Nat.lt_succ_self _⟩
  . rintro b (hb | ⟨point', hpoint', rfl⟩)
    . cases hb
    . rcases List.mem_cons.1 hpoint' with rfl | hpoint'
      . rw [hheader]
        exact .inr ⟨Nat.le_refl _, Nat.lt_succ_self _⟩
      . exact .inl (.inr ⟨point', hpoint', rfl⟩)

theorem Part.Placed.inLoop {part : Part} (part' : Part) {point : LoopPoint}
    (pairs : List (String × ValueId)) (h : part.Placed plan scope s)
    (hheader : plan.Filled point.header) (hlow : s.fresh ≤ t.fresh) (hhigh : point.header < t.fresh)
    (hawaits : part'.Awaits plan) (hgoal : part'.goal? = none)
    : part'.Placed plan ((scope.bindAll pairs).inLoop point) t := by
  refine ⟨hawaits, List.forall_mem_cons.2 ⟨hheader, h.2.1⟩, ?_⟩
  rintro b (hb | ⟨point', hpoint', rfl⟩)
  . rw [hgoal] at hb
    cases hb
  . rcases List.mem_cons.1 hpoint' with rfl | hpoint'
    . exact hhigh
    . exact Nat.lt_of_lt_of_le (h.2.2 _ (.inr ⟨point', hpoint', rfl⟩)) hlow

namespace TryBlocks

def Goal (scope : Scope) (blocks : TryBlocks) (live : Bool) (b : BlockId) : Prop :=
  Part.Goal scope (.operands []) b ∨ b = blocks.exit ∨ live = true ∧ b = blocks.after

theorem number_after (first : BlockId) (parts : TryParts)
    : first < (number first parts).after ∧ (number first parts).after ≤ (number first parts).exit := by
  have hexit := number_exit first parts
  have hcount : 2 ≤ count parts := Nat.le_add_left _ _
  unfold after
  cases hcleanup : (number first parts).cleanup with
  | none => exact ⟨by simp only [Option.getD_none]; lia, Nat.le_refl _⟩
  | some cleanup =>
    have hbounds := number_cleanup_bounds first parts cleanup hcleanup
    exact ⟨hbounds.1, Nat.le_of_lt hbounds.2.1⟩

variable {parts : TryParts} {blocks : TryBlocks} {live₁ live₂ live₃ : Bool}

theorem mem_goal? {b : BlockId} {live : Bool} {target : BlockId}
    (h : b ∈ if live then some target else none)
    : live = true ∧ b = target := by
  cases live with
  | false => cases h
  | true => exact ⟨rfl, (Option.some.inj h).symm⟩

theorem filled_after (hblocks : blocks = .number s.fresh parts)
    (hcleaning : Code options plan handlers scope t (.cleanup blocks parts.cleanup live₃) none u)
    (hexit : ((live₁ || live₂) && live₃) = true → plan.Filled blocks.exit)
    (hlive : (live₁ || live₂) = true)
    : plan.Filled blocks.after := by
  have hsome := number_cleanup_isSome s.fresh parts
  rw [← hblocks] at hsome
  unfold after
  cases hcleanup : blocks.cleanup with
  | some cleanup => exact hcleaning.fills cleanup hcleanup
  | none =>
    rw [hcleanup, Option.isSome_none, eq_comm, Option.isSome_eq_false_iff,
      Option.isNone_iff_eq_none] at hsome
    rw [hsome] at hcleaning
    cases hcleaning
    exact hexit (by simpa using hlive)

theorem parts_enclose {s₁ t₁ t₂ t₃ : Spot}
    (hplaced : Part.Placed plan scope s (.shape (.attempt parts)))
    (hblocks : blocks = .number s.fresh parts) (hs₁ : s₁.fresh = blocks.exit + 1)
    (hcatching : Code options plan handlers scope t₁ (.catching blocks parts.catches live₂) none t₂)
    (hcleaning : Code options plan handlers scope t₂ (.cleanup blocks parts.cleanup live₃) none t₃)
    (hexit : ((live₁ || live₂) && live₃) = true → plan.Filled blocks.exit)
    (ih₁ : Part.Placed plan scope s₁ (.guarded blocks parts.body live₁) →
      plan.Enclosed (Part.Goal scope (.guarded blocks parts.body live₁)) unspared s₁ t₁)
    (ih₂ : Part.Placed plan scope t₁ (.catching blocks parts.catches live₂) →
      plan.Enclosed (Part.Goal scope (.catching blocks parts.catches live₂)) unspared t₁ t₂)
    (ih₃ : Part.Placed plan scope t₂ (.cleanup blocks parts.cleanup live₃) →
      plan.Enclosed (Part.Goal scope (.cleanup blocks parts.cleanup live₃))
        (Part.Spared plan (.cleanup blocks parts.cleanup live₃)) t₂ t₃)
    : plan.Enclosed (blocks.Goal scope (live₁ || live₂))
        (Part.Spared plan (.cleanup blocks parts.cleanup live₃)) s₁ t₃ := by
  have hbounds := number_after s.fresh parts
  rw [← hblocks] at hbounds
  have hhandlers : ∀ b ∈ blocks.handlers, plan.Filled b := by
    intro b hb
    rcases List.mem_append.1 hb with hb | hb
    . exact hcatching.fills b (by simpa using hb)
    . exact hcleaning.fills b (by simpa using hb)
  have hafter := filled_after hblocks hcleaning hexit
  have hgoals : ∀ b, blocks.Goal scope (live₁ || live₂) b → b < s₁.fresh := by
    rintro b (hb | rfl | ⟨_, rfl⟩)
    . have := hplaced.2.2 b hb
      lia
    . lia
    . lia
  have hguarded := ih₁ (hplaced.move rfl (by lia)
    ⟨hhandlers, fun b hb => by obtain ⟨rfl, rfl⟩ := mem_goal? hb; exact hafter rfl⟩
    fun b hb => .inr (by obtain ⟨_, rfl⟩ := mem_goal? hb; lia))
  have hfresh₁ := hguarded.fresh
  have hcaught := ih₂ (hplaced.move rfl (by lia)
    (fun b hb => by obtain ⟨rfl, rfl⟩ := mem_goal? hb; exact hafter (Bool.or_true _))
    fun b hb => .inr (by obtain ⟨_, rfl⟩ := mem_goal? hb; lia))
  have hfresh₂ := hcaught.fresh
  have hcleaned := ih₃ (hplaced.move rfl (by lia) trivial
    fun b hb => .inr (by obtain ⟨_, rfl⟩ := mem_goal? hb; lia))
  refine (Enclosed.trans (hguarded.mono ?_ fun _ _ _ hspare => hspare.elim)
    (hcaught.mono ?_ fun _ _ _ hspare => hspare.elim) hgoals).trans
    (hcleaned.mono ?_ fun _ _ _ hspare => .inr (.inr hspare)) hgoals
  all_goals
    rintro b (hb | hb)
  . obtain ⟨rfl, rfl⟩ := mem_goal? hb
    exact .inr (.inr ⟨rfl, rfl⟩)
  . exact .inl (.inr hb)
  . obtain ⟨rfl, rfl⟩ := mem_goal? hb
    exact .inr (.inr ⟨Bool.or_true _, rfl⟩)
  . exact .inl (.inr hb)
  . exact .inr (.inl (mem_goal? hb).2)
  . exact .inl (.inr hb)

theorem avoids_cleanup {s₁ t₃ : Spot} {cleanup : BlockId} {spared : BlockId → Nat → BlockId → Prop}
    (horderly : Orderly plan.code) (hplaced : Part.Placed plan scope s (.shape (.attempt parts)))
    (hblocks : blocks = .number s.fresh parts)
    (hs₁ : s₁.fresh = blocks.exit + 1 ∧ s₁.value = s.value + 1)
    (hjump : plan.Holds s [.transfer (.jump none blocks.entry)])
    (hparts : plan.Enclosed (blocks.Goal scope false) spared s₁ t₃)
    (hcleanup : cleanup ∈ blocks.cleanup)
    : plan.Avoids s.value t₃.value cleanup := by
  have hentry : blocks.entry = s.fresh := by rw [hblocks]; rfl
  have hbounds := number_cleanup_bounds s.fresh parts cleanup (hblocks ▸ hcleanup)
  rw [← hblocks] at hbounds
  intro b i ins transfer hins hlow hhigh htransfer hmem
  by_cases hid : s₁.value ≤ ins.id
  . rcases hparts.within hins hid hhigh htransfer cleanup hmem with
      (hloop | hexit | ⟨hlive, _⟩) | hrange
    . have := hplaced.2.2 cleanup hloop
      lia
    . lia
    . cases hlive
    . lia
  . have hcommand := (Enclosed.eq_of_holds horderly hjump hins hlow
      (by simp only [Spot.skip]; lia)).1
    rw [htransfer, Command.transfer.injEq] at hcommand
    rw [hcommand] at hmem
    have := List.mem_singleton.1 hmem
    lia

theorem encloses {s₁ t₁ t₃ : Spot} (horderly : Orderly plan.code)
    (hplaced : Part.Placed plan scope s (.shape (.attempt parts)))
    (hblocks : blocks = .number s.fresh parts) (hs₁ : s₁ = { s.skip 1 with fresh := blocks.exit + 1 })
    (hjump : plan.Holds s [.transfer (.jump none blocks.entry)])
    (hguarded : Code options plan handlers scope s₁ (.guarded blocks parts.body live₁) none t₁)
    (hexit : ((live₁ || live₂) && live₃) = true → plan.Filled blocks.exit)
    (hparts : plan.Enclosed (blocks.Goal scope (live₁ || live₂))
      (Part.Spared plan (.cleanup blocks parts.cleanup live₃)) s₁ t₃)
    : plan.Enclosed (Part.Goal scope (.operands [])) unspared s t₃ := by
  have hnumber := number_exit s.fresh parts
  have hbounds := number_after s.fresh parts
  have hentry : blocks.entry = s.fresh := by rw [hblocks]; rfl
  rw [← hblocks] at hnumber hbounds
  have hspot : s₁ = (s.opened (count parts)).skip 1 := by
    rw [hs₁, hnumber]
    rfl
  have hopened : s₁.fresh = blocks.exit + 1 ∧ s₁.value = s.value + 1 := by
    rw [hs₁]
    exact ⟨rfl, rfl⟩
  have hwhole : plan.Enclosed (Part.Goal scope (.operands []))
      (Part.Spared plan (.cleanup blocks parts.cleanup live₃)) s t₃ := by
    refine .openWith horderly hjump ?_ (hspot ▸ hparts) ?_
    . intro target htarget
      cases List.mem_singleton.1 htarget
      exact ⟨hguarded.fills, by lia, by lia⟩
    . rintro b (hb | rfl | ⟨_, rfl⟩)
      . exact .inl hb
      . exact .inr ⟨by lia, by lia⟩
      . exact .inr ⟨by lia, by lia⟩
  refine hwhole.mono (fun _ hb => hb) ?_
  rintro b i target ⟨hlive₃, rfl, cleanup, hcleanup, hconcludes⟩
  cases hlive : live₁ || live₂ with
  | true => exact .inl (hexit (by rw [hlive, hlive₃]; rfl))
  | false =>
    rw [hlive] at hparts
    have hcleanups := number_cleanup_bounds s.fresh parts cleanup (hblocks ▸ hcleanup)
    rw [← hblocks] at hcleanups
    have hfresh := hparts.fresh
    exact .inr (.inl ⟨cleanup, by lia, by lia,
      avoids_cleanup horderly hplaced hblocks hopened hjump hparts hcleanup, hconcludes⟩)

end TryBlocks

theorem Code.encloses {part : Part} (horderly : Orderly plan.code)
    (h : Code options plan handlers scope s part r t) (hplaced : part.Placed plan scope s)
    : plan.Enclosed (part.Goal scope) (part.Spared plan) s t := by
  -- Few parts lead to a block of the part around them.
  have hawaits : ∀ {part : Part}, part.goal? = none → ∀ b ∈ part.goal?, plan.Filled b := by
    intro part hnone b hb
    rw [hnone] at hb
    cases hb
  induction h with
  | value | operandsNil | bodyNil | armsNil | clausesNil | catchingNone _ | cleanupNone _ =>
    exact .refl rfl rfl
  | form _ hreads _ ih => exact ih ⟨hreads.ids.2, hplaced.2⟩
  | performStop _ ih | body _ ih | selectStop _ ih | bind _ ih | loopStop _ ih
  | recurStop _ ih | suspendStop _ ih | finishStop _ ih | operandsStop _ ih | bodyStop _ ih
  | bindingsNil _ ih | bindingsStop _ ih =>
    exact ih ⟨hawaits rfl, hplaced.2⟩
  | @perform handlers scope s t job items operands _ hholds ih =>
    have hoperands := ih ⟨hawaits rfl, hplaced.2⟩
    refine hoperands.trans (.effect horderly hholds ?_) hplaced.2.2
    simp [Job.effect_references]
  | @select handlers scope s t u choice value arms operand _ hmeet hholds harms hreceive ih ihArms =>
    have hvalue := ih ⟨hawaits rfl, hplaced.2⟩
    refine hvalue.trans ?_ hplaced.2.2
    have hplaced' : Part.Placed plan scope ((t.opened (arms.length + 1)).skip 1)
        (.arms (t.fresh + arms.length) (arms.zip (.range' t.fresh arms.length)) true) := by
      refine hplaced.move rfl (Nat.le_trans hvalue.fresh (Nat.le_add_right _ _)) ?_ ?_
      . rintro _ ⟨⟩
        exact hreceive.filled
      . rintro _ ⟨⟩
        exact .inr (Nat.lt_succ_self _)
    have hrest := (ihArms hplaced').trans (receive_encloses horderly hreceive) hplaced'.2.2
    exact branch_encloses horderly (fun hc => by subst hc; exact hplaced.1) hholds harms hrest
      fun _ hb => hb
  | @selectDead handlers scope s t u choice value arms operand _ hmeet hholds harms ih ihArms =>
    have hvalue := ih ⟨hawaits rfl, hplaced.2⟩
    have harmed := ihArms
      (hplaced.plain rfl (Nat.le_trans hvalue.fresh (Nat.le_add_right _ _)) (hawaits rfl) rfl)
    refine hvalue.trans ?_ hplaced.2.2
    exact branch_encloses horderly (fun hc => by subst hc; exact hplaced.1) hholds harms harmed
      (Part.goal_of_loops rfl (by simp [Part.goal?]))
  | @recur handlers scope s t point outer args operands hloops _ _ _ hholds ih =>
    have hpoint : point ∈ scope.loops := by simp [hloops]
    have hargs := ih ⟨hawaits rfl, hplaced.2⟩
    have hset := hargs.trans
      (.effect horderly ⟨hholds.1, trivial⟩ (by simp [Effect.references])) hplaced.2.2
    refine hset.trans (.transfer horderly hholds.2 ?_) hplaced.2.2
    intro target htarget
    cases List.mem_singleton.1 htarget
    exact ⟨.inr ⟨point, hpoint, rfl⟩, .inl (hplaced.2.1 point hpoint)⟩
  | @suspend handlers scope s t handler args operands _ _ hholds hreceive ih =>
    have hargs := ih ⟨hawaits rfl, hplaced.2⟩
    exact hargs.trans (goOn_encloses horderly hholds (by simp [Transfer.references]) hreceive.filled
      (receive_encloses horderly hreceive)) hplaced.2.2
  | finish _ _ hholds ih =>
    have hbody := ih ⟨hawaits rfl, hplaced.2⟩
    exact hbody.trans (.transfer horderly hholds (by simp [Transfer.references])) hplaced.2.2
  | @finishBy handlers scope s t forms operand handler _ _ _ hholds hfinish ih =>
    have hbody := ih ⟨hawaits rfl, hplaced.2⟩
    have hfresh := hbody.fresh
    have hgoals : ∀ b, Part.Goal scope (.operands []) b → b < t.fresh + 1 :=
      fun b hb => Nat.lt_of_lt_of_le (hplaced.2.2 b hb) (Nat.le_succ_of_le hfresh)
    refine hbody.trans (goOn_encloses horderly hholds (by simp [Transfer.references]) hfinish.filled ?_)
      hplaced.2.2
    exact .trans (receive_encloses horderly ⟨hfinish.1, trivial⟩)
      (.transfer horderly hfinish.2 (by simp [Transfer.references])) hgoals
  | operandsCons _ _ ih ihRest | operandsStopLater _ _ ih ihRest | bodyCons _ _ ih ihRest
  | bindingsKeep _ _ _ ih ihRest =>
    have hfirst := ih ⟨hawaits rfl, hplaced.2⟩
    have hrest := ihRest (hplaced.plain rfl hfirst.fresh (hawaits rfl) rfl)
    exact hfirst.trans hrest hplaced.2.2
  | bindingsCopy _ hholds _ ih ihRest =>
    have hfirst := ih ⟨hawaits rfl, hplaced.2⟩
    have hrest := ihRest (hplaced.plain rfl hfirst.fresh (hawaits rfl) rfl)
    have hcopied := hfirst.trans (.effect horderly hholds (by simp [Effect.references])) hplaced.2.2
    exact hcopied.trans hrest hplaced.2.2
  | @loop handlers scope s t u pairs forms operands operand point _ _ hholds hpoint hbody _ hjump
      hreceive ih ihBody =>
    have hinits := ih ⟨hawaits rfl, hplaced.2⟩
    have hheader : point.header = t.fresh := by rw [hpoint]
    have hfilled : plan.Filled t.fresh := hjump.filled_of hbody.fills
    have hplaced' := hplaced.inLoop (.body (.literal .nil) forms)
      ((pairs.map (·.1)).zip point.carried)
      (t := ((t.opened 1).skip (operands.length + 1)).goTo t.fresh) (hheader ▸ hfilled)
      (Nat.le_succ_of_le hinits.fresh) (by rw [hheader]; exact Nat.lt_succ_self _) (hawaits rfl) rfl
    have hlooped := (ihBody hplaced').trans (goOn_encloses horderly hjump rfl hreceive.filled
      (receive_encloses horderly hreceive)) hplaced'.2.2
    exact hinits.trans (loop_encloses horderly hholds hheader hfilled hlooped
      fun b hb => Nat.lt_of_lt_of_le (hplaced.2.2 b hb) hinits.fresh) hplaced.2.2
  | @loopDead handlers scope s t u pairs forms operands point _ _ hholds hpoint hbody ih ihBody =>
    have hinits := ih ⟨hawaits rfl, hplaced.2⟩
    have hheader : point.header = t.fresh := by rw [hpoint]
    have hfilled : plan.Filled t.fresh := hbody.fills.resolve_right (by simp)
    have hplaced' := hplaced.inLoop (.body (.literal .nil) forms)
      ((pairs.map (·.1)).zip point.carried)
      (t := ((t.opened 1).skip (operands.length + 1)).goTo t.fresh) (hheader ▸ hfilled)
      (Nat.le_succ_of_le hinits.fresh) (by rw [hheader]; exact Nat.lt_succ_self _) (hawaits rfl) rfl
    exact hinits.trans (loop_encloses horderly hholds hheader hfilled (ihBody hplaced')
      fun b hb => Nat.lt_of_lt_of_le (hplaced.2.2 b hb) hinits.fresh) hplaced.2.2
  | @armsLive handlers scope s t u meet block arm rest operand live _ _ hjump _ ih ihRest =>
    have hbody := (ih (hplaced.plain rfl (Nat.le_refl _) (hawaits rfl) rfl)).ofGoTo
    have hsame : ∀ b ∈ (Part.arms meet rest live).goal?,
        b ∈ (Part.arms meet ((arm, block) :: rest) true).goal? := by
      cases live <;> simp [Part.goal?]
    have hrest := ihRest (hplaced.move rfl hbody.fresh (fun b hb => hplaced.1 b (hsame b hb))
      fun b hb => .inl (hsame b hb))
    exact ((hbody.toGoals rfl (by simp [Part.goal?])).trans
      (handOver_encloses horderly hjump rfl (.inl (hplaced.1 meet rfl))) hplaced.2.2).trans
      (hrest.toGoals rfl hsame) hplaced.2.2
  | @armsDead handlers scope s t u meet block arm rest live _ _ _ ih ihRest =>
    have hbody := (ih (hplaced.plain rfl (Nat.le_refl _) (hawaits rfl) rfl)).ofGoTo
    have hrest := ihRest (hplaced.move rfl hbody.fresh hplaced.1 fun b hb => .inl hb)
    exact (hbody.toGoals rfl (by simp [Part.goal?])).trans hrest hplaced.2.2
  | @clausesLive handlers scope s t u after block clause rest operand live _ hreceive _ hjump _ ih
      ihRest =>
    have hbody := (receive_encloses horderly hreceive).trans
      (ih (hplaced.plain rfl (Nat.le_refl _) (hawaits rfl) rfl))
      (fun b hb => hplaced.2.2 b (.inr (hb.resolve_left (by simp [Part.goal?]))))
    have hsame : ∀ b ∈ (Part.clauses after rest live).goal?,
        b ∈ (Part.clauses after ((clause, block) :: rest) true).goal? := by
      cases live <;> simp [Part.goal?]
    have hrest := ihRest (hplaced.move rfl hbody.fresh (fun b hb => hplaced.1 b (hsame b hb))
      fun b hb => .inl (hsame b hb))
    exact ((hbody.toGoals rfl (by simp [Part.goal?])).trans
      (handOver_encloses horderly hjump rfl (.inl (hplaced.1 after rfl))) hplaced.2.2).trans
      (hrest.toGoals rfl hsame) hplaced.2.2
  | @clausesDead handlers scope s t u after block clause rest live _ hreceive _ _ ih ihRest =>
    have hbody := (receive_encloses horderly hreceive).trans
      (ih (hplaced.plain rfl (Nat.le_refl _) (hawaits rfl) rfl))
      (fun b hb => hplaced.2.2 b (.inr (hb.resolve_left (by simp [Part.goal?]))))
    have hrest := ihRest (hplaced.move rfl hbody.fresh hplaced.1 fun b hb => .inl hb)
    exact (hbody.toGoals rfl (by simp [Part.goal?])).trans hrest hplaced.2.2
  | @guardedLive handlers scope s t blocks forms operand hpush _ hpop ih =>
    have hpushed := push_encloses horderly hpush hplaced.1.1 hplaced.2.2
    have hbody := ih (hplaced.plain rfl (Nat.le_refl _) (hawaits rfl) rfl)
    rw [holds_append, List.length_map] at hpop
    have hgoals : ∀ b, Part.Goal scope (.guarded blocks forms true) b → b < t.fresh :=
      fun b hb => Nat.lt_of_lt_of_le (hplaced.2.2 b hb) hbody.fresh
    have hpopped : plan.Enclosed (Part.Goal scope (.guarded blocks forms true)) unspared t
        (t.skip blocks.handlers.length) :=
      .effects horderly hpop.1 (by simpa [Effect.references] using hplaced.1.1) hgoals
    have hleft := hpopped.trans
      (handOver_encloses horderly hpop.2 rfl (.inl (hplaced.1.2 _ rfl))) hgoals
    exact (hpushed.trans (hbody.toGoals rfl (by simp [Part.goal?])) hplaced.2.2).trans hleft
      hplaced.2.2
  | guardedDead hpush _ ih =>
    have hpushed := push_encloses horderly hpush hplaced.1.1 hplaced.2.2
    exact hpushed.trans (ih (hplaced.plain rfl (Nat.le_refl _) (hawaits rfl) rfl)) hplaced.2.2
  | @catching handlers scope s t blocks catches dispatch live hdispatch hholds hclauses ih =>
    have hfilled : plan.Filled dispatch := hholds.filled
    have hpopped : plan.Enclosed (Part.Goal scope (.catching blocks catches live)) unspared s
        ((s.goTo dispatch).skip 1) :=
      (Enclosed.effect horderly ⟨hholds.1, trivial⟩
        (by simpa [Effect.references] using hfilled)).ofGoTo
    have hcaught := ih (hplaced.move rfl (Nat.le_add_right _ _) hplaced.1 fun b hb => .inl hb)
    refine hpopped.trans (.openWith horderly hholds.2 ?_ hcaught fun b hb => .inl hb) hplaced.2.2
    intro target htarget
    obtain ⟨pair, hpair, rfl⟩ := List.mem_map.1 htarget
    have hmem := (List.of_mem_zip hpair).1
    have hfilled := hclauses.fills pair.1 (by rwa [List.map_snd_zip (by simp)])
    exact ⟨hfilled, List.mem_range'_1.1 hmem⟩
  | @cleanupLive handlers scope s t blocks forms block operand hcleanup hholds _ hend ih =>
    have hstarted := finally_encloses (Part.Spared plan (.cleanup blocks (some forms) true))
      horderly hholds hplaced.2.2
    have hbody := ih (hplaced.plain rfl (Nat.le_refl _) (hawaits rfl) rfl)
    have hconcludes : plan.Concludes block t.block (t.index + 1) blocks.exit := by
      obtain ⟨⟨_, hbefore⟩, ⟨_, hins⟩, _⟩ := hend
      exact ⟨t.index, s.value + 1, _, _, _, hholds.2.1, rfl, hbefore, rfl, hins, rfl⟩
    have hended := (hstarted.trans (hbody.toGoals rfl (by simp [Part.goal?])) hplaced.2.2).trans
      (.effect horderly ⟨hend.1, trivial⟩ (by simp [Effect.references])) hplaced.2.2
    exact hended.trans (handOver_encloses horderly hend.2 rfl
      (.inr ⟨rfl, rfl, block, hcleanup, hconcludes⟩)) hplaced.2.2
  | @cleanupDead handlers scope s t blocks forms block hcleanup hholds _ ih =>
    have hstarted := finally_encloses (Part.Spared plan (.cleanup blocks (some forms) false))
      horderly hholds hplaced.2.2
    have hbody := ih (hplaced.plain rfl (Nat.le_refl _) (hawaits rfl) rfl)
    exact hstarted.trans (hbody.toGoals rfl (by simp [Part.goal?])) hplaced.2.2
  | attempt hblocks _ _ _ _ hjump hguarded hcatching hcleaning _ hreceive ih₁ ih₂ ih₃ =>
    have hparts := TryBlocks.parts_enclose hplaced hblocks rfl hcatching hcleaning
      (fun _ => hreceive.filled) ih₁ ih₂ ih₃
    have htried := TryBlocks.encloses horderly hplaced hblocks rfl hjump hguarded
      (fun _ => hreceive.filled) hparts
    exact htried.trans (receive_encloses horderly hreceive) hplaced.2.2
  | attemptDead hblocks _ _ _ _ hjump hguarded hcatching hcleaning hlive ih₁ ih₂ ih₃ =>
    have hparts := TryBlocks.parts_enclose hplaced hblocks rfl hcatching hcleaning
      (fun hlive' => absurd (hlive.symm.trans hlive') Bool.false_ne_true) ih₁ ih₂ ih₃
    exact TryBlocks.encloses horderly hplaced hblocks rfl hjump hguarded
      (fun hlive' => absurd (hlive.symm.trans hlive') Bool.false_ne_true) hparts

namespace Graph.Coded

variable {source : Form} {graph : Graph}

theorem filled_start (h : graph.Coded options source plan) : plan.Filled 0 := by
  obtain ⟨t, hcode, _⟩ := h.main
  exact hcode.fills.resolve_right (by simp)

theorem names (h : graph.Coded options source plan) {b target : BlockId} {i : Nat}
    {ins : Instruction} (hins : (plan.code b)[i]? = some ins) (htarget : target ∈ ins.references)
    : plan.Filled target ∨
        ∃ cleanup, plan.Fallen cleanup ∧ plan.Concludes cleanup b i target := by
  obtain ⟨t, hcode, hbound, _⟩ := h.main
  have hplaced : Part.Placed plan (.ofParams options.params) (.start options.params)
      (.shape (.finish [source])) := by
    refine ⟨trivial, by simp [Scope.ofParams, Scope.bindAll], ?_⟩
    rintro b (hb | ⟨point, hpoint, _⟩)
    . cases hb
    . simp [Scope.ofParams, Scope.bindAll] at hpoint
  have henclosed := hcode.encloses h.toOrderly hplaced
  rcases henclosed.filled hins (hbound hins).1 (hbound hins).2 target htarget with
    hfilled | ⟨cleanup, _, _, havoids, hconcludes⟩ | hspare
  . exact .inl hfilled
  . exact .inr ⟨cleanup, fun hins => havoids hins (hbound hins).1 (hbound hins).2, hconcludes⟩
  . exact hspare.elim

theorem get?_of_filled (h : graph.Coded options source plan) {b : BlockId} (hfilled : plan.Filled b)
    : ∃ block, graph.blocks.get? b = some block := by
  have hcode := h.code b
  cases hblock : graph.blocks.get? b with
  | none =>
    rw [Table.code, hblock] at hcode
    exact absurd hcode.symm hfilled
  | some block => exact ⟨block, rfl⟩

theorem code_of_get? (h : graph.Coded options source plan) {b : BlockId} {block : Block}
    (hblock : graph.blocks.get? b = some block)
    : plan.code b = block.code := by
  rw [← h.code b, Table.code, hblock]
  rfl

end Graph.Coded

namespace Graph

/--
Whether an instruction is the last one of a `finally` clause that is entered by faults only: the
instruction before it throws what the clause has taken again, and no transfer leads to the block
that took it.
-/
def Strands (graph : Graph) (b : BlockId) (i : Nat) (target : BlockId) : Prop :=
  ∃ (cleanup : BlockId) (j : Nat) (taken before ins : Instruction) (value : Operand),
    (graph.blocks.code cleanup)[1]? = some taken ∧ taken.command = .effect .takeException ∧
      (graph.blocks.code b)[j]? = some before ∧
      before.command = .effect (.endFinally (.result taken.id)) ∧ i = j + 1 ∧
      (graph.blocks.code b)[i]? = some ins ∧ ins.command = .handOver value target ∧
      ∀ {b : BlockId} {i : Nat} {ins : Instruction} {t : Transfer},
        (graph.blocks.code b)[i]? = some ins → ins.command = .transfer t → cleanup ∉ t.references

/--
The block that a graph starts with is a block of the graph, and so are all blocks that instructions
name, but for those that a `finally` clause which is entered by faults only would go on to.
-/
theorem references_get? {options : CompileOptions} {source : Form} {graph : Graph}
    (h : Graph.ofForm options source = .ok graph)
    : (∃ block, graph.blocks.get? graph.start = some block) ∧
        ∀ {b target : BlockId} {block : Block} {i : Nat} {ins : Instruction},
          graph.blocks.get? b = some block → block.code[i]? = some ins → target ∈ ins.references →
            (∃ block', graph.blocks.get? target = some block') ∨ graph.Strands b i target := by
  obtain ⟨plan, hcoded⟩ := Graph.ofForm_coded h
  refine ⟨?_, ?_⟩
  . rw [hcoded.start]
    exact hcoded.get?_of_filled hcoded.filled_start
  . intro b target block i ins hblock hins htarget
    rw [← hcoded.code_of_get? hblock] at hins
    refine (hcoded.names hins htarget).imp hcoded.get?_of_filled ?_
    rintro ⟨cleanup, hfallen, j, exception, value, before, last, ⟨span, htaken⟩, hi, hbefore, hend,
      hlast, hhandOver⟩
    refine ⟨cleanup, j, ⟨exception, .effect .takeException, span⟩, before, last, value, ?_, rfl, ?_,
      hend, hi, ?_, hhandOver, ?_⟩
    . rw [hcoded.code]
      exact htaken
    . rwa [hcoded.code]
    . rwa [hcoded.code]
    . intro b' i' ins' t hins' htransfer
      rw [hcoded.code] at hins'
      exact hfallen hins' htransfer

theorem ofForm_of_check (options : CompileOptions) (source : Form) (check : Graph → Bool)
    (h : (Graph.ofForm options source).toOption.any check = true)
    : ∃ graph, Graph.ofForm options source = .ok graph ∧ check graph = true := by
  cases hgraph : Graph.ofForm options source with
  | error e => simp [hgraph, Except.toOption] at h
  | ok graph => exact ⟨graph, rfl, by simpa [hgraph, Except.toOption] using h⟩

end Graph

def Form.returnBeforeFinally : Form :=
  .list [.symbol "try" .synthetic,
    .list [.symbol "return" .synthetic, .atom (.int 1) .synthetic] .synthetic,
    .list [.symbol "finally" .synthetic, .atom (.int 2) .synthetic] .synthetic] .synthetic

theorem Graph.references_get?_returnBeforeFinally
    : ∃ graph block ins, Graph.ofForm { expander := .core } .returnBeforeFinally = .ok graph ∧
        graph.blocks.get? 2 = some block ∧ block.code[4]? = some ins ∧ 3 ∈ ins.references ∧
        graph.blocks.get? 3 = none ∧ graph.Strands 2 4 3 := by
  obtain ⟨graph, hgraph, hcheck⟩ := Graph.ofForm_of_check { expander := .core }
    .returnBeforeFinally
    (fun graph => (graph.blocks.get? 2).any (fun block =>
      block.code[4]?.any (·.references.contains 3)) && (graph.blocks.get? 3).isNone)
    (by decide +kernel)
  rw [Bool.and_eq_true, Option.any_eq_true, Option.isNone_iff_eq_none] at hcheck
  obtain ⟨⟨block, hblock, hnames⟩, hnone⟩ := hcheck
  obtain ⟨ins, hins, htarget⟩ := (Option.any_eq_true _ _).1 hnames
  have htarget : 3 ∈ ins.references := List.contains_iff_mem.1 htarget
  refine ⟨graph, block, ins, hgraph, hblock, hins, htarget, hnone, ?_⟩
  refine ((Graph.references_get? hgraph).2 hblock hins htarget).resolve_left ?_
  simp [hnone]

end Resumable
