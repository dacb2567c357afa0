import Resumable.Proofs.Handlers.Run

/-!
This module contains the places in its blocks that a machine comes to, and where it goes from there:
what is left of the block leads to another block, or to the end.
-/

namespace Resumable

namespace Plan

structure Comes (plan : Plan) (layout : Layout) (call : Caller) (p : Process) (s : Spot)
    (q : Plain) : Prop where
  status : p.state.status? = some (.running s.block)
  effects : ∃ values, layout.Agrees values p.state ∧
    Plain.effects call ((plan.code s.block).take s.index) ⟨p, values⟩ = .ok () q

variable {plan : Plan} {s : Spot} {command : Command} {rest : List Command}

theorem Holds.all {commands : List Command} {t : Transfer}
    (h : plan.Holds s (commands ++ [.transfer t])) (hs : s.index = 0)
    (horderly : Orderly plan.code) {ins : Instruction} (hins : ins ∈ plan.code s.block)
    : ins.command ∈ commands ++ [.transfer t] := by
  obtain ⟨i, hi⟩ := List.mem_iff_getElem?.1 hins
  have hlength : (plan.code s.block).length = commands.length + 1 := by
    obtain ⟨span, hspan⟩ := h.getElem? (List.getElem?_concat_length ..)
    rw [hs, Nat.zero_add] at hspan
    exact horderly.last hspan rfl
  have hlt : i < (commands ++ [Command.transfer t]).length := by
    rw [List.length_append, List.length_singleton, ← hlength]
    exact (List.getElem?_eq_some_iff.1 hi).1
  obtain ⟨span, hspan⟩ := h.getElem? (List.getElem?_eq_getElem hlt)
  rw [hs, Nat.zero_add, hi] at hspan
  cases hspan
  exact List.getElem_mem hlt

theorem Holds.drop (h : plan.Holds s (command :: rest))
    : ∃ span, (plan.code s.block).drop s.index
        = ⟨s.value, command, span⟩ :: (plan.code s.block).drop (s.skip 1).index := by
  obtain ⟨⟨span, hspan⟩, _⟩ := h
  obtain ⟨hlt, hins⟩ := List.getElem?_eq_some_iff.1 hspan
  exact ⟨span, by rw [List.drop_eq_getElem_cons hlt, hins]; rfl⟩

theorem Holds.before (h : plan.Holds s (command :: rest)) (horderly : Orderly plan.code)
    : ∀ ins ∈ (plan.code s.block).take s.index, ∃ e, ins.command = .effect e := by
  intro ins hins
  obtain ⟨⟨span, hspan⟩, _⟩ := h
  have hlt := (List.getElem?_eq_some_iff.1 hspan).1
  obtain ⟨i, hi, hat⟩ := List.mem_take_iff_getElem.1 hins
  cases hcommand : ins.command with
  | effect e => exact ⟨e, rfl⟩
  | transfer t =>
    have hat' : (plan.code s.block)[i]? = some ins := List.getElem?_eq_some_iff.2 ⟨_, hat⟩
    have hlast := horderly.last hat' (by simp [Instruction.isTransfer, hcommand])
    lia

namespace Comes

variable {layout : Layout} {call : Caller} {p : Process} {q q' : Plain}

theorem step (h : plan.Comes layout call p s q) {e : Effect}
    (hholds : plan.Holds s (.effect e :: rest)) (hok : Plain.effect call s.value e q = .ok () q')
    : plan.Comes layout call p (s.skip 1) q' where
  status := h.status
  effects := by
    obtain ⟨values, hagrees, heffects⟩ := h.effects
    obtain ⟨⟨span, hspan⟩, _⟩ := hholds
    refine ⟨values, hagrees, ?_⟩
    simp only [Spot.skip, List.take_add_one, hspan, Option.toList_some]
    rw [Plain.effects_append, bind_of_ok heffects]
    simp only [Plain.effects]
    rw [bind_of_ok hok]
    rfl

theorem copies {ids : List ValueId} (h : plan.Comes layout call p s q)
    (hholds : plan.Holds s (ids.map fun id => .effect (.const (.result id))))
    (hids : ∀ id ∈ ids, id < s.value)
    : plan.Comes layout call p (s.skip ids.length) ⟨q.toProcess,
        updateAll q.values ((List.range' s.value ids.length).zip (ids.map q.values))⟩ := by
  induction ids generalizing s q with
  | nil => exact h
  | cons id ids ih =>
    rw [List.forall_mem_cons] at hids
    have hcomes := ih (h.step hholds rfl) hholds.2
      (fun id' hid' => Nat.lt_succ_of_lt (hids.2 id' hid'))
    have hsame : ids.map (update q.values s.value (q.values id)) = ids.map q.values := by
      apply List.map_congr_left
      intro id' hid'
      exact if_neg (Nat.ne_of_lt (hids.2 id' hid'))
    rw [hsame] at hcomes
    simpa only [Spot.skip, List.length_cons, List.range'_succ, List.map_cons, List.zip_cons_cons,
      updateAll_cons, Nat.add_assoc, Nat.add_comm 1] using hcomes

theorem code (h : plan.Comes layout call p s q) (hholds : plan.Holds s (command :: rest))
    (horderly : Orderly plan.code)
    : ∃ values, layout.Agrees values p.state ∧
        Plain.code call (plan.code s.block) ⟨p, values⟩
          = Plain.code call ((plan.code s.block).drop s.index) q := by
  obtain ⟨values, hagrees, heffects⟩ := h.effects
  refine ⟨values, hagrees, ?_⟩
  calc
    _ = Plain.code call ((plan.code s.block).take s.index ++ (plan.code s.block).drop s.index)
          ⟨p, values⟩ := by rw [List.take_append_drop]
    _ = _ := by rw [Plain.code_append _ (hholds.before horderly), bind_of_ok heffects]

end Comes

end Plan

namespace Graph.Coded

open Plan

variable {options : CompileOptions} {source : Form} {graph : Graph} {plan : Plan}
  {table : Table String Handler} {name : String} {program : Program} {machines : Machines}
  {fuel : Nat} {p : Process} {s : Spot} {t : Transfer} {rest : List Command} {q q' : Plain}

theorem sim_comes (h : graph.Coded options source plan)
    (hprogram : Program.ofGraph graph table name = .ok program) {call : Caller}
    (hcomes : plan.Comes graph.layout call p s q) (hholds : plan.Holds s (.transfer t :: rest))
    : ∃ code, program.blocks.get? s.block = some code ∧
        Sim graph.layout (Linked.Leaves graph.layout table)
          (Exec.block call code { toProcess := p }) (Plain.transfer t q) := by
  obtain ⟨values, hagrees, hcode⟩ := hcomes.code hholds h.toOrderly
  obtain ⟨span, hdrop⟩ := hholds.drop
  rw [hdrop] at hcode
  rcases h.get?_program hprogram s.block with ⟨hnone, _⟩ | ⟨code, hsome, hemit⟩
  . simp [hnone] at hdrop
  . refine ⟨code, hsome, ?_⟩
    have hsim := h.sim_block hemit call hagrees
    rwa [hcode] at hsim

theorem run_next (h : graph.Coded options source plan)
    (hprogram : Program.ofGraph graph table name = .ok program)
    (hcomes : plan.Comes graph.layout (Run.call machines (Program.run machines fuel)) p s q)
    (hholds : plan.Holds s (.transfer t :: rest)) (htransfer : Plain.transfer t q = .ok .next q')
    : ∃ state, graph.layout.Agrees q'.values state ∧ state.Alike q'.state ∧
        Program.run machines (fuel + 1) program p
          = Program.run machines fuel program ⟨state, q'.store⟩ := by
  obtain ⟨code, hsome, hsim⟩ := h.sim_comes hprogram hcomes hholds
  rw [htransfer] at hsim
  obtain ⟨flow, f, hexec, hflow, hlinked⟩ := hsim.ok_right
  cases hflow
  refine ⟨f.state, hlinked.agrees, hlinked.header, ?_⟩
  rw [Program.run, hcomes.status]
  simp only [Run.turn, hsome, hexec]
  rw [← hlinked.store]

theorem run_done (h : graph.Coded options source plan)
    (hprogram : Program.ofGraph graph table name = .ok program)
    (hcomes : plan.Comes graph.layout (Run.call machines (Program.run machines fuel)) p s q)
    (hholds : plan.Holds s (.transfer t :: rest)) {value : Value}
    (htransfer : Plain.transfer t q = .ok (.done value) q')
    : ∃ state, Program.run machines (fuel + 1) program p = .ok (.done value) ⟨state, q'.store⟩ := by
  obtain ⟨code, hsome, hsim⟩ := h.sim_comes hprogram hcomes hholds
  rw [htransfer] at hsim
  obtain ⟨flow, f, hexec, hflow, hlinked⟩ := hsim.ok_right
  cases hflow
  refine ⟨f.state, ?_⟩
  rw [Program.run, hcomes.status]
  simp only [Run.turn, hsome, hexec]
  rw [← hlinked.store]

theorem held_comes (h : graph.Coded options source plan) (hsmall : graph.IsSmall) {call : Caller}
    (hgood : plan.Good graph.layout p.state) (hcomes : plan.Comes graph.layout call p s q)
    {command : Command} (hholds : plan.Holds s (command :: rest))
    : ∃ handlers, plan.Held s.block s.index q.state handlers := by
  obtain ⟨handlers, _, _, hat⟩ := hgood.running hcomes.status
  obtain ⟨values, _, heffects⟩ := hcomes.effects
  have hheld := @Plain.effects_inv call (plan.code s.block)
    (fun i q => ∃ handlers, plan.Held s.block i q.state handlers)
    (fun hi he hheld hok => h.held_effect hsmall hi he hheld hok) _ _
    (List.take_append_drop s.index _).symm (hholds.before h.toOrderly) _ _
    ⟨handlers, hat.stacked, hat.chain, hat.enters.mayHold⟩ heffects
  obtain ⟨⟨span, hspan⟩, _⟩ := hholds
  rwa [List.length_take_of_le (Nat.le_of_lt (List.getElem?_eq_some_iff.1 hspan).1)] at hheld

theorem left_comes (h : graph.Coded options source plan) (hsmall : graph.IsSmall) {call : Caller}
    (hgood : plan.Good graph.layout p.state) (hcomes : plan.Comes graph.layout call p s q)
    (hholds : plan.Holds s (.transfer t :: rest)) {ending : Plain.Ending} {state : State}
    (hleaving : Plain.Leaving q.state t ending state)
    : ∃ handlers, plan.Left handlers t ending state := by
  obtain ⟨handlers, hheld⟩ := h.held_comes hsmall hgood hcomes hholds
  obtain ⟨⟨span, hspan⟩, _⟩ := hholds
  exact ⟨handlers, hheld.left (h.blockFits _) hspan (h.fits hspan) rfl
    (h.small_references hsmall hspan) hleaving⟩

end Graph.Coded

end Resumable
