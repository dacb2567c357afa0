import Resumable.Proofs.Running.Passed
import Resumable.Run.Step

/-!
This module contains what becomes of operands while the operands after them are evaluated: a variable
has the value that it was given last, and all other values stay what they were.
-/

namespace Resumable

/--
The value of an operand where it has just been evaluated: that of its slot, if the result has one.
-/
def Graph.Yields (graph : Graph) (operand : Operand) (value : Value) (f : Frame) : Prop :=
  match operand with
  | .result id =>
    match graph.layout.slots.get? id with
    | some slot => f.state.slot slot = value
    | none => f.registers.get (.result id) = value
  | operand => Exec.eval operand.source f = .ok value f

/--
Whether an operand stands for a variable that has been given a value.
-/
def Operand.IsReset (scope : Scope) (done : List Begun) (worlds : List (Store × Store)) :
    Operand → Prop
  | .result id => scope.binds id = true ∧ ∃ step ∈ done, id ∈ step.ins.writes
  | .global name => (∃ step ∈ done, step.Sets name) ∨
    ∃ world ∈ worlds, world.2.globals.get? name ≠ world.1.globals.get? name
  | .literal _ | .pending => False

/--
What a machine has begun from one instruction on until it gets to another, in the same turn or in a
later one.
-/
inductive Program.Until (machines : Machines) (program : Program) (graph : Graph) (fuel₀ : Nat)
    (p₀ : Process) (i₀ : Nat) (fuel : Nat) (p : Process) (i : Nat) :
    List Op → List Begun → List Value → List (Store × Store) → Prop where
  | same :
    p₀ = p → fuel₀ = fuel → i₀ ≤ i →
      program.Until machines graph fuel₀ p₀ i₀ fuel p i []
        (((program.begun machines graph fuel p).take i).drop i₀) [] []
  | later {ops : List Op} {done : List Begun} {handed : List Value}
      {worlds : List (Store × Store)} :
    program.Since machines graph fuel₀ p₀ i₀ ops done handed worlds p →
      program.Until machines graph fuel₀ p₀ i₀ fuel p i ops
        (done ++ (program.begun machines graph fuel p).take i) handed worlds

/--
Whether an instruction, whenever a machine gets to it, uses the value that an operand had at the
spot right behind it, unless the operand is a variable that was set since. Nothing has been begun in
between but the instructions from that spot on up to the one that uses the value, unless a fault was
handed back.
-/
def Program.InOrder (machines : Machines) (program : Program) (graph : Graph) (scope : Scope)
    (operand : Operand) (u : Spot) (b : BlockId) (i : Nat) (ins : Instruction) : Prop :=
  ∀ past faults p fuel f, program.Ran machines past faults p →
    program.Reaches machines graph fuel p b i f →
      ∃ past₀ faults₀ p₀ fuel₀ g ops done handed worlds,
        program.Ran machines past₀ faults₀ p₀ ∧ past = past₀ ++ ops ∧ faults = faults₀ ++ handed ∧
        program.Reaches machines graph fuel₀ p₀ u.block u.index g ∧
        program.Until machines graph fuel₀ p₀ u.index fuel p i ops done handed worlds ∧
        (handed = [] → ∀ step ∈ done, u.value ≤ step.ins.id ∧ step.ins.id < ins.id) ∧
        ∀ value, graph.Yields operand value g →
          Exec.eval operand.source f = .ok value f ∨ operand.IsReset scope done worlds

/--
Whether a machine that is at an instruction has got past an operand in its run, in the same turn or
in an earlier one, and has been at the code of the operands behind it since.
-/
def Program.PassedTo (machines : Machines) (program : Program) (graph : Graph) (plan : Plan)
    (u w : Spot) (past : List Op) (faults : List Value) (fuel : Nat) (p : Process) (i : Nat)
    (ins : Instruction) (f : Frame) : Prop :=
  ∃ past₀ faults₀ p₀ fuel₀ g ops done handed worlds, program.Ran machines past₀ faults₀ p₀ ∧
    past = past₀ ++ ops ∧ faults = faults₀ ++ handed ∧
    program.Reaches machines graph fuel₀ p₀ u.block u.index g ∧
    program.Until machines graph fuel₀ p₀ u.index fuel p i ops done handed worlds ∧
    graph.Kept done worlds g.toProcess f.toProcess ∧
    (∀ step ∈ done, ∃ b i, (plan.code b)[i]? = some step.ins ∧ u.Covers w b i) ∧
    (handed = [] → ∀ step ∈ done, step.ins.id < ins.id) ∧
    ∀ id ∈ ins.reads, graph.layout.slots.get? id = none →
      (∃ step ∈ done, id ∈ step.ins.writes) ∨
        f.registers.get (.result id) = g.registers.get (.result id)

/--
Whether all instructions that use values of forms do so in order. What they use is the operands of
forms at a place in the code of the graph, `nil` for what is missing, and the constructor that a
literal calls. The operands are evaluated from left to right, and each has its value until it is
used.
-/
def Program.UsesInOrder (machines : Machines) (program : Program) (options : CompileOptions)
    (source : Form) (graph : Graph) (plan : Plan) : Prop :=
  ∀ {b : BlockId} {i : Nat} {ins : Instruction}, (graph.blocks.code b)[i]? = some ins →
    ins.command.Uses →
      ∃ q forms operands w k, Comprises options plan (.root options source) q ∧
        q.Feeds options plan forms operands w k ins.command ∧ b = w.block ∧ i = w.index + k ∧
        (∀ operand ∈ ins.operands, operand ∈ operands ∨ operand = .literal .nil ∨
          ∃ name items, q.part = .shape (.perform (.call name) items) ∧ operand = .global name) ∧
        ∀ before form after, forms = before ++ form :: after →
          ∃ operand u, Operand.Evaluated options plan q w before form after operands operand u ∧
            (operand ∈ ins.operands → program.InOrder machines graph q.scope operand u b i ins)

theorem Exec.eval_global_iff {name : String} {value : Value} {f : Frame}
    : Exec.eval (.global name) f = .ok value f ↔ f.store.globals.get? name = some value := by
  change Exec.onStore (Action.global name) f = _ ↔ _
  unfold Exec.onStore
  cases hget : f.store.globals.get? name with
  | none => simp [Action.global_undefined hget]
  | some found => simp [Action.global_ok hget]

theorem Place.Feeds.mem_operands {options : CompileOptions} {plan : Plan} {q : Place}
    {forms : List Form} {operands : List Operand} {w : Spot} {k : Nat} {ins : Instruction}
    (h : q.Feeds options plan forms operands w k ins.command) (huses : ins.command.Uses)
    {operand : Operand} (hmem : operand ∈ ins.operands)
    : operand ∈ operands ∨ operand = .literal .nil ∨
        ∃ name items, q.part = .shape (.perform (.call name) items) ∧ operand = .global name := by
  unfold Instruction.operands at hmem
  generalize ins.command = command at h huses hmem
  cases h with
  | @perform _ _ _ _ job items operands =>
    change operand ∈ (job.effect operands).operands at hmem
    unfold Job.effect at huses hmem
    split at hmem
    case h_2 =>
      rcases List.mem_cons.1 hmem with rfl | hmem
      . exact .inr (.inr ⟨_, _, rfl, rfl⟩)
      . exact .inl hmem
    case h_3 => exact huses.elim
    case h_9 => exact .inr (.inl (List.mem_singleton.1 hmem))
    all_goals exact .inl hmem
  | recur | suspend | finish | copy => exact .inl hmem
  | finishNone => exact .inr (.inl (List.mem_singleton.1 hmem))
  | loop _ hoperand =>
    obtain rfl := List.mem_singleton.1 hmem
    exact .inl (List.mem_of_getElem? hoperand)

namespace Graph.Coded

open Plan

variable {options : CompileOptions} {source : Form} {graph : Graph} {plan : Plan}
  {table : Table String Handler} {name : String} {program : Program} {machines : Machines}
  {fuel : Nat} {p : Process} {past : List Op} {faults : List Value} {b : BlockId} {i j k : Nat}
  {ins : Instruction} {f g : Frame} {scope : Scope} {operand : Operand} {u w : Spot}
  {done : List Begun} {worlds : List (Store × Store)} {id : ValueId}

theorem register_of_reads (h : graph.Coded options source plan)
    (hprogram : Program.ofGraph graph table name = .ok program)
    (hgoes : plan.Goes graph.layout faults p.state)
    (hreaches : program.Reaches machines graph fuel p b i f) (hins : (plan.code b)[i]? = some ins)
    (hid : id ∈ ins.reads) {slot : Nat} (hslot : graph.layout.slots.get? id = some slot)
    : f.registers.get (.result id) = f.state.slot slot := by
  obtain ⟨values, hagrees⟩ := hgoes.agrees
  obtain ⟨hi, hget⟩ := List.getElem?_eq_some_iff.1 hins
  obtain ⟨p', known, _, hlinked⟩ := h.reaches_linked hprogram hagrees hreaches hi
  rw [List.drop_eq_getElem_cons hi, hget] at hlinked
  rw [hlinked.registers (Emit.known_or_readFirst_of_mem_reads hid)]
  exact (hlinked.saved hslot List.not_mem_nil).symm

theorem written_of_reads (h : graph.Coded options source plan)
    (hins : (plan.code b)[i]? = some ins) (hid : id ∈ ins.reads)
    (hslot : graph.layout.slots.get? id = none)
    : ∃ writer ∈ (plan.code b).take i, id ∈ writer.writes := by
  refine Decidable.byContradiction fun hnone => ?_
  have hread : id ∈ Emit.readFirst [] (plan.code b) := by
    refine Emit.mem_readFirst_of_reads hins hid ?_ List.not_mem_nil
    intro k hk writer hwriter hwrites
    refine hnone ⟨writer, List.mem_of_getElem? (i := k) ?_, hwrites⟩
    rwa [List.getElem?_take_of_lt hk]
  obtain ⟨slot, hsome⟩ := h.readFirst_slot hread
  rw [hslot] at hsome
  cases hsome

theorem keeps_operand (hencloses : plan.Encloses scope [operand] u w)
    (hpending : operand ≠ .pending) (hkept : graph.Kept done worlds g.toProcess f.toProcess)
    (hcovers : ∀ step ∈ done, ∃ b i, (plan.code b)[i]? = some step.ins ∧ u.Covers w b i)
    (hslot : ∀ id slot, operand = .result id → graph.layout.slots.get? id = some slot →
      f.registers.get (.result id) = f.state.slot slot)
    (hregister : ∀ id, operand = .result id → graph.layout.slots.get? id = none →
      (∃ step ∈ done, id ∈ step.ins.writes) ∨
        f.registers.get (.result id) = g.registers.get (.result id))
    {value : Value} (hyields : graph.Yields operand value g)
    : Exec.eval operand.source f = .ok value f ∨ operand.IsReset scope done worlds := by
  cases operand with
  | pending => exact absurd rfl hpending
  | literal literal =>
    cases hyields
    exact .inl rfl
  | global name =>
    by_cases hreset : (Operand.global name).IsReset scope done worlds
    . exact .inr hreset
    left
    simp only [Operand.IsReset, not_or, not_exists, not_and, ne_eq, Classical.not_not] at hreset
    rw [Operand.source, Exec.eval_global_iff, hkept.global name hreset.1 hreset.2]
    exact Exec.eval_global_iff.1 hyields
  | result id =>
    by_cases hwritten : ∃ step ∈ done, id ∈ step.ins.writes
    . right
      obtain ⟨step, hstep, hwrites⟩ := hwritten
      obtain ⟨b, i, hget, hat⟩ := hcovers step hstep
      have hbinds := hencloses.writes hget hat id hwrites (List.mem_singleton.2 rfl)
      exact ⟨hbinds, step, hstep, hwrites⟩
    . left
      have heval : f.registers.get (.result id) = value := by
        unfold Graph.Yields at hyields
        cases hget : graph.layout.slots.get? id with
        | some slot =>
          simp only [hget] at hyields
          rw [hslot id slot rfl hget, ← hyields]
          exact hkept.slot id slot hget fun step hstep hmem => hwritten ⟨step, hstep, hmem⟩
        | none =>
          simp only [hget] at hyields
          rw [← hyields]
          exact (hregister id rfl hget).resolve_left hwritten
      rw [← heval]
      rfl

theorem begun_between (h : graph.Coded options source plan)
    (hg : program.Reaches machines graph fuel p b j g)
    (hreaches : program.Reaches machines graph fuel p b i f) (hle : j ≤ i)
    (hins : (plan.code b)[i]? = some ins)
    : (((program.begun machines graph fuel p).take i).drop j).map (·.ins)
          = ((plan.code b).take i).drop j ∧
        graph.Kept (((program.begun machines graph fuel p).take i).drop j) [] g.toProcess
          f.toProcess ∧
        ∀ step ∈ ((program.begun machines graph fuel p).take i).drop j,
          step.ins.id < ins.id ∧ ∃ k, j ≤ k ∧ (plan.code b)[k]? = some step.ins := by
  have hlength : i ≤ (graph.blocks.code b).length := by
    rw [h.code]
    exact Nat.le_of_lt (List.getElem?_eq_some_iff.1 hins).1
  obtain ⟨hmap, hkept⟩ := hg.slice_begun hreaches hle hlength
  rw [h.code] at hmap
  refine ⟨hmap, hkept, fun step hstep => ?_⟩
  have hmem := List.mem_map_of_mem (f := (·.ins)) hstep
  rw [hmap] at hmem
  obtain ⟨k, hjk, hki, hget⟩ := exists_of_mem_slice hmem
  exact ⟨h.ordered hget hins hki, k, hjk, hget⟩

theorem passedTo_of_opens (h : graph.Coded options source plan)
    (hins : (plan.code w.block)[i]? = some ins) (hid : w.value ≤ ins.id)
    (hreaches : program.Reaches machines graph fuel p w.block i f) (hopens : u.Opens w w.block)
    (hpassed : program.Passed machines graph plan u w past faults p)
    : program.PassedTo machines graph plan u w past faults fuel p i ins f := by
  obtain ⟨past₀, faults₀, p₀, fuel₀, g, ops, done, handed, worlds, hran, hpast, hfaults, hreaches₀,
    hsince, hkept, hcovers, hhigh⟩ := hpassed
  obtain ⟨g', hg', _⟩ := hreaches.before (Nat.zero_le i)
  obtain ⟨hmap, hkept', hbegun⟩ := h.begun_between hg' hreaches (Nat.zero_le i) hins
  simp only [List.drop_zero] at hmap hkept' hbegun
  rw [hg'.process] at hkept'
  refine ⟨past₀, faults₀, p₀, fuel₀, g, ops, _, handed, worlds, hran, hpast, hfaults, hreaches₀,
    .later hsince, ?_, List.forall_mem_append.2 ⟨hcovers, ?_⟩, fun hnone =>
    List.forall_mem_append.2 ⟨?_, fun step hstep => (hbegun step hstep).1⟩, fun id hread hslot => ?_⟩
  . rw [← List.append_nil worlds]
    exact hkept.trans hkept'
  . intro step hstep
    obtain ⟨_, k, _, hget⟩ := hbegun step hstep
    exact ⟨w.block, k, hget, .inl hopens⟩
  . exact fun step hstep => Nat.lt_of_lt_of_le (hhigh hnone step hstep) hid
  . obtain ⟨writer, hwriter, hwrites⟩ := h.written_of_reads hins hread hslot
    rw [← hmap] at hwriter
    obtain ⟨step, hstep, rfl⟩ := List.mem_map.1 hwriter
    exact .inl ⟨step, List.mem_append_right _ hstep, hwrites⟩

theorem passedTo_of_block (h : graph.Coded options source plan)
    (hins : (plan.code w.block)[i]? = some ins)
    (hran : program.Ran machines past faults p)
    (hreaches : program.Reaches machines graph fuel p w.block i f) (hblock : w.block = u.block)
    (hle : u.index ≤ i)
    : program.PassedTo machines graph plan u w past faults fuel p i ins f := by
  obtain ⟨g, hg, hops⟩ := hreaches.before hle
  obtain ⟨hmap, hkept, hbegun⟩ := h.begun_between hg hreaches hle hins
  refine ⟨past, faults, p, fuel, g, [], _, [], [], hran, (List.append_nil past).symm,
    (List.append_nil faults).symm, hblock ▸ hg, .same rfl rfl hle, hkept, ?_,
    fun _ step hstep => (hbegun step hstep).1, fun id hread _ => ?_⟩
  . intro step hstep
    obtain ⟨_, k, hk, hget⟩ := hbegun step hstep
    exact ⟨w.block, k, hget, .inr ⟨hblock, hk⟩⟩
  . refine Classical.or_iff_not_imp_left.2 fun hunwritten => ?_
    refine (Emit.instructions_same graph.layout_apart (fun ins' hins' hwrites => ?_) hops).register
    rw [h.code, ← hmap] at hins'
    obtain ⟨step, hstep, rfl⟩ := List.mem_map.1 hins'
    exact hunwritten ⟨step, hstep, hwrites⟩

theorem inOrder (h : graph.Coded options source plan) (hsmall : graph.IsSmall)
    (hprogram : Program.ofGraph graph table name = .ok program)
    (hhandlers : program.Supports machines table (4 ≤ ·)) (hfails : table.FailsInPlace)
    (hencloses : plan.Encloses scope [operand] u w) (hpending : operand ≠ .pending)
    (hins : (plan.code w.block)[w.index + k]? = some ins) (hid : ins.id = w.value + k)
    (huses : operand ∈ ins.operands)
    : program.InOrder machines graph scope operand u w.block (w.index + k) ins := by
  intro past faults p fuel f hran hreaches
  have hgoes := h.ran_goes hsmall hprogram hhandlers (by decide) (by decide) hfails hran
  have hpassed : program.PassedTo machines graph plan u w past faults fuel p (w.index + k) ins f
      := by
    rcases hencloses.ends with hopens | ⟨hblock, hle⟩
    . have hlow : w.value ≤ ins.id := hid ▸ Nat.le_add_right w.value k
      exact h.passedTo_of_opens hins hlow hreaches hopens
        (h.ran_passed hsmall hprogram hhandlers hfails hencloses hran hreaches.status hopens)
    . exact h.passedTo_of_block hins hran hreaches hblock (Nat.le_add_right_of_le hle)
  obtain ⟨past₀, faults₀, p₀, fuel₀, g, ops, done, handed, worlds, hran₀, hpast, hfaults, hreaches₀,
    huntil, hkept, hcovers, hhigh, hregister⟩ := hpassed
  refine ⟨past₀, faults₀, p₀, fuel₀, g, ops, done, handed, worlds, hran₀, hpast, hfaults, hreaches₀,
    huntil, fun hnone step hstep => ⟨?_, hhigh hnone step hstep⟩, fun value hyields => ?_⟩
  . obtain ⟨b, i, hget, hat⟩ := hcovers step hstep
    exact hencloses.low hget hat
  . have hread : ∀ {id}, operand = .result id → id ∈ ins.reads := fun heq =>
      Instruction.mem_reads.2 (heq ▸ huses)
    refine keeps_operand hencloses hpending hkept hcovers ?_ ?_ hyields
    . exact fun id slot heq => h.register_of_reads hprogram hgoes hreaches hins (hread heq)
    . exact fun id heq => hregister id (hread heq)

end Graph.Coded

/--
Operands are evaluated from left to right, wherever a form has any: in calls, literals, method calls,
suspensions, `recur`, `loop`, `let`, `set!`, and at the end of a program. In every run, whatever uses
their values finds those that they had right after they were evaluated, or, of a variable, a value
that it was given since then, while the operands behind it were evaluated.
-/
theorem Program.operands_inOrder {options : CompileOptions} {source : Form} {graph : Graph}
    {table : Table String Handler} {name : String} {program : Program} {machines : Machines}
    (hgraph : Graph.ofForm options source = .ok graph) (hsmall : graph.IsSmall)
    (hprogram : Program.ofGraph graph table name = .ok program)
    (hhandlers : program.Supports machines table (4 ≤ ·)) (hfails : table.FailsInPlace)
    : ∃ plan, graph.Coded options source plan ∧
        program.UsesInOrder machines options source graph plan := by
  obtain ⟨plan, hcoded⟩ := Graph.ofForm_coded hgraph
  refine ⟨plan, hcoded, ?_⟩
  intro b i ins hins huses
  rw [hcoded.code] at hins
  obtain ⟨q, forms, operands, w, k, hcomprises, hfeeds, rfl, rfl, hid, heach⟩ :=
    hcoded.operands hins huses
  refine ⟨q, forms, operands, w, k, hcomprises, hfeeds, rfl, rfl,
    fun operand hmem => hfeeds.mem_operands huses hmem, fun before form after hforms => ?_⟩
  obtain ⟨operand, u, hevaluated⟩ := heach before form after hforms
  refine ⟨operand, u, hevaluated, fun hmem => ?_⟩
  obtain ⟨_, _, _, _, hbefore, hform, _⟩ := hevaluated.codes
  have hsorted := (hcomprises.sound (Place.sound_root options source)).sorted.mono hbefore.value_le
  have hbelow := hform.operands_below hsorted trivial operand (List.mem_singleton.2 rfl)
  have hpending : operand ≠ .pending := fun heq => by
    rw [heq] at hbelow
    exact hbelow
  exact hcoded.inOrder hsmall hprogram hhandlers hfails hevaluated.encloses hpending hins hid hmem

def Form.setInArguments : Form :=
  .list [.symbol "let" .synthetic,
    .vector [.symbol "x" .synthetic, .atom (.int 1) .synthetic] .synthetic,
    .list [.symbol "vector" .synthetic, .symbol "x" .synthetic,
      .list [.symbol "set!" .synthetic, .symbol "x" .synthetic, .atom (.int 2) .synthetic]
        .synthetic] .synthetic] .synthetic

def Program.returnsTwos (program : Program) (store : Store) : Bool :=
  match Program.run {} 9 program ⟨.initial .nil program.start [] program.size, store⟩ with
  | .ok (.done (.vector [.int a, .int b])) _ => a == 2 && b == 2
  | _ => false

theorem Program.operands_inOrder_setInArguments
    : ∃ graph program, Graph.ofForm { expander := .core } .setInArguments = .ok graph ∧
        graph.IsSmall ∧ Program.ofGraph graph {} "main" = .ok program ∧
        program.Supports {} {} (4 ≤ ·) ∧ Table.FailsInPlace {} ∧
        (∃ p, Program.run {} 9 program
          ⟨.initial .nil program.start [] program.size,
            { globals := .ofList [("vector", .native 0 (.builtIn .vector))] }⟩
          = .ok (.done (.vector [.int 2, .int 2])) p) ∧
        ∃ plan, graph.Coded { expander := .core } .setInArguments plan ∧
          program.UsesInOrder {} { expander := .core } .setInArguments graph plan := by
  obtain ⟨graph, program, hgraph, hprogram, hcheck⟩ := Graph.exists_of_check { expander := .core }
    .setInArguments {} "main"
    (fun graph program => decide graph.IsSmall && program.returnsTwos
      { globals := .ofList [("vector", .native 0 (.builtIn .vector))] })
    (by decide +kernel)
  rw [Bool.and_eq_true, decide_eq_true_eq] at hcheck
  obtain ⟨hsmall, hreturns⟩ := hcheck
  have hhandlers : program.Supports {} {} (4 ≤ ·) := fun _ _ hget => nomatch hget
  have hfails : Table.FailsInPlace {} := fun _ _ hget => nomatch hget
  refine ⟨graph, program, hgraph, hsmall, hprogram, hhandlers, hfails, ?_,
    Program.operands_inOrder hgraph hsmall hprogram hhandlers hfails⟩
  unfold Program.returnsTwos at hreturns
  split at hreturns
  . next a b p hrun =>
    rw [Bool.and_eq_true, beq_iff_eq, beq_iff_eq] at hreturns
    obtain ⟨rfl, rfl⟩ := hreturns
    exact ⟨p, hrun⟩
  . cases hreturns

end Resumable
