import Resumable.Host
import Resumable.Proofs.Lowering.Data
import Resumable.Proofs.Slots.Tight

/-!
This module contains the proof that literal data evaluates to what it is when it is quoted: in one
step, and without anything kept in the state of its machine but the parameters.
-/

namespace Resumable

namespace Graph

variable {params : List String} {code : List Instruction} {operand : Operand} {value : Value}
  {span : Span}

theorem finishing_params
    : (finishing params code operand span).params.map (·.2) = .range' 0 params.length :=
  List.map_snd_zip (by simp)

theorem finishing_ascending : (finishing params code operand span).blocks.Ascending :=
  List.pairwise_singleton ..

theorem finishing_code (b : BlockId)
    : (finishing params code operand span).blocks.code b
        = if 0 = b then
            code ++ [⟨params.length + code.length, .transfer (.finish operand), span⟩] else [] := by
  simp only [Table.code, Table.get?, finishing, Table.get?.go]
  split <;> rfl

theorem finishing_readers (h : Makes params.length code [operand] [value]) (id : ValueId)
    : (finishing params code operand span).readers id
        = (finishing params code operand span).writers id := by
  have hread : id ∈ Instruction.reads
      ⟨params.length + code.length, .transfer (.finish operand), span⟩ ↔ .result id = operand :=
    Instruction.mem_reads.trans List.mem_singleton
  have hwritten : id ∉ Instruction.writes
      ⟨params.length + code.length, .transfer (.finish operand), span⟩ := List.not_mem_nil
  ext b
  by_cases hb : 0 = b
  . simp only [readers, writers, Set.mem_ofPred_eq, finishing_code, if_pos hb,
      ← h.read_iff_written id, List.mem_append, List.mem_singleton, or_and_right, exists_or,
      exists_eq_left, hread, hwritten, or_false]
  . simp [readers, writers, finishing_code, hb]

theorem finishing_kept (h : Makes params.length code [operand] [value])
    : (finishing params code operand span).kept = .range' 0 params.length := by
  have honly : ∀ id, ¬ ((finishing params code operand span).readers id).Nontrivial := by
    intro id
    refine Set.not_nontrivial_iff.2 (Set.subsingleton_of_subset_singleton (a := 0) ?_)
    rintro b ⟨i, hi, _⟩
    by_contra hb
    rw [finishing_code, if_neg (Ne.symm hb)] at hi
    cases hi
  have hkept : ∀ id, id ∉ (finishing params code operand span).params.map (·.2) →
      id ∉ (finishing params code operand span).kept := by
    intro id hid hmem
    rcases (mem_kept finishing_ascending hid).1 hmem with hne | hmany
    . exact hne (finishing_readers h id)
    . exact honly id hmany
  rw [kept, List.filter_eq_nil_iff.2, List.append_nil, finishing_params]
  intro id hid hfilter
  have hnew := hfilter
  simp only [Bool.and_eq_true, Bool.not_eq_true', List.contains_eq_mem,
    decide_eq_false_iff_not] at hnew
  exact hkept id hnew.1 (List.mem_append_right _ (List.mem_filter.2 ⟨hid, hfilter⟩))

theorem finishing_size (h : Makes params.length code [operand] [value])
    : (finishing params code operand span).layout.size = headerSize + params.length := by
  rw [layout_size, finishing_kept h, List.length_range']

theorem finishing_persistedCount (h : Makes params.length code [operand] [value])
    : (finishing params code operand span).layout.persistedCount = 0 := by
  have hnodup : ((finishing params code operand span).params.map (·.2)).Nodup := by
    rw [finishing_params]
    exact List.nodup_range'
  have hcount : (finishing params code operand span).layout.paramCount = params.length := by
    rw [layout, finishing_params, List.length_range']
  rw [Layout.persistedCount, slots_size hnodup, finishing_kept h, hcount, List.length_range',
    Nat.sub_self]

theorem finishing_slot (h : Makes params.length code [operand] [value]) {id slot : Nat}
    (hslot : (finishing params code operand span).layout.slots.get? id = some slot)
    : id < params.length := by
  obtain ⟨k, hk, _⟩ := kept_of_slot hslot
  rw [finishing_kept h] at hk
  simpa using (List.mem_range'_1.1 (List.mem_of_getElem? hk)).2

end Graph

namespace Emit

theorem saves_eq_nil {layout : Layout} {ids : List ValueId}
    (h : ∀ id ∈ ids, layout.slots.get? id = none)
    : saves layout ids = [] :=
  List.filterMap_eq_nil_iff.2 fun id hid => by rw [h id hid]; rfl

theorem loads_eq_nil {layout : Layout} {code : List Instruction}
    (h : ∀ i ∈ code, ∀ id ∈ i.reads, layout.slots.get? id = none)
    : loads layout code = [] := by
  refine List.filterMap_eq_nil_iff.2 fun id hid => ?_
  obtain ⟨_, j, i, hj, hread, _⟩ := mem_readFirst hid
  rw [h i (List.mem_of_getElem? hj) id hread]
  rfl

theorem block_finish {layout : Layout} {handlers : Table String Handler} {b : BlockId}
    {code : List Instruction} {id : ValueId} {operand : Operand} {span : Span}
    (h : ∀ i ∈ code ++ [⟨id, .transfer (.finish operand), span⟩], ∀ id ∈ i.reads,
      layout.slots.get? id = none)
    : block layout handlers b (code ++ [⟨id, .transfer (.finish operand), span⟩])
        = .ok ⟨[], code.flatMap (instruction layout), .finish operand.source⟩ := by
  simp only [block, List.getLast?_concat, List.dropLast_concat, loads_eq_nil h]
  rfl

end Emit

def Store.HasConstructors (store : Store) : Prop :=
  ∀ (bracket : Bracket) (p : Primitive), bracket.constructor? = some p →
    ∃ tag, store.globals.get? p.name = some (.native tag (.builtIn p))

def Value.primitive? : Value → Option Primitive
  | .native _ (.builtIn p) => some p
  | _ => none

theorem Value.exists_tag {value : Value} {p : Primitive} (h : value.primitive? = some p)
    : ∃ tag, value = .native tag (.builtIn p) := by
  unfold primitive? at h
  split at h
  . cases h
    exact ⟨_, rfl⟩
  . cases h

theorem Store.hasConstructors_standard : Host.standard.store.HasConstructors := by
  have hglobals : ∀ p ∈ [Primitive.vector, .hashMap, .hashSet],
      (Host.standard.lookup? p.name).bind Value.primitive? = some p := by
    decide +kernel
  intro bracket p hp
  have hmem : p ∈ [Primitive.vector, .hashMap, .hashSet] := by
    cases bracket <;> cases hp <;> decide
  obtain ⟨value, hvalue, hnative⟩ := Option.bind_eq_some_iff.1 (hglobals p hmem)
  obtain ⟨tag, rfl⟩ := Value.exists_tag hnative
  exact ⟨tag, hvalue⟩

theorem Primitive.constructor_call {bracket : Bracket} {p : Primitive} {values : List Value}
    {store : Store} (hp : bracket.constructor? = some p)
    (hpaired : bracket = .map → values.length % 2 = 0)
    : p.call values store = .ok (bracket.toValue values) store := by
  cases bracket with
  | list => cases hp
  | vector | set =>
    cases hp
    rfl
  | map =>
    cases hp
    have hvalues : hashMapOf values = .ok (.ofEntries (pairUp .nil values)) := by
      rw [hashMapOf, if_neg (by simp [hpaired rfl])]
    change Action.ofExcept (hashMapOf values) store = _
    rw [hvalues]
    rfl

inductive Operand.Has (registers : Registers) (bound : ValueId) : Operand → Value → Prop where
  | literal {value : Value} : Has registers bound (.literal value) value
  | result {id : ValueId} : id < bound →
    Has registers bound (.result id) (registers.get (.result id))

theorem Operand.Has.mono {rs rs' : Registers} {bound bound' : ValueId} {operand : Operand}
    {value : Value} (h : operand.Has rs bound value) (hbound : bound ≤ bound')
    (hsame : ∀ id < bound, rs'.get (.result id) = rs.get (.result id))
    : operand.Has rs' bound' value := by
  cases h with
  | literal => exact .literal
  | result hlt =>
    rw [← hsame _ hlt]
    exact .result (Nat.lt_of_lt_of_le hlt hbound)

theorem Operand.Has.set_self {rs : Registers} {bound id : ValueId} (h : id < bound) (value : Value)
    : (Operand.result id).Has (rs.set (.result id) value) bound value := by
  have hget : (rs.set (.result id) value).get (.result id) = value := by
    rw [Registers.get_set, update, if_pos rfl]
  have hhas := @Has.result (rs.set (.result id) value) bound id h
  rwa [hget] at hhas

namespace Exec

variable {bound : ValueId} {frame : Frame}

theorem eval_has {operand : Operand} {value : Value} (h : operand.Has frame.registers bound value)
    : eval operand.source frame = .ok value frame := by
  cases h <;> rfl

theorem evalAll_has {operands : List Operand} {values : List Value}
    (h : List.Forall₂ (Operand.Has frame.registers bound) operands values)
    : evalAll (operands.map Operand.source) frame = .ok values frame := by
  induction h with
  | nil => rfl
  | cons hoperand _ ih =>
    refine (bind_of_ok (eval_has hoperand)).trans ?_
    exact bind_of_ok ih

end Exec

theorem Emit.instruction_call {layout : Layout} {id : ValueId} (h : layout.slots.get? id = none)
    (callee : Operand) (args : List Operand) (span : Span)
    : instruction layout ⟨id, .effect (.call callee args), span⟩
        = [.call (.result id) callee.source (args.map Operand.source)] := by
  have hsaves : saves layout [id] = [] := saves_eq_nil (by simpa using h)
  exact congrArg (_ :: ·) hsaves

theorem Exec.op_constructor {bracket : Bracket} {p : Primitive} {operands : List Operand}
    {values : List Value} {bound : ValueId} {frame : Frame} (hp : bracket.constructor? = some p)
    (hpaired : bracket = .map → values.length % 2 = 0) (hstore : frame.store.HasConstructors)
    (h : List.Forall₂ (Operand.Has frame.registers bound) operands values) (machines : Machines)
    (run : Run.Runner) (target : Register)
    : op (Run.call machines run) (.call target (.global p.name) (operands.map Operand.source)) frame
        = .ok () { frame with registers := frame.registers.set target (bracket.toValue values) }
    := by
  obtain ⟨tag, hglobal⟩ := hstore bracket p hp
  have hcallee : eval (.global p.name) frame = .ok (.native tag (.builtIn p)) frame := by
    rw [eval, onStore, Action.global_ok hglobal]
  have hcall : onStore (Run.call machines run (.native tag (.builtIn p)) values) frame
      = .ok (bracket.toValue values) frame := by
    rw [onStore,
      show Run.call machines run (.native tag (.builtIn p)) values = p.call values from rfl,
      Primitive.constructor_call hp hpaired]
  refine (bind_of_ok hcallee).trans ((bind_of_ok (evalAll_has h)).trans ?_)
  exact bind_of_ok hcall

theorem Makes.runs {first : ValueId} {code : List Instruction} {operands : List Operand}
    {values : List Value} (h : Makes first code operands values) {layout : Layout}
    (hslots : ∀ id, first ≤ id → layout.slots.get? id = none) (machines : Machines)
    (run : Run.Runner) {frame : Frame} (hstore : frame.store.HasConstructors)
    : ∃ rs : Registers,
        Exec.ops (Run.call machines run) (code.flatMap (Emit.instruction layout)) frame
          = .ok () { frame with registers := rs } ∧
        (∀ id < first, rs.get (.result id) = frame.registers.get (.result id)) ∧
        List.Forall₂ (Operand.Has rs (first + code.length)) operands values := by
  induction h generalizing frame with
  | nil => exact ⟨frame.registers, rfl, fun _ _ => rfl, .nil⟩
  | literal => exact ⟨frame.registers, rfl, fun _ _ => rfl, .cons .literal .nil⟩
  | @append first code code' operands operands' values values' _ _ ih ih' =>
    obtain ⟨rs, hops, hsame, hhas⟩ := ih hslots hstore
    obtain ⟨rs', hops', hsame', hhas'⟩ := @ih'
      (fun id hid => hslots id (Nat.le_trans (Nat.le_add_right ..) hid))
      { frame with registers := rs } hstore
    refine ⟨rs', ?_, fun id hid => ?_, ?_⟩
    . rw [List.flatMap_append, Exec.ops_append, bind_of_ok hops]
      exact hops'
    . rw [hsame' id (Nat.lt_of_lt_of_le hid (Nat.le_add_right ..)), hsame id hid]
    -- what runs later leaves the registers alone that the first operands are in
    . rw [List.length_append, ← Nat.add_assoc]
      exact List.rel_append (hhas.imp fun _ _ hv => hv.mono (Nat.le_add_right ..) hsame') hhas'
  | @call first code operands values bracket p span hp hpaired _ ih =>
    obtain ⟨rs, hops, hsame, hhas⟩ := ih hslots hstore
    have hop := @Exec.op_constructor _ _ _ _ _ { frame with registers := rs } hp hpaired hstore hhas
      machines run (.result (first + code.length))
    refine ⟨rs.set (.result (first + code.length)) (bracket.toValue values), ?_, fun id hid => ?_,
      ?_⟩
    . rw [List.flatMap_append, Exec.ops_append, bind_of_ok hops, List.flatMap_singleton,
        Emit.instruction_call (hslots _ (Nat.le_add_right ..))]
      exact bind_of_ok hop
    . have hne : id ≠ first + code.length :=
        Nat.ne_of_lt (Nat.lt_of_lt_of_le hid (Nat.le_add_right ..))
      rw [Registers.get_set, update, if_neg (by simpa using hne), hsame id hid]
    . rw [List.length_append, List.length_singleton, ← Nat.add_assoc]
      exact .cons (.set_self (Nat.lt_succ_self _) _) .nil

section

variable {params : List String} {code : List Instruction} {operand : Operand} {value : Value}
  {span : Span} {layout : Layout}

def Program.finishing (name : String) (params : List String) (ops : List Op) (operand : Operand) :
    Program where
  name := name
  blocks := ⟨[(0, { loads := [], ops, exit := .finish operand.source })]⟩
  start := 0
  size := headerSize + params.length
  params := params

theorem Program.ofGraph_finishing (h : Makes params.length code [operand] [value])
    (handlers : Table String Handler) (name : String)
    : ∃ layout : Layout, (∀ id, params.length ≤ id → layout.slots.get? id = none) ∧
        ofGraph (.finishing params code operand span) handlers name
          = .ok (finishing name params (code.flatMap (Emit.instruction layout)) operand) := by
  have hslots : ∀ id, params.length ≤ id →
      (Graph.finishing params code operand span).layout.slots.get? id = none := by
    intro id hid
    refine Option.eq_none_iff_forall_ne_some.2 fun slot hslot => ?_
    exact Nat.not_lt.2 hid (Graph.finishing_slot h hslot)
  have hnames : (Graph.finishing params code operand span).params.map (·.1) = params :=
    List.map_fst_zip (by simp)
  refine ⟨_, hslots, ?_⟩
  rw [ofGraph, Graph.finishing_size h, hnames]
  generalize (Graph.finishing params code operand span).layout = layout at hslots ⊢
  -- whatever the block reads it writes, so it has no slot to be fetched from
  have hreads : ∀ i ∈ code ++ [⟨params.length + code.length, .transfer (.finish operand), span⟩],
      ∀ id ∈ i.reads, layout.slots.get? id = none := by
    intro i hi id hread
    obtain ⟨i', hi', hwrite⟩ : ∃ i ∈ code, id ∈ i.writes := by
      refine (h.read_iff_written id).1 ?_
      rcases List.mem_append.1 hi with hi | hi
      . exact .inl ⟨i, hi, hread⟩
      . cases List.mem_singleton.1 hi
        exact .inr (Instruction.mem_reads.1 hread)
    exact hslots id (h.le_of_write hi' hwrite)
  have hblock := @Emit.block_finish layout handlers 0 _ _ _ _ hreads
  have hblocks : Emit.blocks layout handlers
      (Graph.finishing params code operand span).blocks.entries
      = .ok [(0, ⟨[], code.flatMap (Emit.instruction layout), .finish operand.source⟩)] := by
    rw [Graph.finishing, Emit.blocks, hblock]
    rfl
  rw [hblocks]
  rfl

theorem Program.run_finishing (h : Makes params.length code [operand] [value])
    (hslots : ∀ id, params.length ≤ id → layout.slots.get? id = none) (name : String)
    (machines : Machines) (fuel : Nat) {p : Process} (hstore : p.store.HasConstructors)
    (hstatus : p.state.status? = some (.running 0))
    : Program.run machines (fuel + 1)
        (finishing name params (code.flatMap (Emit.instruction layout)) operand) p
        = .ok (.done value) { p with state := p.state.finish value } := by
  obtain ⟨rs, hops, _, hhas⟩ := @Makes.runs _ _ _ _ h layout hslots machines
    (Program.run machines fuel) { toProcess := p } hstore
  have hoperand : Operand.Has rs (params.length + code.length) operand value :=
    (List.forall₂_cons.1 hhas).1
  have hexit : Exec.exit (.finish operand.source) { toProcess := p, registers := rs }
      = .ok (.done value)
          { toProcess := { p with state := p.state.finish value }, registers := rs } :=
    bind_of_ok (@Exec.eval_has _ { toProcess := p, registers := rs } _ _ hoperand)
  have hload : ∀ frame : Frame, Exec.load [] frame = .ok () frame := fun _ => rfl
  have hblock : Exec.block (Run.call machines (Program.run machines fuel))
      ⟨[], code.flatMap (Emit.instruction layout), .finish operand.source⟩ { toProcess := p }
        = .ok (.done value)
            { toProcess := { p with state := p.state.finish value }, registers := rs } := by
    refine (bind_of_ok (hload _)).trans ?_
    exact (bind_of_ok hops).trans hexit
  unfold Program.run
  rw [hstatus]
  have hget : (finishing name params (code.flatMap (Emit.instruction layout)) operand).blocks.get? 0
      = some ⟨[], code.flatMap (Emit.instruction layout), .finish operand.source⟩ := rfl
  simp only [Run.turn, hget, hblock]

end

theorem State.status?_initial (self : Value) (args : List Value) (size : Nat)
    : (State.initial self 0 args size).status? = some (.running 0) := rfl

namespace Host

/--
Whether a form is compiled, on a host, into a machine that is done with a value after one step,
whatever arguments it gets, and keeps nothing in its state but the arguments.
-/
def DoneAtOnce (host : Host) (options : CompileOptions) (form : Form) (value : Value) : Prop :=
  ∃ graph machine host', Graph.ofForm options form = .ok graph ∧
    graph.layout.persistedCount = 0 ∧
    (∀ id slot, graph.layout.slots.get? id = some slot → id ∈ graph.params.map (·.2)) ∧
    host.compile options form = .ok (machine, host') ∧
    ∀ args : List Value, args.length = options.params.length →
      ∃ state, host'.create machine args = .ok state ∧ state.user = args ∧
        host'.step state = (.ok (.done value), state.finish value, host')

theorem create_addMachine (host : Host) {program : Program} {args : List Value}
    (hargs : args.length = program.params.length)
    : (host.addMachine program).2.create (host.addMachine program).1 args
        = .ok (.initial (host.addMachine program).1 program.start args program.size) := by
  have hprogram : (host.addMachine program).2.program? (host.addMachine program).1 = some program :=
    Array.getElem?_push_size
  rw [create, hprogram]
  simp [Program.create, Arity.check, Arity.accepts, hargs, Bind.bind, Except.bind, Pure.pure,
    Except.pure]

theorem step_addMachine (host : Host) {program : Program} {start : BlockId} {args : List Value}
    {size : Nat} {value : Value} {state : State}
    (hrun : ∀ machines fuel, Program.run machines (fuel + 1) program
      ⟨.initial (host.addMachine program).1 start args size, host.store⟩
        = .ok (.done value) ⟨state, host.store⟩)
    : (host.addMachine program).2.step (.initial (host.addMachine program).1 start args size)
        = (.ok (.done value), state, (host.addMachine program).2) := by
  have hmachine : Run.machine? (host.addMachine program).2.machines
      (.initial (host.addMachine program).1 start args size) = some program :=
    Array.getElem?_push_size
  obtain ⟨turns, hfuel⟩ : ∃ turns, fuel = turns + 1 := ⟨999999999999999999, rfl⟩
  have hdone := hrun (host.addMachine program).2.machines turns
  rw [← hfuel] at hdone
  unfold step runner
  simp only [hmachine]
  rw [show (host.addMachine program).2.store = host.store from rfl, hdone]
  rfl

theorem doneAtOnce_of_lowersTo {host : Host} {options : CompileOptions} {source : Form}
    {value : Value} (hstore : host.store.HasConstructors)
    (hreturn : options.terminators.returnHandler? = none)
    (h : Lower.LowersTo options.params (Lower.form options (options.expander.depth source) source)
      value)
    : host.DoneAtOnce options source value := by
  obtain ⟨code, operand, hmakes, hgraph⟩ := Graph.ofForm_lowersTo hreturn h
  obtain ⟨layout, hslots, hprogram⟩ := @Program.ofGraph_finishing _ _ _ _ source.span hmakes
    host.handlers options.name
  have hcompile : host.compile options source = .ok (host.addMachine
      (.finishing options.name options.params (code.flatMap (Emit.instruction layout))
        operand)) := by
    rw [compile, Program.compile, hgraph]
    refine (congrArg (· >>= _) hprogram).trans ?_
    rfl
  refine ⟨_, _, _, hgraph, Graph.finishing_persistedCount hmakes, fun id slot hslot => ?_, hcompile,
    fun args hargs => ?_⟩
  . rw [Graph.finishing_params]
    exact List.mem_range'_1.2 ⟨Nat.zero_le _, by simpa using Graph.finishing_slot hmakes hslot⟩
  . refine ⟨_, create_addMachine host (by exact hargs), ?_, ?_⟩
    . simp [State.user, State.initial, Program.finishing, headerSize, hargs]
    . exact step_addMachine host fun machines fuel =>
        Program.run_finishing hmakes hslots _ machines fuel hstore (State.status?_initial ..)

/--
Literal data evaluates to what it is when it is quoted. On the host with the primitives, with any
parameters, and with any call sites given to handlers but no handler for the result, the machine of
the data is done after one step, with the value that the machine of the quotation is done with, and
neither keeps anything in its state but the parameters.
-/
theorem data_doneAtOnce {options : CompileOptions} {form : Form}
    (hexpander : options.expander = .stock ∨ options.expander = .core)
    (hreturn : options.terminators.returnHandler? = none) (hdata : form.IsData) (span : Span)
    : standard.DoneAtOnce options form form.toValue ∧
        standard.DoneAtOnce options (.quote form span) form.toValue := by
  have hstore := Store.hasConstructors_standard
  constructor
  . exact doneAtOnce_of_lowersTo hstore hreturn
      (Lower.form_lowersTo hexpander hdata (Lower.height_le_depth hexpander))
  . exact doneAtOnce_of_lowersTo hstore hreturn
      (Lower.form_lowersTo_quoted hexpander form span (Lower.height_le_depth hexpander))

end Host

def Form.nestedData : Form :=
  .group .map [.atom (.keyword "a") .synthetic,
    .vector [.atom (.int 1) .synthetic,
      .group .set [.atom (.int 1) .synthetic, .atom (.int 1) .synthetic] .synthetic] .synthetic,
    .atom .nil .synthetic, .list [] .synthetic] .synthetic

def CompileOptions.vectorNamed : CompileOptions where
  params := ["vector"]
  terminators := .ofList [("vector", "yield")]
  expander := .stock

theorem Host.data_doneAtOnce_nested
    : CompileOptions.vectorNamed.terminators.returnHandler? = none ∧ Form.nestedData.IsData ∧
        Form.nestedData.toValue = .map [(.keyword "a", .vector [.int 1, .set [.int 1]]),
          (.nil, .list [])] ∧
        standard.DoneAtOnce .vectorNamed .nestedData Form.nestedData.toValue := by
  have hdata : Form.nestedData.IsData := by
    refine .group (by decide) (by decide) (List.forall_mem_cons.2 ⟨.atom nofun, ?_⟩)
    refine List.forall_mem_cons.2 ⟨.group (by decide) (by decide) ?_, ?_⟩
    . refine List.forall_mem_cons.2 ⟨.atom nofun, List.forall_mem_singleton.2 ?_⟩
      refine .group (by decide) (by decide) (List.forall_mem_cons.2 ⟨.atom nofun, ?_⟩)
      exact List.forall_mem_singleton.2 (.atom nofun)
    . exact List.forall_mem_cons.2 ⟨.atom nofun, List.forall_mem_singleton.2 .empty⟩
  have hreturn : CompileOptions.vectorNamed.terminators.returnHandler? = none := by decide
  refine ⟨hreturn, hdata, ?_, (data_doneAtOnce (.inl rfl) hreturn hdata .synthetic).1⟩
  simp [Form.nestedData, Form.toValue, Form.toValues, Bracket.toValue, Atom.toValue, pairUp,
    Value.ofEntries, Value.ofMembers, Value.setEntry, Value.addMember, Value.isMember, BEq.beq,
    Value.beq]

end Resumable
