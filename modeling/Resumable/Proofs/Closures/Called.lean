import Resumable.Proofs.Closures.Lowered
import Resumable.Proofs.Closures.Places

/-!
This module contains the proof that the call of a function runs its body: the machine comes to the
start of the body in the environment of the call, goes back there with new values of the parameters
when the body recurs, and ends with what the body comes to.
-/

namespace Resumable

def Layout.value? (layout : Layout) (state : State) (id : ValueId) : Option Value :=
  (layout.slots.get? id).bind (state.slots[·]?)

theorem Layout.Agrees.value?_eq {layout : Layout} {values : ValueId → Value} {state : State}
    (h : layout.Agrees values state) {id : ValueId}
    (hid : ∃ slot, layout.slots.get? id = some slot)
    : layout.value? state id = some (values id) := by
  obtain ⟨slot, hslot⟩ := hid
  rw [value?, hslot]
  exact h id slot hslot

theorem updateAll_of_lt (g : ValueId → Value) {first id : ValueId} {count : Nat}
    (values : List Value) (hid : id < first)
    : updateAll g ((List.range' first count).zip values) id = g id := by
  apply updateAll_of_not_mem
  intro hmem
  obtain ⟨pair, hpair, rfl⟩ := List.mem_map.1 hmem
  exact Nat.not_lt.2 (List.mem_range'_1.1 (List.of_mem_zip hpair).1).1 hid

theorem State.initial_arg (self : Value) (start : BlockId) (args : List Value) (size : Nat)
    {i : Nat} (hi : i < args.length)
    : (State.initial self start args size).slots[headerSize + i]? = args[i]? := by
  simp only [initial, headerSize, List.append_assoc, List.getElem?_toArray]
  rw [List.getElem?_append_right (by simp), List.getElem?_append_left (by simpa using hi)]
  simp

theorem Graph.Coded.create_args {options : CompileOptions} {source : Form} {graph : Graph}
    {plan : Plan} {table : Table String Handler} {name : String} {program : Program}
    (h : graph.Coded options source plan)
    (hprogram : Program.ofGraph graph table name = .ok program) (self : Value) {args : List Value}
    (hargs : args.length = options.params.length)
    : ∃ state values, program.create self args = .ok state ∧
        graph.layout.Agrees values state ∧
        (List.range' 0 options.params.length).map values = args := by
  have hcreate : ∃ state, program.create self args = .ok state := by
    obtain ⟨blocks, _, rfl⟩ := Program.ofGraph_ok hprogram
    refine ⟨.initial self graph.start args graph.layout.size, ?_⟩
    simp [Program.create, Arity.check, Arity.accepts, h.params, hargs, Bind.bind, Except.bind,
      Pure.pure, Except.pure]
  obtain ⟨state, hcreate⟩ := hcreate
  obtain ⟨_, _, values, hagrees⟩ := h.create_fresh hprogram hcreate
  refine ⟨state, values, hcreate, hagrees, ?_⟩
  obtain ⟨_, rfl⟩ := Program.create_ok hcreate
  apply List.ext_getElem
  . simp [hargs]
  . intro i _ hi
    have hslot := hagrees i _ (h.param_slot (hargs ▸ hi))
    rw [State.initial_arg _ _ _ _ hi, List.getElem?_eq_getElem hi, Option.some.injEq] at hslot
    simp [hslot]

namespace Lambda

structure AtBody (lambda : Lambda) (layout : Layout) (env : String → Option Value) (state : State) :
    Prop where
  status : state.status? = some (.running lambda.point.header)
  stacked : state.Stacked []
  names : ∀ name, (lambda.bodyScope.find? name).map (layout.value? state) = (env name).map some

def answer (lambda : Lambda) : Outcome → EStateM.Result Stop Store Value
  | .ok (.done value) p => .ok value p.store
  | .ok .suspended p => .error (.thrown (Fault.suspended lambda.label).toValue) p.store
  | .error stop p => .error stop p.store

namespace Compiled

variable {lambda : Lambda} {plan : Plan} {inputs : List ValueId} {result : Option Operand}
  {t : Spot}

theorem length_inputs (h : lambda.Compiled plan inputs result t)
    : inputs.length = lambda.params.length := by
  simpa using (congrArg List.length h.reads).symm

theorem inputs_lt (h : lambda.Compiled plan inputs result t)
    : ∀ id ∈ inputs, id < lambda.machineParams.length := by
  intro id hid
  have hmem : some id ∈ lambda.params.map (Scope.ofParams lambda.machineParams).find? := by
    rw [h.reads]
    exact List.mem_map_of_mem hid
  obtain ⟨name, _, hname⟩ := List.mem_map.1 hmem
  exact Scope.find?_ofParams_lt hname

theorem reads_lt (h : lambda.Compiled plan inputs result t) (horderly : Orderly plan.code)
    {ins : Instruction} (hins : ins ∈ plan.code 0) {id : ValueId} (hid : id ∈ ins.reads)
    : id < lambda.machineParams.length := by
  have hcommand := h.copies.all rfl horderly hins
  rw [List.mem_append, List.mem_map, List.mem_singleton] at hcommand
  have hoperand := Instruction.mem_reads.1 hid
  unfold Instruction.operands at hoperand
  rcases hcommand with ⟨input, hinput, hcopy⟩ | hjump
  . rw [← hcopy] at hoperand
    cases List.mem_singleton.1 hoperand
    exact h.inputs_lt id hinput
  . rw [hjump] at hoperand
    cases hoperand

theorem slot (h : lambda.Compiled plan inputs result t) {graph : Graph}
    (hcoded : graph.Coded lambda.options lambda.loop plan) {name : String} {id : ValueId}
    (hname : lambda.bodyScope.find? name = some id)
    : ∃ slot, graph.layout.slots.get? id = some slot := by
  rw [find?_bodyScope, Option.or_eq_some_iff] at hname
  rcases hname with hcarried | ⟨_, hparam⟩
  . obtain ⟨hlow, hhigh⟩ := List.mem_range'_1.1 (mem_of_lookup_zip hcarried)
    obtain ⟨k, rfl⟩ := Nat.exists_eq_add_of_le hlow
    have hk : k < inputs.length := by
      rw [h.length_inputs]
      lia
    have hcopy : (inputs.map (fun id => Command.effect (.const (.result id))) ++
        [.transfer (.jump none lambda.point.header)])[k]?
          = some (.effect (.const (.result inputs[k]))) := by
      rw [List.getElem?_append_left (by simpa using hk), List.getElem?_map,
        List.getElem?_eq_getElem hk]
      rfl
    obtain ⟨span, hspan⟩ := h.copies.getElem? hcopy
    refine hcoded.unread_slot (hcoded.write_mem hspan (List.mem_singleton.2 rfl)) ?_
    intro hread
    obtain ⟨ins, hins, hread⟩ := hcoded.exists_reader hread
    exact absurd (h.reads_lt hcoded.toOrderly hins hread) (Nat.not_lt.2 (Nat.le_add_right _ _))
  . exact ⟨_, hcoded.param_slot (Scope.find?_ofParams_lt hparam)⟩

theorem atBody (h : lambda.Compiled plan inputs result t) {graph : Graph}
    (hcoded : graph.Coded lambda.options lambda.loop plan) {state : State}
    {values : ValueId → Value} (hagrees : graph.layout.Agrees values state)
    {env : String → Option Value}
    (henv : ∀ name, (lambda.bodyScope.find? name).map values = env name)
    (hblock : state.slot 1 = State.ofBlock lambda.point.header) (hstacked : state.Stacked [])
    : lambda.AtBody graph.layout env state where
  status := State.status?_of_block hblock (by decide : 1 < State.blockLimit)
  stacked := hstacked
  names name := by
    rw [← henv]
    cases hname : lambda.bodyScope.find? name with
    | none => rfl
    | some id => exact congrArg some (hagrees.value?_eq (h.slot hcoded hname))

section

variable {graph : Graph} {program : Program} {machines : Machines} {fuel : Nat}

theorem enters (h : lambda.Compiled plan inputs result t)
    (hcoded : graph.Coded lambda.options lambda.loop plan)
    (hprogram : Program.ofGraph graph {} lambda.label = .ok program) {self : Value}
    {args : List Value} {state : State} (hcreate : program.create self args = .ok state)
    {values : ValueId → Value} (hagrees : graph.layout.Agrees values state) (store : Store)
    : ∃ state', lambda.AtBody graph.layout
          (fun name => ((Scope.ofParams lambda.machineParams).find? name).map values) state' ∧
        Program.run machines (fuel + 1) program ⟨state, store⟩
          = Program.run machines fuel program ⟨state', store⟩ := by
  obtain ⟨hblock, hstacked, _⟩ := hcoded.create_fresh hprogram hcreate
  have hstart : plan.Comes graph.layout (Run.call machines (Program.run machines fuel))
      ⟨state, store⟩ (.start lambda.machineParams) ⟨⟨state, store⟩, values⟩ :=
    ⟨State.status?_of_block hblock (by decide : 0 < State.blockLimit), values, hagrees, rfl⟩
  obtain ⟨hcopies, hjump⟩ := Plan.holds_append.1 h.copies
  rw [List.length_map] at hjump
  have hcopied := hstart.copies hcopies h.inputs_lt
  obtain ⟨state', hagrees', halike, hrun⟩ := hcoded.run_next hprogram hcopied hjump rfl
  refine ⟨state', h.atBody hcoded hagrees' ?_ ?_ (.alike (hstacked.setSlot (by decide) _) halike),
    hrun⟩
  . apply find?_bodyScope_copied h.reads
    . rw [point, ← h.length_inputs]
      exact map_updateAll List.nodup_range' (by simp)
    . exact fun id hid => updateAll_of_lt values _ hid
  . rw [halike.slot (by decide)]
    exact State.slot_setSlot (hstacked.lt_size (by decide)) _

theorem restarts (h : lambda.Compiled plan inputs result t)
    (hcoded : graph.Coded lambda.options lambda.loop plan) (hsmall : graph.IsSmall)
    (hprogram : Program.ofGraph graph {} lambda.label = .ok program) {p : Process} {s : Spot}
    {q : Plain} {operands : List Operand} {args : List Value}
    (hholds : plan.Holds s [.effect (.recur lambda.point.carried operands),
      .transfer (.jump none lambda.point.header)])
    (hlength : lambda.point.carried.length = operands.length)
    (hgood : plan.Good graph.layout p.state)
    (hcomes : plan.Comes graph.layout (Run.call machines (Program.run machines fuel)) p s q)
    (hargs : Plain.readAll operands q = .ok args q)
    : args.length = lambda.params.length ∧ ∃ state,
        lambda.AtBody graph.layout (lambda.rebound q.values args) state ∧
        Program.run machines (fuel + 1) program p
          = Program.run machines fuel program ⟨state, q.store⟩ := by
  have hcount : args.length = lambda.params.length := by
    rw [Plain.readAll_eq] at hargs
    split at hargs
    . cases hargs
    . cases hargs
      rw [List.length_map, ← hlength, length_carried]
  refine ⟨hcount, ?_⟩
  have heffect : Plain.effect (Run.call machines (Program.run machines fuel)) s.value
      (.recur lambda.point.carried operands) q
        = .ok () { q with values := updateAll q.values (lambda.point.carried.zip args) } :=
    (bind_of_ok hargs).trans (Plain.writeAll_eq _ _)
  have hcomes' := hcomes.step hholds heffect
  obtain ⟨state, hagrees, halike, hrun⟩ := hcoded.run_next hprogram hcomes' hholds.2 rfl
  obtain ⟨handlers, hleft⟩ := hcoded.left_comes hsmall hgood hcomes' hholds.2
    (.goTo (List.mem_singleton.2 rfl))
  cases hleft with
  | next hmem hat =>
    cases List.mem_singleton.1 hmem
    have hat := hat.alike halike
    have hnone : handlers = [] := by
      have henters := hat.enters
      unfold Plan.Enters at henters
      rwa [h.label] at henters
    subst hnone
    refine ⟨state, h.atBody hcoded hagrees ?_ hat.block hat.stacked, hrun⟩
    apply find?_bodyScope_rebound hcount
    . exact map_updateAll List.nodup_range' (lambda.length_carried.trans hcount.symm)
    . exact fun id hid => updateAll_of_lt q.values args hid

theorem returns (h : lambda.Compiled plan inputs result t)
    (hcoded : graph.Coded lambda.options lambda.loop plan) (hsmall : graph.IsSmall)
    (hprogram : Program.ofGraph graph {} lambda.label = .ok program) {p : Process} {q : Plain}
    {operand : Operand} (hresult : operand ∈ result) {value : Value}
    (hgood : plan.Good graph.layout p.state)
    (hcomes : plan.Comes graph.layout (Run.call machines (Program.run machines (fuel + 1))) p t q)
    (hvalue : Plain.read operand q = .ok value q)
    : ∃ state, Program.run machines (fuel + 2) program p
        = .ok (.done value) ⟨state, q.store⟩ := by
  obtain ⟨hover, hexit⟩ := h.leaves operand hresult
  have htransfer : Plain.transfer (.jump (some operand) t.fresh) q
      = .ok .next { q with state := (q.state.setPending value).resumeAt t.fresh } :=
    bind_of_ok hvalue
  obtain ⟨state, hagrees, halike, hrun⟩ := hcoded.run_next hprogram hcomes hover htransfer
  obtain ⟨_, hheld⟩ := hcoded.held_comes hsmall hgood hcomes hover
  obtain ⟨handlers, hleft⟩ := hcoded.left_comes hsmall hgood hcomes hover .handOver
  cases hleft with
  | next hmem hat =>
    cases List.mem_singleton.1 hmem
    have hpending : state.pending = value := by
      unfold State.pending
      rw [halike.slot (by decide)]
      exact (State.slot_setSlot_ne _ (by decide) _).trans
        (State.slot_setSlot (hheld.stacked.lt_size (by decide)) _)
    have hstart : plan.Comes graph.layout (Run.call machines (Program.run machines fuel))
        ⟨state, q.store⟩ (((t.opened 1).skip 1).goTo t.fresh) ⟨⟨state, q.store⟩, q.values⟩ :=
      ⟨(hat.alike halike).status, q.values, hagrees, rfl⟩
    have hreceived := hstart.step hexit rfl
    obtain ⟨state', hdone⟩ := hcoded.run_done hprogram hreceived hexit.2 rfl
    have hreturned : update q.values (t.value + 1) state.pending (t.value + 1) = value :=
      (if_pos rfl).trans hpending
    refine ⟨state', (hrun.trans hdone).trans ?_⟩
    exact congrArg (fun value => EStateM.Result.ok (Step.done value) _) hreturned

end

end Compiled

section

variable {lambda : Lambda} {program : Program} {machines : Machines} {tag : Nat}
  {captured args : List Value}

theorem call_eq (hcompile : lambda.compile = .ok program)
    (hargs : args.length = lambda.params.length) {state : State}
    (hcreate : program.create (.closure tag lambda captured)
      (captured ++ lambda.own (.closure tag lambda captured) ++ args) = .ok state)
    (run : Run.Runner) (store : Store)
    : Run.call machines run (.closure tag lambda captured) args store
        = lambda.answer (run program ⟨state, store⟩) := by
  have harity : (Arity.exactly lambda.params.length).check lambda.label args.length = .ok () := by
    simp [Arity.check, Arity.accepts, hargs]
  simp only [Run.call, Run.callClosure]
  rw [harity, hcompile]
  unfold own at hcreate
  simp only [hcreate]
  change (match run program ⟨state, store⟩ with
    | .ok (.done value) p => .ok value p.store
    | .ok .suspended p => .error (.thrown (Fault.suspended lambda.label).toValue) p.store
    | .error stop p => .error stop p.store) = lambda.answer (run program ⟨state, store⟩)
  cases run program ⟨state, store⟩ with
  | error stop p => rfl
  | ok step p => cases step <;> rfl

theorem effect_lambda (hcompile : lambda.compile = .ok program) (call : Caller) (id : ValueId)
    (ids : List ValueId) (p : Plain)
    : ∃ store, Plain.effect call id (.lambda lambda (ids.map .result)) p
        = .ok () ⟨⟨p.state, store⟩,
            update p.values id (.closure p.store.tags lambda (ids.map p.values))⟩ := by
  have hvalues : Plain.readAll (ids.map .result) p = .ok (ids.map p.values) p := by
    have hnone : (ids.map Operand.result).findSome? (·.source.fault? p.store) = none := by
      simp [Operand.source, Source.fault?]
    rw [Plain.readAll_eq, hnone, List.map_map]
    rfl
  refine ⟨{ p.store with tags := p.store.tags + 1 }, ?_⟩
  simp only [Plain.effect, hcompile]
  rw [bind_of_ok hvalues]
  rfl

end

theorem Made.call_enters {options : CompileOptions} {scope : Scope} {forms : List Form}
    {span : Span} {lambda : Lambda} {ids inputs : List ValueId} {program : Program} {graph : Graph}
    {plan : Plan} {result : Option Operand} {t : Spot} (h : lambda.Made options scope forms span ids)
    (hcompiled : lambda.Compiled plan inputs result t)
    (hcoded : graph.Coded lambda.options lambda.loop plan)
    (hprogram : Program.ofGraph graph {} lambda.label = .ok program)
    (hcompile : lambda.compile = .ok program) (tag : Nat) (values : ValueId → Value)
    {self : Value} (hself : self = .closure tag lambda (ids.map values)) {args : List Value}
    (hargs : args.length = lambda.params.length)
    : ∃ created, program.create self (ids.map values ++ lambda.own self ++ args) = .ok created ∧
        ∀ (machines : Machines) (fuel : Nat) (store : Store), ∃ state,
          lambda.AtBody graph.layout
            (lambda.environment (fun name => (scope.find? name).map values) self args) state ∧
          Run.call machines (Program.run machines (fuel + 1)) self args store
            = lambda.answer (Program.run machines fuel program ⟨state, store⟩) := by
  have hlength : (ids.map values ++ lambda.own self ++ args).length
      = lambda.machineParams.length := by
    simp [machineParams, h.captures, h.captured, length_own, hargs]
  obtain ⟨created, values', hcreate, hagrees, hvalues⟩ :=
    hcoded.create_args hprogram self hlength
  refine ⟨created, hcreate, fun machines fuel store => ?_⟩
  obtain ⟨state, hbody, hrun⟩ := hcompiled.enters hcoded hprogram hcreate hagrees store
  have henv : ∀ name, ((Scope.ofParams lambda.machineParams).find? name).map values'
      = lambda.environment (fun name => (scope.find? name).map values) self args name := by
    intro name
    rw [Scope.find?_ofParams_map, show lambda.machineParams = lambda.options.params from rfl,
      hvalues]
    exact h.lookup_machineParams values self hargs name
  subst hself
  refine ⟨state, ?_, ?_⟩
  . simpa only [henv] using hbody
  . rw [call_eq hcompile hargs hcreate, hrun]

/--
What it means that the machine of a function runs the body of the function. The function was made in
a scope, where it has captured results.
-/
structure RunsBody (lambda : Lambda) (scope : Scope) (ids : List ValueId) (program : Program)
    (graph : Graph) (plan : Plan) (result : Option Operand) (t : Spot) : Prop where
  coded : graph.Coded lambda.options lambda.loop plan
  emitted : Program.ofGraph graph {} lambda.label = .ok program
  body : Code lambda.options plan [] lambda.bodyScope lambda.bodyStart
    (.body (.literal .nil) lambda.body) (result.map ([·])) t
  makes : ∀ (call : Caller) (id : ValueId) (p : Plain),
    ∃ store, Plain.effect call id (.lambda lambda (ids.map .result)) p
      = .ok () ⟨⟨p.state, store⟩,
          update p.values id (.closure p.store.tags lambda (ids.map p.values))⟩
  enters : ∀ (tag : Nat) (values : ValueId → Value) (self : Value) (args : List Value),
    self = .closure tag lambda (ids.map values) → args.length = lambda.params.length →
      ∃ created, program.create self (ids.map values ++ lambda.own self ++ args) = .ok created ∧
        ∀ (machines : Machines) (fuel : Nat) (store : Store), ∃ state,
          lambda.AtBody graph.layout
            (lambda.environment (fun name => (scope.find? name).map values) self args) state ∧
          Run.call machines (Program.run machines (fuel + 1)) self args store
            = lambda.answer (Program.run machines fuel program ⟨state, store⟩)
  restarts : ∀ {handlers : List BlockId} {scope : Scope} {s u : Spot} {forms : List Form},
    Code lambda.options plan handlers scope s (.shape (.recur lambda.point forms)) none u →
      Code lambda.options plan handlers scope s (.operands forms) none u ∨
      ∃ operands u',
        Code lambda.options plan handlers scope s (.operands forms) (some operands) u' ∧
        ∀ {machines : Machines} {fuel : Nat} {p : Process} {q : Plain} {args : List Value},
          program.Reached machines p →
          plan.Comes graph.layout (Run.call machines (Program.run machines fuel)) p u' q →
          Plain.readAll operands q = .ok args q →
            args.length = lambda.params.length ∧ ∃ state,
              lambda.AtBody graph.layout (lambda.rebound q.values args) state ∧
              Program.run machines (fuel + 1) program p
                = Program.run machines fuel program ⟨state, q.store⟩
  returns : ∀ operand ∈ result, ∀ {machines : Machines} {fuel : Nat} {p : Process} {q : Plain}
      {value : Value},
    program.Reached machines p →
    plan.Comes graph.layout (Run.call machines (Program.run machines (fuel + 1))) p t q →
    Plain.read operand q = .ok value q →
      ∃ state, Program.run machines (fuel + 2) program p = .ok (.done value) ⟨state, q.store⟩

/--
The call of a function runs its body. Whatever the names in scope, of the parameters and of the
function itself are, the body runs in an environment in which the parameters are bound to the
arguments, the function's own name is bound to the function, and all other names are bound to the
values that they had when the function was made. When the body recurs, the parameters are bound anew
and the body starts over. All this only holds if nothing else goes by the name of the loop that the
body becomes.
-/
theorem call_runs_body {options : CompileOptions} {scope : Scope} {forms : List Form} {span : Span}
    {lambda : Lambda} {ids : List ValueId} {program : Program}
    (hmade : lambda.Made options scope forms span ids) (hstands : lambda.LoopStands)
    (hcompile : lambda.compile = .ok program)
    (hsmall : ∀ graph, Graph.ofForm lambda.options lambda.loop = .ok graph → graph.IsSmall)
    : (∀ d : Draft, d.scope = scope → Lower.fnForm options forms span d
        = Lower.performValue (.lambda lambda (ids.map .result)) span d) ∧
      ∃ graph plan result t, lambda.RunsBody scope ids program graph plan result t := by
  refine ⟨?_, ?_⟩
  . rintro d rfl
    exact hmade.fnForm_eq
  obtain ⟨graph, hgraph, hprogram⟩ := Program.compile_ok hcompile
  have hsmall := hsmall graph hgraph
  obtain ⟨plan, hcoded⟩ := Graph.ofForm_coded hgraph
  obtain ⟨inputs, result, t, hcompiled⟩ := hcoded.compiled hstands
  have hsupports : ∀ machines, program.Supports machines {} fun _ => True := by
    intro machines name handler hhandler
    cases hhandler
  have hgood : ∀ {machines p}, program.Reached machines p → plan.Good graph.layout p.state :=
    fun hreached => hcoded.good_reached hsmall hprogram (hsupports _) trivial hreached
  refine ⟨graph, plan, result, t, hcoded, hprogram, hcompiled.body,
    fun call id p => effect_lambda hcompile call id ids p, ?_, ?_, ?_⟩
  . intro tag values self args hself hargs
    exact hmade.call_enters hcompiled hcoded hprogram hcompile tag values hself hargs
  . intro handlers scope s u forms hcode
    cases hcode with
    | recurStop hforms => exact .inl hforms
    | recur _ _ hforms hlength hholds =>
      refine .inr ⟨_, _, hforms, ?_⟩
      intro machines fuel p q args hreached hcomes hargs
      exact hcompiled.restarts hcoded hsmall hprogram hholds hlength (hgood hreached) hcomes hargs
  . intro operand hresult machines fuel p q value hreached hcomes hvalue
    exact hcompiled.returns hcoded hsmall hprogram hresult (hgood hreached) hcomes hvalue

def shadowing : Lambda where
  name := some "f"
  params := ["x", "x"]
  captures := ["y"]
  body := [.list [.symbol "if" .synthetic, .symbol "y" .synthetic,
    .list [.symbol "recur" .synthetic, .symbol "y" .synthetic, .symbol "x" .synthetic] .synthetic,
    .symbol "x" .synthetic] .synthetic]
  aliases := {}
  expander := .stock
  span := .synthetic

theorem call_runs_body_shadowing
    : ∃ scope forms self program graph plan result t,
        scope = { locals := [("y", 2), ("f", 1), ("x", 0)] } ∧
        forms = [.symbol "f" .synthetic,
          .vector [.symbol "x" .synthetic, .symbol "x" .synthetic] .synthetic] ++ shadowing.body ∧
        shadowing.Made { expander := .stock } scope forms .synthetic [2] ∧
        shadowing.LoopStands ∧ shadowing.compile = .ok program ∧
        shadowing.RunsBody scope [2] program graph plan result t ∧
        self = .closure 0 shadowing [.int 7] ∧ (∃ state, shadowing.AtBody graph.layout
          (shadowing.environment (fun name => (scope.find? name).map fun _ => .int 7) self
            [.int 1, .int 2]) state) ∧
        ["x", "f", "y", "z"].map (shadowing.environment
          (fun name => (scope.find? name).map fun _ => .int 7) self [.int 1, .int 2])
            = [some (.int 2), some self, some (.int 7), none] := by
  have hmade : shadowing.Made { expander := .stock } { locals := [("y", 2), ("f", 1), ("x", 0)] }
      ([.symbol "f" .synthetic, .vector [.symbol "x" .synthetic, .symbol "x" .synthetic]
        .synthetic] ++ shadowing.body) .synthetic [2] :=
    ⟨⟨[.symbol "f" .synthetic], _, _, rfl, rfl, rfl⟩, by decide +kernel, by decide +kernel, rfl,
      rfl, rfl⟩
  have hstands : shadowing.LoopStands := .ofStock rfl (by decide) rfl
  obtain ⟨graph, program, hgraph, hprogram, hcheck⟩ := Graph.exists_of_check shadowing.options
    shadowing.loop {} shadowing.label (fun graph _ => decide graph.IsSmall) (by decide +kernel)
  have hcompile : shadowing.compile = .ok program := by
    unfold compile Program.compile
    rw [hgraph]
    exact hprogram
  have hsmall : ∀ graph, Graph.ofForm shadowing.options shadowing.loop = .ok graph →
      graph.IsSmall := by
    intro graph' hgraph'
    cases hgraph.symm.trans hgraph'
    exact of_decide_eq_true hcheck
  obtain ⟨_, graph, plan, result, t, hruns⟩ := call_runs_body hmade hstands hcompile hsmall
  obtain ⟨_, _, hcalled⟩ := hruns.enters 0 (fun _ => .int 7) _ [.int 1, .int 2] rfl rfl
  obtain ⟨state, hbody, _⟩ := hcalled {} 0 {}
  exact ⟨_, _, _, program, graph, plan, result, t, rfl, rfl, hmade, hstands, hcompile, hruns, rfl,
    ⟨state, hbody⟩, rfl⟩

end Lambda

end Resumable
