import Resumable.Proofs.Handlers.Paired
import Resumable.Proofs.Slots.Unaliased

/-!
This module contains the proof that the pending value is fresh whenever it is read: it is what the
transfer has put there that the block was entered by.

Beside the run of a machine goes the value that is handed over to the block that the machine is at.
Nothing is handed over by a branch or by a fault, so it cannot be confused with what the slot still
holds from an earlier transfer.
-/

namespace Resumable

def Op.sources : Op → List Source
  | .move _ source => [source]
  | .call _ callee args => callee :: args
  | .closure _ _ captured => captured
  | .field _ object _ => [object]
  | .method _ object _ args => object :: args
  | .setGlobal _ _ value => [value]
  | .setField _ object _ value => [value, object]
  | .endFinally exception => [exception]
  | .pushHandler _ | .popHandler _ | .takeException _ | .save _ _ => []

def Exit.sources : Exit → List Source
  | .jump value _ => value.toList
  | .finish value => [value]
  | .branch test _ _ => [test]
  | .case value _ _ _ => [value]
  | .dispatch _ => []
  | .suspend _ _ args => args

/--
Whether a block has no use for the pending value.
-/
structure BlockProgram.Ignores (code : BlockProgram) : Prop where
  ops : ∀ o ∈ code.ops, .pending ∉ o.sources
  exit : .pending ∉ code.exit.sources

/--
Whether a block puts the pending value aside by its first operation, and has no use for it after
that.
-/
def BlockProgram.PutsAside (code : BlockProgram) (id : ValueId) : Prop :=
  ∃ rest, code.ops = .move (.result id) .pending :: rest ∧
    BlockProgram.Ignores { code with ops := rest }

def Exit.hands : Exit → Bool
  | .jump (some _) _ | .dispatch _ | .suspend _ _ _ => true
  | _ => false

def Exit.handed (exit : Exit) (f : Frame) : Option Value :=
  match exit with
  | .jump (some source) _ =>
    match Exec.eval source f with
    | .ok value _ => some value
    | .error _ _ => none
  | .dispatch _ => some f.state.exception
  | _ => none

def BlockProgram.handed (code : BlockProgram) (call : Caller) (p : Process) : Option Value :=
  match Exec.load code.loads { toProcess := p } with
  | .ok _ f =>
    match Exec.ops call code.ops f with
    | .ok _ f => code.exit.handed f
    | .error _ _ => none
  | .error _ _ => none

def State.Installed (s : State) (resume : BlockId) (value : Value) : Prop :=
  ∃ base : State, s = (base.setPending value).resumeAt resume

/--
Whether a handler has installed a value if the machine goes on where the suspended call does. If the
handler fails, it may also have left the machine as it was.
-/
inductive Reply.Installs (s : State) (resume : BlockId) : Reply → Prop where
  | control {decision : Control} {s' : State} {value : Value} :
    s'.Installed resume value → Reply.Installs s resume (.control decision s')
  | complete {value : Value} {s' : State} : Reply.Installs s resume (.control (.complete value) s')
  | drive {s' : State} {decide : Step → Control} {value : Value} :
    s'.Installed resume value → Reply.Installs s resume (.drive s' decide)
  | left {thrown : Value} {s' : State} :
    s'.slot 1 = s.slot 1 → s'.pending = s.pending → Reply.Installs s resume (.fault thrown s')
  | fault {thrown : Value} {s' : State} {value : Value} :
    s'.Installed resume value → Reply.Installs s resume (.fault thrown s')

/--
Whether the handlers of a table install a value before they resume a machine at its continuation.
-/
def Table.Installs (table : Table String Handler) : Prop :=
  ∀ name handler, table.get? name = some handler → ∀ s resume args, headerSize ≤ s.slots.size →
    (handler s resume args).Installs s resume

namespace Program

def handed (machines : Machines) (program : Program) (fuel : Nat) (p : Process) :
    Option Value :=
  match p.state.status? with
  | some (.running b) =>
    match program.blocks.get? b with
    | some code => code.handed (Run.call machines (Program.run machines fuel)) p
    | none => none
  | _ => none

/--
The runs of a machine from its creation on, with the value that has been handed over to the block
that the machine is at: by the block before it, by the handler of a suspension, or from outside
between two blocks. A fault hands nothing over to the block that handles it. If there is none, the
machine is left where it was, or where the handler has sent it before it failed.
-/
inductive Handed (machines : Machines) (program : Program) :
    Option Value → Process → Prop where
  | create {self : Value} {args : List Value} {state : State} {store : Store} :
    program.create self args = .ok state → program.Handed machines none ⟨state, store⟩
  | next {value : Option Value} {fuel : Nat} {p : Process} {f : Frame} :
    program.Handed machines value p → program.Executes machines fuel p (.ok .next f) →
      program.Handed machines (program.handed machines fuel p) f.toProcess
  | done {value : Option Value} {result : Value} {fuel : Nat} {p : Process} {f : Frame} :
    program.Handed machines value p → program.Executes machines fuel p (.ok (.done result) f) →
      program.Handed machines none f.toProcess
  | resume {value : Option Value} {fuel : Nat} {p : Process} {f : Frame} {handler : Handler}
      {resume : BlockId} {args : List Value} {decision : Control} {s : State} {new : Value} :
    program.Handed machines value p →
      program.Executes machines fuel p (.ok (.suspend handler resume args) f) →
      handler f.state resume args = .control decision s →
      decision = .suspend ∨ decision = .continue → s.Installed resume new →
        program.Handed machines (some new) ⟨s, f.store⟩
  | complete {value : Option Value} {fuel : Nat} {p : Process} {f : Frame} {handler : Handler}
      {resume : BlockId} {args : List Value} {result : Value} {s : State} :
    program.Handed machines value p →
      program.Executes machines fuel p (.ok (.suspend handler resume args) f) →
      handler f.state resume args = .control (.complete result) s →
        program.Handed machines none ⟨s.finish result, f.store⟩
  | drive {value : Option Value} {fuel : Nat} {p : Process} {f : Frame} {handler : Handler}
      {resume : BlockId} {args : List Value} {s : State} {decide : Step → Control} {new : Value} :
    program.Handed machines value p →
      program.Executes machines fuel p (.ok (.suspend handler resume args) f) →
      handler f.state resume args = .drive s decide → s.Installed resume new →
        program.Handed machines (some new) ⟨s, f.store⟩
  | route {value : Option Value} {fuel : Nat} {p q : Process} {thrown : Value} :
    program.Handed machines value p → program.Raises machines fuel p thrown q →
      q.state.handlers ≠ [] → program.Handed machines none (Run.route thrown q).process
  | left {value : Option Value} {fuel : Nat} {p q : Process} {thrown : Value} :
    program.Handed machines value p → program.Raises machines fuel p thrown q →
      q.state.handlers = [] → q.state.slot 1 = p.state.slot 1 → q.state.pending = p.state.pending →
        program.Handed machines value (Run.route thrown q).process
  | sent {value : Option Value} {fuel : Nat} {p : Process} {f : Frame} {handler : Handler}
      {resume : BlockId} {args : List Value} {thrown : Value} {s : State} {new : Value} :
    program.Handed machines value p →
      program.Executes machines fuel p (.ok (.suspend handler resume args) f) →
      handler f.state resume args = .fault thrown s → s.handlers = [] → s.Installed resume new →
        program.Handed machines (some new) (Run.route thrown ⟨s, f.store⟩).process
  | store {value : Option Value} {p : Process} {store : Store} :
    program.Handed machines value p → program.Handed machines value { p with store := store }
  | pending {value : Option Value} {p : Process} {new : Value} :
    program.Handed machines value p →
      program.Handed machines (some new) { p with state := p.state.setPending new }
  | finish {value : Option Value} {p : Process} {result : Value} :
    program.Handed machines value p →
      program.Handed machines none { p with state := p.state.finish result }
  | fault {value : Option Value} {p : Process} {thrown : Value} :
    program.Handed machines value p → p.state.handlers = [] →
      program.Handed machines value { p with state := p.state.setException thrown }

end Program

theorem State.Respects.handlers {s s' : State} (h : s'.Respects s (· = 4))
    : s'.handlers = s.handlers := by
  unfold State.handlers
  rw [h.slot 4 rfl]

theorem State.Installed.slots {s : State} {resume : BlockId} {value : Value}
    (h : s.Installed resume value) (hroom : headerSize ≤ s.slots.size)
    : s.slot 1 = State.ofBlock resume ∧ s.pending = value := by
  obtain ⟨base, rfl⟩ := h
  rw [resumeAt, size_setSlot, setPending, size_setSlot] at hroom
  constructor
  . apply slot_setSlot
    rw [setPending, size_setSlot]
    exact Nat.lt_of_lt_of_le (by decide) hroom
  . exact (slot_setSlot_ne _ (by decide) _).trans
      (slot_setSlot (Nat.lt_of_lt_of_le (by decide) hroom) _)

namespace Exec

variable {call : Caller} {f f' : Frame}

theorem op_pending {o : Op} (htame : o.IsTame) (h : op call o f = .ok () f')
    : f'.state.pending = f.state.pending := by
  refine (op_kept h).2 2 (by decide) (by decide) ?_
  rintro source rfl
  exact absurd (show headerSize ≤ 2 from htame) (by decide)

theorem ops_pending (call : Caller) {todo : List Op} (htame : ∀ o ∈ todo, o.IsTame) {f : Frame}
    (hroom : headerSize ≤ f.state.slots.size)
    : match ops call todo f with
      | .ok _ f' => f'.state.pending = f.state.pending
      | .error _ f' => f'.state.pending = f.state.pending := by
  induction todo generalizing f with
  | nil => rfl
  | cons o todo ih =>
    rw [List.forall_mem_cons] at htame
    have hworked := op_worked call htame.1 hroom
    unfold ops
    cases hrun : op call o f with
    | error stop f' =>
      rw [bind_of_error hrun]
      simp only [hrun] at hworked ⊢
      rw [hworked]
    | ok a f' =>
      rw [bind_of_ok hrun]
      simp only [hrun] at hworked
      have hfirst := op_pending htame.1 hrun
      have hrest := ih htame.2 (f := f') (hworked.size ▸ hroom)
      cases hlater : ops call todo f' with
      | ok _ f'' =>
        simp only [hlater] at hrest ⊢
        exact hrest.trans hfirst
      | error stop f'' =>
        simp only [hlater] at hrest ⊢
        exact hrest.trans hfirst

theorem exit_handed {exit : Exit} (hroom : headerSize ≤ f.state.slots.size)
    (h : Exec.exit exit f = .ok .next f') (hhands : exit.hands = true)
    : exit.handed f = some f'.state.pending := by
  cases exit with
  | jump value target =>
    cases value with
    | none => cases hhands
    | some source =>
      obtain ⟨value, g, hvalue, hrest⟩ := bind_ok.1 h
      have hsame := (Still.eval source).ok hvalue
      cases hrest
      simp only [Exit.handed, hvalue, Option.some.injEq]
      refine ((State.slot_setSlot_ne _ (by decide) _).trans (State.slot_setSlot ?_ _)).symm
      rw [hsame]
      exact Nat.lt_of_lt_of_le (by decide) hroom
  | dispatch clauses =>
    obtain ⟨frame, same, hget, hrest⟩ := bind_ok.1 h
    obtain ⟨hframe, hsame⟩ := get_ok.1 hget
    rw [hframe, hsame] at hrest
    obtain ⟨heap, g, hheap, hleft⟩ := bind_ok.1 hrest
    have hstate := (Still.onStore Action.heap).ok hheap
    cases hclause : clauses.find? (catches heap f.state.exception ·.2) with
    | none =>
      simp only [hclause] at hleft
      cases hleft
    | some clause =>
      simp only [hclause] at hleft
      cases hleft
      simp only [Exit.handed, Option.some.injEq]
      refine ((State.slot_setSlot_ne _ (by decide) _).trans
        ((State.slot_setSlot_ne _ (by decide) _).trans (State.slot_setSlot ?_ _))).symm
      rw [hstate]
      exact Nat.lt_of_lt_of_le (by decide) hroom
  | suspend handler resume sources =>
    obtain ⟨args, g, _, hrest⟩ := bind_ok.1 h
    cases hrest
  | _ => cases hhands

theorem block_pending (call : Caller) {code : BlockProgram} (htame : ∀ o ∈ code.ops, o.IsTame)
    {p : Process} (hroom : headerSize ≤ p.state.slots.size)
    : match block call code { toProcess := p } with
      | .ok .next f => code.exit.hands = true → code.handed call p = some f.state.pending
      | .ok (.done _) _ => True
      | .ok (.suspend _ _ _) f => f.state.pending = p.state.pending
      | .error _ f => f.state.pending = p.state.pending := by
  obtain ⟨f, hload, hstate⟩ : ∃ f, load code.loads { toProcess := p } = .ok () f ∧
      f.state = p.state := by
    obtain ⟨registers, hload⟩ := load_ok code.loads { toProcess := p }
    exact ⟨_, hload, rfl⟩
  have hops := ops_pending call htame (f := f) (hstate ▸ hroom)
  have hworked := ops_worked call htame (f := f) (hstate ▸ hroom)
  rw [block, bind_of_ok hload, BlockProgram.handed, hload]
  rw [hstate] at hops hworked
  cases hrun : ops call code.ops f with
  | error stop f' =>
    rw [bind_of_error hrun]
    simpa only [hrun] using hops
  | ok _ f' =>
    rw [bind_of_ok hrun]
    simp only [hrun] at hops hworked ⊢
    have hroom' : headerSize ≤ f'.state.slots.size := hworked.1.size ▸ hroom
    cases hexit : exit code.exit f' with
    | error stop f'' =>
      simp only
      rw [exit_error code.exit _ _ _ hexit]
      exact hops
    | ok flow f'' =>
      cases flow with
      | next => exact exit_handed hroom' hexit
      | done => trivial
      | suspend handler resume args =>
        cases exit_left (Nat.lt_of_lt_of_le (by decide) hroom') hexit with
        | suspend _ hsame => exact (congrArg State.pending hsame).trans hops

end Exec

namespace Emit

variable {layout : Layout} {o : Op} {id : ValueId} {ins : Instruction}

theorem eq_pending_of_source {operand : Operand} (h : .pending = operand.source)
    : operand = .pending := by
  cases operand <;> first | rfl | cases h

theorem pending_of_sources (operands : List Operand) (h : .pending ∈ operands.map Operand.source)
    : .pending ∈ operands := by
  obtain ⟨operand, hmem, heq⟩ := List.mem_map.1 h
  exact eq_pending_of_source heq.symm ▸ hmem

theorem pending_of_assignment {targets : List ValueId} {args : List Operand}
    (ho : o ∈ assignment targets args) (h : .pending ∈ o.sources)
    : .pending ∈ args := by
  have hpart : ∀ part ∈ parts targets 0 (targets.zip args), part.source = .pending →
      .pending ∈ args := by
    intro part hpart heq
    have hmem : part.source ∈ (targets.zip args).map (·.2.source) :=
      parts_source ▸ List.mem_map_of_mem hpart
    obtain ⟨pair, hpair, hsource⟩ := List.mem_map.1 hmem
    have hpending : Operand.pending = pair.2 :=
      (eq_pending_of_source (heq.symm.trans hsource.symm)).symm
    exact hpending ▸ (List.of_mem_zip hpair).2
  simp only [assignment, List.mem_append, List.mem_map, List.mem_filter] at ho
  rcases ho with (⟨part, hmem, rfl⟩ | ⟨part, hmem, rfl⟩) | ⟨part, hmem, rfl⟩
  . exact hpart part hmem.1 (List.mem_singleton.1 h).symm
  . exact hpart part hmem.1 (List.mem_singleton.1 h).symm
  . cases List.mem_singleton.1 h

theorem pending_of_effect {e : Effect} (ho : o ∈ effect id e) (h : .pending ∈ o.sources)
    : .pending ∈ e.operands := by
  cases e with
  | recur targets args => exact pending_of_assignment ho h
  | const value | setGlobal name value | endFinally value =>
    cases List.mem_singleton.1 ho
    exact pending_of_sources [value] h
  | call callee args =>
    cases List.mem_singleton.1 ho
    exact pending_of_sources (callee :: args) h
  | lambda code captured =>
    cases List.mem_singleton.1 ho
    exact pending_of_sources captured h
  | field target name args =>
    cases List.mem_singleton.1 ho
    exact List.mem_cons.2 (.inl (List.mem_singleton.1 (pending_of_sources [target] h)))
  | method target name args =>
    cases List.mem_singleton.1 ho
    exact pending_of_sources (target :: args) h
  | setField object name value =>
    cases List.mem_singleton.1 ho
    exact (List.Perm.swap object value []).mem_iff.1 (pending_of_sources [value, object] h)
  | setLocal target value =>
    rcases List.mem_cons.1 ho with rfl | ho
    . exact pending_of_sources [value] h
    . cases List.mem_singleton.1 ho
      cases List.mem_singleton.1 h
  | pushHandler block | popHandler block | takeException =>
    cases List.mem_singleton.1 ho
    cases h

theorem pending_of_instruction (ho : o ∈ instruction layout ins) (h : .pending ∈ o.sources)
    : .pending ∈ ins.operands := by
  unfold instruction at ho
  split at ho
  . next e hcommand =>
    rcases List.mem_append.1 ho with ho | ho
    . simpa only [Instruction.operands, hcommand] using pending_of_effect ho h
    . obtain ⟨_, _, _, _, rfl⟩ := mem_saves.1 ho
      cases h
  . cases ho

theorem pending_of_exit {table : Table String Handler} {t : Transfer} {exit : Exit}
    (h : Emit.exit table t = .ok exit) (hmem : .pending ∈ exit.sources)
    : .pending ∈ t.operands := by
  cases t with
  | suspend name resume args =>
    unfold Emit.exit at h
    cases hhandler : table.get? name with
    | none => simp [hhandler] at h
    | some handler =>
      simp only [hhandler] at h
      cases h
      exact pending_of_sources args hmem
  | jump value target =>
    cases h
    cases value with
    | none => cases hmem
    | some operand => exact pending_of_sources [operand] hmem
  | finish value | branch value | case value =>
    cases h
    exact pending_of_sources [value] hmem
  | dispatch clauses =>
    cases h
    cases hmem

end Emit

namespace Plan

def Unhanded (plan : Plan) (arrival : BlockId → Arrival) (b : BlockId) : Prop :=
  arrival b = .bare ∨ (plan.label b).role = .cleanup

structure Retains (plan : Plan) (arrival : BlockId → Arrival) (s s' : State) : Prop where
  room : headerSize ≤ s'.slots.size
  block : s'.slot 1 = s.slot 1
  pending : s'.pending = s.pending
  handlers : ∀ h ∈ s'.handlers, plan.Unhanded arrival h

structure Served (plan : Plan) (arrival : BlockId → Arrival) (value : Option Value) (b : BlockId)
    (s : State) : Prop where
  block : s.slot 1 = State.ofBlock b
  small : b < State.blockLimit
  fresh : value = some s.pending ∨ arrival b = .bare ∨
    value = none ∧ (plan.label b).role = .cleanup
  handlers : ∀ h ∈ s.handlers, plan.Unhanded arrival h

structure Fresh (plan : Plan) (arrival : BlockId → Arrival) (value : Option Value) (s : State) :
    Prop where
  room : headerSize ≤ s.slots.size
  goes : s.slot 1 = .keyword "finished" ∨ ∃ b, plan.Served arrival value b s

inductive Relays (plan : Plan) (arrival : BlockId → Arrival) (table : Table String Handler)
    (s : State) (new : Option Value) : EStateM.Result Stop Frame Flow → Prop where
  | next {f : Frame} :
    plan.Fresh arrival new f.state → Relays plan arrival table s new (.ok .next f)
  | done {value : Value} {f : Frame} :
    plan.Fresh arrival none f.state → Relays plan arrival table s new (.ok (.done value) f)
  | suspend {name : String} {handler : Handler} {resume : BlockId} {args : List Value} {f : Frame} :
    table.get? name = some handler → resume < State.blockLimit → plan.Retains arrival s f.state →
      Relays plan arrival table s new (.ok (.suspend handler resume args) f)
  | stop {stop : Stop} {f : Frame} :
    plan.Retains arrival s f.state → Relays plan arrival table s new (.error stop f)

variable {plan : Plan} {arrival : BlockId → Arrival} {value : Option Value} {b : BlockId}
  {s s' : State}

theorem Served.status (h : plan.Served arrival value b s) : s.status? = some (.running b) :=
  State.status?_of_block h.block h.small

theorem Fresh.running (h : plan.Fresh arrival value s) (hstatus : s.status? = some (.running b))
    : plan.Served arrival value b s := by
  rcases h.goes with hfinished | ⟨b', hserved⟩
  . unfold State.status? at hstatus
    rw [hfinished] at hstatus
    cases hstatus
  . rw [hserved.status] at hstatus
    cases hstatus
    exact hserved

theorem fresh_finish (hroom : headerSize ≤ s.slots.size) (result : Value)
    : plan.Fresh arrival none (s.finish result) where
  room := by
    rw [State.finish, State.setPending, State.size_setSlot, State.size_setSlot]
    exact hroom
  goes := .inl (slot_finish (Nat.lt_of_lt_of_le (by decide) hroom) result)

theorem fresh_installed {resume : BlockId} {new : Value} (hroom : headerSize ≤ s.slots.size)
    (hinstalled : s.Installed resume new) (hsmall : resume < State.blockLimit)
    (hhandlers : ∀ h ∈ s.handlers, plan.Unhanded arrival h)
    : plan.Fresh arrival (some new) s := by
  obtain ⟨hblock, hpending⟩ := hinstalled.slots hroom
  exact ⟨hroom, .inr ⟨resume, hblock, hsmall, .inl (by rw [hpending]), hhandlers⟩⟩

theorem Fresh.setException (h : plan.Fresh arrival value s) (thrown : Value)
    : plan.Fresh arrival value (s.setException thrown) where
  room := by
    rw [State.setException, State.size_setSlot]
    exact h.room
  goes := by
    have hblock : (s.setException thrown).slot 1 = s.slot 1 := State.slot_setSlot_ne s (by decide) _
    have hpending : (s.setException thrown).pending = s.pending :=
      State.slot_setSlot_ne s (by decide) _
    rcases h.goes with hfinished | ⟨b, hserved⟩
    . exact .inl (hblock.trans hfinished)
    . refine .inr ⟨b, hblock.trans hserved.block, hserved.small, hpending ▸ hserved.fresh, ?_⟩
      rw [State.handlers_setException]
      exact hserved.handlers

theorem Fresh.setPending (h : plan.Fresh arrival value s) (new : Value)
    : plan.Fresh arrival (some new) (s.setPending new) where
  room := by
    rw [State.setPending, State.size_setSlot]
    exact h.room
  goes := by
    have hblock : (s.setPending new).slot 1 = s.slot 1 := State.slot_setSlot_ne s (by decide) _
    have hpending : (s.setPending new).pending = new :=
      State.slot_setSlot (Nat.lt_of_lt_of_le (by decide) h.room) _
    rcases h.goes with hfinished | ⟨b, hserved⟩
    . exact .inl (hblock.trans hfinished)
    . refine .inr ⟨b, hblock.trans hserved.block, hserved.small, .inl (by rw [hpending]), ?_⟩
      rw [State.setPending, State.handlers_setSlot_ne s (by decide)]
      exact hserved.handlers

theorem fresh_route {q : Process} (hroom : headerSize ≤ q.state.slots.size)
    (hhandlers : ∀ h ∈ q.state.handlers, plan.Unhanded arrival h) (hne : q.state.handlers ≠ [])
    (thrown : Value)
    : plan.Fresh arrival none (Run.route thrown q).process.state := by
  have hsame := State.handlers_setException q.state thrown
  have hroom' : headerSize ≤ (q.state.setException thrown).slots.size := by
    rw [State.setException, State.size_setSlot]
    exact hroom
  cases hstack : (q.state.setException thrown).handlers with
  | nil => exact absurd (hsame.symm.trans hstack) hne
  | cons target rest =>
    simp only [Run.route, hstack, Run.Turn.process]
    have hmem : target ∈ (q.state.setException thrown).handlers := by simp [hstack]
    have hunhanded := hhandlers target (hsame ▸ hmem)
    refine ⟨(State.size_setSlot _ 1 _).symm ▸ hroom', .inr ⟨target, ?_, ?_, ?_, ?_⟩⟩
    . exact State.slot_setSlot (Nat.lt_of_lt_of_le (by decide) hroom') _
    . exact State.lt_of_mem_handlers hmem
    . exact .inr (hunhanded.imp_right fun hrole => ⟨rfl, hrole⟩)
    . rw [State.resumeAt, State.handlers_setSlot_ne _ (by decide), hsame]
      exact hhandlers

theorem Fresh.left (h : plan.Fresh arrival value s) {q : Process}
    (hroom : headerSize ≤ q.state.slots.size) (hnone : q.state.handlers = [])
    (hblock : q.state.slot 1 = s.slot 1) (hpending : q.state.pending = s.pending) (thrown : Value)
    : plan.Fresh arrival value (Run.route thrown q).process.state := by
  have hstack : (q.state.setException thrown).handlers = [] :=
    (State.handlers_setException q.state thrown).trans hnone
  have hleft : plan.Fresh arrival value q.state := by
    refine ⟨hroom, h.goes.imp (fun hfinished => hblock.trans hfinished) ?_⟩
    rintro ⟨b, hserved⟩
    exact ⟨b, hblock.trans hserved.block, hserved.small, hpending ▸ hserved.fresh,
      by simp [hnone]⟩
  simp only [Run.route, hstack, Run.Turn.process]
  exact hleft.setException thrown

end Plan

namespace Graph.Coded

variable {options : CompileOptions} {source : Form} {graph : Graph} {plan : Plan}
  {arrival : BlockId → Arrival} {table : Table String Handler} {name : String} {program : Program}
  {machines : Machines} {value : Option Value} {b target : BlockId} {code : BlockProgram}

theorem ignores (hpairs : plan.Pairs arrival)
    (hemit : Emit.block graph.layout table b (plan.code b) = .ok code) (hbare : arrival b = .bare)
    : code.Ignores := by
  obtain ⟨effects, last, t, hsplit, ht, hexit, _, hops⟩ := Emit.block_ok hemit
  have hnone : ∀ ins ∈ plan.code b, .pending ∉ ins.operands := by
    intro ins hmem hreads
    obtain ⟨i, hins⟩ := List.mem_iff_getElem?.1 hmem
    obtain ⟨rfl, hcommand⟩ := hpairs.of_pending hins hreads
    exact (hpairs.command_zero hins).1 hcommand hbare
  constructor
  . intro o ho hreads
    rw [hops] at ho
    obtain ⟨ins, hins, ho⟩ := List.mem_flatMap.1 ho
    exact hnone ins (by simp [hsplit, hins]) (Emit.pending_of_instruction ho hreads)
  . intro hreads
    have hlast := hnone last (by simp [hsplit])
    rw [Instruction.operands, ht] at hlast
    exact hlast (Emit.pending_of_exit hexit hreads)

theorem putsAside (hpairs : plan.Pairs arrival)
    (hemit : Emit.block graph.layout table b (plan.code b) = .ok code) (hne : arrival b ≠ .bare)
    : ∃ id, code.PutsAside id := by
  obtain ⟨effects, last, t, hsplit, ht, hexit, _, hops⟩ := Emit.block_ok hemit
  cases effects with
  | nil =>
    have hlast : (plan.code b)[0]? = some last := by simp [hsplit]
    have hcommand := (hpairs.command_zero hlast).2 hne
    rw [ht] at hcommand
    cases hcommand
  | cons first rest =>
    have hfirst : (plan.code b)[0]? = some first := by simp [hsplit]
    have hcommand := (hpairs.command_zero hfirst).2 hne
    have hnone : ∀ ins ∈ rest ++ [last], .pending ∉ ins.operands := by
      intro ins hmem hreads
      obtain ⟨i, hins⟩ := List.mem_iff_getElem?.1 hmem
      have hlater : (plan.code b)[i + 1]? = some ins := by simpa [hsplit] using hins
      exact absurd (hpairs.of_pending hlater hreads).1 (Nat.succ_ne_zero i)
    have hhead : Emit.instruction graph.layout first =
        .move (.result first.id) .pending :: Emit.saves graph.layout [first.id] := by
      simp [Emit.instruction, hcommand, Command.receive, Emit.effect, Operand.source,
        Instruction.writes, Effect.writes]
    rw [List.flatMap_cons, hhead, List.cons_append] at hops
    refine ⟨first.id, _, hops, ?_, ?_⟩
    . intro o ho hreads
      rcases List.mem_append.1 ho with ho | ho
      . obtain ⟨_, _, _, _, rfl⟩ := Emit.mem_saves.1 ho
        cases hreads
      . obtain ⟨ins, hins, ho⟩ := List.mem_flatMap.1 ho
        exact hnone ins (List.mem_append_left _ hins) (Emit.pending_of_instruction ho hreads)
    . intro hreads
      have hlast := hnone last (by simp)
      rw [Instruction.operands, ht] at hlast
      exact hlast (Emit.pending_of_exit hexit hreads)

theorem hands_of_target (hpairs : plan.Pairs arrival)
    (hemit : Emit.block graph.layout table b (plan.code b) = .ok code)
    (htarget : target ∈ code.exit.targets) (hne : arrival target ≠ .bare)
    : code.exit.hands = true := by
  obtain ⟨effects, last, t, hsplit, ht, hexit, _, _⟩ := Emit.block_ok hemit
  have hlast : (plan.code b)[effects.length]? = some last := by simp [hsplit]
  rw [Emit.exit_targets hexit] at htarget
  have hadmits := hpairs.admits hlast (by simpa only [Instruction.targets, ht] using htarget)
  rw [Plan.Admits, ht] at hadmits
  generalize code.exit = exit at hexit
  cases t with
  | suspend name resume args =>
    unfold Emit.exit at hexit
    cases hhandler : table.get? name with
    | none => simp [hhandler] at hexit
    | some handler =>
      simp only [hhandler] at hexit
      cases hexit
      rfl
  | jump value target' =>
    cases value with
    | none => exact absurd hadmits hne
    | some operand =>
      cases hexit
      rfl
  | dispatch clauses =>
    cases hexit
    rfl
  | finish | branch | case => exact absurd hadmits hne

theorem unhanded_pushed (hpairs : plan.Pairs arrival)
    (hemit : Emit.block graph.layout table b (plan.code b) = .ok code)
    (hpushed : .pushHandler target ∈ code.ops)
    : plan.Unhanded arrival target := by
  obtain ⟨effects, last, t, hsplit, _, _, _, hops⟩ := Emit.block_ok hemit
  rw [hops] at hpushed
  obtain ⟨ins, hmem, ho⟩ := List.mem_flatMap.1 hpushed
  have hcommand := Emit.instruction_push ho
  obtain ⟨i, hins⟩ := List.mem_iff_getElem?.1 (hsplit ▸ List.mem_append_left [last] hmem)
  have htarget : target ∈ ins.targets := by simp [Instruction.targets, hcommand]
  have hadmits := hpairs.admits hins htarget
  rw [Plan.Admits, hcommand] at hadmits
  exact hadmits.imp_right And.right

theorem block_relays (h : graph.Coded options source plan) (hsmall : graph.IsSmall)
    (hpairs : plan.Pairs arrival)
    (hemit : Emit.block graph.layout table b (plan.code b) = .ok code) (call : Caller)
    {p : Process} (hroom : headerSize ≤ p.state.slots.size)
    (hserved : plan.Served arrival value b p.state)
    : plan.Relays arrival table p.state (code.handed call p)
        (Exec.block call code { toProcess := p }) := by
  have htame := h.tame hsmall hemit
  have hleft := Exec.block_left call htame hroom
  have hpending := Exec.block_pending call htame hroom
  have hworked : ∀ {done : List Op} {s : State}, (∀ o ∈ done, o ∈ code.ops) →
      p.state.Worked done s → headerSize ≤ s.slots.size ∧ s.slot 1 = p.state.slot 1 ∧
        ∀ target ∈ s.handlers, plan.Unhanded arrival target := by
    intro done s hsub hworked
    refine ⟨hworked.size ▸ hroom, hworked.block, fun target htarget => ?_⟩
    rcases hworked.handlers target htarget with hold | hpushed
    . exact hserved.handlers target hold
    . exact unhanded_pushed hpairs hemit (hsub _ hpushed)
  cases hrun : Exec.block call code { toProcess := p } with
  | error stop f =>
    simp only [hrun] at hleft hpending
    obtain ⟨hsize, hblock, hhandlers⟩ :=
      hworked (fun _ ho => (code.carried_isPrefix call p).subset ho) hleft
    exact .stop ⟨hsize, hblock, hpending, hhandlers⟩
  | ok flow f =>
    simp only [hrun] at hleft hpending
    obtain ⟨s, hdone, _, hleft⟩ := hleft
    obtain ⟨hsize, hblock, hhandlers⟩ := hworked (fun _ ho => ho) hdone
    cases hleft with
    | @next target _ htarget hsize' hblock' hhandlers' =>
      refine .next ⟨hsize' ▸ hsize, .inr ⟨target, hblock', h.small_target hsmall hemit htarget,
        ?_, hhandlers' ▸ hhandlers⟩⟩
      by_cases hbare : arrival target = .bare
      . exact .inr (.inl hbare)
      . exact .inl (hpending (hands_of_target hpairs hemit htarget hbare))
    | done hstate => exact .done (hstate ▸ Plan.fresh_finish hsize _)
    | @suspend handler resume sources args _ hexit hstate =>
      obtain ⟨name, hhandler⟩ := Emit.mem_of_suspend hemit hexit
      have htarget : resume ∈ code.exit.targets := by simp [hexit, Exit.targets]
      subst hstate
      exact .suspend hhandler (h.small_target hsmall hemit htarget)
        ⟨hsize, hblock, hpending, hhandlers⟩

theorem executes_relays (h : graph.Coded options source plan) (hsmall : graph.IsSmall)
    (hpairs : plan.Pairs arrival) (hprogram : Program.ofGraph graph table name = .ok program)
    {p : Process} (hfresh : plan.Fresh arrival value p.state) {fuel : Nat}
    {r : EStateM.Result Stop Frame Flow} (hexec : program.Executes machines fuel p r)
    : plan.Relays arrival table p.state (program.handed machines fuel p) r := by
  obtain ⟨b, code, hstatus, hcode, rfl⟩ := hexec
  have hhanded : program.handed machines fuel p =
      code.handed (Run.call machines (Program.run machines fuel)) p := by
    simp only [Program.handed, hstatus, hcode]
  rcases h.get?_program hprogram b with ⟨_, hnone⟩ | ⟨code', hsome, hemit⟩
  . rw [hnone] at hcode
    cases hcode
  . rw [hsome] at hcode
    cases hcode
    rw [hhanded]
    exact h.block_relays hsmall hpairs hemit _ hfresh.room (hfresh.running hstatus)

theorem raises_handlers (h : graph.Coded options source plan) (hsmall : graph.IsSmall)
    (hpairs : plan.Pairs arrival) (hprogram : Program.ofGraph graph table name = .ok program)
    (hhandlers : program.Supports machines table (· = 4)) {p q : Process}
    (hfresh : plan.Fresh arrival value p.state) {fuel : Nat} {thrown : Value}
    (hraises : program.Raises machines fuel p thrown q)
    : headerSize ≤ q.state.slots.size ∧
        ∀ target ∈ q.state.handlers, plan.Unhanded arrival target := by
  cases hraises with
  | missing hstatus => exact ⟨hfresh.room, (hfresh.running hstatus).handlers⟩
  | thrown hexec =>
    cases h.executes_relays hsmall hpairs hprogram hfresh hexec with
    | stop hretains => exact ⟨hretains.room, hretains.handlers⟩
  | @answered handler resume args f _ s hexec hreply =>
    cases h.executes_relays hsmall hpairs hprogram hfresh hexec with
    | suspend hhandler _ hretains =>
      have hkeeps := hhandlers _ _ hhandler f.state resume args hretains.room
      rw [hreply] at hkeeps
      cases hkeeps with
      | fault hrespects =>
        exact ⟨hrespects.size ▸ hretains.room, hrespects.handlers ▸ hretains.handlers⟩

theorem fresh_create (h : graph.Coded options source plan) (hpairs : plan.Pairs arrival)
    (hprogram : Program.ofGraph graph table name = .ok program) {self : Value} {args : List Value}
    {state : State} (hcreate : program.create self args = .ok state)
    : plan.Fresh arrival none state := by
  obtain ⟨hblock, hstacked, _⟩ := h.create_fresh hprogram hcreate
  refine ⟨hstacked.room, .inr ⟨0, hblock, by decide, .inr (.inl hpairs.start), ?_⟩⟩
  rw [hstacked.handlers]
  simp

theorem handed_fresh (h : graph.Coded options source plan) (hsmall : graph.IsSmall)
    (hpairs : plan.Pairs arrival) (hprogram : Program.ofGraph graph table name = .ok program)
    (hhandlers : program.Supports machines table (· = 4)) {p : Process}
    (hhanded : program.Handed machines value p)
    : plan.Fresh arrival value p.state := by
  induction hhanded with
  | create hcreate => exact h.fresh_create hpairs hprogram hcreate
  | next _ hexec ih =>
    cases h.executes_relays hsmall hpairs hprogram ih hexec with
    | next hfresh => exact hfresh
  | done _ hexec ih =>
    cases h.executes_relays hsmall hpairs hprogram ih hexec with
    | done hfresh => exact hfresh
  | @resume _ _ _ f handler resume args decision s new _ hexec hreply hdecision hinstalled ih =>
    cases h.executes_relays hsmall hpairs hprogram ih hexec with
    | suspend hhandler hresume hretains =>
      have hkeeps := hhandlers _ _ hhandler f.state resume args hretains.room
      rw [hreply] at hkeeps
      cases hkeeps with
      | suspend hrespects | «continue» hrespects =>
        exact Plan.fresh_installed (hrespects.size ▸ hretains.room) hinstalled hresume
          (hrespects.handlers ▸ hretains.handlers)
      | complete => simp at hdecision
  | @complete _ _ _ f handler resume args result s _ hexec hreply ih =>
    cases h.executes_relays hsmall hpairs hprogram ih hexec with
    | suspend hhandler _ hretains =>
      have hkeeps := hhandlers _ _ hhandler f.state resume args hretains.room
      rw [hreply] at hkeeps
      cases hkeeps with
      | complete hsize => exact Plan.fresh_finish (hsize ▸ hretains.room) result
  | @drive _ _ _ f handler resume args s _ new _ hexec hreply hinstalled ih =>
    cases h.executes_relays hsmall hpairs hprogram ih hexec with
    | suspend hhandler hresume hretains =>
      have hkeeps := hhandlers _ _ hhandler f.state resume args hretains.room
      rw [hreply] at hkeeps
      cases hkeeps with
      | drive hrespects =>
        exact Plan.fresh_installed (hrespects.size ▸ hretains.room) hinstalled hresume
          (hrespects.handlers ▸ hretains.handlers)
  | route _ hraises hne ih =>
    obtain ⟨hroom, hunhanded⟩ := h.raises_handlers hsmall hpairs hprogram hhandlers ih hraises
    exact Plan.fresh_route hroom hunhanded hne _
  | left _ hraises hnone hblock hpending ih =>
    obtain ⟨hroom, _⟩ := h.raises_handlers hsmall hpairs hprogram hhandlers ih hraises
    exact ih.left hroom hnone hblock hpending _
  | @sent _ _ _ f handler resume args thrown s new _ hexec hreply hnone hinstalled ih =>
    cases h.executes_relays hsmall hpairs hprogram ih hexec with
    | suspend hhandler hresume hretains =>
      have hkeeps := hhandlers _ _ hhandler f.state resume args hretains.room
      rw [hreply] at hkeeps
      cases hkeeps with
      | fault hrespects =>
        have hroom : headerSize ≤ s.slots.size := hrespects.size ▸ hretains.room
        have hfresh : plan.Fresh arrival (some new) s :=
          Plan.fresh_installed hroom hinstalled hresume (by simp [hnone])
        exact hfresh.left hroom hnone rfl rfl thrown
  | store _ ih => exact ih
  | pending _ ih => exact ih.setPending _
  | finish _ ih => exact Plan.fresh_finish ih.room _
  | fault _ _ ih => exact ih.setException _

theorem raises_handed (h : graph.Coded options source plan) (hsmall : graph.IsSmall)
    (hpairs : plan.Pairs arrival) (hprogram : Program.ofGraph graph table name = .ok program)
    (hinstalls : table.Installs) {p q : Process} (hfresh : plan.Fresh arrival value p.state)
    (hhanded : program.Handed machines value p) {fuel : Nat} {thrown : Value}
    (hraises : program.Raises machines fuel p thrown q)
    : ∃ new, program.Handed machines new (Run.route thrown q).process := by
  by_cases hnone : q.state.handlers = []
  . cases hraises with
    | missing hstatus hcode =>
      have hraised : program.Raises machines fuel p _ p := .missing hstatus hcode
      exact ⟨_, hhanded.left hraised hnone rfl rfl⟩
    | thrown hexec =>
      cases h.executes_relays hsmall hpairs hprogram hfresh hexec with
      | stop hretains =>
        exact ⟨_, hhanded.left (.thrown hexec) hnone hretains.block hretains.pending⟩
    | @answered handler resume args f _ s hexec hreply =>
      cases h.executes_relays hsmall hpairs hprogram hfresh hexec with
      | suspend hhandler _ hretains =>
        have hinstalled := hinstalls _ _ hhandler f.state resume args hretains.room
        rw [hreply] at hinstalled
        cases hinstalled with
        | left hblock hpending =>
          exact ⟨_, hhanded.left (.answered hexec hreply) hnone (hblock.trans hretains.block)
            (hpending.trans hretains.pending)⟩
        | fault hinstalled => exact ⟨_, hhanded.sent hexec hreply hnone hinstalled⟩
  . exact ⟨_, hhanded.route hraises hnone⟩

theorem ran_handed (h : graph.Coded options source plan) (hsmall : graph.IsSmall)
    (hprogram : Program.ofGraph graph table name = .ok program)
    (hhandlers : program.Supports machines table (· = 4)) (hinstalls : table.Installs)
    {past : List Op} {faults : List Value} {p : Process}
    (hran : program.Ran machines past faults p)
    : ∃ value, program.Handed machines value p := by
  obtain ⟨arrival, hpairs⟩ := h.exists_pairs
  induction hran with
  | create hcreate => exact ⟨_, .create hcreate⟩
  | touch _ htouched ih =>
    obtain ⟨value, hhanded⟩ := ih
    cases htouched with
    | store => exact ⟨_, hhanded.store⟩
    | pending => exact ⟨_, hhanded.pending⟩
    | finish => exact ⟨_, hhanded.finish⟩
    | fault hnone => exact ⟨_, hhanded.fault hnone⟩
  | move _ hmoves ih =>
    obtain ⟨value, hhanded⟩ := ih
    have hfresh := h.handed_fresh hsmall hpairs hprogram hhandlers hhanded
    cases hmoves with
    | next hexec => exact ⟨_, hhanded.next hexec⟩
    | done hexec => exact ⟨_, hhanded.done hexec⟩
    | @control handler resume args f decision s hexec hreply =>
      cases h.executes_relays hsmall hpairs hprogram hfresh hexec with
      | suspend hhandler _ hretains =>
        have hinstalled := hinstalls _ _ hhandler f.state resume args hretains.room
        rw [hreply] at hinstalled
        cases decision with
        | complete result => exact ⟨_, hhanded.complete hexec hreply⟩
        | suspend | «continue» =>
          cases hinstalled with
          | control hinstalled => exact ⟨_, hhanded.resume hexec hreply (by simp) hinstalled⟩
    | @drive handler resume args f s decide hexec hreply =>
      cases h.executes_relays hsmall hpairs hprogram hfresh hexec with
      | suspend hhandler _ hretains =>
        have hinstalled := hinstalls _ _ hhandler f.state resume args hretains.room
        rw [hreply] at hinstalled
        cases hinstalled with
        | drive hinstalled => exact ⟨_, hhanded.drive hexec hreply hinstalled⟩
    | raise hraises => exact h.raises_handed hsmall hpairs hprogram hinstalls hfresh hhanded hraises

end Graph.Coded

/--
The pending value is fresh whenever it is read. Jumps hand values over to those blocks that start by
putting one aside, and to no others; besides, such a block is entered as the continuation of a
single suspension, as a clause of a single dispatch, or by faults if it is a `finally` block. So in
every run with handlers that install a value before they resume the machine, a block that reads the
pending value does so by its first operation, and finds there what the transfer to the block has put
there. A `finally` block may also have been entered by a fault, which puts nothing there.
-/
theorem Program.pending_fresh {options : CompileOptions} {source : Form} {graph : Graph}
    (hgraph : Graph.ofForm options source = .ok graph)
    : graph.HandsOver ∧
        ∀ {table : Table String Handler} {name : String} {program : Program}
          {machines : Machines},
          graph.IsSmall → Program.ofGraph graph table name = .ok program →
          program.Supports machines table (· = 4) → table.Installs →
            (∀ {past : List Op} {faults : List Value} {p : Process},
              program.Ran machines past faults p → ∃ value, program.Handed machines value p) ∧
            ∀ {value : Option Value} {p : Process} {b : BlockId} {code : BlockProgram},
              program.Handed machines value p → p.state.status? = some (.running b) →
              program.blocks.get? b = some code →
                ¬ graph.Receives b ∧ code.Ignores ∨
                  graph.Receives b ∧ (∃ id, code.PutsAside id) ∧
                    (value = some p.state.pending ∨ value = none ∧ graph.IsFinally b) := by
  obtain ⟨plan, hcoded⟩ := Graph.ofForm_coded hgraph
  obtain ⟨arrival, hpairs⟩ := hcoded.exists_pairs
  refine ⟨hcoded.handsOver, fun {table name program machines} hsmall hprogram hhandlers hinstalls =>
    ⟨fun hran => hcoded.ran_handed hsmall hprogram hhandlers hinstalls hran, ?_⟩⟩
  intro value p b code hhanded hstatus hcode
  have hfresh := hcoded.handed_fresh hsmall hpairs hprogram hhandlers hhanded
  have hserved := hfresh.running hstatus
  rcases hcoded.get?_program hprogram b with ⟨_, hnone⟩ | ⟨code', hsome, hemit⟩
  . rw [hnone] at hcode
    cases hcode
  rw [hsome] at hcode
  cases hcode
  have hfilled : plan.Filled b := by
    obtain ⟨_, _, _, hsplit, _⟩ := Emit.block_ok hemit
    simp [Plan.Filled, hsplit]
  rw [hcoded.receives_iff hpairs hfilled]
  by_cases hbare : arrival b = .bare
  . exact .inl ⟨fun hne => hne hbare, Graph.Coded.ignores hpairs hemit hbare⟩
  . refine .inr ⟨hbare, Graph.Coded.putsAside hpairs hemit hbare, ?_⟩
    rcases hserved.fresh with hsame | hbare' | ⟨hnone, hrole⟩
    . exact .inl hsame
    . exact absurd hbare' hbare
    . exact .inr ⟨hnone, hcoded.isFinally hrole⟩

theorem Table.installs_yield : (Table.ofList [("yield", Handler.yield)]).Installs := by
  intro name handler hhandler s resume args hroom
  obtain rfl := Table.eq_of_get?_single hhandler
  exact .control ⟨s, rfl⟩

def Graph.continues (graph : Graph) (q : Process) : Bool :=
  match q.state.status? with
  | some (.running b) =>
    match (graph.blocks.code b).map Instruction.command with
    | .effect (.const .pending) :: .effect .takeException :: _ => false
    | .effect (.const .pending) :: _ => true
    | _ => false
  | _ => false

theorem Graph.of_continues {graph : Graph} {q : Process} (h : graph.continues q = true)
    : ∃ b, q.state.status? = some (.running b) ∧ graph.Receives b ∧ ¬ graph.IsFinally b := by
  unfold continues at h
  split at h
  . next b hstatus =>
    split at h
    . cases h
    . next rest hne hcommands =>
      refine ⟨b, hstatus, ?_, ?_⟩
      . obtain ⟨ins, _, hcode, hcommand, _⟩ := List.map_eq_cons_iff.1 hcommands
        exact ⟨ins, by simp [hcode], hcommand⟩
      . rintro ⟨later, hlater⟩
        rw [hcommands] at hlater
        cases hlater
        exact hne _ rfl
    . cases h
  . cases h

theorem Program.pending_fresh_tryAcrossYield
    : ∃ graph program q b code,
        Graph.ofForm .yielding .tryAcrossYield = .ok graph ∧ graph.HandsOver ∧ graph.IsSmall ∧
        Program.ofGraph graph (.ofList [("yield", Handler.yield)]) "main" = .ok program ∧
        program.Supports {} (.ofList [("yield", Handler.yield)]) (· = 4) ∧
        (Table.ofList [("yield", Handler.yield)]).Installs ∧
        q.state.status? = some (.running b) ∧ program.blocks.get? b = some code ∧
        (∃ id, code.PutsAside id) ∧ program.Handed {} (some q.state.pending) q := by
  obtain ⟨graph, program, hgraph, hprogram, hcheck⟩ := Graph.exists_of_check .yielding
    .tryAcrossYield (.ofList [("yield", Handler.yield)]) "main"
    (fun graph program => decide graph.IsSmall &&
      (program.suspendedTwice? 9).any fun q => graph.continues q && program.fetches q)
    (by decide +kernel)
  rw [Bool.and_eq_true, decide_eq_true_eq] at hcheck
  obtain ⟨hsmall, hcheck⟩ := hcheck
  obtain ⟨q, hq, hcheck⟩ := (Option.any_eq_true _ _).1 hcheck
  rw [Bool.and_eq_true] at hcheck
  obtain ⟨b, hstatus, hreceives, hplain⟩ := Graph.of_continues hcheck.1
  obtain ⟨code, hcode⟩ : ∃ code, program.blocks.get? b = some code := by
    have hfetches := hcheck.2
    simp only [Program.fetches, hstatus] at hfetches
    obtain ⟨code, hcode, _⟩ := (Option.any_eq_true _ _).1 hfetches
    exact ⟨code, hcode⟩
  obtain ⟨plan, hcoded⟩ := Graph.ofForm_coded hgraph
  obtain ⟨past, faults, hran⟩ := Program.ran_suspendedTwice hcoded hsmall hprogram hq
  have hsupports := Program.supports_yield {} program (· = 4) (by decide) (by decide)
  obtain ⟨hhandsOver, hruns⟩ := Program.pending_fresh hgraph
  obtain ⟨htotal, hreads⟩ := hruns hsmall hprogram hsupports Table.installs_yield
  obtain ⟨value, hhanded⟩ := htotal hran
  obtain ⟨_, hputs, hvalue⟩ := (hreads hhanded hstatus hcode).resolve_left fun h => h.1 hreceives
  have hsame : value = some q.state.pending := hvalue.resolve_right fun h => hplain h.2
  exact ⟨graph, program, q, b, code, hgraph, hhandsOver, hsmall, hprogram, hsupports,
    Table.installs_yield, hstatus, hcode, hputs, hsame ▸ hhanded⟩

theorem Program.not_pending_fresh_bindBetweenYields
    : ∃ graph program q b code,
        Graph.ofForm .yielding .bindBetweenYields = .ok graph ∧ graph.IsSmall ∧
        Program.ofGraph graph (.ofList [("yield", Handler.yieldInto)]) "main" = .ok program ∧
        program.Supports {} (.ofList [("yield", Handler.yieldInto)]) (fun _ => False) ∧
        (Table.ofList [("yield", Handler.yieldInto)]).Installs ∧
        program.Handed {} none q ∧ q.state.status? = some (.running b) ∧
        program.blocks.get? b = some code ∧ graph.Receives b ∧ ¬ graph.IsFinally b := by
  obtain ⟨graph, program, hgraph, hprogram, hcheck⟩ := Graph.exists_of_check .yielding
    .bindBetweenYields (.ofList [("yield", Handler.yieldInto)]) "main"
    (fun graph program => decide graph.IsSmall &&
      program.rerouted?.any fun (_, _, q) => graph.continues q && program.fetches q)
    (by decide +kernel)
  simp only [Bool.and_eq_true, decide_eq_true_eq, Option.any_eq_true] at hcheck
  obtain ⟨hsmall, ⟨p₀, p, q⟩, hrerouted, hcontinues, hfetches⟩ := hcheck
  obtain ⟨b, hstatus, hreceives, hplain⟩ := Graph.of_continues hcontinues
  simp only [Program.fetches, hstatus, Option.any_eq_true] at hfetches
  obtain ⟨code, hcode, _⟩ := hfetches
  obtain ⟨⟨s, hcreate, rfl⟩, hwaits, thrown, r, hthrows, hroute⟩ := Program.of_rerouted? hrerouted
  obtain ⟨handler, resume, args, f, s', hexec, hreply, rfl⟩ := Program.executes_of_waits? hwaits
  have hinstalls : (Table.ofList [("yield", Handler.yieldInto)]).Installs := by
    intro name handler hhandler s resume args _
    obtain rfl := Table.eq_of_get?_single hhandler
    exact .control ⟨s.pushHandler (resume + 1), rfl⟩
  -- The handler that has made the machine wait is the only one there is.
  obtain ⟨plan, hcoded⟩ := Graph.ofForm_coded hgraph
  obtain ⟨arrival, hpairs⟩ := hcoded.exists_pairs
  have hcreated : program.Handed {} none ⟨s, {}⟩ := .create hcreate
  have hfresh := hcoded.fresh_create hpairs hprogram hcreate
  cases hcoded.executes_relays hsmall hpairs hprogram hfresh hexec with
  | suspend hhandler _ hretains =>
    obtain rfl := Table.eq_of_get?_single hhandler
    cases hreply
    have hwaiting := hcreated.resume hexec rfl (.inl rfl) ⟨f.state.pushHandler (resume + 1), rfl⟩
    have hnone : r.state.handlers ≠ [] := by
      intro hnil
      have hnil' : (r.state.setException thrown).handlers = [] :=
        (State.handlers_setException r.state thrown).trans hnil
      simp only [Run.route, hnil'] at hroute
      cases hroute
    have hhanded := hwaiting.route (Program.raises_of_throws? hthrows) hnone
    rw [hroute] at hhanded
    exact ⟨graph, program, q, b, code, hgraph, hsmall, hprogram,
      Program.supports_yieldInto {} program, hinstalls, hhanded, hstatus, hcode, hreceives, hplain⟩

end Resumable
