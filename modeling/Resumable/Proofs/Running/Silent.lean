import Resumable.Host
import Resumable.Proofs.Handlers.Run
import Resumable.Proofs.Lowering.Rerouted
import Resumable.Proofs.Slots.Supply

/-!
This module contains the proof that nothing suspends where no call site is given to a handler: not
the machine of such a form, and no function, however deep it is called.
-/

namespace Resumable

def Instruction.IsSuspension (i : Instruction) : Prop :=
  ∃ handler resume args, i.command = .transfer (.suspend handler resume args)

/--
Whether a graph has no suspensions.
-/
def Graph.Silent (graph : Graph) : Prop :=
  ∀ entry ∈ graph.blocks.entries, ∀ i ∈ entry.2.code, ¬ i.IsSuspension

/--
Whether no block of a program is left for a handler.
-/
def Program.Silent (program : Program) : Prop :=
  ∀ b code, program.blocks.get? b = some code → ∀ handler resume args,
    code.exit ≠ .suspend handler resume args

namespace Instruction

theorem not_isSuspension_of_reroute {i : Instruction} (h : ∀ handler, i.reroute handler = i)
    : ¬ i.IsSuspension := by
  rintro ⟨handler, resume, args, hcommand⟩
  have hhandler : ∀ other, other = handler := by
    intro other
    have hsame := congrArg Instruction.command (h other)
    simp only [reroute, hcommand, Command.reroute, Transfer.reroute] at hsame
    cases hsame
    rfl
  exact absurd ((hhandler "a").trans (hhandler "b").symm) (by decide)

end Instruction

theorem CompileOptions.rerouted_of_no_terminators {options : CompileOptions}
    (h : options.terminators = {}) (handler : String)
    : options.Rerouted handler options where
  params := rfl
  aliases := rfl
  expander := rfl
  handler? := by
    intro site
    rw [h]
    rfl

theorem Graph.silent_ofForm {options : CompileOptions} {source : Form} {graph : Graph}
    (hnone : options.terminators = {}) (hgraph : Graph.ofForm options source = .ok graph)
    : graph.Silent := by
  intro entry hentry i hi
  apply Instruction.not_isSuspension_of_reroute
  intro handler
  have hreroute :=
    Graph.ofForm_reroute (options.rerouted_of_no_terminators hnone handler) source
  rw [hgraph] at hreroute
  have hentries : graph.blocks.entries.map (fun entry => (entry.1, entry.2.reroute handler))
      = graph.blocks.entries.map id := by
    rw [List.map_id]
    exact (congrArg (·.blocks.entries) (Except.ok.inj hreroute)).symm
  have hblock := congrArg Prod.snd (List.map_inj_left.1 hentries entry hentry)
  have hcode : entry.2.code.map (·.reroute handler) = entry.2.code.map id := by
    rw [List.map_id]
    exact congrArg Block.code hblock
  exact List.map_inj_left.1 hcode i hi

theorem Emit.suspension_of_exit {handlers : Table String Handler} {t : Transfer}
    {handler : Handler} {resume : BlockId} {sources : List Source}
    (h : Emit.exit handlers t = .ok (.suspend handler resume sources))
    : ∃ name resume args, t = .suspend name resume args := by
  cases t with
  | suspend name resume args => exact ⟨name, resume, args, rfl⟩
  | _ => cases h

theorem Exec.suspend_of_exit {e : Exit} {f f' : Frame} {handler : Handler} {resume : BlockId}
    {args : List Value} (h : Exec.exit e f = .ok (.suspend handler resume args) f')
    : ∃ sources, e = .suspend handler resume sources := by
  cases e with
  | suspend handler' resume' sources =>
    obtain ⟨values, t, _, hpure⟩ := bind_ok.1 h
    cases hpure
    exact ⟨sources, rfl⟩
  | jump value target =>
    cases value with
    | none => cases h
    | some value =>
      obtain ⟨_, _, _, h⟩ := bind_ok.1 h
      cases h
  | finish value | branch value _ _ =>
    obtain ⟨_, _, _, h⟩ := bind_ok.1 h
    cases h
  | case value tests clauses fallback =>
    obtain ⟨value, _, _, h⟩ := bind_ok.1 h
    cases hblock : (findClause value tests clauses).or fallback <;> simp only [hblock] at h <;>
      cases h
  | dispatch clauses =>
    simp only [exit] at h
    obtain ⟨frame, _, _, h⟩ := bind_ok.1 h
    obtain ⟨heap, _, _, h⟩ := bind_ok.1 h
    cases hclause : clauses.find? (catches heap frame.state.exception ·.2) <;>
      simp only [hclause] at h <;> cases h

namespace Program

theorem silent_ofGraph {graph : Graph} (h : graph.Silent) {handlers : Table String Handler}
    {name : String} {program : Program} (hprogram : Program.ofGraph graph handlers name = .ok program)
    : program.Silent := by
  obtain ⟨blocks, hblocks, rfl⟩ := ofGraph_ok hprogram
  intro b code hcode handler resume sources hexit
  rcases Emit.get?_blocks hblocks b with ⟨_, hnone⟩ | ⟨block, code', hblock, hsome, hemit⟩
  . cases hnone.symm.trans hcode
  . cases hsome.symm.trans hcode
    obtain ⟨effects, last, t, hlast, hcommand, ht, _, _⟩ := Emit.block_ok hemit
    rw [hexit] at ht
    obtain ⟨name, resume, args, rfl⟩ := Emit.suspension_of_exit ht
    have hmem : _ ∈ graph.blocks.entries := Table.mem_of_get? hblock
    refine h _ hmem last ?_
      ⟨name, resume, args, hcommand⟩
    simp [hlast]

theorem Silent.turn_ne {program : Program} (h : program.Silent) (machines : Machines)
    (run : Run.Runner) (b : BlockId) (p q : Process)
    : Run.turn machines run program b p ≠ .ended (.ok .suspended q) := by
  have hroute : ∀ v p, Run.route v p ≠ .ended (.ok .suspended q) := by
    intro v p
    simp only [Run.route]
    split <;> simp
  unfold Run.turn
  cases hcode : program.blocks.get? b with
  | none => exact hroute _ _
  | some code =>
    simp only
    cases hblock : Exec.block (Run.call machines run) code { toProcess := p } with
    | error stop f =>
      cases stop with
      | thrown v => exact hroute _ _
      | outOfFuel => simp
    | ok flow f =>
      cases flow with
      | next | done => simp
      | suspend handler resume args =>
        obtain ⟨_, _, _, hrest⟩ := bind_ok.1 hblock
        obtain ⟨_, _, _, hexit⟩ := bind_ok.1 hrest
        obtain ⟨sources, hsources⟩ := Exec.suspend_of_exit hexit
        exact absurd hsources (h b code hcode handler resume sources)

theorem Silent.run_ne {program : Program} (h : program.Silent) (machines : Machines)
    (fuel : Nat) (p q : Process)
    : Program.run machines fuel program p ≠ .ok .suspended q := by
  induction fuel generalizing p with
  | zero => simp [Program.run]
  | succ fuel ih =>
    unfold Program.run
    split
    . simp
    . simp
    . next b _ =>
      cases hturn : Run.turn machines (Program.run machines fuel) program b p with
      | again p' => exact ih p'
      | ended outcome =>
        rintro rfl
        exact h.turn_ne machines _ b p q hturn

theorem Silent.step_ne {program : Program} (h : program.Silent) {host : Host} {state : State}
    (hmachine : Run.machine? host.machines state = some program)
    : (host.step state).1 ≠ .ok .suspended := by
  have hrun := h.run_ne host.machines Host.fuel ⟨state, host.store⟩
  unfold Host.step Host.runner
  simp only [hmachine]
  cases hresult : Program.run host.machines Host.fuel program ⟨state, host.store⟩ with
  | error stop p => simp
  | ok step p =>
    cases step with
    | done value => simp
    | suspended => exact absurd hresult (hrun p)

theorem silent_compile {handlers : Table String Handler} {options : CompileOptions} {source : Form}
    {program : Program} (hnone : options.terminators = {})
    (hprogram : Program.compile handlers options source = .ok program)
    : program.Silent := by
  obtain ⟨graph, hgraph, hofGraph⟩ := compile_ok hprogram
  exact silent_ofGraph (Graph.silent_ofForm hnone hgraph) hofGraph

end Program

namespace Run

def Runner.replacing (other : Process → Outcome) (run : Runner) : Runner := fun program p =>
  match run program p with
  | .ok .suspended q => other q
  | outcome => outcome

theorem Runner.replacing_of_ne {other : Process → Outcome} {run : Runner} {program : Program}
    {p : Process} (h : ∀ q, run program p ≠ .ok .suspended q)
    : run.replacing other program p = run program p := by
  unfold replacing
  split
  . next q hq => exact absurd hq (h q)
  . rfl

def turnBy (call : Caller) (machines : Machines) (run : Runner) (program : Program)
    (block : BlockId) (p : Process) : Turn :=
  match program.blocks.get? block with
  | none => route (Fault.noBlock program.name block).toValue p
  | some code =>
    match Exec.block call code { toProcess := p } with
    | .ok .next frame => .again frame.toProcess
    | .ok (.done value) frame => .ended (.ok (.done value) frame.toProcess)
    | .ok (.suspend handler resume args) frame =>
      answer machines run (handler frame.state resume args) frame.store
    | .error (.thrown value) frame => route value frame.toProcess
    | .error .outOfFuel frame => .ended (.error .outOfFuel frame.toProcess)

theorem turnBy_call (run : Runner) (machines : Machines)
    : turnBy (call machines run) machines run = turn machines run :=
  rfl

end Run

def Program.runReplacing (machines : Machines) (other : Process → Outcome) :
    Nat → Program → Process → Outcome
  | 0, _, p => .error .outOfFuel p
  | fuel + 1, program, p =>
    match p.state.status? with
    | none => .error (.thrown Fault.corruptState.toValue) p
    | some .finished => .ok (.done p.state.pending) p
    | some (.running block) =>
      match Run.turnBy
        (Run.call machines (Run.Runner.replacing other (runReplacing machines other fuel)))
        machines (runReplacing machines other fuel) program block p with
      | .again p => runReplacing machines other fuel program p
      | .ended outcome => outcome

theorem Lambda.silent_compile {lambda : Lambda} {program : Program}
    (h : lambda.compile = .ok program)
    : program.Silent :=
  Program.silent_compile rfl h

namespace Run

theorem call_replacing (machines : Machines) (other : Process → Outcome) (fuel : Nat)
    : Run.call machines (Runner.replacing other (Program.run machines fuel))
        = Run.call machines (Program.run machines fuel) := by
  have hclosure : ∀ self code captured args,
      callClosure (Runner.replacing other (Program.run machines fuel)) self code captured args
        = callClosure (Program.run machines fuel) self code captured args := by
    intro self code captured args
    unfold callClosure
    cases hcompile : code.compile with
    | error e => rfl
    | ok program =>
      have hsame : ∀ p, Runner.replacing other (Program.run machines fuel) program p
          = Program.run machines fuel program p :=
        fun p => Runner.replacing_of_ne ((Lambda.silent_compile hcompile).run_ne machines fuel p)
      simp only [hsame]
  funext callee args
  unfold Run.call
  simp only [hclosure]

end Run

theorem Program.runReplacing_eq_run (machines : Machines) (other : Process → Outcome)
    (fuel : Nat)
    : Program.runReplacing machines other fuel = Program.run machines fuel := by
  induction fuel with
  | zero => rfl
  | succ fuel ih =>
    funext program p
    unfold Program.runReplacing Program.run
    rewrite [ih, Run.call_replacing, Run.turnBy_call]
    rfl

/--
Without handlers for call sites nothing suspends. The graph of a form has no suspension then, and a
step of its machine, in whatever state and on whatever host, never ends suspended. Functions are
always compiled so, whatever the machine around them: a run of a function's machine never ends
suspended, and what a call would do with one that does makes no difference to any run.
-/
theorem Program.never_suspends {options : CompileOptions} {source : Form} {graph : Graph}
    (hnone : options.terminators = {}) (hgraph : Graph.ofForm options source = .ok graph)
    : graph.Silent ∧
      (∀ {handlers : Table String Handler} {name : String} {program : Program},
        Program.ofGraph graph handlers name = .ok program → ∀ (host : Host) (state : State),
          Run.machine? host.machines state = some program →
            (host.step state).1 ≠ .ok .suspended) ∧
      (∀ {lambda : Lambda} {program : Program}, lambda.compile = .ok program →
        ∀ machines fuel p q, Program.run machines fuel program p ≠ .ok .suspended q) ∧
      ∀ machines other fuel,
        Program.runReplacing machines other fuel = Program.run machines fuel ∧
        Run.call machines (Run.Runner.replacing other (Program.run machines fuel))
          = Run.call machines (Program.run machines fuel) := by
  have hsilent := Graph.silent_ofForm hnone hgraph
  refine ⟨hsilent, ?_, ?_, ?_⟩
  . intro handlers name program hprogram host state hmachine
    exact (silent_ofGraph hsilent hprogram).step_ne hmachine
  . intro lambda program hcompile machines fuel p q
    exact (Lambda.silent_compile hcompile).run_ne machines fuel p q
  . intro machines other fuel
    exact ⟨runReplacing_eq_run machines other fuel, Run.call_replacing machines other fuel⟩

theorem Program.never_suspends_tryAcrossYield
    : ∃ graph program,
        Graph.ofForm { expander := .core } .tryAcrossYield = .ok graph ∧
        Program.ofGraph graph (.ofList [("yield", Handler.yield)]) "main" = .ok program ∧
        graph.Silent ∧
        (Host.step { machines := { programs := #[program] } }
          (.initial (.machine 0 "main") program.start [] program.size)).1 ≠ .ok .suspended := by
  obtain ⟨graph, program, hgraph, hprogram, _⟩ := Graph.exists_of_check { expander := .core }
    .tryAcrossYield (.ofList [("yield", Handler.yield)]) "main" (fun _ _ => true)
    (by decide +kernel)
  obtain ⟨hsilent, hstep, _⟩ := Program.never_suspends rfl hgraph
  exact ⟨graph, program, hgraph, hprogram, hsilent, hstep hprogram _ _ rfl⟩

end Resumable
