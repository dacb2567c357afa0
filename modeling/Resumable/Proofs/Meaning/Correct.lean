import Resumable.Proofs.Faults.Safe
import Resumable.Proofs.Meaning.Drive
import Resumable.Proofs.Meaning.Simulation

/-!
This module contains the proof that a machine which is driven from one suspension to the next does
what the direct evaluation of its source does, if the source is made of core forms.
-/

namespace Resumable

open Direct

/--
How a run from a place compares with the evaluation of a form: it comes to the end that the
evaluation reports, or goes on for about as long as the evaluation was allowed to.
-/
inductive Plan.Agrees (plan : Plan) (host : HostFunctions) (c : Config) (long : Nat) :
    Option Report → Prop where
  | ends {c' : Config} {m : Nat} {report : Report} :
    plan.Moves host c m c' → plan.Ends host c' report → plan.Agrees host c long (some report)
  | long : plan.Long host c long → plan.Agrees host c long none

namespace Graph.Coded

variable {name : String} {source : Form} {graph : Graph} {plan : Plan} {program : Program}
  {state : State}

theorem begun_create {options : CompileOptions} (h : graph.Coded options source plan)
    (hprogram : Program.ofGraph graph Handler.onlyYield name = .ok program) {self : Value}
    {args : List Value} (hcreate : program.create self args = .ok state) (machines : Machines)
    (w : World)
    : ∃ values, Config.Begun machines graph.layout plan ⟨state, w.store⟩
        ⟨0, 0, values, state.pending, w⟩ := by
  obtain ⟨hblock, hstacked, values, hagrees⟩ := h.create_fresh hprogram hcreate
  exact ⟨values, .atStart ⟨hblock, hstacked, rfl⟩ (Nat.succ_pos _) rfl hagrees rfl⟩

theorem body_finish (h : graph.Coded (.bare name) source plan)
    : ∃ r t, Code (.bare name) plan [] {} (.start []) (.body (.literal .nil) [source]) r t ∧
        ∀ operand, r = some [operand] → plan.Holds t [.transfer (.finish operand)] := by
  obtain ⟨t, hcode, _⟩ := h.main
  cases hcode with
  | finish hbody _ hholds =>
    refine ⟨_, _, hbody, ?_⟩
    rintro operand heq
    cases heq
    exact hholds
  | finishBy _ hreturn =>
    rw [Terminators.returnHandler?, handler?_bare] at hreturn
    cases hreturn
  | finishStop hbody => exact ⟨none, _, hbody, by simp⟩

theorem agrees (h : graph.Coded (.bare name) source plan) {w : World}
    (hcore : Core (Defined w.store.globals) [] source) (hw : w.Native) {host : HostFunctions}
    (hhost : host.Native)
    : ∃ depth, ∀ n values pending,
        plan.Agrees host ⟨0, 0, values, pending, w⟩ (n - depth) (report? host n source w) := by
  obtain ⟨r, t, hcode, hfinish⟩ := h.body_finish
  have hsorted : ({} : Scope).Sorted (Spot.start []).value := ⟨by simp [Scope.binds], by simp⟩
  obtain ⟨depth, hbody⟩ := hcode.simulated hhost w.store.globals hsorted (by simp [Scope.Distinct])
    (List.forall_mem_singleton.2 hcore)
  refine ⟨depth, fun n values pending => ?_⟩
  have hready : Config.Ready w.store.globals {} [] ⟨0, 0, values, pending, w⟩ :=
    ⟨rfl, by simp [NativeEnv], hw, rfl⟩
  have hfollows := @hbody ⟨0, 0, values, pending, w⟩ .nil ⟨rfl, rfl⟩ rfl n [] hready
  have heval : evalBody (eval host n []) .nil [source] = eval host n [] source := by
    simp [evalBody]
  simp only [heval] at hfollows
  unfold report?
  generalize eval host n [] source w = result at hfollows
  cases hfollows with
  | ok hmoves _ hgives hworld =>
    obtain ⟨hplace, operands, hr, hreads⟩ := hgives
    obtain ⟨operand, _, hread, hnil, rfl⟩ := List.forall₂_cons_right_iff.1 hreads
    cases hnil
    subst hworld
    exact .ends hmoves (.done ((hfinish operand hr).finds hplace) hread)
  | recur hloops => cases hloops
  | fault hmoves hends | waiting hmoves hends => exact .ends hmoves hends
  | long hlong => exact .long hlong

theorem create_bare (h : graph.Coded (.bare name) source plan)
    (hprogram : Program.ofGraph graph Handler.onlyYield name = .ok program) (self : Value)
    : ∃ state, program.create self [] = .ok state := by
  obtain ⟨blocks, _, rfl⟩ := Program.ofGraph_ok hprogram
  have hparams : graph.params = [] := h.params
  refine ⟨.initial self graph.start [] graph.layout.size, ?_⟩
  simp only [Program.create, hparams]
  rfl

end Graph.Coded

/--
Compilation preserves what core forms mean: a machine that is made from such a form, and resumed
with values for as long as there are any, ends in the way that the direct evaluation of the form
ends, with the same value or fault, having given out the same values and leaving the same store
behind. If one of the two goes on forever, so does the other. The host may bring along any functions
that neither deal in closures nor set global variables.
-/
theorem Program.drive_iff_report? {name : String} {source : Form} {program : Program} {w : World}
    (hcompile : Program.compile Handler.onlyYield (.bare name) source = .ok program)
    (hsmall : ∀ graph, Graph.ofForm (.bare name) source = .ok graph → graph.IsSmall)
    (hcore : Core (Defined w.store.globals) [] source) (hw : w.Native) {machines : Machines}
    (hhost : machines.functions.Native) (self : Value)
    : ∃ state, program.create self [] = .ok state ∧ ∀ report,
        (∃ fuel, program.drive machines fuel fuel w.inputs w.outputs ⟨state, w.store⟩
          = some report) ↔ ∃ n, report? machines.functions n source w = some report := by
  obtain ⟨graph, hgraph, hprogram⟩ := Program.compile_ok hcompile
  obtain ⟨plan, hcoded⟩ := Graph.ofForm_coded hgraph
  have hsmall := hsmall graph hgraph
  obtain ⟨state, hcreate⟩ := hcoded.create_bare hprogram self
  obtain ⟨values, hbegun⟩ := hcoded.begun_create hprogram hcreate machines w
  obtain ⟨depth, hagrees⟩ := hcoded.agrees hcore hw hhost
  refine ⟨state, hcreate, fun report => ⟨?_, ?_⟩⟩
  . rintro ⟨fuel, hdrive⟩
    by_cases hreport : ∃ n, report? machines.functions n source w ≠ none
    . obtain ⟨n, hreport⟩ := hreport
      refine ⟨n, ?_⟩
      have hends := hagrees n values state.pending
      generalize report? machines.functions n source w = found at hends hreport
      cases hends with
      | ends hmoves hends =>
        rcases hcoded.drive_ends hsmall hprogram hmoves hends hbegun fuel with ⟨hnone, _⟩ | hsome
        . cases hdrive.symm.trans hnone
        . exact hsome.symm.trans hdrive
      | long => exact absurd rfl hreport
    . have hlong : ∀ n, plan.Long machines.functions ⟨0, 0, values, state.pending, w⟩ n := by
        intro n
        have hnone : report? machines.functions (n + depth) source w = none := by
          by_contra hne
          exact hreport ⟨_, hne⟩
        have hgoes := hagrees (n + depth) values state.pending
        rw [hnone, Nat.add_sub_cancel] at hgoes
        cases hgoes with
        | long hlong => exact hlong
      cases hdrive.symm.trans (hcoded.drive_endless hsmall hprogram hlong hbegun fuel)
  . rintro ⟨n, hreport⟩
    have hends := hagrees n values state.pending
    rw [hreport] at hends
    cases hends with
    | @ends _ m _ hmoves hends =>
      refine ⟨m + 1, ?_⟩
      rcases hcoded.drive_ends hsmall hprogram hmoves hends hbegun (m + 1) with ⟨_, hle⟩ | hsome
      . exact absurd hle (Nat.not_succ_le_self m)
      . exact hsome

namespace Direct

def View.isAllowed (globals : Table String Value) : View → Bool
  | .global name | .call name _ => (globals.get? name).isSome
  | .foreign => false
  | _ => true

def isCore (globals : Table String Value) : Nat → List String → Form → Bool
  | 0, _, _ => false
  | n + 1, locals, form =>
    (view locals form).isAllowed globals &&
      ((view locals form).parts locals).all fun part => isCore globals n part.1 part.2

theorem View.allowed_of_isAllowed {globals : Table String Value} {view : View}
    (h : view.isAllowed globals = true)
    : view.Allowed (Defined globals) := by
  cases view with
  | global | call => exact Option.isSome_iff_ne_none.1 h
  | foreign => cases h
  | _ => trivial

theorem core_of_isCore {globals : Table String Value} {n : Nat} {locals : List String} {form : Form}
    (h : isCore globals n locals form = true)
    : Core (Defined globals) locals form := by
  induction n generalizing locals form with
  | zero => cases h
  | succ n ih =>
    rw [isCore, Bool.and_eq_true, List.all_eq_true] at h
    exact ⟨View.allowed_of_isAllowed h.1, fun part hpart => ih (h.2 part hpart)⟩

end Direct

def Form.sumOfYields : Form :=
  .list [.symbol "loop" .synthetic,
    .vector [.symbol "sum" .synthetic, .atom (.int 0) .synthetic] .synthetic,
    .list [.symbol "if" .synthetic,
      .list [.symbol "<" .synthetic, .symbol "sum" .synthetic, .atom (.int 2) .synthetic]
        .synthetic,
      .list [.symbol "recur" .synthetic,
        .list [.symbol "+" .synthetic, .symbol "sum" .synthetic,
          .list [.symbol "yield" .synthetic, .symbol "sum" .synthetic] .synthetic] .synthetic]
        .synthetic,
      .vector [.symbol "sum" .synthetic] .synthetic] .synthetic] .synthetic

def HostFunctions.comparing : HostFunctions :=
  .fixed fun _ args =>
    match args with
    | [.int m, .int n] => .ok (.bool (m < n))
    | _ => .error (.string "two integers are compared")

theorem HostFunctions.native_comparing : comparing.Native := by
  apply native_fixed
  . intro _ args value _ hok
    split at hok <;> cases hok
    trivial
  . intro _ args thrown _ herror
    split at herror <;> cases herror
    trivial

def Direct.World.adding : World where
  store := { globals := .ofList [("+", .native 0 (.builtIn .add)),
    ("<", .native 1 (.foreign "<" (.exactly 2) 0)), ("vector", .native 2 (.builtIn .vector))] }
  inputs := [.int 5]

theorem Direct.World.native_adding : World.adding.Native where
  store := by
    refine ⟨by simp [World.adding], ?_⟩
    intro name value hvalue
    simp only [World.adding, Table.get?_ofList, List.reverse_cons, List.reverse_nil,
      List.nil_append, List.cons_append, Table.get?.go] at hvalue
    repeat' split at hvalue
    all_goals cases hvalue <;> trivial
  inputs := by simp [World.adding, Value.Native]

theorem Program.drive_iff_report?_sumOfYields
    : ∃ program state fuel,
        Program.compile Handler.onlyYield (.bare "main") .sumOfYields = .ok program ∧
        program.create .nil [] = .ok state ∧
        program.drive { functions := .comparing } fuel fuel [.int 5] [] ⟨state, World.adding.store⟩
          = some ⟨.done (.vector [.int 5]), ⟨World.adding.store, [], [.int 0]⟩⟩ := by
  obtain ⟨graph, program, hgraph, hprogram, hcheck⟩ := Graph.exists_of_check (.bare "main")
    .sumOfYields Handler.onlyYield "main" (fun graph _ => decide graph.IsSmall) (by decide +kernel)
  have hcompile : Program.compile Handler.onlyYield (.bare "main") .sumOfYields = .ok program := by
    unfold Program.compile
    rw [hgraph]
    exact hprogram
  have hsmall : ∀ graph, Graph.ofForm (.bare "main") .sumOfYields = .ok graph → graph.IsSmall := by
    intro graph' hgraph'
    cases hgraph.symm.trans hgraph'
    exact of_decide_eq_true hcheck
  have hcore : Core (Defined World.adding.store.globals) [] .sumOfYields :=
    core_of_isCore (n := 6) (by decide +kernel)
  have hhost : Machines.functions { functions := .comparing } |>.Native :=
    HostFunctions.native_comparing
  obtain ⟨state, hcreate, hiff⟩ := Program.drive_iff_report? hcompile hsmall hcore
    World.native_adding hhost .nil
  have hreport : report? .comparing 9 .sumOfYields .adding = some ⟨.done (.vector [.int 5]),
      ⟨World.adding.store, [], [.int 0]⟩⟩ := by rfl
  obtain ⟨fuel, hdrive⟩ := (hiff _).2 ⟨9, hreport⟩
  exact ⟨program, state, fuel, hcompile, hcreate, hdrive⟩

end Resumable
