import Resumable.Proofs.Handlers.Clause
import Resumable.Proofs.Handlers.Within

/-!
This module contains what a `finally` clause throws again when no fault has led to it: nothing, or a
fault that an earlier step has handed back. Such a fault is still in flight when the machine goes
on, and the next `finally` clause takes it for one of its own.
-/

namespace Resumable

namespace Graph.Coded

open Plan

variable {options : CompileOptions} {source : Form} {graph : Graph} {plan : Plan} {F : BlockId}
  {s : State}

theorem exists_takes (h : graph.Coded options source plan)
    (hrole : (plan.label F).role = .cleanup)
    : ∃ x y, plan.Takes F x ∧ plan.Receives F y := by
  obtain ⟨_, _, _, _, _, _, _, hcode, hcleanup, _⟩ := (h.blockFits F).cleanup hrole
  cases hcode with
  | cleanupLive hblock hholds | cleanupDead hblock hholds =>
    rw [hcleanup] at hblock
    cases hblock
    exact ⟨_, _, hholds.2.1, hholds.1⟩

theorem exists_clause (h : graph.Coded options source plan)
    (hrole : (plan.label F).role = .cleanup) (hslack : plan.Slack F 0 s)
    : ∃ c : plan.Clause, c.block = F ∧ c.thrown = s.exception ∧ c.handed = s.pending ∧
        c.around = (s.popHandler F).handlers ∧ ∀ values, c.At F 0 s values := by
  obtain ⟨handlers, stack, hstacked, hsub, _, hholds⟩ := hslack
  obtain ⟨x, y, htakes, hreceives⟩ := h.exists_takes hrole
  have hown : F ∉ (plan.label F).under :=
    fun hmem => Nat.lt_irrefl _ ((h.blockFits F).under F hmem)
  have hstack : (if stack.head? = some F then stack.tail else stack) = (plan.label F).under := by
    have hout : (plan.label F).under.head? ≠ some F :=
      fun hhead => hown (List.mem_of_mem_head? hhead)
    rcases hholds with rfl | ⟨_, _, rfl⟩
    . simp [stackAt_zero, Label.enter, hrole]
    . rw [if_neg hout]
  have hpopped := Slack.sublist_pop hsub (b := F) (by
    rintro rest rfl hmem
    rw [List.head?_cons, if_pos rfl, List.tail_cons] at hstack
    exact hown (hstack ▸ hmem))
  rw [hstack] at hpopped
  refine ⟨⟨F, x, y, s.exception, s.pending, (s.popHandler F).handlers, hrole, htakes, hreceives,
    ?_⟩, rfl, rfl, rfl, rfl, fun values => .begins (by decide) ⟨⟨handlers, hstacked, ?_⟩,
      fun _ => rfl, fun _ => rfl, by lia, by lia⟩⟩
  . intro g hg
    rw [(hstacked.popHandler F).handlers] at hg
    exact h.lt_of_mem_under (hpopped.subset hg)
  . exact (hstacked.popHandler F).handlers.symm

end Graph.Coded

/--
A `finally` block that is entered without a fault finds nothing in flight, or a fault that an
earlier step has handed back. In the one case the `try` form completes with what was handed over to
the block, once the body of the clause has come to its end. In the other case the old fault is
thrown again.
-/
theorem Program.finally_completes {options : CompileOptions} {source : Form} {graph : Graph}
    {table : Table String Handler} {name : String} {program : Program} {machines : Machines}
    (hgraph : Graph.ofForm options source = .ok graph) (hsmall : graph.IsSmall)
    (hprogram : Program.ofGraph graph table name = .ok program)
    (hhandlers : program.Supports machines table graph.KeepsAsideIn) (hfails : table.FailsInPlace)
    : ∃ plan, graph.Coded options source plan ∧
        ∀ {past faults fuel p f F}, program.Ran machines past faults p →
          program.Executes machines fuel p (.ok .next f) →
          f.state.status? = some (.running F) → (plan.label F).role = .cleanup →
            (f.state.exception = .nil ∨ f.state.exception ∈ faults) ∧
            ∀ {bs q fuel' b},
              program.Within machines (f.state.popHandler F).handlers.length f.toProcess bs q →
              (∀ d ∈ bs, ¬ plan.EndsIn F d) → program.Completes machines graph plan F fuel' q b →
                (f.state.exception.isNil = true → ∃ blocks g, plan.Tries options blocks ∧
                  blocks.cleanup = some F ∧ program.Executes machines fuel' q (.ok .next g) ∧
                  g.state.status? = some (.running blocks.exit) ∧
                  g.state.pending = f.state.pending ∧
                  g.state.handlers = (f.state.popHandler F).handlers) ∧
                (f.state.exception.isNil = false → ∃ g,
                  program.Executes machines fuel' q (.error (.thrown f.state.exception) g) ∧
                  g.state.handlers = (f.state.popHandler F).handlers) := by
  obtain ⟨plan, hcoded⟩ := Graph.ofForm_coded hgraph
  refine ⟨plan, hcoded, ?_⟩
  intro past faults fuel p f F hran hexec hstatus hrole
  have hgoes : ∀ {past faults p}, program.Ran machines past faults p →
      plan.Goes graph.layout faults p.state :=
    fun hran => hcoded.ran_goes hsmall hprogram hhandlers (.inl rfl) (.inr (.inl rfl)) hfails hran
  obtain ⟨_, _, _, hsim, hgoesOff⟩ := hcoded.executes_goesOff hsmall hprogram (hgoes hran) hexec
  cases hsim with
  | ok hleaves =>
    obtain ⟨hflow, hlinked⟩ := hleaves
    cases hgoesOff with
    | done => cases hflow
    | suspend =>
      obtain ⟨_, _, hsame⟩ := Option.map_eq_some_iff.1 hflow
      cases hsame
    | next hat hcalm =>
      have hat' := hat.alike hlinked.header
      rw [hat'.status] at hstatus
      cases hstatus
      refine ⟨hcalm.congr (hlinked.header.slot (by decide)), ?_⟩
      intro bs q fuel' b hwithin hbefore hcompletes
      obtain ⟨c, rfl, hthrown, hhanded, haround, hbegins⟩ := hcoded.exists_clause hrole hat'.slack
      rw [← hthrown, ← hhanded, ← haround]
      rw [← haround] at hwithin
      obtain ⟨b', hgoing⟩ := hcoded.within_clause hsmall hprogram hhandlers
        ⟨hat'.block, hat'.enterable.small, _, hlinked.agrees, hbegins _⟩ hwithin hbefore
      obtain ⟨_, _, hran'⟩ := (hran.move (.next hexec)).within hwithin
      have hslack := ((hgoes hran').running hgoing.status).slack
      exact hcoded.completes_clause hsmall hprogram hgoing hslack hcompletes

theorem Graph.supports_yield_keepsAsideIn (graph : Graph) (machines : Machines)
    (program : Program)
    : program.Supports machines (.ofList [("yield", Handler.yield)]) graph.KeepsAsideIn := by
  have hkept : ∀ slot, slot < headerSize → slot ≠ 4 → slot ≠ 5 → ¬ graph.KeepsAsideIn slot := by
    intro slot hlt h4 h5 hkeeps
    rcases hkeeps with heq | heq | ⟨_, _, _, _, _, _, hslot⟩
    . exact h4 heq
    . exact h5 heq
    . exact Nat.not_le_of_lt hlt (graph.layout_apart.header hslot)
  exact Program.supports_yield machines program graph.KeepsAsideIn
    (hkept 1 (by decide) (by decide) (by decide)) (hkept 2 (by decide) (by decide) (by decide))

def Form.callBeforeTry : Form :=
  .list [.symbol "do" .synthetic, .list [.symbol "f" .synthetic] .synthetic,
    .list [.symbol "try" .synthetic, .atom (.int 1) .synthetic,
      .list [.symbol "finally" .synthetic, .atom (.int 2) .synthetic] .synthetic] .synthetic]
    .synthetic

def Program.clears (machines : Machines) (program : Program) (graph : Graph) (fuel : Nat)
    (p : Process) : Bool :=
  match p.state.status? with
  | some (.running b) =>
    match program.blocks.get? b, graph.blocks.code b with
    | some code, [first, ⟨x, .effect .takeException, span⟩, third,
        ⟨_, .effect (.endFinally (.result y)), _⟩, _] =>
      x == y && match (do
        Exec.load code.loads
        Exec.ops (Run.call machines (Program.run machines fuel))
          ([first, ⟨x, .effect .takeException, span⟩, third].flatMap
            (Emit.instruction graph.layout)) : Exec Unit) { toProcess := p } with
        | .ok _ _ => true
        | .error _ _ => false
    | _, _ => false
  | _ => false

theorem Program.completes_of_clears {options : CompileOptions} {source : Form} {graph : Graph}
    {plan : Plan} (h : graph.Coded options source plan) {machines : Machines}
    {program : Program} {fuel : Nat} {p : Process}
    (hclears : program.clears machines graph fuel p = true)
    : ∃ F, p.state.status? = some (.running F) ∧ (plan.label F).role = .cleanup ∧
        program.Completes machines graph plan F fuel p F := by
  unfold Program.clears at hclears
  split at hclears
  . next F hstatus =>
    split at hclears
    . next code first x span third id y span' last hcode hgraph =>
      rw [Bool.and_eq_true, beq_iff_eq] at hclears
      obtain ⟨rfl, hruns⟩ := hclears
      rw [h.code F] at hgraph
      have htakes : (plan.code F)[1]? = some ⟨x, .effect .takeException, span⟩ := by
        rw [hgraph]
        rfl
      split at hruns
      . next f hexec =>
        refine ⟨F, hstatus, ?_, _, _, _, x, code, f, hstatus, hgraph, rfl, ⟨span, htakes⟩, hcode,
          hexec⟩
        cases h.fits htakes with
        | plain hplain => cases hplain
        | take hrole _ => exact hrole
      . cases hruns
    . cases hclears
  . cases hclears

def Program.failsThenClears (program : Program) (graph : Graph) (s : State) : Bool :=
  match Program.run {} 2 program ⟨s, {}⟩ with
  | .error (.thrown _) p => (program.next? {} 1
      { p with store := { globals := .ofList [("f", .native 0 (.builtIn .list))] } }).any fun p =>
    (program.next? {} 1 p).any fun q =>
      program.clears {} graph 1 q && !q.state.exception.isNil
  | _ => false

theorem Program.finally_completes_callBeforeTry
    : ∃ graph program past faults p f v g,
        Graph.ofForm .yielding .callBeforeTry = .ok graph ∧
        Program.ofGraph graph (.ofList [("yield", Handler.yield)]) "main" = .ok program ∧
        program.Ran {} past faults p ∧ program.Executes {} 1 p (.ok .next f) ∧ v ∈ faults ∧
        v.isNil = false ∧ program.Executes {} 1 f.toProcess (.error (.thrown v) g) := by
  obtain ⟨graph, program, hgraph, hprogram, hcheck⟩ := Graph.exists_of_check .yielding
    .callBeforeTry (.ofList [("yield", Handler.yield)]) "main"
    (fun graph program => decide graph.IsSmall &&
      (program.create .nil []).toOption.any (program.failsThenClears graph))
    (by decide +kernel)
  simp only [Bool.and_eq_true, decide_eq_true_eq, Option.any_eq_true] at hcheck
  obtain ⟨hsmall, s, hs, hcheck⟩ := hcheck
  unfold Program.failsThenClears at hcheck
  split at hcheck
  . next v₀ p₀ hfault =>
    simp only [Option.any_eq_true, Bool.and_eq_true] at hcheck
    obtain ⟨p, hp, q, hq, hclears, hnil⟩ := hcheck
    have hhandlers := graph.supports_yield_keepsAsideIn {} program
    obtain ⟨plan, hcoded, hcompletes⟩ := Program.finally_completes hgraph hsmall hprogram hhandlers
      Table.failsInPlace_yield
    -- The run: a step that fails, and two blocks after that.
    have hstep := hcoded.ran_run hsmall hprogram
      (Program.supports_yield {} program (· = 4) (by decide) (by decide))
      Table.failsInPlace_yield 2 (p := ⟨s, {}⟩) (.create (Except.eq_ok_of_toOption hs))
    rw [hfault] at hstep
    obtain ⟨_, later, new, hran, _⟩ := hstep
    obtain ⟨f₀, rfl, hexec₀⟩ := Program.executes_of_next? hp
    obtain ⟨f, rfl, hexec⟩ := Program.executes_of_next? hq
    have hran' := (hran.touch .store).move (.next hexec₀)
    obtain ⟨F, hstatus, hrole, hends⟩ := Program.completes_of_clears hcoded hclears
    obtain ⟨hcalm, hclause⟩ := hcompletes hran' hexec hstatus hrole
    have hthrown : f.state.exception.isNil = false := by simpa using hnil
    obtain ⟨g, hrethrown, _⟩ := (hclause .here (by simp) hends).2 hthrown
    refine ⟨graph, program, _, _, f₀.toProcess, f, f.state.exception, g, hgraph, hprogram, hran',
      hexec, hcalm.resolve_left ?_, hthrown, hrethrown⟩
    intro hnone
    rw [hnone] at hthrown
    cases hthrown
  . cases hcheck

end Resumable
