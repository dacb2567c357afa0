import Resumable.Proofs.Handlers.Discipline
import Resumable.Proofs.Slots.Refinement
import Resumable.Run.Step

/-!
This module contains the runs of a machine, and the handlers in force whenever it enters a block:
they are those of the `try` forms that the block is written in.
-/

namespace Resumable

namespace State

structure Respects (s' s : State) (kept : Nat → Prop) : Prop where
  size : s'.slots.size = s.slots.size
  slot : ∀ i, kept i → s'.slot i = s.slot i

end State

inductive Reply.Keeps (machines : Machines) (program : Program) (kept : Nat → Prop)
    (s : State) (resume : BlockId) : Reply → Prop where
  | suspend {s' : State} :
    s'.Respects s kept → s'.slot 1 = State.ofBlock resume →
      Reply.Keeps machines program kept s resume (.control .suspend s')
  | continue {s' : State} :
    s'.Respects s kept → s'.slot 1 = State.ofBlock resume →
      Reply.Keeps machines program kept s resume (.control .continue s')
  | complete {value : Value} {s' : State} :
    s'.slots.size = s.slots.size →
      Reply.Keeps machines program kept s resume (.control (.complete value) s')
  | fault {thrown : Value} {s' : State} :
    s'.Respects s kept → Reply.Keeps machines program kept s resume (.fault thrown s')
  | drive {s' : State} {decide : Step → Control} :
    s'.Respects s kept → s'.slot 1 = State.ofBlock resume →
      Run.machine? machines s' = some program →
        Reply.Keeps machines program kept s resume (.drive s' decide)

/--
The processes in which a machine is about to enter a block: it has just been created, it goes on by
itself, it has been resumed after a suspension, or a handler drives it.
-/
inductive Program.Reached (machines : Machines) (program : Program) : Process → Prop where
  | create {self : Value} {args : List Value} {state : State} {store : Store} :
    program.create self args = .ok state → program.Reached machines ⟨state, store⟩
  | turn {fuel : Nat} {b : BlockId} {p p' : Process} :
    program.Reached machines p → p.state.status? = some (.running b) →
      Run.turn machines (Program.run machines fuel) program b p = .again p' →
        program.Reached machines p'
  | resume {fuel : Nat} {b : BlockId} {p p' : Process} {state : State} {store : Store} :
    program.Reached machines p → p.state.status? = some (.running b) →
      Run.turn machines (Program.run machines fuel) program b p = .ended (.ok .suspended p') →
      (state = p'.state ∨ ∃ value, state = p'.state.setPending value) →
        program.Reached machines ⟨state, store⟩
  | drive {fuel : Nat} {b : BlockId} {p : Process} {code : BlockProgram} {handler : Handler}
      {resume : BlockId} {args : List Value} {f : Frame} {s : State} {decide : Step → Control} :
    program.Reached machines p → p.state.status? = some (.running b) →
      program.blocks.get? b = some code →
      Exec.block (Run.call machines (Program.run machines fuel)) code { toProcess := p }
        = .ok (.suspend handler resume args) f →
      handler f.state resume args = .drive s decide →
        program.Reached machines ⟨s, f.store⟩

theorem Program.Reached.step {machines : Machines} {program : Program} {fuel : Nat}
    {p p' : Process} (h : program.Reached machines p)
    (hrun : Program.run machines fuel program p = .ok .suspended p') {state : State}
    (hstate : state = p'.state ∨ ∃ value, state = p'.state.setPending value) (store : Store)
    : program.Reached machines ⟨state, store⟩ := by
  induction fuel generalizing p with
  | zero => cases hrun
  | succ fuel ih =>
    unfold Program.run at hrun
    split at hrun
    . cases hrun
    . cases hrun
    . next b hstatus =>
      split at hrun
      . next hagain => exact ih (h.turn hstatus hagain) hrun
      . next hended =>
        rw [hrun] at hended
        exact h.resume hstatus hended hstate

def Program.after (machines : Machines) (program : Program) (fuel : Nat) :
    Nat → Process → Option Process
  | 0, p => some p
  | n + 1, p =>
    match p.state.status? with
    | some (.running b) =>
      match Run.turn machines (Program.run machines fuel) program b p with
      | .again p' => program.after machines fuel n p'
      | .ended _ => none
    | _ => none

theorem Program.Reached.after {machines : Machines} {program : Program} {fuel n : Nat}
    {p p' : Process} (h : program.Reached machines p)
    (hafter : program.after machines fuel n p = some p')
    : program.Reached machines p' := by
  induction n generalizing p with
  | zero =>
    cases hafter
    exact h
  | succ n ih =>
    unfold Program.after at hafter
    split at hafter
    . next hstatus =>
      split at hafter
      . next hagain => exact ih (h.turn hstatus hagain) hafter
      . cases hafter
    . cases hafter

namespace Layout.Agrees

variable {layout : Layout} {values : ValueId → Value} {s s' : State}

theorem mono (h : layout.Agrees values s) (apart : layout.Apart)
    (hsize : s'.slots.size = s.slots.size) (hslot : ∀ i, headerSize ≤ i → s'.slot i = s.slot i)
    : layout.Agrees values s' := by
  intro id slot hid
  have hagrees := h id slot hid
  have hroom := (Array.getElem?_eq_some_iff.1 hagrees).1
  have hsame := hslot slot (apart.header hid)
  rw [State.slot_eq, State.slot_eq, hagrees] at hsame
  simpa [hsize, hroom] using hsame

theorem onHeader (h : layout.Agrees values s) (apart : layout.Apart) {g : State → State}
    (hg : State.OnHeader g)
    : layout.Agrees values (g s) :=
  h.mono apart (hg.size s) fun _ hi => hg.slot s hi

theorem routed (h : layout.Agrees values s) (apart : layout.Apart) (thrown : Value) (b : BlockId)
    : layout.Agrees values ((s.setException thrown).resumeAt b) :=
  (h.onHeader apart (.setSlot (by decide) thrown)).onHeader apart (.resumeAt b)

theorem ofRoom (h : ∀ id slot, layout.slots.get? id = some slot → slot < s.slots.size)
    : ∃ values, layout.Agrees values s := by
  refine ⟨fun id => s.slot ((layout.slots.get? id).getD 0), ?_⟩
  intro id slot hid
  simp [hid, State.slot_eq, h id slot hid]

theorem resized (h : layout.Agrees values s) (hsize : s'.slots.size = s.slots.size)
    : ∃ values', layout.Agrees values' s' := by
  apply ofRoom
  intro id slot hid
  rw [hsize]
  exact (Array.getElem?_eq_some_iff.1 (h id slot hid)).1

end Layout.Agrees

namespace Plan

def Good (plan : Plan) (layout : Layout) (s : State) : Prop :=
  s.slot 1 = .keyword "finished" ∨
    ∃ b handlers values, layout.Agrees values s ∧ plan.At b s handlers

def GoodOutcome (plan : Plan) (layout : Layout) : Outcome → Prop
  | .ok .suspended p => plan.Good layout p.state
  | .ok (.done _) p => p.state.slot 1 = .keyword "finished"
  | .error (.thrown _) p => p.state.handlers = []
  | .error .outOfFuel _ => True

def GoodTurn (plan : Plan) (layout : Layout) : Run.Turn → Prop
  | .again p => plan.Good layout p.state
  | .ended outcome => plan.GoodOutcome layout outcome

variable {plan : Plan} {layout : Layout} {values : ValueId → Value} {b : BlockId} {s t : State}
  {handlers : List BlockId}

theorem At.status (h : plan.At b s handlers) : s.status? = some (.running b) :=
  State.status?_of_block h.block h.small

theorem At.alike (h : plan.At b t handlers) (halike : s.Alike t) : plan.At b s handlers :=
  { h with
    block := (halike.slot (by decide)).trans h.block
    stacked := h.stacked.alike halike }

theorem At.setPending (h : plan.At b s handlers) (value : Value)
    : plan.At b (s.setPending value) handlers :=
  { h with
    block := (State.slot_setSlot_ne s (by decide) value).trans h.block
    stacked := h.stacked.setPending value }

theorem goodTurn_route {p : Process} (hstacked : p.state.Stacked handlers)
    (hchain : plan.Chain handlers) (hagrees : layout.Agrees values p.state) (apart : layout.Apart)
    (thrown : Value)
    : plan.GoodTurn layout (Run.route thrown p) := by
  have hexception := hstacked.setException thrown
  unfold Run.route
  simp only [hexception.handlers]
  cases handlers with
  | nil => exact hexception.handlers
  | cons h rest =>
    refine .inr ⟨h, h :: rest, values, hagrees.routed apart thrown h, ?_⟩
    exact .resumeAt hexception hchain hchain.enters (hstacked.small h (List.mem_cons_self ..))

theorem slot_finish {s : State} (h : 1 < s.slots.size) (value : Value)
    : (s.finish value).slot 1 = .keyword "finished" :=
  (State.slot_setSlot_ne _ (by decide) _).trans (State.slot_setSlot h _)

theorem Good.room (h : plan.Good layout s) : 1 < s.slots.size := by
  rcases h with h | ⟨_, _, _, _, hat⟩
  . apply Nat.lt_of_not_le
    intro hle
    rw [State.slot_eq, Array.getElem?_eq_none hle] at h
    cases h
  . exact hat.stacked.lt_size (by decide)

theorem Good.running (h : plan.Good layout s) (hstatus : s.status? = some (.running b))
    : ∃ handlers values, layout.Agrees values s ∧ plan.At b s handlers := by
  rcases h with hfinished | ⟨b', handlers, values, hagrees, hat⟩
  . unfold State.status? at hstatus
    rw [hfinished] at hstatus
    cases hstatus
  . rw [hat.status] at hstatus
    cases hstatus
    exact ⟨handlers, values, hagrees, hat⟩

theorem Good.setPending (h : plan.Good layout s) (apart : layout.Apart) (value : Value)
    : plan.Good layout (s.setPending value) := by
  rcases h with hfinished | ⟨b, handlers, values, hagrees, hat⟩
  . exact .inl ((State.slot_setSlot_ne s (by decide) value).trans hfinished)
  . exact .inr ⟨b, handlers, values, hagrees.onHeader apart (.setPending value),
      hat.setPending value⟩

theorem goodTurn_obey {p : Process} (h : plan.Good layout p.state) (decision : Control)
    : plan.GoodTurn layout (Run.obey decision p) := by
  cases decision with
  | suspend => exact h
  | «continue» => exact h
  | complete value => exact slot_finish h.room value

inductive Exits (plan : Plan) (layout : Layout) (table : Table String Handler) :
    EStateM.Result Stop Frame Flow → Prop where
  | next {f : Frame} : plan.Good layout f.state → plan.Exits layout table (.ok .next f)
  | done {value : Value} {f : Frame} :
    f.state.slot 1 = .keyword "finished" → plan.Exits layout table (.ok (.done value) f)
  | suspend {name : String} {handler : Handler} {resume : BlockId} {args : List Value}
      {handlers : List BlockId} {values : ValueId → Value} {f : Frame} :
    table.get? name = some handler → resume < State.blockLimit → f.state.Stacked handlers →
      plan.Chain handlers → plan.Enters resume handlers → layout.Agrees values f.state →
        plan.Exits layout table (.ok (.suspend handler resume args) f)
  | stop {stop : Stop} {handlers : List BlockId} {values : ValueId → Value} {f : Frame} :
    f.state.Stacked handlers → plan.Chain handlers → layout.Agrees values f.state →
      plan.Exits layout table (.error stop f)

end Plan

theorem Plan.Leaves.exits {plan : Plan} {layout : Layout} {table : Table String Handler}
    {r : EStateM.Result Stop Frame Flow} {r' : EStateM.Result Stop Plain Plain.Ending}
    (h : plan.Leaves r') (hsim : Sim layout (Linked.Leaves layout table) r r')
    : plan.Exits layout table r := by
  cases h with
  | next hat =>
    cases hsim with
    | ok hleaves =>
      obtain ⟨hflow, hlinked⟩ := hleaves
      cases hflow
      exact .next (.inr ⟨_, _, _, hlinked.agrees, hat.alike hlinked.header⟩)
  | done hfinished =>
    cases hsim with
    | ok hleaves =>
      obtain ⟨hflow, hlinked⟩ := hleaves
      cases hflow
      exact .done ((hlinked.header.slot (by decide)).trans hfinished)
  | @suspend name resume args handlers p hsmall hstacked hchain henters =>
    cases hsim with
    | ok hleaves =>
      obtain ⟨hflow, hlinked⟩ := hleaves
      obtain ⟨handler, hhandler, rfl⟩ := Option.map_eq_some_iff.1 hflow
      exact .suspend hhandler hsmall (hstacked.alike hlinked.header) hchain henters hlinked.agrees
  | stop hstacked hchain =>
    cases hsim with
    | error hlinked => exact .stop (hstacked.alike hlinked.header) hchain hlinked.agrees

section

variable {options : CompileOptions} {source : Form} {graph : Graph} {plan : Plan}
  {table : Table String Handler} {name : String} {program : Program} {machines : Machines}

theorem Graph.Coded.exec_exits (h : graph.Coded options source plan) (hsmall : graph.IsSmall)
    {b : BlockId} {code : BlockProgram}
    (hcode : Emit.block graph.layout table b (plan.code b) = .ok code) (call : Caller)
    {p : Process} {values : ValueId → Value} {handlers : List BlockId}
    (hagrees : graph.layout.Agrees values p.state) (hat : plan.At b p.state handlers)
    : plan.Exits graph.layout table (Exec.block call code { toProcess := p }) := by
  have hsim := h.sim_block hcode call hagrees
  have hlast : ∃ ins ∈ plan.code b, ins.isTransfer = true := by
    obtain ⟨effects, last, t, hsplit, ht, _⟩ := Emit.block_ok hcode
    refine ⟨last, by simp [hsplit], ?_⟩
    simp [Instruction.isTransfer, ht]
  have hleaves := h.block_leaves hsmall call
    (p := { toProcess := p, values }) ⟨hat.stacked, hat.chain, hat.enters.mayHold⟩ hlast
  exact hleaves.exits hsim

theorem State.Stacked.respects {s s' : State} {kept : Nat → Prop} {handlers : List BlockId}
    (h : s.Stacked handlers) (hrespects : s'.Respects s kept) (hkept : kept 4)
    : s'.Stacked handlers where
  slot := (hrespects.slot 4 hkept).trans h.slot
  small := h.small
  room := by
    rw [hrespects.size]
    exact h.room

/--
Whether all handlers of a table leave certain slots of states alone.
-/
def Program.Supports (program : Program) (machines : Machines) (table : Table String Handler)
    (kept : Nat → Prop) : Prop :=
  ∀ name handler, table.get? name = some handler → ∀ s resume args, headerSize ≤ s.slots.size →
    (handler s resume args).Keeps machines program kept s resume

theorem Reply.Keeps.goodTurn {kept : Nat → Prop} (hkept : kept 4) {runner : Run.Runner}
    {layout : Layout} (apart : layout.Apart)
    (hrun : ∀ p, plan.Good layout p.state → plan.GoodOutcome layout (runner program p))
    {s : State} {resume : BlockId} {reply : Reply}
    (h : reply.Keeps machines program kept s resume) (hsmall : resume < State.blockLimit)
    {handlers : List BlockId} {values : ValueId → Value} (hstacked : s.Stacked handlers)
    (hchain : plan.Chain handlers) (henters : plan.Enters resume handlers)
    (hagrees : layout.Agrees values s) (store : Store)
    : plan.GoodTurn layout (Run.answer machines runner reply store) := by
  have hgood : ∀ {s'}, s'.Respects s kept → s'.slot 1 = State.ofBlock resume →
      plan.Good layout s' := by
    intro s' hrespects hresume
    obtain ⟨values', hagrees'⟩ := hagrees.resized hrespects.size
    exact .inr ⟨resume, handlers, values', hagrees',
      hresume, hsmall, hstacked.respects hrespects hkept, hchain, henters⟩
  cases h with
  | suspend hrespects hresume => exact hgood hrespects hresume
  | «continue» hrespects hresume => exact hgood hrespects hresume
  | complete hsize =>
    apply Plan.slot_finish
    rw [hsize]
    exact hstacked.lt_size (by decide)
  | fault hrespects =>
    obtain ⟨values', hagrees'⟩ := hagrees.resized hrespects.size
    exact Plan.goodTurn_route (hstacked.respects hrespects hkept) hchain hagrees' apart _
  | @drive s' decide hrespects hresume hmachine =>
    have houtcome := hrun ⟨s', store⟩ (hgood hrespects hresume)
    simp only [Run.answer, hmachine]
    generalize runner program ⟨s', store⟩ = outcome at houtcome
    match outcome with
    | .ok .suspended p => exact Plan.goodTurn_obey houtcome _
    | .ok (.done _) p => exact Plan.goodTurn_obey (.inl houtcome) _
    | .error (.thrown value) p =>
      have hnone : (p.state.setException value).handlers = [] :=
        (State.handlers_setException p.state value).trans houtcome
      simp only [Run.route, hnone]
      exact hnone
    | .error .outOfFuel _ => trivial

theorem Graph.Coded.goodTurn (h : graph.Coded options source plan) (hsmall : graph.IsSmall)
    (hprogram : Program.ofGraph graph table name = .ok program) {kept : Nat → Prop}
    (hhandlers : program.Supports machines table kept) (hkept : kept 4) {runner : Run.Runner}
    (hrun : ∀ p, plan.Good graph.layout p.state → plan.GoodOutcome graph.layout (runner program p))
    {b : BlockId} {p : Process} {handlers : List BlockId} {values : ValueId → Value}
    (hagrees : graph.layout.Agrees values p.state) (hat : plan.At b p.state handlers)
    : plan.GoodTurn graph.layout (Run.turn machines runner program b p) := by
  unfold Run.turn
  rcases h.get?_program hprogram b with ⟨_, hnone⟩ | ⟨code, hsome, hcode⟩
  . rw [hnone]
    exact Plan.goodTurn_route hat.stacked hat.chain hagrees graph.layout_apart _
  . rw [hsome]
    have hexits := h.exec_exits hsmall hcode (Run.call machines runner) hagrees hat
    simp only
    generalize Exec.block (Run.call machines runner) code { toProcess := p } = r at hexits
    cases hexits with
    | next hgood => exact hgood
    | done hfinished => exact hfinished
    | suspend hhandler hresume hstacked hchain henters hagrees' =>
      exact (hhandlers _ _ hhandler _ _ _ hstacked.room).goodTurn hkept graph.layout_apart hrun hresume hstacked
        hchain henters hagrees' _
    | @stop stop _ _ _ hstacked hchain hagrees' =>
      cases stop with
      | thrown value =>
        exact Plan.goodTurn_route hstacked hchain hagrees' graph.layout_apart value
      | outOfFuel => trivial

theorem Graph.Coded.goodOutcome (h : graph.Coded options source plan) (hsmall : graph.IsSmall)
    (hprogram : Program.ofGraph graph table name = .ok program) {kept : Nat → Prop}
    (hhandlers : program.Supports machines table kept) (hkept : kept 4) (fuel : Nat) {p : Process}
    (hgood : plan.Good graph.layout p.state)
    : plan.GoodOutcome graph.layout (Program.run machines fuel program p) := by
  induction fuel generalizing p with
  | zero => trivial
  | succ fuel ih =>
    unfold Program.run
    rcases hgood with hfinished | ⟨b, handlers, values, hagrees, hat⟩
    . have hstatus : p.state.status? = some .finished := by
        unfold State.status?
        rw [hfinished]
        rfl
      rw [hstatus]
      exact hfinished
    . rw [hat.status]
      have hturn := h.goodTurn hsmall hprogram hhandlers hkept (fun _ => ih) hagrees hat
      simp only
      generalize Run.turn machines (Program.run machines fuel) program b p = turn at hturn
      cases turn with
      | again p' => exact ih hturn
      | ended outcome => exact hturn

theorem Program.create_ok {self : Value} {args : List Value} {state : State}
    (h : program.create self args = .ok state)
    : args.length = program.params.length ∧
        state = .initial self program.start args program.size := by
  unfold Program.create Arity.check at h
  split at h
  . next haccepts =>
    simp only [Bind.bind, Except.bind, pure, Except.pure, Except.ok.injEq] at h
    refine ⟨?_, h.symm⟩
    simpa [Arity.accepts] using haccepts
  . cases h

theorem State.size_initial (self : Value) (start : BlockId) {args : List Value} {size : Nat}
    : size ≤ (State.initial self start args size).slots.size := by
  simp only [State.initial, List.size_toArray, List.length_append, List.length_cons,
    List.length_nil, List.length_replicate, headerSize]
  omega

theorem Graph.Coded.create_fresh (h : graph.Coded options source plan)
    (hprogram : Program.ofGraph graph table name = .ok program) {self : Value} {args : List Value}
    {state : State} (hcreate : program.create self args = .ok state)
    : state.slot 1 = State.ofBlock 0 ∧ state.Stacked [] ∧
        ∃ values, graph.layout.Agrees values state := by
  obtain ⟨_, rfl⟩ := Program.create_ok hcreate
  obtain ⟨blocks, _, rfl⟩ := Program.ofGraph_ok hprogram
  refine ⟨?_, ⟨rfl, by simp, by simp [State.initial, headerSize]⟩, Layout.Agrees.ofRoom ?_⟩
  . rw [h.start]
    rfl
  . exact fun _ _ hslot => Nat.lt_of_lt_of_le (Graph.slot_lt_size hslot) (State.size_initial self _)

theorem Graph.Coded.good_create (h : graph.Coded options source plan)
    (hprogram : Program.ofGraph graph table name = .ok program) {self : Value} {args : List Value}
    {state : State} (hcreate : program.create self args = .ok state)
    : plan.Good graph.layout state := by
  obtain ⟨hblock, hstacked, values, hagrees⟩ := h.create_fresh hprogram hcreate
  refine .inr ⟨0, [], values, hagrees, hblock, by decide, hstacked, trivial, ?_⟩
  unfold Plan.Enters
  rw [h.outermost]
  rfl

theorem Graph.Coded.good_reached (h : graph.Coded options source plan) (hsmall : graph.IsSmall)
    (hprogram : Program.ofGraph graph table name = .ok program) {kept : Nat → Prop}
    (hhandlers : program.Supports machines table kept) (hkept : kept 4) {p : Process}
    (hreached : program.Reached machines p)
    : plan.Good graph.layout p.state := by
  have hturn : ∀ {p b} fuel, plan.Good graph.layout p.state →
      p.state.status? = some (.running b) →
        plan.GoodTurn graph.layout (Run.turn machines (Program.run machines fuel) program b p) := by
    intro p b fuel hgood hstatus
    obtain ⟨handlers, values, hagrees, hat⟩ := hgood.running hstatus
    exact h.goodTurn hsmall hprogram hhandlers hkept
      (fun _ => h.goodOutcome hsmall hprogram hhandlers hkept fuel) hagrees hat
  induction hreached with
  | create hcreate => exact h.good_create hprogram hcreate
  | @turn fuel _ _ _ _ hstatus hagain ih =>
    have hgood := hturn fuel ih hstatus
    rw [hagain] at hgood
    exact hgood
  | @resume fuel _ _ _ _ _ _ hstatus hended hstate ih =>
    have hgood := hturn fuel ih hstatus
    rw [hended] at hgood
    rcases hstate with rfl | ⟨value, rfl⟩
    . exact hgood
    . exact hgood.setPending graph.layout_apart value
  | @drive fuel b p code handler resume args f s decide _ hstatus hcode hexec hreply ih =>
    obtain ⟨handlers, values, hagrees, hat⟩ := ih.running hstatus
    rcases h.get?_program hprogram b with ⟨_, hnone⟩ | ⟨code', hsome, hemit⟩
    . rw [hnone] at hcode
      cases hcode
    . rw [hsome] at hcode
      cases hcode
      have hexits := h.exec_exits hsmall hemit (Run.call machines (Program.run machines fuel))
        hagrees hat
      rw [hexec] at hexits
      cases hexits with
      | suspend hhandler hresume hstacked hchain henters hagrees' =>
        have hkeeps := hhandlers _ _ hhandler f.state resume args hstacked.room
        rw [hreply] at hkeeps
        cases hkeeps with
        | drive hrespects hblock _ =>
          obtain ⟨values', hvalues⟩ := hagrees'.resized hrespects.size
          exact .inr ⟨resume, _, values', hvalues, hblock, hresume,
            hstacked.respects hrespects hkept, hchain, henters⟩

/--
Whenever a machine enters a block, the handlers in force are those of the `try` forms around it. The
labels of a plan say which these are, by the code that the form comes to.
-/
theorem Program.enters_lexically (hgraph : Graph.ofForm options source = .ok graph)
    (hsmall : graph.IsSmall) (hprogram : Program.ofGraph graph table name = .ok program)
    (hhandlers : program.Supports machines table (· = 4))
    : ∃ plan, graph.Coded options source plan ∧ ∀ p b, program.Reached machines p →
        p.state.status? = some (.running b) → plan.Enters b p.state.handlers := by
  obtain ⟨plan, hcoded⟩ := Graph.ofForm_coded hgraph
  refine ⟨plan, hcoded, ?_⟩
  intro p b hreached hstatus
  have hgood := hcoded.good_reached hsmall hprogram hhandlers rfl hreached
  obtain ⟨handlers, _, _, hat⟩ := hgood.running hstatus
  rw [hat.stacked.handlers]
  exact hat.enters

end

theorem Handler.yield_keeps (machines : Machines) (program : Program) {kept : Nat → Prop}
    (hblock : ¬ kept 1) (hpending : ¬ kept 2) {s : State} (hroom : headerSize ≤ s.slots.size)
    (resume : BlockId) (args : List Value)
    : (Handler.yield s resume args).Keeps machines program kept s resume := by
  apply Reply.Keeps.suspend
  . constructor
    . simp [State.setPending, State.resumeAt, State.setSlot]
    . intro i hi
      have h1 : 1 ≠ i := fun heq => hblock (heq ▸ hi)
      have h2 : 2 ≠ i := fun heq => hpending (heq ▸ hi)
      exact (State.slot_setSlot_ne _ h1 _).trans (State.slot_setSlot_ne _ h2 _)
  . apply State.slot_setSlot
    rw [State.setPending, State.setSlot, Array.size_setIfInBounds]
    exact Nat.lt_of_lt_of_le (by decide) hroom

def Form.tryAcrossYield : Form :=
  .list [.symbol "try" .synthetic,
    .list [.symbol "yield" .synthetic, .atom (.int 1) .synthetic] .synthetic,
    .list [.symbol "catch" .synthetic, .atom (.keyword "default") .synthetic,
      .symbol "e" .synthetic, .symbol "e" .synthetic] .synthetic,
    .list [.symbol "finally" .synthetic,
      .list [.symbol "yield" .synthetic, .atom (.int 2) .synthetic] .synthetic]
      .synthetic] .synthetic

theorem Program.supports_yield (machines : Machines) (program : Program) (kept : Nat → Prop)
    (hblock : ¬ kept 1) (hpending : ¬ kept 2)
    : program.Supports machines (.ofList [("yield", Handler.yield)]) kept := by
  intro name handler hhandler s resume args hroom
  obtain rfl := Table.eq_of_get?_single hhandler
  exact Handler.yield_keeps machines program hblock hpending hroom resume args

theorem Program.enters_lexically_tryAcrossYield
    : ∃ graph program,
        Graph.ofForm .yielding .tryAcrossYield = .ok graph ∧ graph.IsSmall ∧
        Program.ofGraph graph (.ofList [("yield", Handler.yield)]) "main" = .ok program ∧
        program.Supports {} (.ofList [("yield", Handler.yield)]) (· = 4) ∧
        ∃ plan, graph.Coded .yielding .tryAcrossYield plan ∧ ∀ p b, program.Reached {} p →
          p.state.status? = some (.running b) → plan.Enters b p.state.handlers := by
  obtain ⟨graph, program, hgraph, hprogram, hcheck⟩ := Graph.exists_of_check .yielding
    .tryAcrossYield (.ofList [("yield", Handler.yield)]) "main"
    (fun graph _ => decide graph.IsSmall) (by decide +kernel)
  have hsmall : graph.IsSmall := of_decide_eq_true hcheck
  have hhandlers := Program.supports_yield {} program (· = 4) (by decide) (by decide)
  exact ⟨graph, program, hgraph, hsmall, hprogram, hhandlers,
    Program.enters_lexically hgraph hsmall hprogram hhandlers⟩

def Program.SupportsUnlessFailing (program : Program) (machines : Machines)
    (table : Table String Handler) (kept : Nat → Prop) : Prop :=
  ∀ name handler, table.get? name = some handler → ∀ s resume args, headerSize ≤ s.slots.size →
    (handler s resume args).Keeps machines program kept s resume ∨
      ∃ thrown s', handler s resume args = .fault thrown s'

def Handler.failInto : Handler := fun state resume _ =>
  .fault (.keyword "closed") ((state.pushHandler resume).pushHandler resume)

def Form.suspension : Form :=
  .list [.symbol "yield" .synthetic, .atom (.int 1) .synthetic] .synthetic

theorem Program.not_enters_lexically_suspension
    : ∃ graph program p b,
        Graph.ofForm .yielding .suspension = .ok graph ∧ graph.IsSmall ∧
        Program.ofGraph graph (.ofList [("yield", Handler.failInto)]) "main" = .ok program ∧
        program.SupportsUnlessFailing {} (.ofList [("yield", Handler.failInto)]) (· = 4) ∧
        program.Reached {} p ∧ p.state.status? = some (.running b) ∧
        ∀ plan, graph.Coded .yielding .suspension plan → ¬ plan.Enters b p.state.handlers := by
  obtain ⟨graph, program, hgraph, hprogram, hcheck⟩ := Graph.exists_of_check .yielding
    .suspension (.ofList [("yield", Handler.failInto)]) "main"
    (fun graph program => decide graph.IsSmall && (program.create .nil []).toOption.any fun s =>
      (program.after {} 1 1 ⟨s, {}⟩).any fun p =>
        p.state.status? == some (.running 1) && p.state.handlers == [1, 1])
    (by decide +kernel)
  simp only [Bool.and_eq_true, decide_eq_true_eq, Option.any_eq_true, beq_iff_eq] at hcheck
  obtain ⟨hsmall, s, hs, p, hp, hstatus, hhandlers⟩ := hcheck
  have hsupports : program.SupportsUnlessFailing {}
      (.ofList [("yield", Handler.failInto)]) (· = 4) := by
    intro name handler hhandler s resume args _
    obtain rfl := Table.eq_of_get?_single hhandler
    exact .inr ⟨_, _, rfl⟩
  have hreached := (Program.Reached.create (Except.eq_ok_of_toOption hs)).after hp
  refine ⟨graph, program, p, 1, hgraph, hsmall, hprogram, hsupports, hreached, hstatus, ?_⟩
  intro plan hcoded henters
  -- Whatever the role of the block, it is not under itself.
  have hout : 1 ∉ (plan.label 1).under := fun hmem =>
    Nat.lt_irrefl _ ((hcoded.blockFits 1).under 1 hmem)
  rw [hhandlers] at henters
  unfold Plan.Enters at henters
  cases hrole : (plan.label 1).role with
  | plain =>
    rw [hrole] at henters
    exact hout (henters ▸ List.mem_cons_self ..)
  | dispatch =>
    simp only [hrole, List.cons.injEq, true_and] at henters
    exact hout (henters ▸ List.mem_cons_self ..)
  | cleanup =>
    simp only [hrole, List.cons.injEq, true_and] at henters
    rcases henters with henters | henters
    . exact hout (henters ▸ List.mem_cons_self ..)
    . exact hout (henters ▸ List.mem_cons_self ..)

def State.forget (s : State) : State :=
  ⟨(s.slots.toList.take headerSize ++
    List.replicate (s.slots.size - headerSize) Value.nil).toArray⟩

theorem State.respects_forget {s : State} (hroom : headerSize ≤ s.slots.size)
    : s.forget.Respects s (· < headerSize) where
  size := by
    simp only [forget, List.size_toArray, List.length_append, List.length_take,
      Array.length_toList, List.length_replicate]
    omega
  slot := by
    intro i hi
    have hlt : i < (s.slots.toList.take headerSize).length := by
      rw [List.length_take, Array.length_toList]
      omega
    simp only [slot_eq, forget, List.getElem?_toArray]
    rw [List.getElem?_append_left hlt, List.getElem?_take_of_lt hi, Array.getElem?_toList]

end Resumable
