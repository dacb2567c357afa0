import Resumable.Proofs.Handlers.Slack

/-!
This module contains how a block is run on top of handlers other than those that the labels tell. As
long as it takes none of them out of force, they have no part in it: the handlers above them are the
ones that are pushed and popped, and faults find the handlers that are in force at the instruction,
on top of the others.
-/

namespace Resumable

namespace Plain

variable {call : Caller} {ins : Instruction} {p p' : Plain} {stop : Stop}

theorem command_of_stop (h : code call [ins] p = .error stop p')
    : (∀ block, ins.command ≠ .effect (.pushHandler block)) ∧
        (∀ block, ins.command ≠ .effect (.popHandler block)) ∧
        ins.command ≠ .effect .takeException ∧ ins.command ≠ .receive := by
  refine ⟨?_, ?_, ?_, ?_⟩
  all_goals
    intros
    intro hcommand
    simp only [code, hcommand, Command.receive] at h
    cases h

theorem not_isPrologue_of_stop (h : code call [ins] p = .error stop p') (b : BlockId) (i : Nat)
    : ¬ Plan.IsPrologue b i ins.command := by
  obtain ⟨_, hpop, htake, hreceive⟩ := command_of_stop h
  rintro (⟨_, hcommand⟩ | ⟨_, hcommand⟩ | ⟨_, hcommand⟩)
  . exact hreceive hcommand
  . exact htake hcommand
  . exact hpop b hcommand

theorem handOver_of_stop {operand : Operand} {target : BlockId}
    (h : code call [ins] p = .error stop p') (hcommand : ins.command = .handOver operand target)
    : ∃ name, operand = .global name ∧ p'.store.globals.get? name = none ∧
        stop = .thrown (Fault.undefined name).toValue := by
  simp only [code, hcommand, Command.handOver, transfer] at h
  cases operand with
  | result | literal | pending => cases h
  | global name =>
    refine ⟨name, rfl, ?_⟩
    cases hglobal : p.store.globals.get? name with
    | some value =>
      have hread : read (.global name) p = .ok value p := by
        simp only [read, onStore, Action.global_ok hglobal]
      rw [bind_of_ok hread] at h
      cases h
    | none =>
      have hread : read (.global name) p
          = .error (.thrown (Fault.undefined name).toValue) p := by
        simp only [read, onStore, Action.global_undefined hglobal]
      rw [bind_of_error hread] at h
      cases h
      exact ⟨hglobal, rfl⟩

end Plain

inductive Instruction.Throws (ins : Instruction) (v : Value) (store : Store) : Prop where
  | stops {call : Caller} {p p' : Plain} :
    Plain.code call [ins] p = .error (.thrown v) p' → p'.store = store → ins.Throws v store
  | suspends {handler : String} {resume : BlockId} {operands : List Operand} :
    ins.command = .transfer (.suspend handler resume operands) → ins.Throws v store

namespace Instruction.Throws

variable {ins : Instruction} {v : Value} {store : Store}

theorem not_isPrologue (h : ins.Throws v store) (b : BlockId) (i : Nat)
    : ¬ Plan.IsPrologue b i ins.command := by
  cases h with
  | stops hstop => exact Plain.not_isPrologue_of_stop hstop b i
  | suspends hcommand => simp [Plan.IsPrologue, hcommand, Command.receive]

theorem ne_pushHandler (h : ins.Throws v store) (block : BlockId)
    : ins.command ≠ .effect (.pushHandler block) := by
  cases h with
  | stops hstop => exact (Plain.command_of_stop hstop).1 block
  | suspends hcommand => simp [hcommand]

theorem ne_popHandler (h : ins.Throws v store) (block : BlockId)
    : ins.command ≠ .effect (.popHandler block) := by
  cases h with
  | stops hstop => exact (Plain.command_of_stop hstop).2.1 block
  | suspends hcommand => simp [hcommand]

theorem handOver (h : ins.Throws v store) {operand : Operand} {target : BlockId}
    (hcommand : ins.command = .handOver operand target)
    : ∃ name, operand = .global name ∧ store.globals.get? name = none ∧
        v = (Fault.undefined name).toValue := by
  cases h with
  | stops hstop hstore =>
    obtain ⟨name, hname, hglobal, hthrown⟩ := Plain.handOver_of_stop hstop hcommand
    exact ⟨name, hname, hstore ▸ hglobal, Stop.thrown.inj hthrown⟩
  | suspends hsuspend =>
    rw [hsuspend] at hcommand
    cases hcommand

end Instruction.Throws

namespace Plan

def Spared (plan : Plan) (below : List BlockId) (b : BlockId) : Prop :=
  ∀ {i : Nat} {ins : Instruction} {block : BlockId}, (plan.code b)[i]? = some ins →
    ins.command = .effect (.popHandler block) → block ∉ below

structure Rests (plan : Plan) (below around : List BlockId) (b : BlockId) (i : Nat) (s : State)
    (top : List BlockId) : Prop where
  stacked : s.Stacked (top ++ around)
  chain : plan.Chain (top ++ below)
  mayHold : plan.MayHold b i (top ++ below)

structure RestsAt (plan : Plan) (layout : Layout) (below around : List BlockId) (b : BlockId)
    (s : State) (top : List BlockId) : Prop where
  block : s.slot 1 = State.ofBlock b
  small : b < State.blockLimit
  agrees : ∃ values, layout.Agrees values s
  stacked : s.Stacked (top ++ around)
  chain : plan.Chain (top ++ below)
  enters : plan.Enters b (top ++ below)

structure RestsFaulted (plan : Plan) (layout : Layout) (below around : List BlockId) (s : State)
    (top : List BlockId) : Prop where
  agrees : ∃ values, layout.Agrees values s
  stacked : s.Stacked (top ++ around)
  chain : plan.Chain (top ++ below)

inductive RestsOff (plan : Plan) (below around : List BlockId) (b : BlockId) :
    EStateM.Result Stop Plain Plain.Ending → Prop where
  | next {i : Nat} {ins : Instruction} {t : Transfer} {target : BlockId} {top : List BlockId}
      {p : Plain} :
    (plan.code b)[i]? = some ins → ins.command = .transfer t → target ∈ t.references →
      plan.stackAt b i = top ++ below → p.state.slot 1 = State.ofBlock target →
      target < State.blockLimit → p.state.Stacked (top ++ around) → plan.Chain (top ++ below) →
      plan.Enters target (top ++ below) → plan.RestsOff below around b (.ok .next p)
  | done {value : Value} {p : Plain} : plan.RestsOff below around b (.ok (.done value) p)
  | suspend {i : Nat} {ins : Instruction} {name : String} {resume : BlockId}
      {operands : List Operand} {args : List Value} {top : List BlockId} {p : Plain} :
    (plan.code b)[i]? = some ins → ins.command = .transfer (.suspend name resume operands) →
      plan.stackAt b i = top ++ below → resume < State.blockLimit →
      p.state.Stacked (top ++ around) → plan.Chain (top ++ below) →
      plan.Enters resume (top ++ below) →
        plan.RestsOff below around b (.ok (.suspend name resume args) p)
  | stop {i : Nat} {ins : Instruction} {call : Caller} {stop : Stop} {top : List BlockId}
      {p p' : Plain} :
    (plan.code b)[i]? = some ins → Plain.code call [ins] p = .error stop p' →
      plan.stackAt b i = top ++ below → p'.state.Stacked (top ++ around) →
      plan.Chain (top ++ below) → plan.RestsOff below around b (.error stop p')

variable {options : CompileOptions} {plan : Plan} {params : Nat} {below around top : List BlockId}
  {b : BlockId} {i : Nat} {ins : Instruction} {s s' : State} {layout : Layout}

theorem Rests.effect {e : Effect} (h : plan.Rests below around b i s top)
    (hspared : plan.Spared below b) (haround : ∀ g ∈ around, g ∈ below)
    (hblock : plan.BlockFits options b) (hi : (plan.code b)[i]? = some ins)
    (hfits : plan.Fits params b i ins.id ins.command) (he : ins.command = .effect e)
    (hsmall : ∀ b ∈ ins.references, b < State.blockLimit)
    : ∃ top', plan.Rests below around b (i + 1) (e.onState s) top' := by
  have hchain := h.chain.effect h.mayHold hblock hi hfits he
  have hholds := h.mayHold.succ hblock hi hfits
  rw [he] at hholds
  have hsame : (Command.effect e).stack (top ++ below) = top ++ below →
      (e.onState s).Stacked (top ++ around) →
        ∃ top', plan.Rests below around b (i + 1) (e.onState s) top' := by
    intro hstack hstacked
    rw [hstack] at hchain hholds
    exact ⟨top, hstacked, hchain, hholds⟩
  cases e with
  | pushHandler block =>
    refine ⟨block :: top, h.stacked.pushHandler ?_, hchain, hholds⟩
    apply hsmall
    simp [Instruction.references, he, Effect.references]
  | popHandler block =>
    have hstacked := h.stacked.popHandler block
    cases top with
    | nil =>
      have hout : ∀ {handlers : List BlockId}, (∀ g ∈ handlers, g ∈ below) →
          handlers.head? ≠ some block :=
        fun hsub hhead => hspared hi he (hsub block (List.mem_of_mem_head? hhead))
      rw [List.nil_append, if_neg (hout haround)] at hstacked
      refine hsame ?_ hstacked
      simp only [Command.stack, List.nil_append, if_neg (hout fun _ hg => hg)]
    | cons first rest =>
      by_cases hfirst : first = block
      . subst hfirst
        simp only [Command.stack, List.cons_append, List.head?_cons, if_true, List.tail_cons]
          at hstacked hchain hholds
        exact ⟨rest, hstacked, hchain, hholds⟩
      . have hne : some first ≠ some block := fun heq => hfirst (Option.some.inj heq)
        rw [List.cons_append, List.head?_cons, if_neg hne] at hstacked
        refine hsame ?_ hstacked
        simp only [Command.stack, List.cons_append, List.head?_cons]
        exact if_neg hne
  | takeException => exact hsame rfl (h.stacked.setException _)
  | _ => exact hsame rfl h.stacked

theorem RestsAt.status (h : plan.RestsAt layout below around b s top)
    : s.status? = some (.running b) :=
  State.status?_of_block h.block h.small

theorem RestsAt.rests (h : plan.RestsAt layout below around b s top)
    : plan.Rests below around b 0 s top :=
  ⟨h.stacked, h.chain, h.enters.mayHold⟩

theorem RestsAt.setPending (h : plan.RestsAt layout below around b s top) (apart : layout.Apart)
    (value : Value)
    : plan.RestsAt layout below around b (s.setPending value) top :=
  { h with
    block := (State.slot_setSlot_ne s (by decide) value).trans h.block
    agrees := by
      obtain ⟨values, hagrees⟩ := h.agrees
      exact ⟨values, hagrees.onHeader apart (.setPending value)⟩
    stacked := h.stacked.setPending value }

theorem RestsFaulted.route_cons {p : Process}
    (h : plan.RestsFaulted layout below around p.state (b :: top)) (apart : layout.Apart)
    (v : Value)
    : ∃ p', Run.route v p = .again p' ∧
        plan.RestsAt layout below around b p'.state (b :: top) ∧ p'.state.exception = v ∧
        p'.store = p.store := by
  obtain ⟨values, hagrees⟩ := h.agrees
  have hstacked := h.stacked.setException v
  exact ⟨_, h.stacked.route_cons v,
    ⟨State.slot_setSlot (hstacked.lt_size (by decide)) _,
      h.stacked.small b (List.mem_cons_self ..), ⟨values, hagrees.routed apart v b⟩,
      hstacked.setSlot (by decide) _, h.chain, h.chain.enters⟩,
    h.stacked.exception_routed v b, rfl⟩

end Plan

namespace Graph.Coded

open Plan

variable {options : CompileOptions} {source : Form} {graph : Graph} {plan : Plan}
  {below around top : List BlockId} {b : BlockId} {i : Nat} {ins : Instruction} {call : Caller}
  {p : Plain}

theorem code_restsOff (h : graph.Coded options source plan) (hsmall : graph.IsSmall) (call : Caller)
    (hspared : plan.Spared below b) (haround : ∀ g ∈ around, g ∈ below)
    (hrests : plan.Rests below around b 0 p.state top)
    (hlast : ∃ ins ∈ plan.code b, ins.isTransfer = true)
    : plan.RestsOff below around b (Plain.code call (plan.code b) p) := by
  have hends : Plain.Ends call (plan.code b)
      (fun i p => ∃ top, plan.Rests below around b i p.state top)
      (Plain.code call (plan.code b) p) := by
    refine Plain.code_ends ?_ ⟨top, hrests⟩
    rintro i ins e p p' hi he ⟨top, hrests⟩ hok
    rw [(Plain.changes_of_effect hok).1]
    exact hrests.effect hspared haround (h.blockFits b) hi (h.fits hi) he
      (h.small_references hsmall hi)
  generalize Plain.code call (plan.code b) p = r at hends
  cases r with
  | error stop p' =>
    obtain ⟨i, ins, p, store, hi, ⟨top, hrests⟩, hstop, rfl⟩ := hends.stopped
    have hstack := hrests.mayHold.eq_stackAt (h.blockFits b) hi
      (Plain.not_isPrologue_of_stop hstop b i)
    exact .stop hi hstop hstack.symm hrests.stacked hrests.chain
  | ok ending p' =>
    obtain ⟨i, ins, t, p, state, store, hi, ht, ⟨top, hrests⟩, _, rfl, hleaving⟩ :=
      hends.transferred hlast
    have hstack := hrests.mayHold.eq_stackAt (h.blockFits b) hi
      (by simp [IsPrologue, ht, Command.receive])
    have htarget : ∀ {target}, target ∈ t.references →
        target < State.blockLimit ∧ plan.Enters target (top ++ below) := by
      intro target hmem
      have hfits := h.fits hi
      rw [ht] at hfits
      refine ⟨h.small_references hsmall hi target ?_, hstack ▸ hfits.target hmem⟩
      simpa only [Instruction.references, ht] using hmem
    have hgoes : ∀ {target : BlockId} {s : State}, target ∈ t.references →
        s.Stacked (top ++ around) → plan.RestsOff below around b
          (.ok .next { p with state := s.resumeAt target, store := store }) := by
      intro target s hmem hstacked
      obtain ⟨hlt, henters⟩ := htarget hmem
      exact .next hi ht hmem hstack.symm (State.slot_setSlot (hstacked.lt_size (by decide)) _) hlt
        (hstacked.setSlot (by decide) _) hrests.chain henters
    cases hleaving with
    | goTo hmem => exact hgoes hmem hrests.stacked
    | handOver => exact hgoes (List.mem_singleton.2 rfl) (hrests.stacked.setPending _)
    | finish => exact .done
    | @dispatch clauses clause hclause =>
      exact hgoes (List.mem_map_of_mem hclause)
        ((hrests.stacked.setPending _).setException _)
    | suspend =>
      obtain ⟨hlt, henters⟩ := htarget (List.mem_singleton.2 rfl)
      exact .suspend hi ht hstack.symm hlt hrests.stacked hrests.chain henters

end Graph.Coded

namespace Graph.Coded

open Plan

variable {options : CompileOptions} {source : Form} {graph : Graph} {plan : Plan}
  {table : Table String Handler} {name : String} {program : Program} {machines : Machines}
  {kept : Nat → Prop} {below around top : List BlockId} {b : BlockId} {fuel : Nat} {p q : Process}

theorem executes_restsOff (h : graph.Coded options source plan) (hsmall : graph.IsSmall)
    (hprogram : Program.ofGraph graph table name = .ok program) (hspared : plan.Spared below b)
    (haround : ∀ g ∈ around, g ∈ below)
    (hat : plan.RestsAt graph.layout below around b p.state top)
    {r : EStateM.Result Stop Frame Flow} (hexec : program.Executes machines fuel p r)
    : ∃ r', Sim graph.layout (Linked.Leaves graph.layout table) r r' ∧
        plan.RestsOff below around b r' := by
  obtain ⟨b', code, hstatus, hcode, rfl⟩ := hexec
  rw [hat.status] at hstatus
  cases hstatus
  obtain ⟨values, hagrees⟩ := hat.agrees
  rcases h.get?_program hprogram b with ⟨_, hnone⟩ | ⟨code', hsome, hemit⟩
  . rw [hnone] at hcode
    cases hcode
  rw [hsome] at hcode
  cases hcode
  refine ⟨_, h.sim_block hemit _ hagrees, h.code_restsOff hsmall _ hspared haround hat.rests ?_⟩
  obtain ⟨effects, last, t, hsplit, ht, _⟩ := Emit.block_ok hemit
  exact ⟨last, by simp [hsplit], by simp [Instruction.isTransfer, ht]⟩

theorem suspends_rests (h : graph.Coded options source plan) (hsmall : graph.IsSmall)
    (hprogram : Program.ofGraph graph table name = .ok program)
    (hhandlers : program.Supports machines table kept) (hkept : kept 4)
    (hspared : plan.Spared below b) (haround : ∀ g ∈ around, g ∈ below)
    (hat : plan.RestsAt graph.layout below around b p.state top) {handler : Handler}
    {resume : BlockId} {args : List Value} {f : Frame}
    (hexec : program.Executes machines fuel p (.ok (.suspend handler resume args) f))
    : (handler f.state resume args).Keeps machines program kept f.state resume ∧
        ∃ i ins name operands top', (plan.code b)[i]? = some ins ∧
          ins.command = .transfer (.suspend name resume operands) ∧
          plan.stackAt b i = top' ++ below ∧ ∀ s, s.Respects f.state kept →
            plan.RestsFaulted graph.layout below around s top' ∧
            (s.slot 1 = State.ofBlock resume →
              plan.RestsAt graph.layout below around resume s top') := by
  obtain ⟨_, hsim, hrestsOff⟩ := h.executes_restsOff hsmall hprogram hspared haround hat hexec
  cases hsim with
  | ok hleaves =>
    obtain ⟨hflow, hlinked⟩ := hleaves
    cases hrestsOff with
    | next | done => cases hflow
    | suspend hi hsuspend hstack hlt hstacked hchain henters =>
      obtain ⟨_, hhandler, hsame⟩ := Option.map_eq_some_iff.1 hflow
      cases hsame
      have hstacked' := hstacked.alike hlinked.header
      refine ⟨hhandlers _ _ hhandler f.state resume args hstacked'.room, _, _, _, _, _, hi,
        hsuspend, hstack, ?_⟩
      intro s hrespects
      have hagrees := hlinked.agrees.resized hrespects.size
      have hstacked'' := hstacked'.respects hrespects hkept
      exact ⟨⟨hagrees, hstacked'', hchain⟩,
        fun hresume => ⟨hresume, hlt, hagrees, hstacked'', hchain, henters⟩⟩

theorem advances_rests (h : graph.Coded options source plan) (hsmall : graph.IsSmall)
    (hprogram : Program.ofGraph graph table name = .ok program)
    (hhandlers : program.Supports machines table kept) (hkept : kept 4)
    (hspared : plan.Spared below b) (haround : ∀ g ∈ around, g ∈ below)
    (hat : plan.RestsAt graph.layout below around b p.state top)
    (hadvances : program.Advances machines p q)
    : ∃ i ins t target top', (plan.code b)[i]? = some ins ∧ ins.command = .transfer t ∧
        target ∈ t.references ∧ plan.stackAt b i = top' ++ below ∧
        plan.RestsAt graph.layout below around target q.state top' := by
  cases hadvances with
  | next hexec =>
    obtain ⟨_, hsim, hrestsOff⟩ := h.executes_restsOff hsmall hprogram hspared haround hat hexec
    cases hsim with
    | ok hleaves =>
      obtain ⟨hflow, hlinked⟩ := hleaves
      cases hrestsOff with
      | next hi ht hmem hstack hblock hlt hstacked hchain henters =>
        exact ⟨_, _, _, _, _, hi, ht, hmem, hstack, (hlinked.header.slot (by decide)).trans hblock,
          hlt, ⟨_, hlinked.agrees⟩, hstacked.alike hlinked.header, hchain, henters⟩
      | done => cases hflow
      | suspend =>
        obtain ⟨_, _, hsame⟩ := Option.map_eq_some_iff.1 hflow
        cases hsame
  | «continue» hexec hreply =>
    obtain ⟨hkeeps, _, _, _, _, _, hi, hsuspend, hstack, hrests⟩ :=
      h.suspends_rests hsmall hprogram hhandlers hkept hspared haround hat hexec
    rw [hreply] at hkeeps
    cases hkeeps with
    | «continue» hrespects hresume =>
      exact ⟨_, _, _, _, _, hi, hsuspend, List.mem_singleton.2 rfl, hstack,
        (hrests _ hrespects).2 hresume⟩
  | resume hexec hreply hstate =>
    obtain ⟨hkeeps, _, _, _, _, _, hi, hsuspend, hstack, hrests⟩ :=
      h.suspends_rests hsmall hprogram hhandlers hkept hspared haround hat hexec
    rw [hreply] at hkeeps
    cases hkeeps with
    | suspend hrespects hresume =>
      refine ⟨_, _, _, _, _, hi, hsuspend, List.mem_singleton.2 rfl, hstack, ?_⟩
      rcases hstate with rfl | ⟨value, rfl⟩
      . exact (hrests _ hrespects).2 hresume
      . exact ((hrests _ hrespects).2 hresume).setPending graph.layout_apart value
  | drive hexec hreply =>
    obtain ⟨hkeeps, _, _, _, _, _, hi, hsuspend, hstack, hrests⟩ :=
      h.suspends_rests hsmall hprogram hhandlers hkept hspared haround hat hexec
    rw [hreply] at hkeeps
    cases hkeeps with
    | drive hrespects hresume _ =>
      exact ⟨_, _, _, _, _, hi, hsuspend, List.mem_singleton.2 rfl, hstack,
        (hrests _ hrespects).2 hresume⟩

theorem raises_rests (h : graph.Coded options source plan) (hsmall : graph.IsSmall)
    (hprogram : Program.ofGraph graph table name = .ok program)
    (hhandlers : program.Supports machines table kept) (hkept : kept 4)
    (hspared : plan.Spared below b) (haround : ∀ g ∈ around, g ∈ below)
    (hat : plan.RestsAt graph.layout below around b p.state top) {v : Value}
    (hraises : program.Raises machines fuel p v q)
    : ∃ top', plan.RestsFaulted graph.layout below around q.state top' ∧
        (plan.code b = [] ∧ top' = top ∨ ∃ i ins, (plan.code b)[i]? = some ins ∧
          plan.stackAt b i = top' ++ below ∧ ins.Throws v q.store) := by
  cases hraises with
  | missing hstatus hnone =>
    rw [hat.status] at hstatus
    cases hstatus
    rcases h.get?_program hprogram b with ⟨hempty, _⟩ | ⟨_, hsome, _⟩
    . exact ⟨top, ⟨hat.agrees, hat.stacked, hat.chain⟩, .inl ⟨hempty, rfl⟩⟩
    . rw [hnone] at hsome
      cases hsome
  | thrown hexec =>
    obtain ⟨_, hsim, hrestsOff⟩ := h.executes_restsOff hsmall hprogram hspared haround hat hexec
    cases hsim with
    | error hlinked =>
      cases hrestsOff with
      | stop hi hstop hstack hstacked hchain =>
        exact ⟨_, ⟨⟨_, hlinked.agrees⟩, hstacked.alike hlinked.header, hchain⟩,
          .inr ⟨_, _, hi, hstack, .stops hstop hlinked.store.symm⟩⟩
  | answered hexec hreply =>
    obtain ⟨hkeeps, _, _, _, _, _, hi, hsuspend, hstack, hrests⟩ :=
      h.suspends_rests hsmall hprogram hhandlers hkept hspared haround hat hexec
    rw [hreply] at hkeeps
    cases hkeeps with
    | fault hrespects =>
      exact ⟨_, (hrests _ hrespects).1, .inr ⟨_, _, hi, hstack, .suspends hsuspend⟩⟩

end Graph.Coded

end Resumable
