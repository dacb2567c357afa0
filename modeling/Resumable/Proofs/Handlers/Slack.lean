import Resumable.Proofs.Faults.Poised
import Resumable.Proofs.Handlers.Propagation
import Resumable.Proofs.Slots.Written

/-!
This module contains what is left of the order of handlers in runs that go on after a fault was
handed back: the block that has failed is run again, but the handlers that it found are gone. So
the handlers in force are some of those of the `try` forms around, in their order. What is in flight
where no fault has led to was handed back before.
-/

namespace Resumable

def State.Calm (s : State) (faults : List Value) : Prop :=
  s.exception = .nil ∨ s.exception ∈ faults

namespace State.Calm

variable {s s' : State} {faults new : List Value}

theorem congr (h : s.Calm faults) (hexception : s'.exception = s.exception) : s'.Calm faults := by
  unfold Calm
  rwa [hexception]

theorem append (h : s.Calm faults) : s.Calm (faults ++ new) :=
  h.imp_right (List.mem_append_left _)

end State.Calm

theorem Plain.exception_transfer {t : Transfer} {p p' : Plain} {ending : Ending}
    (hroom : headerSize ≤ p.state.slots.size) (hok : transfer t p = .ok ending p')
    : p'.state.exception = .nil ∨
        (∀ clauses, t ≠ .dispatch clauses) ∧ p'.state.exception = p.state.exception := by
  have hgoes : ∀ {s : State} {target : BlockId}, (s.resumeAt target).exception = s.exception :=
    fun {s _} => State.slot_setSlot_ne s (by decide) _
  have hpending : ∀ {s : State} {value : Value}, (s.setPending value).exception = s.exception :=
    fun {s _} => State.slot_setSlot_ne s (by decide) _
  by_cases hdispatch : ∃ clauses, t = .dispatch clauses
  . left
    obtain ⟨clauses, rfl⟩ := hdispatch
    rw [transfer_dispatch] at hok
    split at hok
    . cases hok
      rw [hgoes]
      apply State.slot_setSlot
      rw [State.setPending, State.size_setSlot]
      exact Nat.lt_of_lt_of_le (by decide) hroom
    . cases hok
  . right
    refine ⟨fun clauses heq => hdispatch ⟨clauses, heq⟩, ?_⟩
    rcases leaves_transfer t p with ⟨_, _, hstop⟩ | ⟨_, _, _, hleft, hleaving⟩
    . rw [hstop] at hok
      cases hok
    . rw [hleft] at hok
      cases hok
      cases hleaving with
      | goTo => exact hgoes
      | handOver => exact hgoes.trans hpending
      | finish => exact hpending.trans (State.slot_setSlot_ne _ (by decide) _)
      | dispatch => exact absurd ⟨_, rfl⟩ hdispatch
      | suspend => rfl

namespace Plan

def Slack (plan : Plan) (b : BlockId) (i : Nat) (s : State) : Prop :=
  ∃ handlers stack, s.Stacked handlers ∧ handlers.Sublist stack ∧ plan.Chain stack ∧
    plan.MayHold b i stack

structure Enterable (plan : Plan) (b : BlockId) : Prop where
  small : b < State.blockLimit
  stack : ∃ stack, plan.Chain stack ∧ plan.Enters b stack

structure SlackAt (plan : Plan) (faults : List Value) (b : BlockId) (s : State) : Prop where
  block : s.slot 1 = State.ofBlock b
  enterable : plan.Enterable b
  slack : plan.Slack b 0 s
  calm : (plan.label b).role = .plain → s.Calm faults

structure Goes (plan : Plan) (layout : Layout) (faults : List Value) (s : State) : Prop where
  agrees : ∃ values, layout.Agrees values s
  room : headerSize ≤ s.slots.size
  goes : s.slot 1 = .keyword "finished" ∨ ∃ b, plan.SlackAt faults b s

structure Loose (plan : Plan) (faults : List Value) (b : BlockId) (i : Nat) (s : State) :
    Prop where
  block : s.slot 1 = State.ofBlock b
  slack : plan.Slack b i s
  calm : (plan.label b).role = .plain ∨ (plan.label b).role = .cleanup ∧ 2 ≤ i → s.Calm faults

inductive GoesOff (plan : Plan) (faults : List Value) (b : BlockId) :
    EStateM.Result Stop Plain Plain.Ending → Prop where
  | next {target : BlockId} {p : Plain} :
    plan.SlackAt faults target p.state → p.state.Calm faults → plan.GoesOff faults b (.ok .next p)
  | done {value : Value} {p : Plain} :
    p.state.slot 1 = .keyword "finished" → headerSize ≤ p.state.slots.size →
      plan.GoesOff faults b (.ok (.done value) p)
  | suspend {name : String} {resume : BlockId} {args : List Value} {p : Plain} :
    plan.Enterable resume → plan.Slack resume 0 p.state → p.state.slot 1 = State.ofBlock b →
      p.state.Calm faults → plan.GoesOff faults b (.ok (.suspend name resume args) p)
  | stop {i : Nat} {stop : Stop} {p : Plain} :
    plan.Loose faults b i p.state → plan.GoesOff faults b (.error stop p)

variable {options : CompileOptions} {plan : Plan} {params : Nat} {b : BlockId} {i : Nat}
  {ins : Instruction} {s s' : State} {faults new : List Value} {layout : Layout}

namespace Slack

theorem room (h : plan.Slack b i s) : headerSize ≤ s.slots.size := by
  obtain ⟨_, _, hstacked, _⟩ := h
  exact hstacked.room

theorem congr (h : plan.Slack b i s) (hslot : s'.slot 4 = s.slot 4)
    (hsize : s'.slots.size = s.slots.size)
    : plan.Slack b i s' := by
  obtain ⟨handlers, stack, hstacked, hrest⟩ := h
  exact ⟨handlers, stack, ⟨hslot.trans hstacked.slot, hstacked.small, hsize ▸ hstacked.room⟩, hrest⟩

theorem setSlot (h : plan.Slack b i s) {k : Nat} (hk : k ≠ 4) (value : Value)
    : plan.Slack b i (s.setSlot k value) :=
  h.congr (State.slot_setSlot_ne s hk value) (State.size_setSlot s k value)

theorem alike (h : plan.Slack b i s) (halike : s'.Alike s) : plan.Slack b i s' := by
  obtain ⟨handlers, stack, hstacked, hrest⟩ := h
  exact ⟨handlers, stack, hstacked.alike halike, hrest⟩

theorem sublist_pop {handlers stack : List BlockId} (h : handlers.Sublist stack)
    (hstack : ∀ rest, stack = b :: rest → b ∉ rest)
    : (if handlers.head? = some b then handlers.tail else handlers).Sublist
        (if stack.head? = some b then stack.tail else stack) := by
  have hpop : (if handlers.head? = some b then handlers.tail else handlers).Sublist handlers := by
    split
    . exact List.tail_sublist handlers
    . exact .refl _
  by_cases hhead : stack.head? = some b
  . obtain ⟨rest, rfl⟩ := List.head?_eq_some_iff.1 hhead
    rw [if_pos hhead, List.tail_cons]
    cases h with
    | cons _ h =>
      have hnot : handlers.head? ≠ some b :=
        fun hb => hstack rest rfl (h.subset (List.mem_of_mem_head? hb))
      rwa [if_neg hnot]
    | cons_cons _ h => simpa using h
  . rw [if_neg hhead]
    exact hpop.trans h

theorem effect {e : Effect} (h : plan.Slack b i s) (hblock : plan.BlockFits options b)
    (hunder : ∀ b, ∀ h ∈ (plan.label b).under, h < b) (hi : (plan.code b)[i]? = some ins)
    (hfits : plan.Fits params b i ins.id ins.command) (he : ins.command = .effect e)
    (hsmall : ∀ b ∈ ins.references, b < State.blockLimit)
    : plan.Slack b (i + 1) (e.onState s) := by
  obtain ⟨handlers, stack, hstacked, hsub, hchain, hholds⟩ := h
  have hchain' := hchain.effect hholds hblock hi hfits he
  have hholds' := hholds.succ hblock hi hfits
  rw [he] at hholds'
  cases e with
  | pushHandler block =>
    refine ⟨block :: handlers, _, hstacked.pushHandler ?_, hsub.cons_cons block, hchain', hholds'⟩
    apply hsmall
    simp [Instruction.references, he, Effect.references]
  | popHandler block =>
    refine ⟨_, _, hstacked.popHandler block, sublist_pop hsub ?_, hchain', hholds'⟩
    rintro rest rfl hmem
    have hlt := hunder block block (hchain.2.1 ▸ hmem)
    exact Nat.lt_irrefl _ hlt
  | takeException => exact ⟨handlers, _, hstacked.setException _, hsub, hchain', hholds'⟩
  | _ => exact ⟨handlers, _, hstacked, hsub, hchain', hholds'⟩

theorem routed (h : plan.Slack b i s) {target : BlockId} {rest : List BlockId}
    (hhandlers : s.handlers = target :: rest)
    : plan.Enterable target ∧ (plan.label target).role ≠ .plain ∧ plan.Slack target 0 s := by
  obtain ⟨handlers, stack, hstacked, hsub, hchain, _⟩ := h
  rw [hstacked.handlers] at hhandlers
  subst hhandlers
  obtain ⟨above, below, rfl, hmem, hbelow⟩ := List.cons_sublist_iff.1 hsub
  obtain ⟨front, back, rfl⟩ := List.append_of_mem hmem
  rw [List.append_assoc, List.cons_append] at hchain
  have hchain' := hchain.append
  refine ⟨⟨hstacked.small target (List.mem_cons_self ..), _, hchain', hchain'.enters⟩, hchain'.1,
    _, _, hstacked, ?_, hchain', hchain'.enters.mayHold⟩
  exact (hbelow.trans (List.sublist_append_right back below)).cons_cons target

theorem ofNone (h : plan.Slack b i s) (hnone : s.handlers = []) {b' : BlockId}
    (henterable : plan.Enterable b')
    : plan.Slack b' 0 s := by
  obtain ⟨handlers, _, hstacked, _⟩ := h
  obtain ⟨_, stack, hchain, henters⟩ := henterable
  rw [hstacked.handlers] at hnone
  subst hnone
  exact ⟨[], stack, hstacked, List.nil_sublist _, hchain, henters.mayHold⟩

theorem target {t : Transfer} (h : plan.Slack b i s) (hblock : plan.BlockFits options b)
    (hi : (plan.code b)[i]? = some ins) (hfits : plan.Fits params b i ins.id ins.command)
    (ht : ins.command = .transfer t) (hsmall : ∀ b ∈ ins.references, b < State.blockLimit)
    {target : BlockId} (htarget : target ∈ t.references)
    : plan.Enterable target ∧ plan.Slack target 0 s := by
  obtain ⟨handlers, stack, hstacked, hsub, hchain, hholds⟩ := h
  have hstack := hholds.eq_stackAt hblock hi (by simp [IsPrologue, ht, Command.receive])
  rw [ht] at hfits
  have henters : plan.Enters target stack := hstack ▸ hfits.target htarget
  have hlt : target < State.blockLimit :=
    hsmall target (by simpa only [Instruction.references, ht] using htarget)
  exact ⟨⟨hlt, stack, hchain, henters⟩, handlers, stack, hstacked, hsub, hchain, henters.mayHold⟩

end Slack

theorem SlackAt.status (h : plan.SlackAt faults b s) : s.status? = some (.running b) :=
  State.status?_of_block h.block h.enterable.small

theorem SlackAt.alike (h : plan.SlackAt faults b s) (halike : s'.Alike s)
    : plan.SlackAt faults b s' where
  block := (halike.slot (by decide)).trans h.block
  enterable := h.enterable
  slack := h.slack.alike halike
  calm hrole := (h.calm hrole).congr (halike.slot (by decide))

theorem Goes.running (h : plan.Goes layout faults s) (hstatus : s.status? = some (.running b))
    : plan.SlackAt faults b s := by
  rcases h.goes with hfinished | ⟨b', hat⟩
  . unfold State.status? at hstatus
    rw [hfinished] at hstatus
    cases hstatus
  . rw [hat.status] at hstatus
    cases hstatus
    exact hat

theorem Goes.append (h : plan.Goes layout faults s) : plan.Goes layout (faults ++ new) s where
  agrees := h.agrees
  room := h.room
  goes := h.goes.imp_right fun ⟨b, hat⟩ =>
    ⟨b, { hat with calm := fun hrole => (hat.calm hrole).append }⟩

end Plan

namespace Graph.Coded

open Plan

variable {options : CompileOptions} {source : Form} {graph : Graph} {plan : Plan} {b : BlockId}
  {i : Nat} {ins : Instruction} {call : Caller} {p p' : Plain} {faults : List Value}

theorem loose_effect (h : graph.Coded options source plan) (hsmall : graph.IsSmall)
    (hloose : plan.Loose faults b i p.state) (hi : (plan.code b)[i]? = some ins) {e : Effect}
    (he : ins.command = .effect e) (hok : Plain.effect call ins.id e p = .ok () p')
    : plan.Loose faults b (i + 1) p'.state := by
  rw [(Plain.changes_of_effect hok).1]
  refine ⟨(Effect.block_onState e p.state).trans hloose.block,
    hloose.slack.effect (h.blockFits b) (fun b => (h.blockFits b).under) hi (h.fits hi) he
      (h.small_references hsmall hi), ?_⟩
  intro hrole
  by_cases htake : (plan.label b).role = .cleanup ∧ i = 1
  . obtain ⟨hcleanup, rfl⟩ := htake
    rcases (h.blockFits b).prologue hcleanup hi (by decide) with hfirst | ⟨_, hcommand⟩ | hthird
    . exact absurd hfirst.1 (by decide)
    . rw [he] at hcommand
      cases hcommand
      left
      exact State.slot_setSlot (Nat.lt_of_lt_of_le (by decide) hloose.slack.room) _
    . exact absurd hthird.1 (by decide)
  . have hother : (plan.label b).role ≠ .cleanup ∨ i ≠ 1 := Decidable.not_and_iff_or_not.1 htake
    refine (hloose.calm ?_).congr (Effect.exception_onState (h.not_take hi he hother) p.state)
    refine hrole.imp_right ?_
    rintro ⟨hcleanup, hle⟩
    exact ⟨hcleanup, by have := hother.resolve_left (fun hne => hne hcleanup); lia⟩

theorem calm_transfer (h : graph.Coded options source plan) (hloose : plan.Loose faults b i p.state)
    (hi : (plan.code b)[i]? = some ins) {t : Transfer} (ht : ins.command = .transfer t)
    {ending : Plain.Ending} (hok : Plain.transfer t p = .ok ending p')
    : p'.state.Calm faults := by
  rcases Plain.exception_transfer hloose.slack.room hok with hnil | ⟨hother, hsame⟩
  . exact .inl hnil
  refine (hloose.calm ?_).congr hsame
  cases hrole : (plan.label b).role with
  | plain => exact .inl rfl
  | cleanup =>
    refine .inr ⟨rfl, Nat.le_of_not_lt fun hlt => ?_⟩
    have := (h.blockFits b).prologue hrole hi (by lia)
    simp [IsPrologue, ht, Command.receive] at this
  | dispatch =>
    -- The only transfer of such a block picks a clause.
    obtain ⟨first, catches, hcatches⟩ := h.catches hrole
    obtain ⟨_, _, _, _, hcode⟩ := hcatches.code
    rw [hcode] at hi
    have hi' := List.mem_of_getElem? hi
    rw [List.mem_cons, List.mem_singleton] at hi'
    obtain rfl | rfl := hi'
    . cases ht
    . cases ht
      exact absurd rfl (hother _)

theorem code_goesOff (h : graph.Coded options source plan) (hsmall : graph.IsSmall) (call : Caller)
    (hloose : plan.Loose faults b 0 p.state) (hlast : ∃ ins ∈ plan.code b, ins.isTransfer = true)
    : plan.GoesOff faults b (Plain.code call (plan.code b) p) := by
  have hends : Plain.Ends call (plan.code b) (fun i p => plan.Loose faults b i p.state)
      (Plain.code call (plan.code b) p) :=
    Plain.code_ends (fun hi he hloose hok => h.loose_effect hsmall hloose hi he hok) hloose
  generalize Plain.code call (plan.code b) p = r at hends
  cases r with
  | error stop p' =>
    obtain ⟨i, _, p, store, _, hloose, _, rfl⟩ := hends.stopped
    exact .stop hloose
  | ok ending p' =>
    obtain ⟨i, ins, t, p, state, store, hi, ht, hloose, hok, rfl, hleaving⟩ :=
      hends.transferred hlast
    have hcalm := h.calm_transfer hloose hi ht hok
    have htarget : ∀ {target}, target ∈ t.references →
        plan.Enterable target ∧ plan.Slack target 0 p.state :=
      fun htarget => hloose.slack.target (h.blockFits b) hi (h.fits hi) ht
        (h.small_references hsmall hi) htarget
    have hgoes : ∀ {target : BlockId} {s : State}, target ∈ t.references →
        s.slot 4 = p.state.slot 4 → s.slots.size = p.state.slots.size →
          (s.resumeAt target).Calm faults → plan.SlackAt faults target (s.resumeAt target) := by
      intro target s hmem hslot hsize hcalm
      obtain ⟨henterable, hslack⟩ := htarget hmem
      have hslack' := hslack.congr hslot hsize
      exact ⟨State.slot_setSlot (Nat.lt_of_lt_of_le (by decide) hslack'.room) _, henterable,
        hslack'.setSlot (by decide) _, fun _ => hcalm⟩
    cases hleaving with
    | goTo hmem => exact .next (hgoes hmem rfl rfl hcalm) hcalm
    | @handOver operand target value =>
      have hmem : target ∈ (Transfer.jump (some operand) target).references :=
        List.mem_singleton.2 rfl
      exact .next (hgoes hmem (State.slot_setSlot_ne _ (by decide) _) (State.size_setSlot _ _ _)
        hcalm) hcalm
    | finish =>
      refine .done (slot_finish (Nat.lt_of_lt_of_le (by decide) hloose.slack.room) _) ?_
      rw [State.finish, State.setPending, State.size_setSlot, State.size_setSlot]
      exact hloose.slack.room
    | @dispatch clauses clause hclause =>
      have hmem : clause.1 ∈ (Transfer.dispatch clauses).references := List.mem_map_of_mem hclause
      refine .next (hgoes hmem ?_ ?_ hcalm) hcalm
      . exact (State.slot_setSlot_ne _ (by decide) _).trans (State.slot_setSlot_ne _ (by decide) _)
      . exact (State.size_setSlot _ _ _).trans (State.size_setSlot _ _ _)
    | suspend =>
      obtain ⟨henterable, hslack⟩ := htarget (List.mem_singleton.2 rfl)
      exact .suspend henterable hslack hloose.block hcalm

end Graph.Coded

namespace Plan

variable {plan : Plan} {layout : Layout} {b c : BlockId} {i : Nat} {s : State}
  {faults new : List Value}

theorem Goes.finish {values : ValueId → Value} (hagrees : layout.Agrees values s)
    (hroom : headerSize ≤ s.slots.size) (apart : layout.Apart) (value : Value)
    : plan.Goes layout faults (s.finish value) where
  agrees := ⟨values, hagrees.onHeader apart (.finish value)⟩
  room := by
    rw [State.finish, State.setPending, State.size_setSlot, State.size_setSlot]
    exact hroom
  goes := .inl (slot_finish (Nat.lt_of_lt_of_le (by decide) hroom) value)

theorem Goes.setSlot (h : plan.Goes layout faults s) (apart : layout.Apart) {k : Nat}
    (hk : k < headerSize) (h1 : k ≠ 1) (h4 : k ≠ 4) {value : Value}
    (hcalm : s.Calm faults → (s.setSlot k value).Calm (faults ++ new))
    : plan.Goes layout (faults ++ new) (s.setSlot k value) where
  agrees := by
    obtain ⟨values, hagrees⟩ := h.agrees
    exact ⟨values, hagrees.onHeader apart (.setSlot hk value)⟩
  room := (State.size_setSlot s k value).symm ▸ h.room
  goes := by
    refine h.goes.imp (State.slot_setSlot_ne s h1 value).trans ?_
    rintro ⟨b, hat⟩
    exact ⟨b, (State.slot_setSlot_ne s h1 value).trans hat.block, hat.enterable,
      hat.slack.setSlot h4 value, fun hrole => hcalm (hat.calm hrole)⟩

theorem Slack.route {p : Process} (h : plan.Slack b i p.state) (apart : layout.Apart)
    (hagrees : ∃ values, layout.Agrees values p.state) (hblock : p.state.slot 1 = State.ofBlock c)
    (henterable : plan.Enterable c) (thrown : Value)
    : plan.Goes layout (faults ++ (Run.route thrown p).faults)
        (Run.route thrown p).process.state := by
  obtain ⟨values, hagrees⟩ := hagrees
  have hslack : plan.Slack b i (p.state.setException thrown) := h.setSlot (by decide) thrown
  have hexception : (p.state.setException thrown).exception = thrown :=
    State.slot_setSlot (Nat.lt_of_lt_of_le (by decide) h.room) thrown
  cases hhandlers : (p.state.setException thrown).handlers with
  | nil =>
    simp only [Run.route, hhandlers]
    refine ⟨⟨values, hagrees.onHeader apart (.setSlot (by decide) thrown)⟩, hslack.room,
      .inr ⟨c, ?_, henterable, hslack.ofNone hhandlers henterable, ?_⟩⟩
    . exact (State.slot_setSlot_ne _ (by decide) _).trans hblock
    . intro _
      right
      rw [Run.Turn.process, hexception]
      exact List.mem_append_right _ (List.mem_singleton.2 rfl)
  | cons target rest =>
    obtain ⟨hgo, hrole, hslack'⟩ := hslack.routed hhandlers
    simp only [Run.route, hhandlers]
    refine ⟨⟨values, hagrees.routed apart thrown target⟩, (hslack'.setSlot (by decide) _).room,
      .inr ⟨target, ?_, hgo, hslack'.setSlot (by decide) _, fun hplain => absurd hplain hrole⟩⟩
    exact State.slot_setSlot (Nat.lt_of_lt_of_le (by decide) hslack.room) _

end Plan

namespace Graph.Coded

open Plan

variable {options : CompileOptions} {source : Form} {graph : Graph} {plan : Plan}
  {table : Table String Handler} {name : String} {program : Program} {machines : Machines}
  {kept : Nat → Prop} {faults : List Value} {fuel : Nat} {p q : Process}

theorem executes_goesOff (h : graph.Coded options source plan) (hsmall : graph.IsSmall)
    (hprogram : Program.ofGraph graph table name = .ok program)
    (hgoes : plan.Goes graph.layout faults p.state) {r : EStateM.Result Stop Frame Flow}
    (hexec : program.Executes machines fuel p r)
    : ∃ b r', plan.Enterable b ∧ Sim graph.layout (Linked.Leaves graph.layout table) r r' ∧
        plan.GoesOff faults b r' := by
  obtain ⟨b, code, hstatus, hcode, rfl⟩ := hexec
  have hat := hgoes.running hstatus
  obtain ⟨values, hagrees⟩ := hgoes.agrees
  rcases h.get?_program hprogram b with ⟨_, hnone⟩ | ⟨code', hsome, hemit⟩
  . rw [hnone] at hcode
    cases hcode
  rw [hsome] at hcode
  cases hcode
  refine ⟨b, _, hat.enterable, h.sim_block hemit _ hagrees, h.code_goesOff hsmall _ ?_ ?_⟩
  . refine ⟨hat.block, hat.slack, ?_⟩
    rintro (hplain | ⟨_, hle⟩)
    . exact hat.calm hplain
    . exact absurd hle (by decide)
  . obtain ⟨effects, last, t, hsplit, ht, _⟩ := Emit.block_ok hemit
    exact ⟨last, by simp [hsplit], by simp [Instruction.isTransfer, ht]⟩

theorem suspends_goes (h : graph.Coded options source plan) (hsmall : graph.IsSmall)
    (hprogram : Program.ofGraph graph table name = .ok program)
    (hhandlers : program.Supports machines table kept) (hstack : kept 4) (hflight : kept 5)
    (hgoes : plan.Goes graph.layout faults p.state) {handler : Handler} {resume : BlockId}
    {args : List Value} {f : Frame}
    (hexec : program.Executes machines fuel p (.ok (.suspend handler resume args) f))
    : ∃ name b, table.get? name = some handler ∧ plan.Enterable b ∧ plan.Enterable resume ∧
        f.state.slot 1 = State.ofBlock b ∧
        (handler f.state resume args).Keeps machines program kept f.state resume ∧
        (∀ s, s.slots.size = f.state.slots.size → headerSize ≤ s.slots.size ∧
          ∃ values, graph.layout.Agrees values s) ∧
        ∀ s, s.Respects f.state kept → plan.Slack resume 0 s ∧
          (s.slot 1 = State.ofBlock resume → plan.Goes graph.layout faults s) := by
  obtain ⟨b, _, henterable, hsim, hgoesOff⟩ := h.executes_goesOff hsmall hprogram hgoes hexec
  cases hsim with
  | ok hleaves =>
    obtain ⟨hflow, hlinked⟩ := hleaves
    cases hgoesOff with
    | next | done => cases hflow
    | suspend hresume hslack hblock hcalm =>
      obtain ⟨_, hhandler, hsame⟩ := Option.map_eq_some_iff.1 hflow
      cases hsame
      have hslack' := hslack.alike hlinked.header
      have hroom := hslack'.room
      have hsized : ∀ s : State, s.slots.size = f.state.slots.size →
          headerSize ≤ s.slots.size ∧ ∃ values, graph.layout.Agrees values s :=
        fun s hsize => ⟨hsize ▸ hroom, hlinked.agrees.resized hsize⟩
      refine ⟨_, b, hhandler, henterable, hresume,
        (hlinked.header.slot (by decide)).trans hblock,
        hhandlers _ _ hhandler f.state resume args hroom, hsized, ?_⟩
      intro s hrespects
      have hslack'' := hslack'.congr (hrespects.slot 4 hstack) hrespects.size
      refine ⟨hslack'', fun hgo => ?_⟩
      have hcalm' : s.Calm faults := (hcalm.congr (hlinked.header.slot (by decide))).congr
        (hrespects.slot 5 hflight)
      exact ⟨(hsized s hrespects.size).2, (hsized s hrespects.size).1,
        .inr ⟨resume, hgo, hresume, hslack'', fun _ => hcalm'⟩⟩

theorem raises_goes (h : graph.Coded options source plan) (hsmall : graph.IsSmall)
    (hprogram : Program.ofGraph graph table name = .ok program)
    (hhandlers : program.Supports machines table kept) (hstack : kept 4) (hflight : kept 5)
    (hfails : table.FailsInPlace) (hgoes : plan.Goes graph.layout faults p.state) {value : Value}
    (hraises : program.Raises machines fuel p value q)
    : plan.Goes graph.layout (faults ++ (Run.route value q).faults)
        (Run.route value q).process.state := by
  cases hraises with
  | missing hstatus hnone =>
    have hat := hgoes.running hstatus
    exact hat.slack.route graph.layout_apart hgoes.agrees hat.block hat.enterable _
  | thrown hexec =>
    obtain ⟨b, _, henterable, hsim, hgoesOff⟩ := h.executes_goesOff hsmall hprogram hgoes hexec
    cases hsim with
    | error hlinked =>
      cases hgoesOff with
      | stop hloose =>
        exact (hloose.slack.alike hlinked.header).route graph.layout_apart ⟨_, hlinked.agrees⟩
          ((hlinked.header.slot (by decide)).trans hloose.block) henterable value
  | @answered handler resume args f _ s hexec hreply =>
    obtain ⟨name, b, hhandler, henterable, hresume, hblock, hkeeps, hsized, hrespected⟩ :=
      h.suspends_goes hsmall hprogram hhandlers hstack hflight hgoes hexec
    rw [hreply] at hkeeps
    cases hkeeps with
    | fault hrespects =>
      have hslack := (hrespected s hrespects).1
      have hagrees := (hsized s hrespects.size).2
      rcases hfails _ _ hhandler f.state resume args _ s hreply with hsame | hgo
      . exact hslack.route (p := ⟨s, f.store⟩) graph.layout_apart hagrees (hsame.trans hblock)
          henterable value
      . exact hslack.route (p := ⟨s, f.store⟩) graph.layout_apart hagrees hgo hresume value

theorem moves_goes (h : graph.Coded options source plan) (hsmall : graph.IsSmall)
    (hprogram : Program.ofGraph graph table name = .ok program)
    (hhandlers : program.Supports machines table kept) (hstack : kept 4) (hflight : kept 5)
    (hfails : table.FailsInPlace) (hgoes : plan.Goes graph.layout faults p.state)
    {new : List Value} (hmoves : program.Moves machines fuel p new q)
    : plan.Goes graph.layout (faults ++ new) q.state := by
  cases hmoves with
  | next hexec =>
    obtain ⟨b, _, _, hsim, hgoesOff⟩ := h.executes_goesOff hsmall hprogram hgoes hexec
    cases hsim with
    | ok hleaves =>
      obtain ⟨hflow, hlinked⟩ := hleaves
      cases hgoesOff with
      | next hat _ =>
        have hat' := hat.alike hlinked.header
        exact Goes.append ⟨⟨_, hlinked.agrees⟩, hat'.slack.room, .inr ⟨_, hat'⟩⟩
      | done => cases hflow
      | suspend =>
        obtain ⟨_, _, hsame⟩ := Option.map_eq_some_iff.1 hflow
        cases hsame
  | done hexec =>
    obtain ⟨b, _, _, hsim, hgoesOff⟩ := h.executes_goesOff hsmall hprogram hgoes hexec
    cases hsim with
    | ok hleaves =>
      obtain ⟨hflow, hlinked⟩ := hleaves
      cases hgoesOff with
      | next => cases hflow
      | done hfinished hroom =>
        exact ⟨⟨_, hlinked.agrees⟩, hlinked.header.room hroom,
          .inl ((hlinked.header.slot (by decide)).trans hfinished)⟩
      | suspend =>
        obtain ⟨_, _, hsame⟩ := Option.map_eq_some_iff.1 hflow
        cases hsame
  | @control handler resume args f decision s hexec hreply =>
    obtain ⟨_, _, _, _, _, _, hkeeps, hsized, hrespected⟩ :=
      h.suspends_goes hsmall hprogram hhandlers hstack hflight hgoes hexec
    rw [hreply] at hkeeps
    cases hkeeps with
    | suspend hrespects hgo | «continue» hrespects hgo =>
      exact ((hrespected s hrespects).2 hgo).append
    | complete hsize =>
      obtain ⟨hroom, _, hagrees⟩ := hsized s hsize
      exact .finish hagrees hroom graph.layout_apart _
  | @drive handler resume args f s decide hexec hreply =>
    obtain ⟨_, _, _, _, _, _, hkeeps, _, hrespected⟩ :=
      h.suspends_goes hsmall hprogram hhandlers hstack hflight hgoes hexec
    rw [hreply] at hkeeps
    cases hkeeps with
    | drive hrespects hgo _ => exact ((hrespected s hrespects).2 hgo).append
  | raise hraises =>
    exact h.raises_goes hsmall hprogram hhandlers hstack hflight hfails hgoes hraises

theorem ran_goes (h : graph.Coded options source plan) (hsmall : graph.IsSmall)
    (hprogram : Program.ofGraph graph table name = .ok program)
    (hhandlers : program.Supports machines table kept) (hstack : kept 4) (hflight : kept 5)
    (hfails : table.FailsInPlace) {past : List Op} (hran : program.Ran machines past faults p)
    : plan.Goes graph.layout faults p.state := by
  induction hran with
  | create hcreate =>
    obtain ⟨hblock, hstacked, values, hagrees⟩ := h.create_fresh hprogram hcreate
    have henters : plan.Enters 0 [] := by
      unfold Enters
      rw [h.outermost]
      rfl
    refine ⟨⟨values, hagrees⟩, hstacked.room, .inr ⟨0, hblock, ⟨by decide, [], trivial, henters⟩,
      ⟨[], [], hstacked, .refl _, trivial, henters.mayHold⟩, fun _ => .inl ?_⟩⟩
    obtain ⟨_, rfl⟩ := Program.create_ok hcreate
    rfl
  | move _ hmoves ih =>
    exact h.moves_goes hsmall hprogram hhandlers hstack hflight hfails ih hmoves
  | touch _ htouched ih =>
    cases htouched with
    | store => exact ih.append
    | @pending value =>
      refine ih.setSlot graph.layout_apart (by decide) (by decide) (by decide) fun hcalm => ?_
      exact (hcalm.congr (State.slot_setSlot_ne _ (by decide) value)).append
    | finish =>
      obtain ⟨values, hagrees⟩ := ih.agrees
      exact .finish hagrees ih.room graph.layout_apart _
    | @fault value hnone =>
      refine ih.setSlot graph.layout_apart (by decide) (by decide) (by decide) fun _ => .inr ?_
      rw [State.exception, State.slot_setSlot (Nat.lt_of_lt_of_le (by decide) ih.room)]
      exact List.mem_append_right _ (List.mem_singleton.2 rfl)

end Graph.Coded

end Resumable
