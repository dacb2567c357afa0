import Resumable.Proofs.Handlers.Slack
import Resumable.Proofs.Lowering.Aside

/-!
This module contains the course of a `finally` clause, whatever has led to it. What is in flight and
what is handed over are put aside when the clause is entered, and are still there when its body has
come to its end: then what was in flight is thrown again, or if there was nothing, what was handed
over is handed on.
-/

namespace Resumable

/--
The slots that the course of a `finally` clause depends on: the handlers, the value in flight, and
what `finally` blocks have put aside.
-/
def Graph.KeepsAsideIn (graph : Graph) (slot : Nat) : Prop :=
  slot = 4 ∨ slot = 5 ∨ ∃ (b : BlockId) (ins take : Instruction),
    ins ∈ (graph.blocks.code b).take 2 ∧ (graph.blocks.code b)[1]? = some take ∧
      take.command = .effect .takeException ∧ graph.layout.slots.get? ins.id = some slot

namespace Plan

/--
Whether the code of a `finally` clause ends in a block.
-/
def EndsIn (plan : Plan) (F b : BlockId) : Prop :=
  ∃ ins x, ins ∈ plan.code b ∧ ins.command = .effect (.endFinally (.result x)) ∧ plan.Takes F x

structure Clause (plan : Plan) where
  block : BlockId
  exception : ValueId
  value : ValueId
  thrown : Value
  handed : Value
  around : List BlockId
  role : (plan.label block).role = .cleanup
  takes : plan.Takes block exception
  receives : plan.Receives block value
  outside : ∀ h ∈ around, block ∉ (plan.label h).inside

namespace Clause

variable {plan : Plan}

structure Carried (c : plan.Clause) (s : State) (values : ValueId → Value) : Prop where
  handlers : ∃ handlers, s.Stacked handlers ∧ plan.Above c.block c.around handlers
  exception : values c.exception = c.thrown
  value : values c.value = c.handed

structure Begins (c : plan.Clause) (i : Nat) (s : State) (values : ValueId → Value) : Prop where
  handlers : ∃ handlers, s.Stacked handlers ∧
    (if handlers.head? = some c.block then handlers.tail else handlers) = c.around
  flight : i < 2 → s.exception = c.thrown
  pending : i = 0 → s.pending = c.handed
  exception : i = 2 → values c.exception = c.thrown
  value : 0 < i → values c.value = c.handed

inductive At (c : plan.Clause) : BlockId → Nat → State → (ValueId → Value) → Prop where
  | begins {i : Nat} {s : State} {values : ValueId → Value} :
    i < 3 → c.Begins i s values → c.At c.block i s values
  | body {b : BlockId} {i : Nat} {s : State} {values : ValueId → Value} :
    c.block ∈ (plan.label b).inside → (b = c.block → 3 ≤ i) → c.Carried s values →
      c.At b i s values

inductive Departs (c : plan.Clause) : EStateM.Result Stop Plain Plain.Ending → Prop where
  | next {target : BlockId} {p : Plain} :
    p.state.slot 1 = State.ofBlock target → target < State.blockLimit →
      c.block ∈ (plan.label target).inside → target ≠ c.block → c.Carried p.state p.values →
        c.Departs (.ok .next p)
  | done {value : Value} {p : Plain} : c.Departs (.ok (.done value) p)
  | suspend {name : String} {resume : BlockId} {args : List Value} {p : Plain} :
    resume < State.blockLimit → c.block ∈ (plan.label resume).inside → resume ≠ c.block →
      c.Carried p.state p.values → c.Departs (.ok (.suspend name resume args) p)
  | stop {stop : Stop} {p : Plain} : c.Carried p.state p.values → c.Departs (.error stop p)

structure Going (c : plan.Clause) (layout : Layout) (b : BlockId) (s : State) : Prop where
  block : s.slot 1 = State.ofBlock b
  small : b < State.blockLimit
  values : ∃ values, layout.Agrees values s ∧ c.At b 0 s values

variable {c : plan.Clause} {b : BlockId} {i : Nat} {s s' : State} {values : ValueId → Value}
  {layout : Layout}

theorem Carried.congr (h : c.Carried s values) (hslot : s'.slot 4 = s.slot 4)
    (hsize : s'.slots.size = s.slots.size)
    : c.Carried s' values where
  handlers := by
    obtain ⟨handlers, hstacked, habove⟩ := h.handlers
    exact ⟨handlers, ⟨hslot.trans hstacked.slot, hstacked.small, hsize ▸ hstacked.room⟩, habove⟩
  exception := h.exception
  value := h.value

theorem Carried.room (h : c.Carried s values) : headerSize ≤ s.slots.size := by
  obtain ⟨_, hstacked, _⟩ := h.handlers
  exact hstacked.room

theorem Carried.alike (h : c.Carried s values) (halike : s'.Alike s) : c.Carried s' values where
  handlers := by
    obtain ⟨handlers, hstacked, habove⟩ := h.handlers
    exact ⟨handlers, hstacked.alike halike, habove⟩
  exception := h.exception
  value := h.value

theorem Carried.at (h : c.Carried s values) (hinside : c.block ∈ (plan.label b).inside)
    (hne : b ≠ c.block)
    : c.At b i s values :=
  .body hinside (fun heq => absurd heq hne) h

theorem Carried.respects {kept : Nat → Prop} (h : c.Carried s values)
    (hagrees : layout.Agrees values s) (hrespects : s'.Respects s kept) (hstack : kept 4)
    (hkept : ∀ id, id = c.exception ∨ id = c.value → ∀ slot, layout.slots.get? id = some slot →
      kept slot)
    : ∃ values', layout.Agrees values' s' ∧ c.Carried s' values' := by
  obtain ⟨values', hagrees', hsame⟩ := hagrees.respects hrespects
  have hcarried := h.congr (hrespects.slot 4 hstack) hrespects.size
  exact ⟨values', hagrees', hcarried.handlers,
    (hsame _ (hkept _ (.inl rfl))).trans h.exception, (hsame _ (hkept _ (.inr rfl))).trans h.value⟩

theorem Going.setPending (h : c.Going layout b s) (apart : layout.Apart) (hne : b ≠ c.block)
    (value : Value)
    : c.Going layout b (s.setPending value) := by
  obtain ⟨values, hagrees, hat⟩ := h.values
  refine ⟨(State.slot_setSlot_ne s (by decide) value).trans h.block, h.small, values,
    hagrees.onHeader apart (.setPending value), ?_⟩
  cases hat with
  | begins => exact absurd rfl hne
  | body hinside _ hcarried =>
    exact (hcarried.congr (State.slot_setSlot_ne s (by decide) value)
      (State.size_setSlot s _ value)).at hinside hne

theorem Going.status (h : c.Going layout b s) : s.status? = some (.running b) :=
  State.status?_of_block h.block h.small

end Clause

end Plan

namespace Graph.Coded

open Plan

variable {options : CompileOptions} {source : Form} {graph : Graph} {plan : Plan} {c : plan.Clause}
  {b : BlockId} {i : Nat} {ins : Instruction} {call : Caller} {p p' : Plain}

theorem begins_effect (h : graph.Coded options source plan) (call : Caller)
    (hbegins : c.Begins i p.state p.values) (hlt : i < 3) (hi : (plan.code c.block)[i]? = some ins)
    {e : Effect} (he : ins.command = .effect e)
    : ∃ p', Plain.effect call ins.id e p = .ok () p' ∧
        c.At c.block (i + 1) p'.state p'.values := by
  obtain ⟨handlers, hstacked, haround⟩ := hbegins.handlers
  rcases (h.blockFits c.block).prologue c.role hi hlt with ⟨rfl, hcommand⟩ | ⟨rfl, hcommand⟩ |
    ⟨rfl, hcommand⟩
  . rw [he] at hcommand
    cases hcommand
    refine ⟨{ p with values := update p.values ins.id p.state.pending }, rfl,
      .begins (by decide) ⟨⟨handlers, hstacked, haround⟩, fun _ => hbegins.flight (by decide),
        by lia, by lia, fun _ => ?_⟩⟩
    obtain ⟨_, hreceive⟩ := c.receives
    rw [hi] at hreceive
    cases hreceive
    simpa [update] using hbegins.pending rfl
  . rw [he] at hcommand
    cases hcommand
    refine ⟨{ p with
      state := p.state.clearException
      values := update p.values ins.id p.state.exception }, rfl,
      .begins (by decide) ⟨⟨handlers, hstacked.setException _, haround⟩, by lia, by lia,
        fun _ => ?_, fun _ => ?_⟩⟩
    . obtain ⟨_, htake⟩ := c.takes
      rw [hi] at htake
      cases htake
      simpa [update] using hbegins.flight (by decide)
    . have hne : c.value ≠ ins.id := by
        intro heq
        obtain ⟨_, hreceive⟩ := c.receives
        exact absurd (h.unique hreceive hi heq).2 (by decide)
      simpa [update, hne] using hbegins.value (by decide)
  . rw [he] at hcommand
    cases hcommand
    refine ⟨{ p with state := p.state.popHandler c.block }, rfl, ?_⟩
    obtain ⟨outer, hinside, _⟩ := h.inside_cleanup c.role
    refine .body (by simp [hinside]) (fun _ => by decide)
      ⟨⟨c.around, haround ▸ hstacked.popHandler c.block, [], rfl, by simp⟩,
        hbegins.exception rfl, hbegins.value (by decide)⟩

theorem carried_effect (h : graph.Coded options source plan) (hsmall : graph.IsSmall)
    (hinside : c.block ∈ (plan.label b).inside) (hstarted : b = c.block → 3 ≤ i)
    (hcarried : c.Carried p.state p.values) (hi : (plan.code b)[i]? = some ins) {e : Effect}
    (he : ins.command = .effect e) (hok : Plain.effect call ins.id e p = .ok () p')
    : c.Carried p'.state p'.values := by
  obtain ⟨hstate, hother⟩ := Plain.changes_of_effect hok
  have hwrites : ins.writes = e.writes ins.id := by simp only [Instruction.writes, he]
  refine ⟨?_, (hother _ ?_).trans hcarried.exception, (hother _ ?_).trans hcarried.value⟩
  . rw [hstate]
    obtain ⟨handlers, hstacked, habove⟩ := hcarried.handlers
    have hfits := h.fits hi
    rw [he] at hfits
    cases e with
    | pushHandler block =>
      have hlt : block < State.blockLimit := h.small_references hsmall hi block
        (by simp [Instruction.references, he, Effect.references])
      cases hfits with
      | plain hplain => cases hplain
      | push hguards =>
        exact ⟨_, hstacked.pushHandler hlt, h.above_push c.role habove hinside hguards⟩
    | popHandler block =>
      exact ⟨_, hstacked.popHandler block,
        above_pop habove c.outside (h.popped_inside hinside hi he)⟩
    | takeException => exact ⟨handlers, hstacked.setException _, habove⟩
    | _ => exact ⟨handlers, hstacked, habove⟩
  . intro hmem
    obtain ⟨rfl, rfl⟩ := h.write_of_takes c.takes hi (hwrites ▸ hmem)
    exact absurd (hstarted rfl) (by decide)
  . intro hmem
    have hown := (h.spares (by simp [c.role]) c.receives hi).writes (hwrites ▸ hmem)
    obtain ⟨_, hreceive⟩ := c.receives
    obtain ⟨rfl, rfl⟩ := h.unique hi hreceive hown
    exact absurd (hstarted rfl) (by decide)

theorem at_effect (h : graph.Coded options source plan) (hsmall : graph.IsSmall)
    (hat : c.At b i p.state p.values) (hi : (plan.code b)[i]? = some ins) {e : Effect}
    (he : ins.command = .effect e) (hok : Plain.effect call ins.id e p = .ok () p')
    : c.At b (i + 1) p'.state p'.values := by
  cases hat with
  | begins hlt hbegins =>
    obtain ⟨q, hq, hnext⟩ := h.begins_effect call hbegins hlt hi he
    rw [hq] at hok
    cases hok
    exact hnext
  | body hinside hstarted hcarried =>
    exact .body hinside (fun heq => Nat.le_succ_of_le (hstarted heq))
      (h.carried_effect hsmall hinside hstarted hcarried hi he hok)

theorem carried_of_at (h : graph.Coded options source plan) (hat : c.At b i p.state p.values)
    (hi : (plan.code b)[i]? = some ins) (hother : ¬ IsPrologue b i ins.command)
    : c.block ∈ (plan.label b).inside ∧ c.Carried p.state p.values := by
  cases hat with
  | begins hlt _ => exact absurd ((h.blockFits c.block).prologue c.role hi hlt) hother
  | body hinside _ hcarried => exact ⟨hinside, hcarried⟩

theorem code_clause (h : graph.Coded options source plan) (hsmall : graph.IsSmall) (call : Caller)
    (hat : c.At b 0 p.state p.values) (hbefore : ¬ plan.EndsIn c.block b)
    (hlast : ∃ ins ∈ plan.code b, ins.isTransfer = true)
    : c.Departs (Plain.code call (plan.code b) p) := by
  have hends : Plain.Ends call (plan.code b) (fun i p => c.At b i p.state p.values)
      (Plain.code call (plan.code b) p) :=
    Plain.code_ends (fun hi he hat hok => h.at_effect hsmall hat hi he hok) hat
  generalize Plain.code call (plan.code b) p = r at hends
  cases r with
  | error stop p' =>
    obtain ⟨i, ins, p, store, hi, hat, hstop, rfl⟩ := hends.stopped
    refine .stop (h.carried_of_at hat hi ?_).2
    rintro (⟨_, hcommand⟩ | ⟨_, hcommand⟩ | ⟨_, hcommand⟩)
    all_goals
      simp only [Plain.code, hcommand, Command.receive] at hstop
      cases hstop
  | ok ending p' =>
    obtain ⟨i, ins, t, p, state, store, hi, ht, hat, _, rfl, hleaving⟩ := hends.transferred hlast
    obtain ⟨hinside, hcarried⟩ := h.carried_of_at hat hi
      (by simp [IsPrologue, ht, Command.receive])
    have hroom := hcarried.room
    have htarget : ∀ {target}, target ∈ t.references → target < State.blockLimit ∧
        c.block ∈ (plan.label target).inside ∧ target ≠ c.block := by
      intro target hmem
      refine ⟨h.small_references hsmall hi target ?_, h.target_inside c.role c.takes hinside ?_ hi
        ht hmem⟩
      . simpa only [Instruction.references, ht] using hmem
      . intro j before _ hj hend
        exact hbefore ⟨before, _, List.mem_of_getElem? hj, hend, c.takes⟩
    have hgoes : ∀ {target : BlockId} {s : State}, target ∈ t.references →
        s.slot 4 = p.state.slot 4 → s.slots.size = p.state.slots.size →
          c.Departs (.ok .next { p with state := s.resumeAt target, store := store }) := by
      intro target s hmem hslot hsize
      obtain ⟨hlt, hinside, hne⟩ := htarget hmem
      refine .next (State.slot_setSlot (Nat.lt_of_lt_of_le (by decide) (hsize ▸ hroom)) _) hlt
        hinside hne ?_
      exact hcarried.congr ((State.slot_setSlot_ne _ (by decide) _).trans hslot)
        ((State.size_setSlot _ _ _).trans hsize)
    cases hleaving with
    | goTo hmem => exact hgoes hmem rfl rfl
    | handOver =>
      exact hgoes (List.mem_singleton.2 rfl) (State.slot_setSlot_ne _ (by decide) _)
        (State.size_setSlot _ _ _)
    | finish => exact .done
    | @dispatch clauses clause hclause =>
      refine hgoes (List.mem_map_of_mem hclause) ?_ ?_
      . exact (State.slot_setSlot_ne _ (by decide) _).trans (State.slot_setSlot_ne _ (by decide) _)
      . exact (State.size_setSlot _ _ _).trans (State.size_setSlot _ _ _)
    | suspend =>
      obtain ⟨hlt, hinside, hne⟩ := htarget (List.mem_singleton.2 rfl)
      exact .suspend hlt hinside hne hcarried

end Graph.Coded

namespace Graph.Coded

open Plan

variable {options : CompileOptions} {source : Form} {graph : Graph} {plan : Plan} {c : plan.Clause}
  {table : Table String Handler} {name : String} {program : Program} {machines : Machines}
  {fuel : Nat} {b : BlockId} {p q : Process}

theorem keeps_aside (h : graph.Coded options source plan) (c : plan.Clause)
    : ∀ id, id = c.exception ∨ id = c.value → ∀ slot, graph.layout.slots.get? id = some slot →
        graph.KeepsAsideIn slot := by
  intro id hid slot hslot
  obtain ⟨span, htake⟩ := c.takes
  obtain ⟨span', hreceive⟩ := c.receives
  rw [← h.code c.block] at htake hreceive
  refine .inr (.inr ?_)
  rcases hid with rfl | rfl
  . refine ⟨c.block, ⟨c.exception, .effect .takeException, span⟩, _, ?_, htake, rfl, hslot⟩
    exact List.mem_of_getElem? (i := 1) (by simpa using htake)
  . refine ⟨c.block, ⟨c.value, .receive, span'⟩, _, ?_, htake, rfl, hslot⟩
    exact List.mem_of_getElem? (i := 0) (by simpa using hreceive)

theorem executes_clause (h : graph.Coded options source plan) (hsmall : graph.IsSmall)
    (hprogram : Program.ofGraph graph table name = .ok program)
    (hgoing : c.Going graph.layout b p.state) (hbefore : ¬ plan.EndsIn c.block b)
    {r : EStateM.Result Stop Frame Flow} (hexec : program.Executes machines fuel p r)
    : ∃ r', Sim graph.layout (Linked.Leaves graph.layout table) r r' ∧ c.Departs r' := by
  obtain ⟨values, hagrees, hat⟩ := hgoing.values
  obtain ⟨b', code, hb', hcode, rfl⟩ := hexec
  rw [hgoing.status] at hb'
  cases hb'
  rcases h.get?_program hprogram b with ⟨_, hnone⟩ | ⟨code', hsome, hemit⟩
  . rw [hnone] at hcode
    cases hcode
  rw [hsome] at hcode
  cases hcode
  refine ⟨_, h.sim_block hemit _ hagrees, h.code_clause hsmall _ hat hbefore ?_⟩
  obtain ⟨effects, last, t, hsplit, ht, _⟩ := Emit.block_ok hemit
  exact ⟨last, by simp [hsplit], by simp [Instruction.isTransfer, ht]⟩

theorem suspends_clause (h : graph.Coded options source plan) (hsmall : graph.IsSmall)
    (hprogram : Program.ofGraph graph table name = .ok program)
    (hhandlers : program.Supports machines table graph.KeepsAsideIn)
    (hgoing : c.Going graph.layout b p.state) (hbefore : ¬ plan.EndsIn c.block b)
    {handler : Handler} {resume : BlockId} {args : List Value} {f : Frame}
    (hexec : program.Executes machines fuel p (.ok (.suspend handler resume args) f))
    : resume ≠ c.block ∧
        (handler f.state resume args).Keeps machines program graph.KeepsAsideIn f.state resume ∧
        ∀ s, s.Respects f.state graph.KeepsAsideIn → ∃ values, graph.layout.Agrees values s ∧
          c.Carried s values ∧
            (s.slot 1 = State.ofBlock resume → c.Going graph.layout resume s) := by
  obtain ⟨_, hsim, hdeparts⟩ := h.executes_clause hsmall hprogram hgoing hbefore hexec
  cases hsim with
  | ok hleaves =>
    obtain ⟨hflow, hlinked⟩ := hleaves
    cases hdeparts with
    | next => cases hflow
    | done => cases hflow
    | suspend hlt hinside hne hcarried =>
      obtain ⟨_, hhandler, hsame⟩ := Option.map_eq_some_iff.1 hflow
      cases hsame
      have hcarried' := hcarried.alike hlinked.header
      refine ⟨hne, hhandlers _ _ hhandler f.state resume args hcarried'.room, ?_⟩
      intro s hrespects
      obtain ⟨values, hagrees, hcarried''⟩ := hcarried'.respects hlinked.agrees hrespects (.inl rfl)
        (h.keeps_aside c)
      exact ⟨values, hagrees, hcarried'', fun hresume =>
        ⟨hresume, hlt, values, hagrees, hcarried''.at hinside hne⟩⟩

theorem advances_clause (h : graph.Coded options source plan) (hsmall : graph.IsSmall)
    (hprogram : Program.ofGraph graph table name = .ok program)
    (hhandlers : program.Supports machines table graph.KeepsAsideIn)
    (hgoing : c.Going graph.layout b p.state) (hbefore : ¬ plan.EndsIn c.block b)
    (hadvances : program.Advances machines p q)
    : ∃ b', c.Going graph.layout b' q.state := by
  cases hadvances with
  | next hexec =>
    obtain ⟨_, hsim, hdeparts⟩ := h.executes_clause hsmall hprogram hgoing hbefore hexec
    cases hsim with
    | ok hleaves =>
      obtain ⟨hflow, hlinked⟩ := hleaves
      cases hdeparts with
      | next hblock hlt hinside hne hcarried =>
        exact ⟨_, (hlinked.header.slot (by decide)).trans hblock, hlt, _, hlinked.agrees,
          (hcarried.alike hlinked.header).at hinside hne⟩
      | done => cases hflow
      | suspend =>
        obtain ⟨_, _, hsame⟩ := Option.map_eq_some_iff.1 hflow
        cases hsame
  | «continue» hexec hreply =>
    obtain ⟨_, hkeeps, hgo⟩ := h.suspends_clause hsmall hprogram hhandlers hgoing hbefore hexec
    rw [hreply] at hkeeps
    cases hkeeps with
    | «continue» hrespects hresume =>
      obtain ⟨_, _, _, hgoing'⟩ := hgo _ hrespects
      exact ⟨_, hgoing' hresume⟩
  | @resume fuel handler resume args f s _ store hexec hreply hstate =>
    obtain ⟨hne, hkeeps, hgo⟩ := h.suspends_clause hsmall hprogram hhandlers hgoing hbefore hexec
    rw [hreply] at hkeeps
    cases hkeeps with
    | suspend hrespects hresume =>
      obtain ⟨_, _, _, hgoing'⟩ := hgo _ hrespects
      refine ⟨resume, ?_⟩
      rcases hstate with rfl | ⟨value, rfl⟩
      . exact hgoing' hresume
      . exact (hgoing' hresume).setPending graph.layout_apart hne value
  | drive hexec hreply =>
    obtain ⟨_, hkeeps, hgo⟩ := h.suspends_clause hsmall hprogram hhandlers hgoing hbefore hexec
    rw [hreply] at hkeeps
    cases hkeeps with
    | drive hrespects hresume _ =>
      obtain ⟨_, _, _, hgoing'⟩ := hgo _ hrespects
      exact ⟨_, hgoing' hresume⟩

theorem raises_clause (h : graph.Coded options source plan) (hsmall : graph.IsSmall)
    (hprogram : Program.ofGraph graph table name = .ok program)
    (hhandlers : program.Supports machines table graph.KeepsAsideIn)
    (hgoing : c.Going graph.layout b p.state) (hbefore : ¬ plan.EndsIn c.block b) {value : Value}
    (hraises : program.Raises machines fuel p value q)
    : ∃ values, graph.layout.Agrees values q.state ∧ c.Carried q.state values := by
  cases hraises with
  | missing hstatus hnone =>
    obtain ⟨values, hagrees, hat⟩ := hgoing.values
    rw [hgoing.status] at hstatus
    cases hstatus
    cases hat with
    | begins =>
      -- A `finally` block has instructions, so there is code for it.
      obtain ⟨_, htake⟩ := c.takes
      rcases h.get?_program hprogram c.block with ⟨hempty, _⟩ | ⟨_, hsome, _⟩
      . rw [hempty] at htake
        cases htake
      . rw [hnone] at hsome
        cases hsome
    | body _ _ hcarried => exact ⟨values, hagrees, hcarried⟩
  | thrown hexec =>
    obtain ⟨_, hsim, hdeparts⟩ := h.executes_clause hsmall hprogram hgoing hbefore hexec
    cases hsim with
    | error hlinked =>
      cases hdeparts with
      | stop hcarried => exact ⟨_, hlinked.agrees, hcarried.alike hlinked.header⟩
  | answered hexec hreply =>
    obtain ⟨_, hkeeps, hgo⟩ := h.suspends_clause hsmall hprogram hhandlers hgoing hbefore hexec
    rw [hreply] at hkeeps
    cases hkeeps with
    | fault hrespects =>
      obtain ⟨values, hagrees, hcarried, _⟩ := hgo _ hrespects
      exact ⟨values, hagrees, hcarried⟩

theorem route_clause {values : ValueId → Value} (hagrees : graph.layout.Agrees values p.state)
    (hcarried : c.Carried p.state values) (haround : c.around.length < p.state.handlers.length)
    {value : Value} (hroute : Run.route value p = .again q)
    : ∃ b', c.Going graph.layout b' q.state := by
  obtain ⟨handlers, hstacked, inner, rfl, hinner⟩ := hcarried.handlers
  rw [hstacked.handlers, List.length_append] at haround
  cases inner with
  | nil => exact absurd haround (by simp)
  | cons b' inner =>
    unfold Run.route at hroute
    simp only [(hstacked.setException value).handlers, List.cons_append] at hroute
    cases hroute
    obtain ⟨hinside, hne⟩ := hinner b' (List.mem_cons_self ..)
    have hsize : ((p.state.setException value).resumeAt b').slots.size = p.state.slots.size :=
      (State.size_setSlot _ _ _).trans (State.size_setSlot _ _ _)
    refine ⟨b', State.slot_setSlot ((hstacked.setException value).lt_size (by decide)) _,
      hstacked.small b' (by simp), values, hagrees.routed graph.layout_apart value b', ?_⟩
    refine (hcarried.congr ?_ hsize).at hinside hne
    exact (State.slot_setSlot_ne _ (by decide) _).trans (State.slot_setSlot_ne _ (by decide) _)

theorem within_clause (h : graph.Coded options source plan) (hsmall : graph.IsSmall)
    (hprogram : Program.ofGraph graph table name = .ok program)
    (hhandlers : program.Supports machines table graph.KeepsAsideIn)
    (hgoing : c.Going graph.layout b p.state) {bs : List BlockId}
    (hwithin : program.Within machines c.around.length p bs q)
    (hbefore : ∀ d ∈ bs, ¬ plan.EndsIn c.block d)
    : ∃ b', c.Going graph.layout b' q.state := by
  induction hwithin generalizing b with
  | here => exact ⟨b, hgoing⟩
  | advance hstatus hadvances _ ih =>
    rw [List.forall_mem_cons] at hbefore
    rw [hgoing.status] at hstatus
    cases hstatus
    obtain ⟨_, hgoing'⟩ := h.advances_clause hsmall hprogram hhandlers hgoing hbefore.1 hadvances
    exact ih hgoing' hbefore.2
  | caught hstatus hraises haround hroute _ ih =>
    rw [List.forall_mem_cons] at hbefore
    rw [hgoing.status] at hstatus
    cases hstatus
    obtain ⟨values, hagrees, hcarried⟩ := h.raises_clause hsmall hprogram hhandlers hgoing
      hbefore.1 hraises
    obtain ⟨_, hgoing'⟩ := route_clause hagrees hcarried haround hroute
    exact ih hgoing' hbefore.2

theorem stacked_of_end (h : graph.Coded options source plan) {i : Nat} {ins : Instruction}
    {s : State} {values : ValueId → Value} (hcarried : c.Carried s values)
    (hslack : plan.Slack b i s) (hi : (plan.code b)[i]? = some ins)
    (hend : ins.command = .effect (.endFinally (.result c.exception)))
    : s.Stacked c.around := by
  obtain ⟨handlers, hstacked, inner, rfl, hinner⟩ := hcarried.handlers
  obtain ⟨handlers', stack, hstacked', hsub, _, hholds⟩ := hslack
  have hsame := hstacked'.handlers
  rw [hstacked.handlers] at hsame
  subst hsame
  obtain rfl := hholds.eq_stackAt (h.blockFits b) hi (by simp [IsPrologue, hend, Command.receive])
  have hfits := h.fits hi
  rw [hend] at hfits
  cases hfits with
  | plain hplain => cases hplain
  | endFinally htakes _ _ hunder =>
    obtain rfl := h.takes_inj c.takes htakes
    rw [hunder] at hsub
    cases inner with
    | nil => exact hstacked
    | cons top inner =>
      have hmem : top ∈ (plan.label c.block).under := hsub.subset (by simp)
      exact absurd (hinner top (List.mem_cons_self ..)).1 (h.lt_of_mem_under hmem)

theorem completes_clause (h : graph.Coded options source plan) (hsmall : graph.IsSmall)
    (hprogram : Program.ofGraph graph table name = .ok program)
    (hgoing : c.Going graph.layout b p.state) (hslack : plan.Slack b 0 p.state) {b' : BlockId}
    (hcompletes : program.Completes machines graph plan c.block fuel p b')
    : (c.thrown.isNil = true → ∃ blocks f, plan.Tries options blocks ∧
          blocks.cleanup = some c.block ∧ program.Executes machines fuel p (.ok .next f) ∧
          f.state.status? = some (.running blocks.exit) ∧ f.state.pending = c.handed ∧
          f.state.handlers = c.around) ∧
        (c.thrown.isNil = false → ∃ f,
          program.Executes machines fuel p (.error (.thrown c.thrown) f) ∧
          f.state.handlers = c.around) := by
  obtain ⟨values, hagrees, hat⟩ := hgoing.values
  obtain ⟨done, ins, rest, x, code, p', hstatus, hsplit, hend, hx, heffects, hdone, hsome,
    hemit⟩ := h.completes_plain hprogram hagrees hcompletes
  rw [hgoing.status] at hstatus
  cases hstatus
  obtain rfl := c.takes.unique hx
  obtain ⟨hat', hslack'⟩ : c.At b done.length p'.state p'.values ∧
      plan.Slack b done.length p'.state := by
    refine @Plain.effects_inv _ _ (fun i p => c.At b i p.state p.values ∧ plan.Slack b i p.state) ?_
      _ _ hsplit heffects _ _ ⟨hat, hslack⟩ hdone
    intro i ins e p p' hi he ⟨hat, hslack⟩ hok
    refine ⟨h.at_effect hsmall hat hi he hok, ?_⟩
    rw [(Plain.changes_of_effect hok).1]
    exact hslack.effect (h.blockFits b) (fun b => (h.blockFits b).under) hi (h.fits hi) he
      (h.small_references hsmall hi)
  have hi : (plan.code b)[done.length]? = some ins := by simp [hsplit]
  obtain ⟨_, hcarried⟩ := h.carried_of_at hat' hi (by simp [IsPrologue, hend, Command.receive])
  have hstacked := h.stacked_of_end hcarried hslack' hi hend
  have hcode : Plain.code (Run.call machines (Program.run machines fuel)) (plan.code b)
      { toProcess := p, values } =
        Plain.code (Run.call machines (Program.run machines fuel)) (ins :: rest) p' := by
    rw [hsplit, Plain.code_append _ heffects, bind_of_ok hdone]
  have hblock := h.sim_block hemit (Run.call machines (Program.run machines fuel)) hagrees
  rw [hcode] at hblock
  have hclosed := Plain.effect_endFinally (Run.call machines (Program.run machines fuel)) ins.id
    c.exception p'
  rw [hcarried.exception] at hclosed
  simp only [Plain.code, hend] at hblock
  constructor
  -- Nothing was in flight, so the instruction behind the end hands over what was put aside.
  . intro hnil
    obtain ⟨blocks, F, value, id, span, htries, hcleanup, htakes, hreceives, hnext⟩ :=
      (h.spares (by simp [c.role]) c.receives hi).ends _ hend
    obtain rfl := h.takes_inj c.takes htakes
    obtain rfl : c.value = value := by
      obtain ⟨_, hvalue⟩ := c.receives
      obtain ⟨_, hvalue'⟩ := hreceives
      rw [hvalue] at hvalue'
      cases hvalue'
      rfl
    rw [hnil, if_pos rfl] at hclosed
    obtain ⟨rest', rfl⟩ : ∃ rest',
        rest = ⟨id, .handOver (.result c.value) blocks.exit, span⟩ :: rest' := by
      rw [hsplit, List.getElem?_append_right (by lia)] at hnext
      simp only [Nat.add_sub_cancel_left, List.getElem?_cons_succ] at hnext
      exact List.head?_eq_some_iff.1 (List.head?_eq_getElem? ▸ hnext)
    rw [bind_of_ok hclosed] at hblock
    obtain ⟨_, f, hexec, hflow, hlinked⟩ := hblock.ok_right
    cases hflow
    have hheader : f.state.Alike ((p'.state.setPending c.handed).resumeAt blocks.exit) := by
      rw [← hcarried.value]
      exact hlinked.header
    refine ⟨blocks, f, htries, hcleanup, ⟨b, code, hgoing.status, hsome, hexec⟩, ?_, ?_, ?_⟩
    . apply State.status?_of_block
      . exact (hheader.slot (by decide)).trans
          (State.slot_setSlot ((hstacked.setPending _).lt_size (by decide)) _)
      . exact h.small_references hsmall hnext _ (List.mem_singleton.2 rfl)
    . exact (hheader.slot (by decide)).trans ((State.slot_setSlot_ne _ (by decide) _).trans
        (State.slot_setSlot (hstacked.lt_size (by decide)) _))
    . have hstacked' : f.state.Stacked c.around :=
        ((hstacked.setPending c.handed).setSlot (by decide) _).alike hheader
      exact hstacked'.handlers
  . intro hthrown
    rw [hthrown, if_neg Bool.false_ne_true] at hclosed
    rw [bind_of_error hclosed] at hblock
    obtain ⟨f, hexec, hlinked⟩ := hblock.error_right
    exact ⟨f, ⟨b, code, hgoing.status, hsome, hexec⟩, (hstacked.alike hlinked.header).handlers⟩

end Graph.Coded

end Resumable
