import Resumable.Proofs.Handlers.Body
import Resumable.Proofs.Handlers.Run

/-!
This module contains the courses that faults take through a machine: which turns raise one, how the
machine goes on inside of the body of a `finally` clause, and which handlers a fault gets past.
-/

namespace Resumable

/--
The slots that the way of a fault depends on: the handlers, the value in flight, and the values that
`finally` blocks have put aside.
-/
def Graph.KeepsFaultsIn (graph : Graph) (slot : Nat) : Prop :=
  slot = 4 ∨ slot = 5 ∨ ∃ (b : BlockId) (ins : Instruction), ins ∈ graph.blocks.code b ∧
    ins.command = .effect .takeException ∧ graph.layout.slots.get? ins.id = some slot

namespace Program

/--
Whether running the block that a machine is at comes to a result.
-/
def Executes (machines : Machines) (program : Program) (fuel : Nat) (p : Process)
    (r : EStateM.Result Stop Frame Flow) : Prop :=
  ∃ b code, p.state.status? = some (.running b) ∧ program.blocks.get? b = some code ∧
    Exec.block (Run.call machines (Program.run machines fuel)) code { toProcess := p } = r

/--
The faults that a turn can raise: there is no such block, the block stops early, or the handler of a
suspension fails. A fault that ends a run driven by a handler has already been handed back.
-/
inductive Raises (machines : Machines) (program : Program) (fuel : Nat) (p : Process) :
    Value → Process → Prop where
  | missing {b : BlockId} :
    p.state.status? = some (.running b) → program.blocks.get? b = none →
      program.Raises machines fuel p (Fault.noBlock program.name b).toValue p
  | thrown {value : Value} {f : Frame} :
    program.Executes machines fuel p (.error (.thrown value) f) →
      program.Raises machines fuel p value f.toProcess
  | answered {handler : Handler} {resume : BlockId} {args : List Value} {f : Frame}
      {value : Value} {s : State} :
    program.Executes machines fuel p (.ok (.suspend handler resume args) f) →
      handler f.state resume args = .fault value s →
        program.Raises machines fuel p value ⟨s, f.store⟩

inductive Advances (machines : Machines) (program : Program) (p : Process) :
    Process → Prop where
  | next {fuel : Nat} {f : Frame} :
    program.Executes machines fuel p (.ok .next f) → program.Advances machines p f.toProcess
  | continue {fuel : Nat} {handler : Handler} {resume : BlockId} {args : List Value} {f : Frame}
      {s : State} :
    program.Executes machines fuel p (.ok (.suspend handler resume args) f) →
      handler f.state resume args = .control .continue s →
        program.Advances machines p ⟨s, f.store⟩
  | resume {fuel : Nat} {handler : Handler} {resume : BlockId} {args : List Value} {f : Frame}
      {s s' : State} {store : Store} :
    program.Executes machines fuel p (.ok (.suspend handler resume args) f) →
      handler f.state resume args = .control .suspend s →
      (s' = s ∨ ∃ value, s' = s.setPending value) → program.Advances machines p ⟨s', store⟩
  | drive {fuel : Nat} {handler : Handler} {resume : BlockId} {args : List Value} {f : Frame}
      {s : State} {decide : Step → Control} :
    program.Executes machines fuel p (.ok (.suspend handler resume args) f) →
      handler f.state resume args = .drive s decide → program.Advances machines p ⟨s, f.store⟩

inductive Within (machines : Machines) (program : Program) (around : Nat) :
    Process → List BlockId → Process → Prop where
  | here {p : Process} : program.Within machines around p [] p
  | advance {p q r : Process} {b : BlockId} {bs : List BlockId} :
    p.state.status? = some (.running b) → program.Advances machines p q →
      program.Within machines around q bs r → program.Within machines around p (b :: bs) r
  | caught {p q q' r : Process} {fuel : Nat} {b : BlockId} {value : Value} {bs : List BlockId} :
    p.state.status? = some (.running b) → program.Raises machines fuel p value q →
      around < q.state.handlers.length → Run.route value q = .again q' →
      program.Within machines around q' bs r → program.Within machines around p (b :: bs) r

/--
Whether a machine is at the block that the body of a `finally` clause ends in, and gets to the end
of the body from there.
-/
def Completes (machines : Machines) (program : Program) (graph : Graph) (plan : Plan)
    (F : BlockId) (fuel : Nat) (p : Process) (b : BlockId) : Prop :=
  ∃ done ins rest x code f, p.state.status? = some (.running b) ∧
    plan.code b = done ++ ins :: rest ∧ ins.command = .effect (.endFinally (.result x)) ∧
    plan.Takes F x ∧ program.blocks.get? b = some code ∧
    (do
      Exec.load code.loads
      Exec.ops (Run.call machines (Program.run machines fuel))
        (done.flatMap (Emit.instruction graph.layout)) : Exec Unit) { toProcess := p } = .ok () f

/--
The ways in which a fault gets past the innermost handler, with the blocks that are run until a
fault is raised again: a `catch` does not take it, or the body of a `finally` comes to its end.
-/
inductive Passes (machines : Machines) (program : Program) (graph : Graph) (plan : Plan) :
    Value → Process → List BlockId → Value → Process → Prop where
  | uncaught {v w : Value} {p p' q : Process} {fuel : Nat} {D : BlockId} :
    Run.route v p = .again p' → p'.state.status? = some (.running D) →
      (plan.label D).role = .dispatch → program.Raises machines fuel p' w q →
        program.Passes machines graph plan v p [D] w q
  | cleaned {v w : Value} {p p' p'' q : Process} {fuel : Nat} {F b : BlockId}
      {bs : List BlockId} :
    Run.route v p = .again p' → p'.state.status? = some (.running F) →
      (plan.label F).role = .cleanup →
      program.Within machines (plan.label F).under.length p' bs p'' →
      program.Completes machines graph plan F fuel p'' b → program.Raises machines fuel p'' w q →
        program.Passes machines graph plan v p (bs ++ [b]) w q

/--
The courses that faults can take, as long as no `finally` body on the way fails or returns.
-/
inductive Course (machines : Machines) (program : Program) (graph : Graph) (plan : Plan) :
    Value → Process → List BlockId → Value → Process → Prop where
  | raised {v : Value} {p : Process} : program.Course machines graph plan v p [] v p
  | passes {u v w : Value} {p q r : Process} {bs bs' : List BlockId} :
    program.Passes machines graph plan u p bs v q →
      program.Course machines graph plan v q bs' w r →
        program.Course machines graph plan u p (bs ++ bs') w r

variable {machines : Machines} {program : Program} {fuel : Nat} {p q : Process} {v : Value}

theorem Executes.unique {r r' : EStateM.Result Stop Frame Flow}
    (h : program.Executes machines fuel p r) (h' : program.Executes machines fuel p r')
    : r = r' := by
  obtain ⟨b, code, hb, hcode, hr⟩ := h
  obtain ⟨b', code', hb', hcode', hr'⟩ := h'
  rw [hb] at hb'
  cases hb'
  rw [hcode] at hcode'
  cases hcode'
  exact hr.symm.trans hr'

theorem Executes.turn {b : BlockId} {f : Frame}
    (h : program.Executes machines fuel p (.ok .next f))
    (hb : p.state.status? = some (.running b))
    : Run.turn machines (Program.run machines fuel) program b p = .again f.toProcess := by
  obtain ⟨b', code, hb', hcode, hexec⟩ := h
  rw [hb] at hb'
  cases hb'
  simp only [Run.turn, hcode, hexec]

theorem Raises.unique_of_thrown {f : Frame} {w : Value} (h : program.Raises machines fuel p w q)
    (hthrown : program.Executes machines fuel p (.error (.thrown v) f))
    : w = v ∧ q = f.toProcess := by
  cases h with
  | missing hstatus hnone =>
    obtain ⟨b, code, hb, hcode, _⟩ := hthrown
    rw [hb] at hstatus
    cases hstatus
    rw [hnone] at hcode
    cases hcode
  | thrown h =>
    cases h.unique hthrown
    exact ⟨rfl, rfl⟩
  | answered h _ => cases h.unique hthrown

theorem Raises.not_next (h : program.Raises machines fuel p v q) {f : Frame}
    : ¬ program.Executes machines fuel p (.ok .next f) := by
  intro hnext
  cases h with
  | missing hstatus hnone =>
    obtain ⟨b, code, hb, hcode, _⟩ := hnext
    rw [hb] at hstatus
    cases hstatus
    rw [hnone] at hcode
    cases hcode
  | thrown h => cases h.unique hnext
  | answered h _ => cases h.unique hnext

theorem Raises.turn {b : BlockId} (h : program.Raises machines fuel p v q)
    (hb : p.state.status? = some (.running b))
    : Run.turn machines (Program.run machines fuel) program b p = Run.route v q := by
  unfold Run.turn
  cases h with
  | missing hstatus hnone =>
    rw [hb] at hstatus
    cases hstatus
    rw [hnone]
  | thrown h =>
    obtain ⟨b', code, hb', hcode, hexec⟩ := h
    rw [hb] at hb'
    cases hb'
    simp only [hcode, hexec]
  | answered h hreply =>
    obtain ⟨b', code, hb', hcode, hexec⟩ := h
    rw [hb] at hb'
    cases hb'
    simp only [hcode, hexec, hreply, Run.answer]

theorem Course.append {graph : Graph} {plan : Plan} {u w : Value} {r : Process}
    {bs bs' : List BlockId} (h : program.Course machines graph plan u p bs v q)
    (hpasses : program.Passes machines graph plan v q bs' w r)
    : program.Course machines graph plan u p (bs ++ bs') w r := by
  induction h with
  | raised => simpa using Course.passes hpasses .raised
  | passes hfirst _ ih =>
    rw [List.append_assoc]
    exact .passes hfirst (ih hpasses)

end Program

theorem Layout.Agrees.respects {layout : Layout} {values : ValueId → Value} {s s' : State}
    {kept : Nat → Prop} (h : layout.Agrees values s) (hrespects : s'.Respects s kept)
    : ∃ values', layout.Agrees values' s' ∧ ∀ id,
        (∀ slot, layout.slots.get? id = some slot → kept slot) → values' id = values id := by
  refine ⟨fun id => ((layout.slots.get? id).map s'.slot).getD (values id), ?_, ?_⟩
  . intro id slot hslot
    have hroom := (Array.getElem?_eq_some_iff.1 (h id slot hslot)).1
    rw [← hrespects.size] at hroom
    simp [hslot, State.slot_eq, hroom]
  . intro id hkept
    cases hslot : layout.slots.get? id with
    | none => simp only [hslot, Option.map_none, Option.getD_none]
    | some slot =>
      have hsame := hrespects.slot slot (hkept slot hslot)
      rw [State.slot_eq s, h id slot hslot] at hsame
      simpa only [hslot, Option.map_some, Option.getD_some] using hsame

namespace State.Stacked

variable {p : Process} {s : State} {b : BlockId} {rest : List BlockId}

theorem route_nil (h : p.state.Stacked []) (v : Value)
    : Run.route v p = .ended (.error (.thrown v) { p with state := p.state.setException v }) := by
  unfold Run.route
  simp only [(h.setException v).handlers]

theorem route_cons (h : p.state.Stacked (b :: rest)) (v : Value)
    : Run.route v p = .again { p with state := (p.state.setException v).resumeAt b } := by
  unfold Run.route
  simp only [(h.setException v).handlers]

theorem exception_routed {handlers : List BlockId} (h : s.Stacked handlers) (v : Value)
    (b : BlockId)
    : ((s.setException v).resumeAt b).exception = v :=
  (slot_setSlot_ne _ (by decide) _).trans (slot_setSlot (h.lt_size (by decide)) v)

end State.Stacked

namespace Plan

structure Faulted (plan : Plan) (layout : Layout) (s : State) (handlers : List BlockId) :
    Prop where
  stacked : s.Stacked handlers
  chain : plan.Chain handlers
  agrees : ∃ values, layout.Agrees values s

/--
Whether a block is part of the body of a `finally` clause, apart from the block that it starts in.
-/
structure InBody (plan : Plan) (F b : BlockId) : Prop where
  inside : F ∈ (plan.label b).inside
  ne : b ≠ F
  enters : ∃ handlers, plan.Enters b handlers ∧ plan.Inner F handlers

def Clears (plan : Plan) (layout : Layout) (F : BlockId) (x : ValueId) (v : Value) (b : BlockId)
    (s : State) : Prop :=
  ∃ handlers values, layout.Agrees values s ∧ plan.At b s handlers ∧
    ((b = F ∧ handlers = F :: (plan.label F).under ∧ s.exception = v) ∨
      (plan.InBody F b ∧ plan.Inner F handlers ∧ values x = v))

variable {plan : Plan} {layout : Layout} {F b : BlockId} {x : ValueId} {v : Value} {s : State}
  {handlers rest : List BlockId} {p : Process}

theorem Faulted.at (h : plan.Faulted layout s (b :: rest)) (v : Value)
    : plan.At b ((s.setException v).resumeAt b) (b :: rest) :=
  .resumeAt (h.stacked.setException v) h.chain h.chain.enters
    (h.stacked.small b (List.mem_cons_self ..))

theorem Clears.block (h : plan.Clears layout F x v b s) {b' : BlockId}
    (hstatus : s.status? = some (.running b'))
    : b = b' := by
  obtain ⟨_, _, _, hat, _⟩ := h
  rw [hat.status] at hstatus
  cases hstatus
  rfl

theorem Clears.setPending (h : plan.Clears layout F x v b s) (apart : layout.Apart) (hne : b ≠ F)
    (value : Value)
    : plan.Clears layout F x v b (s.setPending value) := by
  obtain ⟨handlers, values, hagrees, hat, hcase⟩ := h
  refine ⟨handlers, values, hagrees.onHeader apart (.setPending value), hat.setPending value,
    .inr ?_⟩
  exact hcase.resolve_left fun hentry => hne hentry.1

theorem Chain.mem_under {above below : List BlockId} (h : plan.Chain (above ++ b :: below))
    {a : BlockId} (ha : a ∈ above)
    : b ∈ (plan.label a).under := by
  induction above with
  | nil => cases ha
  | cons top above ih =>
    obtain ⟨_, hunder, htail⟩ := h
    rcases List.mem_cons.1 ha with rfl | ha
    . rw [hunder]
      simp
    . exact ih htail ha

theorem Chain.role (h : plan.Chain handlers) (hb : b ∈ handlers) : (plan.label b).role ≠ .plain := by
  induction handlers with
  | nil => cases hb
  | cons top handlers ih =>
    rcases List.mem_cons.1 hb with rfl | hb
    . exact h.1
    . exact ih h.tail hb

theorem Chain.append {above below : List BlockId} (h : plan.Chain (above ++ below))
    : plan.Chain below := by
  induction above with
  | nil => exact h
  | cons top above ih => exact ih h.tail

end Plan

namespace Graph.Coded

open Plan

variable {options : CompileOptions} {source : Form} {graph : Graph} {plan : Plan}
  {table : Table String Handler} {name : String} {program : Program} {machines : Machines}
  {F b : BlockId} {x : ValueId} {v : Value} {p q : Process} {fuel : Nat}

theorem not_mem_of_inBody (h : graph.Coded options source plan) (hbody : plan.InBody F b)
    {above below : List BlockId} (hchain : plan.Chain (above ++ F :: below))
    : b ∉ above ++ F :: below := by
  intro hmem
  rcases List.mem_append.1 hmem with hmem | hmem
  -- Above the clause there is what was pushed when it was still a handler.
  . obtain ⟨handlers, henters, hinner⟩ := hbody.enters
    have hunder := hchain.mem_under hmem
    have hF : F ∈ handlers := by
      unfold Enters at henters
      split at henters
      . exact henters ▸ hunder
      . exact henters ▸ List.mem_cons_of_mem _ hunder
      . rcases henters with rfl | rfl
        . exact hunder
        . exact List.mem_cons_of_mem _ hunder
    exact h.inner_not_mem hinner hF
  . rcases List.mem_cons.1 hmem with heq | hmem
    . exact hbody.ne heq
    . obtain ⟨_, hunder, _⟩ := hchain.append
      exact h.lt_of_mem_under (hunder ▸ hmem) hbody.inside

theorem cleaning_of_clears (h : graph.Coded options source plan)
    (hrole : (plan.label F).role = .cleanup) (hclears : plan.Clears graph.layout F x v b p.state)
    : ∃ handlers values, graph.layout.Agrees values p.state ∧ plan.At b p.state handlers ∧
        F ∈ (plan.label b).inside ∧ plan.Cleaning F x v b 0 { toProcess := p, values } := by
  obtain ⟨handlers, values, hagrees, hat, hcase⟩ := hclears
  refine ⟨handlers, values, hagrees, hat, ?_⟩
  have hheld : plan.Held b 0 p.state handlers := ⟨hat.stacked, hat.chain, hat.enters.mayHold⟩
  rcases hcase with ⟨rfl, rfl, hexception⟩ | ⟨hbody, hinner, hvalue⟩
  . obtain ⟨outer, hinside, _⟩ := h.inside_cleanup hrole
    refine ⟨by simp [hinside], .inl ⟨rfl, by omega, hheld, fun _ => hexception, by omega⟩⟩
  . exact ⟨hbody.inside, .inr ⟨fun heq => absurd heq hbody.ne, handlers, hheld, hinner, hvalue,
      by omega⟩⟩

theorem executes_clears (h : graph.Coded options source plan) (hsmall : graph.IsSmall)
    (hprogram : Program.ofGraph graph table name = .ok program)
    (hrole : (plan.label F).role = .cleanup) (hx : plan.Takes F x) (hv : v.isNil = false)
    (hclears : plan.Clears graph.layout F x v b p.state) {r : EStateM.Result Stop Frame Flow}
    (hr : program.Executes machines fuel p r)
    : ∃ r', Sim graph.layout (Linked.Leaves graph.layout table) r r' ∧ plan.Cleans F x v r' := by
  obtain ⟨handlers, values, hagrees, hat, hinside, hcleaning⟩ := h.cleaning_of_clears hrole hclears
  obtain ⟨b', code, hb', hcode, hexec⟩ := hr
  rw [hat.status] at hb'
  cases hb'
  rcases h.get?_program hprogram b with ⟨_, hnone⟩ | ⟨code', hsome, hemit⟩
  . rw [hnone] at hcode
    cases hcode
  . rw [hsome] at hcode
    cases hcode
    have hsim := h.sim_block hemit (Run.call machines (Program.run machines fuel)) hagrees
    rw [hexec] at hsim
    refine ⟨_, hsim, h.code_cleans hsmall hrole hx hv hinside _ hcleaning ?_⟩
    obtain ⟨effects, last, t, hsplit, ht, _⟩ := Emit.block_ok hemit
    exact ⟨last, by simp [hsplit], by simp [Instruction.isTransfer, ht]⟩

theorem keeps_of_takes (h : graph.Coded options source plan) (hx : plan.Takes F x)
    : ∀ slot, graph.layout.slots.get? x = some slot → graph.KeepsFaultsIn slot := by
  intro slot hslot
  obtain ⟨span, htake⟩ := hx
  refine .inr (.inr ⟨F, { id := x, command := .effect .takeException, span }, ?_, rfl, hslot⟩)
  rw [h.code F]
  exact List.mem_of_getElem? htake

theorem suspends_clears (h : graph.Coded options source plan) (hsmall : graph.IsSmall)
    (hprogram : Program.ofGraph graph table name = .ok program)
    (hhandlers : program.Supports machines table graph.KeepsFaultsIn)
    (hrole : (plan.label F).role = .cleanup) (hx : plan.Takes F x) (hv : v.isNil = false)
    (hclears : plan.Clears graph.layout F x v b p.state) {handler : Handler} {resume : BlockId}
    {args : List Value} {f : Frame}
    (hexec : program.Executes machines fuel p (.ok (.suspend handler resume args) f))
    : plan.InBody F resume ∧
        (handler f.state resume args).Keeps machines program graph.KeepsFaultsIn f.state resume ∧
        ∀ s, s.Respects f.state graph.KeepsFaultsIn → ∃ handlers values,
          graph.layout.Agrees values s ∧ plan.Carries F x v s values handlers ∧
            (s.slot 1 = State.ofBlock resume → plan.At resume s handlers) := by
  obtain ⟨_, hsim, hcleans⟩ := h.executes_clears hsmall hprogram hrole hx hv hclears hexec
  cases hsim with
  | ok hleaves =>
    obtain ⟨hflow, hlinked⟩ := hleaves
    cases hcleans with
    | next => cases hflow
    | done => cases hflow
    | suspend hlt henters hcarries hinside hne =>
      obtain ⟨_, hhandler, hsame⟩ := Option.map_eq_some_iff.1 hflow
      cases hsame
      have hstacked := hcarries.stacked.alike hlinked.header
      refine ⟨⟨hinside, hne, _, henters, hcarries.inner⟩,
        hhandlers _ _ hhandler f.state resume args hstacked.room, ?_⟩
      intro s hrespects
      obtain ⟨values, hagrees, hsame⟩ := hlinked.agrees.respects hrespects
      have hstacked' := hstacked.respects hrespects (.inl rfl)
      refine ⟨_, values, hagrees, ⟨hstacked', hcarries.chain, hcarries.inner,
        (hsame x (h.keeps_of_takes hx)).trans hcarries.value⟩, ?_⟩
      intro hresume
      exact ⟨hresume, hlt, hstacked', hcarries.chain, henters⟩

theorem advances_clears (h : graph.Coded options source plan) (hsmall : graph.IsSmall)
    (hprogram : Program.ofGraph graph table name = .ok program)
    (hhandlers : program.Supports machines table graph.KeepsFaultsIn)
    (hrole : (plan.label F).role = .cleanup) (hx : plan.Takes F x) (hv : v.isNil = false)
    (hclears : plan.Clears graph.layout F x v b p.state) (hadvances : program.Advances machines p q)
    : ∃ b', plan.InBody F b' ∧ plan.Clears graph.layout F x v b' q.state := by
  have hsuspend : ∀ {fuel handler resume args f},
      program.Executes machines fuel p (.ok (.suspend handler resume args) f) →
        plan.InBody F resume ∧
          (handler f.state resume args).Keeps machines program graph.KeepsFaultsIn f.state resume ∧
          ∀ s, s.Respects f.state graph.KeepsFaultsIn → s.slot 1 = State.ofBlock resume →
            plan.Clears graph.layout F x v resume s := by
    intro fuel handler resume args f hexec
    obtain ⟨hbody, hkeeps, hcarries⟩ := h.suspends_clears hsmall hprogram hhandlers hrole hx hv
      hclears hexec
    refine ⟨hbody, hkeeps, ?_⟩
    intro s hrespects hresume
    obtain ⟨handlers, values, hagrees, hcarried, hat⟩ := hcarries s hrespects
    exact ⟨handlers, values, hagrees, hat hresume, .inr ⟨hbody, hcarried.inner, hcarried.value⟩⟩
  cases hadvances with
  | next hexec =>
    obtain ⟨_, hsim, hcleans⟩ := h.executes_clears hsmall hprogram hrole hx hv hclears hexec
    cases hsim with
    | ok hleaves =>
      obtain ⟨hflow, hlinked⟩ := hleaves
      cases hcleans with
      | next hat hcarries hinside hne =>
        have hbody : plan.InBody F _ := ⟨hinside, hne, _, hat.enters, hcarries.inner⟩
        exact ⟨_, hbody, _, _, hlinked.agrees, hat.alike hlinked.header,
          .inr ⟨hbody, hcarries.inner, hcarries.value⟩⟩
      | done => cases hflow
      | suspend =>
        obtain ⟨_, _, hsame⟩ := Option.map_eq_some_iff.1 hflow
        cases hsame
  | «continue» hexec hreply =>
    obtain ⟨hbody, hkeeps, hgo⟩ := hsuspend hexec
    rw [hreply] at hkeeps
    cases hkeeps with
    | «continue» hrespects hresume => exact ⟨_, hbody, hgo _ hrespects hresume⟩
  | resume hexec hreply hstate =>
    obtain ⟨hbody, hkeeps, hgo⟩ := hsuspend hexec
    rw [hreply] at hkeeps
    cases hkeeps with
    | suspend hrespects hresume =>
      have hclears' := hgo _ hrespects hresume
      refine ⟨_, hbody, ?_⟩
      rcases hstate with rfl | ⟨value, rfl⟩
      . exact hclears'
      . exact hclears'.setPending graph.layout_apart hbody.ne value
  | drive hexec hreply =>
    obtain ⟨hbody, hkeeps, hgo⟩ := hsuspend hexec
    rw [hreply] at hkeeps
    cases hkeeps with
    | drive hrespects hresume _ => exact ⟨_, hbody, hgo _ hrespects hresume⟩

theorem raises_clears (h : graph.Coded options source plan) (hsmall : graph.IsSmall)
    (hprogram : Program.ofGraph graph table name = .ok program)
    (hhandlers : program.Supports machines table graph.KeepsFaultsIn)
    (hrole : (plan.label F).role = .cleanup) (hx : plan.Takes F x) (hv : v.isNil = false)
    (hclears : plan.Clears graph.layout F x v b p.state) {w : Value}
    (hraises : program.Raises machines fuel p w q)
    : ∃ handlers values, graph.layout.Agrees values q.state ∧
        plan.Carries F x v q.state values handlers := by
  cases hraises with
  | missing hstatus hnone =>
    obtain ⟨handlers, values, hagrees, hat, hcase⟩ := hclears
    rw [hat.status] at hstatus
    cases hstatus
    rcases hcase with ⟨rfl, _, _⟩ | ⟨_, hinner, hvalue⟩
    . obtain ⟨_, htake⟩ := hx
      rcases h.get?_program hprogram b with ⟨hempty, _⟩ | ⟨_, hsome, _⟩
      . rw [hempty] at htake
        cases htake
      . rw [hnone] at hsome
        cases hsome
    . exact ⟨handlers, values, hagrees, hat.stacked, hat.chain, hinner, hvalue⟩
  | thrown hexec =>
    obtain ⟨_, hsim, hcleans⟩ := h.executes_clears hsmall hprogram hrole hx hv hclears hexec
    cases hsim with
    | error hlinked =>
      cases hcleans with
      | stop hcarries =>
        exact ⟨_, _, hlinked.agrees,
          { hcarries with stacked := hcarries.stacked.alike hlinked.header }⟩
  | answered hexec hreply =>
    obtain ⟨_, hkeeps, hcarries⟩ := h.suspends_clears hsmall hprogram hhandlers hrole hx hv hclears
      hexec
    rw [hreply] at hkeeps
    cases hkeeps with
    | fault hrespects =>
      obtain ⟨handlers, values, hagrees, hcarried, _⟩ := hcarries _ hrespects
      exact ⟨handlers, values, hagrees, hcarried⟩

theorem within_clears (h : graph.Coded options source plan) (hsmall : graph.IsSmall)
    (hprogram : Program.ofGraph graph table name = .ok program)
    (hhandlers : program.Supports machines table graph.KeepsFaultsIn)
    (hrole : (plan.label F).role = .cleanup) (hx : plan.Takes F x) (hv : v.isNil = false)
    (hclears : plan.Clears graph.layout F x v b p.state) {bs : List BlockId}
    (hwithin : program.Within machines (plan.label F).under.length p bs q)
    : ∃ b' later, plan.Clears graph.layout F x v b' q.state ∧ bs ++ [b'] = b :: later ∧
        ∀ c ∈ later, plan.InBody F c := by
  induction hwithin generalizing b with
  | here => exact ⟨b, [], hclears, rfl, by simp⟩
  | advance hstatus hadvances _ ih =>
    obtain rfl := hclears.block hstatus
    obtain ⟨b₁, hbody, hclears₁⟩ := h.advances_clears hsmall hprogram hhandlers hrole hx hv hclears
      hadvances
    obtain ⟨b', later, hclears', hbs, hlater⟩ := ih hclears₁
    refine ⟨b', b₁ :: later, hclears', by rw [List.cons_append, hbs], ?_⟩
    rw [List.forall_mem_cons]
    exact ⟨hbody, hlater⟩
  | @caught p q q' r fuel _ value bs hstatus hraises haround hroute _ ih =>
    obtain rfl := hclears.block hstatus
    obtain ⟨handlers, values, hagrees, hcarries⟩ := h.raises_clears hsmall hprogram hhandlers hrole
      hx hv hclears hraises
    obtain ⟨inner, rfl, hinner⟩ := hcarries.inner
    rw [hcarries.stacked.handlers, List.length_append] at haround
    cases inner with
    | nil => exact absurd haround (by simp)
    | cons b₁ inner =>
      have hfaulted : plan.Faulted graph.layout q.state (b₁ :: (inner ++ (plan.label F).under)) :=
        ⟨hcarries.stacked, hcarries.chain, values, hagrees⟩
      rw [hfaulted.stacked.route_cons] at hroute
      cases hroute
      have hat := hfaulted.at value
      obtain ⟨hinside, hne⟩ := hinner b₁ (List.mem_cons_self ..)
      have hbody : plan.InBody F b₁ := ⟨hinside, hne, _, hat.enters, hcarries.inner⟩
      obtain ⟨b', later, hclears', hbs, hlater⟩ := ih
        ⟨_, values, hagrees.routed graph.layout_apart value b₁, hat,
          .inr ⟨hbody, hcarries.inner, hcarries.value⟩⟩
      refine ⟨b', b₁ :: later, hclears', by rw [List.cons_append, hbs], ?_⟩
      rw [List.forall_mem_cons]
      exact ⟨hbody, hlater⟩

theorem completes_plain (h : graph.Coded options source plan)
    (hprogram : Program.ofGraph graph table name = .ok program) {values : ValueId → Value}
    (hagrees : graph.layout.Agrees values p.state)
    (hcompletes : program.Completes machines graph plan F fuel p b)
    : ∃ done ins rest x code p', p.state.status? = some (.running b) ∧
        plan.code b = done ++ ins :: rest ∧ ins.command = .effect (.endFinally (.result x)) ∧
        plan.Takes F x ∧ (∀ ins ∈ done, ∃ e, ins.command = .effect e) ∧
        Plain.effects (Run.call machines (Program.run machines fuel)) done
          { toProcess := p, values } = .ok () p' ∧
        program.blocks.get? b = some code ∧
        Emit.block graph.layout table b (plan.code b) = .ok code := by
  obtain ⟨done, ins, rest, x, code, f, hstatus, hsplit, hend, hx, hget, hexec⟩ := hcompletes
  rcases h.get?_program hprogram b with ⟨_, hnone⟩ | ⟨code', hsome, hemit⟩
  . rw [hnone] at hget
    cases hget
  rw [hsome] at hget
  cases hget
  have hregular := h.regular hsplit (by simp)
  have heffects : ∀ ins ∈ done, ∃ e, ins.command = .effect e := by
    intro ins hins
    obtain ⟨e, he, _⟩ := hregular ins hins
    exact ⟨e, he⟩
  obtain ⟨_, _, _, _, _, _, hloads, _⟩ := Emit.block_ok hemit
  obtain ⟨f₀, hload, hlinked⟩ := h.load_linked hloads hagrees
  have hlive : ∀ id, id ∈ [] ∨ id ∈ Emit.readFirst [] (done ++ ins :: rest) →
      id ∈ Emit.readFirst [] (plan.code b) := by
    intro id hid
    rw [hsplit]
    exact hid.resolve_left List.not_mem_nil
  have hsim := @Linked.sim_effects _ _ _ _ (Run.call machines (Program.run machines fuel)) hlinked
    graph.layout_apart done (ins :: rest) hregular [] hlive
  rw [bind_of_ok hload] at hexec
  rw [hexec] at hsim
  obtain ⟨_, p', hdone, _⟩ := hsim.ok_left
  exact ⟨done, ins, rest, x, code, p', hstatus, hsplit, hend, hx, heffects, hdone, hsome, hemit⟩

theorem completes_raises (h : graph.Coded options source plan) (hsmall : graph.IsSmall)
    (hprogram : Program.ofGraph graph table name = .ok program)
    (hrole : (plan.label F).role = .cleanup) (hx : plan.Takes F x) (hv : v.isNil = false)
    (hclears : plan.Clears graph.layout F x v b p.state) {b' : BlockId}
    (hcompletes : program.Completes machines graph plan F fuel p b')
    : b' = b ∧ ∃ f, program.Executes machines fuel p (.error (.thrown v) f) ∧
        plan.Faulted graph.layout f.state (plan.label F).under := by
  obtain ⟨_, values, hagrees, hat, hinside, hcleaning⟩ := h.cleaning_of_clears hrole hclears
  obtain ⟨done, ins, rest, x', code, p', hstatus, hsplit, hend, hx', heffects, hdone, hsome,
    hemit⟩ := h.completes_plain hprogram hagrees hcompletes
  obtain rfl := hx.unique hx'
  obtain rfl := hclears.block hstatus
  refine ⟨rfl, ?_⟩
  have hcleaning' : plan.Cleaning F x v b done.length p' := by
    refine Plain.effects_inv ?_ hsplit heffects hcleaning hdone
    intro i ins e p p' hi he hcleaning hok
    exact h.cleaning_effect hsmall hrole hx hv hinside hcleaning hi he hok
  have hi : (plan.code b)[done.length]? = some ins := by simp [hsplit]
  have hother : ¬ IsPrologue b done.length ins.command := by
    simp [IsPrologue, hend, Command.receive]
  obtain ⟨handlers, hbody⟩ := h.body_of_cleaning hrole hcleaning' hi hother
  have hthrown : Plain.code (Run.call machines (Program.run machines fuel)) (plan.code b)
      { toProcess := p, values } = .error (.thrown v) p' := by
    rw [hsplit, Plain.code_append _ heffects, bind_of_ok hdone]
    simp only [Plain.code, hend]
    apply bind_of_error
    rw [Plain.effect_endFinally, hbody.value, hv]
    rfl
  have hblock := h.sim_block hemit (Run.call machines (Program.run machines fuel)) hagrees
  rw [hthrown] at hblock
  obtain ⟨f', hexec', hlinked'⟩ := hblock.error_right
  refine ⟨f', ⟨b, code, hat.status, hsome, hexec'⟩, ?_⟩
  have hstack := hbody.held.mayHold.eq_stackAt (h.blockFits b) hi hother
  have hfits := h.fits hi
  rw [hend] at hfits
  cases hfits with
  | plain hplain => cases hplain
  | endFinally htakes _ _ hunder =>
    obtain rfl := h.takes_inj hx htakes
    rw [hunder] at hstack
    exact ⟨hstack ▸ hbody.held.stacked.alike hlinked'.header, hstack ▸ hbody.held.chain, _,
      hlinked'.agrees⟩

end Graph.Coded

end Resumable
