import Resumable.Proofs.Handlers.Within

/-!
This module contains the propagation of faults: a fault is delivered to the first clause that takes
it, and the `finally` bodies on its way are run in order.
-/

namespace Resumable

structure CatchClause.IsFirst (heap : Heap) (value : Value) (catches : List CatchClause) (k : Nat)
    (clause : CatchClause) : Prop where
  at_index : catches[k]? = some clause
  takes : Exec.catches heap value clause.type = true
  others : ∀ j < k, ∀ other, catches[j]? = some other →
    Exec.catches heap value other.type = false

theorem CatchClause.find?_first (heap : Heap) (value : Value) (catches : List CatchClause)
    (first : BlockId)
    : (∃ k clause, IsFirst heap value catches k clause ∧
          ((List.range' first catches.length).zip (catches.map (·.type))).find?
            (Exec.catches heap value ·.2) = some (first + k, clause.type)) ∨
        (∀ clause ∈ catches, Exec.catches heap value clause.type = false) ∧
          ((List.range' first catches.length).zip (catches.map (·.type))).find?
            (Exec.catches heap value ·.2) = none := by
  induction catches generalizing first with
  | nil => exact .inr ⟨by simp, rfl⟩
  | cons clause catches ih =>
    rw [List.length_cons, List.range'_succ, List.map_cons, List.zip_cons_cons, List.find?_cons]
    cases htakes : Exec.catches heap value clause.type with
    | true => exact .inl ⟨0, clause, ⟨rfl, htakes, by simp⟩, rfl⟩
    | false =>
      simp only
      rcases ih (first + 1) with ⟨k, taken, hfirst, hfind⟩ | ⟨hnone, hfind⟩
      . refine .inl ⟨k + 1, taken, ⟨hfirst.at_index, hfirst.takes, ?_⟩, ?_⟩
        . intro j hj other hother
          cases j with
          | zero =>
            cases hother
            exact htakes
          | succ j => exact hfirst.others j (Nat.lt_of_succ_lt_succ hj) other hother
        . rw [hfind, Nat.add_assoc, Nat.add_comm 1]
      . right
        rw [List.forall_mem_cons]
        exact ⟨⟨htakes, hnone⟩, hfind⟩

namespace Plan

def ClauseAt (options : CompileOptions) (plan : Plan) (D : BlockId) (clause : CatchClause)
    (block : BlockId) : Prop :=
  ∃ (scope : Scope) (s t : Spot) (r : Option (List Operand)),
    plan.label block = ⟨(plan.label D).under, .plain, (plan.label D).inside⟩ ∧
    plan.Holds (s.goTo block) [.receive] ∧
    Code options plan (plan.label D).under (scope.bind clause.name s.value) ((s.goTo block).skip 1)
      (.body (.literal .nil) clause.body) r t

structure Catches (options : CompileOptions) (plan : Plan) (D first : BlockId)
    (catches : List CatchClause) : Prop where
  code : ∃ i j span span', plan.code D = [
    { id := i, command := .effect (.popHandler D), span },
    { id := j
      command := .transfer
        (.dispatch ((List.range' first catches.length).zip (catches.map (·.type))))
      span := span' }]
  clauses : ∀ (k : Nat) clause, catches[k]? = some clause → plan.ClauseAt options D clause (first + k)

end Plan

theorem Code.clause {options : CompileOptions} {plan : Plan} {handlers : List BlockId}
    {scope : Scope} {s t : Spot} {after : BlockId} {pairs : List (CatchClause × BlockId)}
    {live : Bool} (h : Code options plan handlers scope s (.clauses after pairs live) none t)
    {pair : CatchClause × BlockId} (hmem : pair ∈ pairs)
    : ∃ (s t : Spot) (r : Option (List Operand)), plan.label pair.2 = .plain handlers scope ∧
        plan.Holds (s.goTo pair.2) [.receive] ∧
        Code options plan handlers (scope.bind pair.1.name s.value) ((s.goTo pair.2).skip 1)
          (.body (.literal .nil) pair.1.body) r t := by
  induction pairs generalizing s live with
  | nil => cases hmem
  | cons first pairs ih =>
    cases h with
    | clausesLive hlabel hreceive hbody _ hrest =>
      rcases List.mem_cons.1 hmem with rfl | hmem
      . exact ⟨_, _, _, hlabel, hreceive, hbody⟩
      . exact ih hrest hmem
    | clausesDead hlabel hreceive hbody hrest =>
      rcases List.mem_cons.1 hmem with rfl | hmem
      . exact ⟨_, _, _, hlabel, hreceive, hbody⟩
      . exact ih hrest hmem

theorem Code.catches {options : CompileOptions} {plan : Plan} {handlers : List BlockId}
    {scope : Scope} {s t : Spot} {blocks : TryBlocks} {catches : List CatchClause} {live : Bool}
    {D : BlockId} (h : Code options plan handlers scope s (.catching blocks catches live) none t)
    (horderly : Orderly plan.code) (hblock : blocks.dispatch = some D)
    (hlabel : plan.label D =
      { under := blocks.cleanup.toList ++ handlers, role := .dispatch, inside := scope.finallys })
    : plan.Catches options D s.fresh catches := by
  cases h with
  | catchingNone hnone =>
    rw [hblock] at hnone
    cases hnone
  | catching hdispatch hholds hclauses =>
    rw [hblock] at hdispatch
    cases hdispatch
    constructor
    case code =>
      obtain ⟨⟨span, hpop⟩, ⟨span', hleave⟩, _⟩ := hholds
      simp only [Spot.goTo, Spot.skip] at hpop hleave
      have hlength := horderly.last hleave rfl
      refine ⟨s.value, s.value + 1, span, span', ?_⟩
      generalize plan.code D = code at hpop hleave hlength
      rcases code with _ | ⟨pop, _ | ⟨leave, _ | ⟨_, _⟩⟩⟩ <;> try cases hlength
      cases hpop
      cases hleave
      rfl
    case clauses =>
      intro k clause hclause
      have hlt := (List.getElem?_eq_some_iff.1 hclause).1
      have hmem : (clause, s.fresh + k) ∈ catches.zip (.range' s.fresh catches.length) := by
        apply List.mem_of_getElem? (i := k)
        rw [List.getElem?_zip_eq_some]
        exact ⟨hclause, by simp [hlt]⟩
      obtain ⟨s', t', r, hclause, hreceive, hbody⟩ := hclauses.clause hmem
      unfold Plan.ClauseAt
      rw [hlabel]
      exact ⟨_, s', t', r, hclause, hreceive, hbody⟩

theorem Graph.Coded.catches {options : CompileOptions} {source : Form} {graph : Graph} {plan : Plan}
    (h : graph.Coded options source plan) {D : BlockId} (hrole : (plan.label D).role = .dispatch)
    : ∃ first catches, plan.Catches options D first catches := by
  obtain ⟨handlers, scope, s, blocks, catches, live, t, hcode, hblock, hlabel⟩ :=
    (h.blockFits D).dispatch hrole
  exact ⟨s.fresh, catches, hcode.catches h.toOrderly hblock hlabel⟩

theorem State.exception_popHandler (s : State) (b : BlockId)
    : (s.popHandler b).exception = s.exception := by
  unfold popHandler
  split
  . rfl
  . split
    . exact slot_setSlot_ne s (by decide) _
    . rfl

theorem State.Stacked.pending_delivered {s : State} {handlers : List BlockId}
    (h : s.Stacked handlers) (v : Value) (b : BlockId)
    : (((s.setPending v).clearException).resumeAt b).pending = v :=
  ((slot_setSlot_ne _ (by decide) _).trans (slot_setSlot_ne _ (by decide) _)).trans
    (slot_setSlot (h.lt_size (by decide)) v)

theorem State.Stacked.exception_delivered {s : State} {handlers : List BlockId}
    (h : s.Stacked handlers) (v : Value) (b : BlockId)
    : (((s.setPending v).clearException).resumeAt b).exception = .nil :=
  (slot_setSlot_ne _ (by decide) _).trans
    (slot_setSlot ((h.setPending v).lt_size (by decide)) .nil)

structure Process.Delivered (p : Process) (block : BlockId) (v : Value) (handlers : List BlockId) :
    Prop where
  status : p.state.status? = some (.running block)
  pending : p.state.pending = v
  exception : p.state.exception = .nil
  handlers : p.state.handlers = handlers

namespace Program

/--
What a fault comes to where it is raised, by the handlers that it finds. The step ends with it if
there are none. Otherwise the innermost one is entered:

* The first clause of a `catch` that takes the value is started, and was not before.
* If there is no such clause, the value is thrown again.
* When the body of a `finally` has come to its end, the value is thrown again.
-/
inductive Fate (machines : Machines) (program : Program) (options : CompileOptions)
    (graph : Graph) (plan : Plan) (v : Value) (before : List BlockId) (p : Process) :
    List BlockId → Prop where
  | surfaced {p' : Process} :
    Run.route v p = .ended (.error (.thrown v) p') →
      program.Fate machines options graph plan v before p []
  | delivered {D first : BlockId} {rest : List BlockId} {catches : List CatchClause} {k : Nat}
      {clause : CatchClause} {p' : Process} :
    (plan.label D).role = .dispatch → plan.Catches options D first catches →
      CatchClause.IsFirst p.store.heap v catches k clause → first + k ∉ before →
      Run.route v p = .again p' → p'.state.status? = some (.running D) →
      (∀ fuel, ∃ q, Run.turn machines (Program.run machines fuel) program D p' = .again q ∧
        q.Delivered (first + k) v rest) →
        program.Fate machines options graph plan v before p (D :: rest)
  | uncaught {D first : BlockId} {rest : List BlockId} {catches : List CatchClause}
      {p' : Process} :
    (plan.label D).role = .dispatch → plan.Catches options D first catches →
      (∀ clause ∈ catches, Exec.catches p.store.heap v clause.type = false) →
      Run.route v p = .again p' → p'.state.status? = some (.running D) →
      (∀ fuel, ∃ q, program.Raises machines fuel p' v q ∧ q.state.handlers = rest) →
        program.Fate machines options graph plan v before p (D :: rest)
  | cleaned {F : BlockId} {rest : List BlockId} {p' : Process} :
    (plan.label F).role = .cleanup → Run.route v p = .again p' →
      p'.state.status? = some (.running F) →
      (∀ fuel bs p'' b, program.Within machines (plan.label F).under.length p' bs p'' →
        program.Completes machines graph plan F fuel p'' b →
          ∃ q, program.Raises machines fuel p'' v q ∧ q.state.handlers = rest) →
        program.Fate machines options graph plan v before p (F :: rest)

/--
Whether the body of every `finally` that a fault leads to can come to its end.
-/
def Completing (machines : Machines) (program : Program) (graph : Graph) (plan : Plan)
    (v : Value) (p : Process) : Prop :=
  ∀ bs q q' F, program.Course machines graph plan v p bs v q → Run.route v q = .again q' →
    q'.state.status? = some (.running F) → (plan.label F).role = .cleanup →
      ∃ fuel bs' q'' b, program.Within machines (plan.label F).under.length q' bs' q'' ∧
        program.Completes machines graph plan F fuel q'' b

/--
Whether a fault that is raised finds no handler, or a clause that takes it at the innermost one.
-/
def Arrives (options : CompileOptions) (plan : Plan) (v : Value) (p : Process) : Prop :=
  p.state.handlers = [] ∨ ∃ (D first : BlockId) (rest : List BlockId)
    (catches : List CatchClause) (k : Nat) (clause : CatchClause), p.state.handlers = D :: rest ∧
      (plan.label D).role = .dispatch ∧ plan.Catches options D first catches ∧
        CatchClause.IsFirst p.store.heap v catches k clause

end Program

namespace Graph.Coded

open Plan

variable {options : CompileOptions} {source : Form} {graph : Graph} {plan : Plan}
  {table : Table String Handler} {name : String} {program : Program} {machines : Machines}
  {D : BlockId} {rest : List BlockId} {v : Value} {p : Process}

theorem code_dispatch {first : BlockId} {catches : List CatchClause}
    (hcatches : plan.Catches options D first catches) (call : Caller) {p : Plain}
    : Plain.code call (plan.code D) p =
        Plain.transfer
          (.dispatch ((List.range' first catches.length).zip (catches.map (·.type))))
          { p with state := p.state.popHandler D } := by
  obtain ⟨i, j, span, span', hcode⟩ := hcatches.code
  rw [hcode]
  rfl

theorem executes_dispatch (h : graph.Coded options source plan) (hsmall : graph.IsSmall)
    (hprogram : Program.ofGraph graph table name = .ok program) (machines : Machines)
    (hstacked : p.state.Stacked (D :: rest))
    (hagrees : ∃ values, graph.layout.Agrees values p.state) {first : BlockId}
    {catches : List CatchClause} (hcatches : plan.Catches options D first catches) (v : Value)
    : (∃ k clause, CatchClause.IsFirst p.store.heap v catches k clause ∧
          ∀ fuel, ∃ f, program.Executes machines fuel
              { p with state := (p.state.setException v).resumeAt D } (.ok .next f) ∧
            f.toProcess.Delivered (first + k) v rest) ∨
        (∀ clause ∈ catches, Exec.catches p.store.heap v clause.type = false) ∧
          ∀ fuel, ∃ f, program.Executes machines fuel
              { p with state := (p.state.setException v).resumeAt D } (.error (.thrown v) f) ∧
            f.state.Stacked rest ∧ ∃ values, graph.layout.Agrees values f.state := by
  obtain ⟨values, hagrees⟩ := hagrees
  have hthrown := hstacked.setException v
  have hstatus : ((p.state.setException v).resumeAt D).status? = some (.running D) :=
    State.status?_of_block (State.slot_setSlot (hthrown.lt_size (by decide)) _)
      (hstacked.small D (List.mem_cons_self ..))
  -- The block takes itself out of force first, so what it throws again is not led back to it.
  have hpopped : (((p.state.setException v).resumeAt D).popHandler D).Stacked rest := by
    have hpopped := (hthrown.setSlot (i := 1) (by decide) (State.ofBlock D)).popHandler D
    rwa [List.head?_cons, if_pos rfl, List.tail_cons] at hpopped
  obtain ⟨i, j, span, span', hcode⟩ := hcatches.code
  rcases h.get?_program hprogram D with ⟨hempty, _⟩ | ⟨code, hsome, hemit⟩
  . rw [hcode] at hempty
    cases hempty
  have hagrees' : graph.layout.Agrees values
      ({ p with state := (p.state.setException v).resumeAt D } : Process).state :=
    hagrees.routed graph.layout_apart v D
  have hsim := fun fuel =>
    h.sim_block hemit (Run.call machines (Program.run machines fuel)) hagrees'
  simp only [code_dispatch hcatches, Plain.transfer_dispatch, State.exception_popHandler,
    hstacked.exception_routed] at hsim
  rcases CatchClause.find?_first p.store.heap v catches first with
    ⟨k, clause, hfirst, hfind⟩ | ⟨hnone, hfind⟩
  . refine .inl ⟨k, clause, hfirst, ?_⟩
    intro fuel
    have hsim := hsim fuel
    rw [hfind] at hsim
    obtain ⟨_, f, hexec, hflow, hlinked⟩ := hsim.ok_right
    cases hflow
    refine ⟨f, ⟨D, code, hstatus, hsome, hexec⟩, ?_⟩
    have hmem : first + k ∈ (Transfer.dispatch
        ((List.range' first catches.length).zip (catches.map (·.type)))).references :=
      List.mem_map.2 ⟨_, List.mem_of_find?_eq_some hfind, rfl⟩
    have hlt : first + k < State.blockLimit := by
      apply h.small_references hsmall (b := D) (i := 1)
      . rw [hcode]
        rfl
      . exact hmem
    have hdelivered := (hpopped.setPending v).setException .nil
    have hnext := (hdelivered.setSlot (i := 1) (by decide) (State.ofBlock (first + k))).alike
      hlinked.header
    exact {
      status := State.status?_of_block ((hlinked.header.slot (by decide)).trans
        (State.slot_setSlot (hdelivered.lt_size (by decide)) _)) hlt
      pending := (hlinked.header.slot (by decide)).trans (hpopped.pending_delivered v (first + k))
      exception := (hlinked.header.slot (by decide)).trans
        (hpopped.exception_delivered v (first + k))
      handlers := hnext.handlers }
  . refine .inr ⟨hnone, ?_⟩
    intro fuel
    have hsim := hsim fuel
    rw [hfind] at hsim
    obtain ⟨f, hexec, hlinked⟩ := hsim.error_right
    exact ⟨f, ⟨D, code, hstatus, hsome, hexec⟩, hpopped.alike hlinked.header, _, hlinked.agrees⟩

theorem takes_of_cleanup (h : graph.Coded options source plan) {F : BlockId}
    (hrole : (plan.label F).role = .cleanup)
    : ∃ x, plan.Takes F x := by
  obtain ⟨value, _, htake, _⟩ := (h.blockFits F).cleanup_code hrole
  exact ⟨value + 1, htake⟩

theorem clears_of_faulted {F : BlockId} (hfaulted : plan.Faulted graph.layout p.state (F :: rest))
    (x : ValueId) (v : Value)
    : plan.Clears graph.layout F x v F ((p.state.setException v).resumeAt F) := by
  obtain ⟨values, hagrees⟩ := hfaulted.agrees
  exact ⟨_, values, hagrees.routed graph.layout_apart v F, hfaulted.at v,
    .inl ⟨rfl, by rw [hfaulted.chain.2.1], hfaulted.stacked.exception_routed v F⟩⟩

theorem completes_of_faulted (h : graph.Coded options source plan) (hsmall : graph.IsSmall)
    (hprogram : Program.ofGraph graph table name = .ok program)
    (hhandlers : program.Supports machines table graph.KeepsFaultsIn) (hv : v.isNil = false)
    {F : BlockId} (hfaulted : plan.Faulted graph.layout p.state (F :: rest))
    (hrole : (plan.label F).role = .cleanup) {fuel : Nat} {bs : List BlockId} {q : Process}
    {b : BlockId}
    (hwithin : program.Within machines (plan.label F).under.length
      { p with state := (p.state.setException v).resumeAt F } bs q)
    (hcompletes : program.Completes machines graph plan F fuel q b)
    : ∃ later f, bs ++ [b] = F :: later ∧ (∀ c ∈ later, plan.InBody F c) ∧
        program.Executes machines fuel q (.error (.thrown v) f) ∧
        plan.Faulted graph.layout f.state rest := by
  obtain ⟨x, hx⟩ := h.takes_of_cleanup hrole
  obtain ⟨b', later, hclears, hbs, hlater⟩ := h.within_clears hsmall hprogram hhandlers hrole hx hv
    (clears_of_faulted hfaulted x v) hwithin
  obtain ⟨rfl, f, hexec, hfaulted'⟩ := h.completes_raises hsmall hprogram hrole hx hv hclears
    hcompletes
  rw [hfaulted.chain.2.1] at hfaulted'
  exact ⟨later, f, hbs, hlater, hexec, hfaulted'⟩

theorem passes_faulted (h : graph.Coded options source plan) (hsmall : graph.IsSmall)
    (hprogram : Program.ofGraph graph table name = .ok program)
    (hhandlers : program.Supports machines table graph.KeepsFaultsIn) (hv : v.isNil = false)
    {handlers : List BlockId} (hfaulted : plan.Faulted graph.layout p.state handlers)
    {bs : List BlockId} {w : Value} {q : Process}
    (hpasses : program.Passes machines graph plan v p bs w q)
    : ∃ b rest later, handlers = b :: rest ∧ w = v ∧ plan.Faulted graph.layout q.state rest ∧
        bs = b :: later ∧ ∀ c ∈ later, (plan.label b).role = .cleanup ∧ plan.InBody b c := by
  have hcons : ∀ {p' b}, Run.route v p = .again p' → p'.state.status? = some (.running b) →
      ∃ rest, handlers = b :: rest ∧
        p' = { p with state := (p.state.setException v).resumeAt b } := by
    intro p' b hroute hstatus
    cases handlers with
    | nil =>
      rw [hfaulted.stacked.route_nil] at hroute
      cases hroute
    | cons b' rest =>
      rw [hfaulted.stacked.route_cons] at hroute
      cases hroute
      rw [(hfaulted.at v).status] at hstatus
      cases hstatus
      exact ⟨rest, rfl, rfl⟩
  cases hpasses with
  | uncaught hroute hstatus hrole hraises =>
    obtain ⟨rest, rfl, rfl⟩ := hcons hroute hstatus
    obtain ⟨first, catches, hcatches⟩ := h.catches hrole
    rcases h.executes_dispatch hsmall hprogram machines hfaulted.stacked hfaulted.agrees hcatches
      v with
      ⟨_, _, _, hdelivered⟩ | ⟨_, hthrows⟩
    . obtain ⟨_, hnext, _⟩ := hdelivered _
      exact absurd hnext hraises.not_next
    . obtain ⟨f, hthrown, hstacked, hagrees⟩ := hthrows _
      obtain ⟨rfl, rfl⟩ := hraises.unique_of_thrown hthrown
      exact ⟨_, rest, [], rfl, rfl, ⟨hstacked, hfaulted.chain.tail, hagrees⟩, rfl, by simp⟩
  | cleaned hroute hstatus hrole hwithin hcompletes hraises =>
    obtain ⟨rest, rfl, rfl⟩ := hcons hroute hstatus
    obtain ⟨later, f, hbs, hlater, hthrown, hfaulted'⟩ := h.completes_of_faulted hsmall hprogram
      hhandlers hv hfaulted hrole hwithin hcompletes
    obtain ⟨rfl, rfl⟩ := hraises.unique_of_thrown hthrown
    exact ⟨_, rest, later, rfl, rfl, hfaulted', hbs, fun c hc => ⟨hrole, hlater c hc⟩⟩

theorem course_faulted (h : graph.Coded options source plan) (hsmall : graph.IsSmall)
    (hprogram : Program.ofGraph graph table name = .ok program)
    (hhandlers : program.Supports machines table graph.KeepsFaultsIn) (hv : v.isNil = false)
    {bs : List BlockId} {w : Value} {q : Process}
    (hcourse : program.Course machines graph plan v p bs w q) {all passed handlers : List BlockId}
    (hall : all = passed ++ handlers) (hchain : plan.Chain all)
    (hfaulted : plan.Faulted graph.layout p.state handlers)
    : w = v ∧ ∃ above below, handlers = above ++ below ∧
        plan.Faulted graph.layout q.state below ∧ bs.filter (· ∈ all) = above ∧
        ∀ b ∈ bs, b ∈ above ∨
          ∃ F ∈ above, (plan.label F).role = .cleanup ∧ plan.InBody F b := by
  induction hcourse generalizing passed handlers with
  | raised => exact ⟨rfl, [], handlers, rfl, hfaulted, rfl, by simp⟩
  | passes hpasses _ ih =>
    obtain ⟨b, rest, later, rfl, rfl, hfaulted', rfl, hlater⟩ := h.passes_faulted hsmall hprogram
      hhandlers hv hfaulted hpasses
    obtain ⟨rfl, above, below, rfl, hbelow, hfilter, hblocks⟩ := ih hv
      (show all = (passed ++ [b]) ++ rest by simp [hall]) hfaulted'
    refine ⟨rfl, b :: above, below, rfl, hbelow, ?_, ?_⟩
    . have hnone : later.filter (· ∈ all) = [] := by
        rw [List.filter_eq_nil_iff]
        intro c hc
        rw [hall] at hchain ⊢
        simpa using h.not_mem_of_inBody (hlater c hc).2 hchain
      rw [List.filter_append, List.filter_cons_of_pos (by simp [hall]), hnone, hfilter]
      rfl
    . intro c hc
      rcases List.mem_append.1 hc with hc | hc
      . rcases List.mem_cons.1 hc with rfl | hc
        . exact .inl (List.mem_cons_self ..)
        . exact .inr ⟨b, List.mem_cons_self .., hlater c hc⟩
      . rcases hblocks c hc with hc | ⟨F, hF, hbody⟩
        . exact .inl (List.mem_cons_of_mem _ hc)
        . exact .inr ⟨F, List.mem_cons_of_mem _ hF, hbody⟩

theorem fate_of_faulted (h : graph.Coded options source plan) (hsmall : graph.IsSmall)
    (hprogram : Program.ofGraph graph table name = .ok program)
    (hhandlers : program.Supports machines table graph.KeepsFaultsIn) (hv : v.isNil = false)
    {above below before : List BlockId} (hchain : plan.Chain (above ++ below))
    (hbefore : ∀ b ∈ before, b ∈ above ∨
      ∃ F ∈ above, (plan.label F).role = .cleanup ∧ plan.InBody F b)
    (hfaulted : plan.Faulted graph.layout p.state below)
    : program.Fate machines options graph plan v before p below := by
  cases below with
  | nil => exact .surfaced (hfaulted.stacked.route_nil v)
  | cons b rest =>
    have hroute := hfaulted.stacked.route_cons v
    have hstatus := (hfaulted.at v).status
    cases hrole : (plan.label b).role with
    | plain => exact absurd hrole hfaulted.chain.1
    | dispatch =>
      obtain ⟨first, catches, hcatches⟩ := h.catches hrole
      rcases h.executes_dispatch hsmall hprogram machines hfaulted.stacked hfaulted.agrees hcatches
        v with
        ⟨k, clause, hfirst, hdelivered⟩ | ⟨hnone, hthrows⟩
      . refine .delivered hrole hcatches hfirst ?_ hroute hstatus ?_
        . obtain ⟨_, _, _, _, hlabel, _⟩ := hcatches.clauses k clause hfirst.at_index
          intro hmem
          rcases hbefore _ hmem with hmem | ⟨F, hF, _, hbody⟩
          . exact hchain.role (List.mem_append_left _ hmem) (by rw [hlabel])
          . have hinside := hbody.inside
            rw [hlabel] at hinside
            exact h.lt_of_mem_under (hchain.mem_under hF) hinside
        . intro fuel
          obtain ⟨f, hexec, hdelivered⟩ := hdelivered fuel
          exact ⟨f.toProcess, hexec.turn hstatus, hdelivered⟩
      . refine .uncaught hrole hcatches hnone hroute hstatus ?_
        intro fuel
        obtain ⟨f, hthrown, hstacked, _⟩ := hthrows fuel
        exact ⟨f.toProcess, .thrown hthrown, hstacked.handlers⟩
    | cleanup =>
      refine .cleaned hrole hroute hstatus ?_
      intro fuel bs q b' hwithin hcompletes
      obtain ⟨_, f, _, _, hthrown, hfaulted'⟩ := h.completes_of_faulted hsmall hprogram hhandlers hv
        hfaulted hrole hwithin hcompletes
      exact ⟨f.toProcess, .thrown hthrown, hfaulted'.stacked.handlers⟩

theorem arrives_of_faulted (h : graph.Coded options source plan) (hsmall : graph.IsSmall)
    (hprogram : Program.ofGraph graph table name = .ok program)
    (hhandlers : program.Supports machines table graph.KeepsFaultsIn) (hv : v.isNil = false)
    (hcompleting : program.Completing machines graph plan v p) {handlers bs : List BlockId}
    {q : Process} (hcourse : program.Course machines graph plan v p bs v q)
    (hfaulted : plan.Faulted graph.layout q.state handlers)
    : ∃ bs q, program.Course machines graph plan v p bs v q ∧ Program.Arrives options plan v q := by
  induction handlers generalizing bs q with
  | nil => exact ⟨bs, q, hcourse, .inl hfaulted.stacked.handlers⟩
  | cons b rest ih =>
    have hroute := hfaulted.stacked.route_cons v
    have hstatus := (hfaulted.at v).status
    cases hrole : (plan.label b).role with
    | plain => exact absurd hrole hfaulted.chain.1
    | dispatch =>
      obtain ⟨first, catches, hcatches⟩ := h.catches hrole
      rcases h.executes_dispatch hsmall hprogram machines hfaulted.stacked hfaulted.agrees hcatches
        v with
        ⟨k, clause, hfirst, _⟩ | ⟨_, hthrows⟩
      . exact ⟨bs, q, hcourse, .inr ⟨b, first, rest, catches, k, clause, hfaulted.stacked.handlers,
          hrole, hcatches, hfirst⟩⟩
      . obtain ⟨f, hthrown, hstacked, hagrees⟩ := hthrows 0
        exact ih (hcourse.append (.uncaught hroute hstatus hrole (.thrown hthrown)))
          ⟨hstacked, hfaulted.chain.tail, hagrees⟩
    | cleanup =>
      obtain ⟨fuel, bs', q', b', hwithin, hcompletes⟩ := hcompleting bs q _ b hcourse hroute hstatus
        hrole
      obtain ⟨_, f, _, _, hthrown, hfaulted'⟩ := h.completes_of_faulted hsmall hprogram hhandlers hv
        hfaulted hrole hwithin hcompletes
      exact ih (hcourse.append
        (.cleaned hroute hstatus hrole hwithin hcompletes (.thrown hthrown))) hfaulted'

theorem faulted_of_raises (h : graph.Coded options source plan) (hsmall : graph.IsSmall)
    (hprogram : Program.ofGraph graph table name = .ok program) {kept : Nat → Prop}
    (hhandlers : program.Supports machines table kept) (hkept : kept 4)
    (hreached : program.Reached machines p) {fuel : Nat} {q : Process}
    (hraises : program.Raises machines fuel p v q)
    : ∃ handlers, plan.Faulted graph.layout q.state handlers := by
  have hgood := h.good_reached hsmall hprogram hhandlers hkept hreached
  have hexits : ∀ {r}, program.Executes machines fuel p r → plan.Exits graph.layout table r := by
    intro r ⟨b, code, hb, hcode, hr⟩
    obtain ⟨handlers, values, hagrees, hat⟩ := hgood.running hb
    rcases h.get?_program hprogram b with ⟨_, hnone⟩ | ⟨code', hsome, hemit⟩
    . rw [hnone] at hcode
      cases hcode
    . rw [hsome] at hcode
      cases hcode
      exact hr ▸ h.exec_exits hsmall hemit _ hagrees hat
  cases hraises with
  | missing hstatus _ =>
    obtain ⟨handlers, values, hagrees, hat⟩ := hgood.running hstatus
    exact ⟨handlers, hat.stacked, hat.chain, values, hagrees⟩
  | thrown hexec =>
    cases hexits hexec with
    | stop hstacked hchain hagrees => exact ⟨_, hstacked, hchain, _, hagrees⟩
  | @answered handler resume args f _ _ hexec hreply =>
    cases hexits hexec with
    | suspend hhandler hlt hstacked hchain henters hagrees =>
      have hkeeps := hhandlers _ _ hhandler f.state resume args hstacked.room
      rw [hreply] at hkeeps
      cases hkeeps with
      | fault hrespects =>
        obtain ⟨values, hagrees'⟩ := hagrees.resized hrespects.size
        exact ⟨_, hstacked.respects hrespects hkept, hchain, values, hagrees'⟩

theorem nodup_of_chain (h : graph.Coded options source plan) {handlers : List BlockId}
    (hchain : plan.Chain handlers)
    : handlers.Nodup := by
  induction handlers with
  | nil => exact List.nodup_nil
  | cons b rest ih =>
    rw [List.nodup_cons]
    refine ⟨?_, ih hchain.tail⟩
    intro hmem
    have := (h.blockFits b).under b (hchain.2.1 ▸ hmem)
    exact Nat.lt_irrefl _ this

end Graph.Coded

/--
A fault gets past the handlers that it finds one after the other, innermost first, each of them
being entered once, until a clause takes it or there are none left. No other blocks are run before
that, except for the bodies of the `finally` clauses among those handlers.
-/
theorem Program.fault_propagates {options : CompileOptions} {source : Form} {graph : Graph}
    {table : Table String Handler} {name : String} {program : Program} {machines : Machines}
    (hgraph : Graph.ofForm options source = .ok graph) (hsmall : graph.IsSmall)
    (hprogram : Program.ofGraph graph table name = .ok program)
    (hhandlers : program.Supports machines table graph.KeepsFaultsIn)
    : ∃ plan, graph.Coded options source plan ∧
        ∀ p fuel v p₁, program.Reached machines p → program.Raises machines fuel p v p₁ →
          v.isNil = false →
            (∀ b, p.state.status? = some (.running b) →
              Run.turn machines (Program.run machines fuel) program b p = Run.route v p₁) ∧
            p₁.state.handlers.Nodup ∧
            (∀ bs w q, program.Course machines graph plan v p₁ bs w q →
              w = v ∧ ∃ above below, p₁.state.handlers = above ++ below ∧
                q.state.handlers = below ∧ bs.filter (· ∈ p₁.state.handlers) = above ∧
                (∀ b ∈ bs, b ∈ above ∨
                  ∃ F ∈ above, (plan.label F).role = .cleanup ∧ plan.InBody F b) ∧
                program.Fate machines options graph plan v bs q below) ∧
            (program.Completing machines graph plan v p₁ →
              ∃ bs q, program.Course machines graph plan v p₁ bs v q ∧
                Program.Arrives options plan v q) := by
  obtain ⟨plan, hcoded⟩ := Graph.ofForm_coded hgraph
  refine ⟨plan, hcoded, ?_⟩
  intro p fuel v p₁ hreached hraises hv
  obtain ⟨handlers, hfaulted⟩ := hcoded.faulted_of_raises hsmall hprogram hhandlers (.inl rfl)
    hreached hraises
  rw [hfaulted.stacked.handlers]
  refine ⟨fun _ => hraises.turn, hcoded.nodup_of_chain hfaulted.chain, ?_, ?_⟩
  . intro bs w q hcourse
    obtain ⟨rfl, above, below, rfl, hbelow, hfilter, hblocks⟩ := hcoded.course_faulted hsmall
      hprogram hhandlers hv hcourse (List.nil_append handlers).symm hfaulted.chain hfaulted
    exact ⟨rfl, above, below, rfl, hbelow.stacked.handlers, hfilter, hblocks,
      hcoded.fate_of_faulted hsmall hprogram hhandlers hv hfaulted.chain hblocks hbelow⟩
  . intro hcompleting
    exact hcoded.arrives_of_faulted hsmall hprogram hhandlers hv hcompleting .raised hfaulted

def Form.faultAcrossYield : Form :=
  .list [.symbol "try" .synthetic,
    .list [.symbol "try" .synthetic,
      .list [.symbol "f" .synthetic] .synthetic,
      .list [.symbol "catch" .synthetic, .symbol "int" .synthetic, .symbol "n" .synthetic,
        .symbol "n" .synthetic] .synthetic,
      .list [.symbol "finally" .synthetic,
        .list [.symbol "yield" .synthetic, .atom (.int 2) .synthetic] .synthetic]
        .synthetic] .synthetic,
    .list [.symbol "catch" .synthetic, .atom (.keyword "default") .synthetic,
      .symbol "e" .synthetic, .symbol "e" .synthetic] .synthetic] .synthetic

theorem Program.fault_propagates_faultAcrossYield
    : ∃ graph program p fuel v p₁,
        Graph.ofForm .yielding .faultAcrossYield = .ok graph ∧ graph.IsSmall ∧
        Program.ofGraph graph (.ofList [("yield", Handler.yield)]) "main" = .ok program ∧
        program.Supports {} (.ofList [("yield", Handler.yield)]) graph.KeepsFaultsIn ∧
        program.Reached {} p ∧ program.Raises {} fuel p v p₁ ∧ v.isNil = false ∧
        p₁.state.handlers.length = 3 ∧
        ∃ plan, graph.Coded .yielding .faultAcrossYield plan ∧
          ∀ bs w q, program.Course {} graph plan v p₁ bs w q → w = v := by
  obtain ⟨graph, program, hgraph, hprogram, hcheck⟩ := Graph.exists_of_check .yielding
    .faultAcrossYield (.ofList [("yield", Handler.yield)]) "main"
    (fun graph program => decide graph.IsSmall && (program.create .nil []).toOption.any fun s =>
      (program.after {} 1 2 ⟨s, {}⟩).any fun p => (program.throws? {} 1 p).any fun raised =>
        !raised.1.isNil && raised.2.state.handlers.length == 3)
    (by decide +kernel)
  simp only [Bool.and_eq_true, decide_eq_true_eq, Option.any_eq_true] at hcheck
  obtain ⟨hsmall, s, hs, p, hp, ⟨v, p₁⟩, hthrows, hv, hlength⟩ := hcheck
  have hcreate : program.create .nil [] = .ok s := by
    cases hr : program.create .nil [] with
    | error e =>
      rw [hr] at hs
      cases hs
    | ok s' =>
      rw [hr] at hs
      cases hs
      rfl
  have hkept : ∀ slot, slot < headerSize → slot ≠ 4 → slot ≠ 5 → ¬ graph.KeepsFaultsIn slot := by
    intro slot hlt h4 h5 hkeeps
    rcases hkeeps with heq | heq | ⟨_, _, _, _, hslot⟩
    . exact h4 heq
    . exact h5 heq
    . exact Nat.not_le_of_lt hlt (graph.layout_apart.header hslot)
  have hhandlers := Program.supports_yield {} program graph.KeepsFaultsIn
    (hkept 1 (by decide) (by decide) (by decide)) (hkept 2 (by decide) (by decide) (by decide))
  have hreached := (Program.Reached.create hcreate).after hp
  have hraises := Program.raises_of_throws? hthrows
  have hv : v.isNil = false := by simpa using hv
  obtain ⟨plan, hcoded, hpropagates⟩ := Program.fault_propagates hgraph hsmall hprogram hhandlers
  refine ⟨graph, program, p, 1, v, p₁, hgraph, hsmall, hprogram, hhandlers, hreached, hraises, hv,
    by simpa using hlength, plan, hcoded, ?_⟩
  intro bs w q hcourse
  exact ((hpropagates p 1 v p₁ hreached hraises hv).2.2.1 bs w q hcourse).1

def Handler.yieldForgetting : Handler := fun state resume args =>
  Handler.yield state.forget resume args

theorem Program.supports_yieldForgetting (machines : Machines) (program : Program)
    : program.Supports machines (.ofList [("yield", Handler.yieldForgetting)])
        (fun slot => slot = 4 ∨ slot = 5) := by
  intro name handler hhandler s resume args hroom
  obtain rfl := Table.eq_of_get?_single hhandler
  have hforget := State.respects_forget hroom
  have hyield : (Handler.yield s.forget resume args).Keeps machines program
      (fun slot => slot = 4 ∨ slot = 5) s.forget resume :=
    Handler.yield_keeps machines program (by decide) (by decide) (hforget.size ▸ hroom) resume args
  cases hyield with
  | suspend hrespects hresume =>
    refine .suspend ⟨hrespects.size.trans hforget.size, ?_⟩ hresume
    intro i hi
    have hlt : i < headerSize := by
      rcases hi with rfl | rfl
      . decide
      . decide
    exact (hrespects.slot i hi).trans (hforget.slot i hlt)

def Form.caughtAcrossYield : Form :=
  .list [.symbol "try" .synthetic,
    .list [.symbol "try" .synthetic, .list [.symbol "f" .synthetic] .synthetic,
      .list [.symbol "finally" .synthetic,
        .list [.symbol "yield" .synthetic, .atom (.int 2) .synthetic] .synthetic]
        .synthetic] .synthetic,
    .list [.symbol "catch" .synthetic, .atom (.keyword "default") .synthetic,
      .symbol "e" .synthetic, .symbol "e" .synthetic] .synthetic] .synthetic

namespace Program

variable {program : Program} {p : Process}

def loses? (program : Program) (graph : Graph) (n : Nat) (p : Process) : Bool :=
  match program.throws? {} 1 p with
  | some (v, p₁) =>
    match Run.route v p₁, p₁.state.handlers with
    | .again p', F :: rest =>
      !v.isNil && (program.withins? 1 rest.length n p').any fun way =>
        program.completes? graph F 1 way.2 && (program.next? {} 1 way.2).isSome
    | _, _ => false
  | none => false

theorem exists_of_loses? {graph : Graph} {n : Nat} (h : program.loses? graph n p = true)
    : ∃ v p₁ p' F rest bs q r, program.throws? {} 1 p = some (v, p₁) ∧
        p₁.state.handlers = F :: rest ∧ v.isNil = false ∧ Run.route v p₁ = .again p' ∧
        program.withins? 1 rest.length n p' = some (bs, q) ∧
        program.completes? graph F 1 q = true ∧ program.next? {} 1 q = some r := by
  unfold loses? at h
  split at h
  . next v p₁ hthrows =>
    split at h
    . next p' F rest hroute hhandlers =>
      simp only [Bool.and_eq_true, Bool.not_eq_true', Option.any_eq_true,
        Option.isSome_iff_exists] at h
      obtain ⟨hv, ⟨bs, q⟩, hwithins, hends, r, hnext⟩ := h
      exact ⟨v, p₁, p', F, rest, bs, q, r, hthrows, hhandlers, hv, hroute, hwithins, hends, hnext⟩
    . cases h
  . cases h

end Program

theorem Program.not_fault_propagates_caughtAcrossYield
    : ∃ graph program p v p₁,
        Graph.ofForm .yielding .caughtAcrossYield = .ok graph ∧ graph.IsSmall ∧
        Program.ofGraph graph (.ofList [("yield", Handler.yieldForgetting)]) "main" = .ok program ∧
        program.Supports {} (.ofList [("yield", Handler.yieldForgetting)])
          (fun slot => slot = 4 ∨ slot = 5) ∧
        program.Reached {} p ∧ program.Raises {} 1 p v p₁ ∧ v.isNil = false ∧
        ∀ plan, graph.Coded .yielding .caughtAcrossYield plan →
          (∃ F rest p' bs q b f, p₁.state.handlers = F :: rest ∧
            (plan.label F).role = .cleanup ∧ Run.route v p₁ = .again p' ∧
            program.Within {} (plan.label F).under.length p' bs q ∧
            program.Completes {} graph plan F 1 q b ∧ program.Executes {} 1 q (.ok .next f)) ∧
          ¬ program.Fate {} .yielding graph plan v [] p₁ p₁.state.handlers := by
  obtain ⟨graph, program, hgraph, hprogram, hcheck⟩ := Graph.exists_of_check .yielding
    .caughtAcrossYield (.ofList [("yield", Handler.yieldForgetting)]) "main"
    (fun graph program => decide graph.IsSmall && (program.create .nil []).toOption.any fun s =>
      (program.after {} 1 2 ⟨s, {}⟩).any (program.loses? graph 1))
    (by decide +kernel)
  simp only [Bool.and_eq_true, decide_eq_true_eq, Option.any_eq_true] at hcheck
  obtain ⟨hsmall, s, hs, p, hp, hloses⟩ := hcheck
  obtain ⟨v, p₁, p', F, rest, bs, q, r, hthrows, hhandlers, hv, hroute, hwithins, hends, hnext⟩ :=
    Program.exists_of_loses? hloses
  have hsupports := Program.supports_yieldForgetting {} program
  have hreached := (Program.Reached.create (Except.eq_ok_of_toOption hs)).after hp
  have hraises := Program.raises_of_throws? hthrows
  refine ⟨graph, program, p, v, p₁, hgraph, hsmall, hprogram, hsupports, hreached, hraises, hv, ?_⟩
  intro plan hcoded
  obtain ⟨b, hrole, hcompletes⟩ := Program.Completes.of_completes? hcoded hends
  obtain ⟨f, _, hexec⟩ := Program.executes_of_next? hnext
  obtain ⟨handlers, hfaulted⟩ := hcoded.faulted_of_raises hsmall hprogram hsupports (.inl rfl)
    hreached hraises
  have hunder : (plan.label F).under = rest := by
    have hchain := hfaulted.chain
    rw [← hfaulted.stacked.handlers, hhandlers] at hchain
    exact hchain.2.1
  have hwithin := Program.Within.of_withins? hwithins
  rw [← hunder] at hwithin
  refine ⟨⟨F, rest, p', bs, q, b, f, hhandlers, hrole, hroute, hwithin, hcompletes, hexec⟩, ?_⟩
  intro hfate
  rw [hhandlers] at hfate
  cases hfate with
  | delivered hdispatch =>
    rw [hrole] at hdispatch
    cases hdispatch
  | uncaught hdispatch =>
    rw [hrole] at hdispatch
    cases hdispatch
  | cleaned _ hroute' _ hraised =>
    rw [hroute] at hroute'
    cases hroute'
    obtain ⟨_, hraises', _⟩ := hraised 1 bs q b hwithin hcompletes
    exact hraises'.not_next hexec

end Resumable
