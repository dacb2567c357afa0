import Resumable.Proofs.Running.Begun

/-!
This module contains how turns of a machine end: at the last instruction that they have begun. The
block that the machine is at then is named there, is a handler in force there, or is the same again.
-/

namespace Resumable

/--
How a turn ends at an instruction, by what is in the machine there and in the end.
-/
inductive Instruction.Ends (ins : Instruction) (s : State) :
    EStateM.Result Stop Frame Flow → Frame → Prop where
  | next {target : BlockId} {f : Frame} :
    target ∈ ins.targets → f.state.slot 1 = State.ofBlock target →
      f.state.handlers = s.handlers → ins.Ends s (.ok .next f) f
  | done {value : Value} {f : Frame} :
    f.state.slot 1 = .keyword "finished" → ins.Ends s (.ok (.done value) f) f
  | suspend {handler : Handler} {resume : BlockId} {args : List Value} {f : Frame} :
    resume ∈ ins.targets → f.state = s → ins.Ends s (.ok (.suspend handler resume args) f) f
  | stop {stop : Stop} {f : Frame} :
    f.state.slot 1 = s.slot 1 → (∀ h ∈ f.state.handlers, h ∈ s.handlers ∨ h ∈ ins.targets) →
      ins.Ends s (.error stop f) f

theorem Exec.Left.ends {ins : Instruction} {exit : Exit} {s : State} {flow : Flow} {f : Frame}
    (h : Exec.Left exit s flow f.state) (hroom : 1 < s.slots.size)
    (htargets : exit.targets = ins.targets)
    : ins.Ends s (.ok flow f) f := by
  cases h with
  | next htarget _ hblock hhandlers => exact .next (htargets ▸ htarget) hblock hhandlers
  | done hstate =>
    refine .done ?_
    rw [hstate]
    exact Plan.slot_finish hroom _
  | suspend hexit hstate =>
    refine .suspend (htargets ▸ ?_) hstate
    rw [hexit]
    exact List.mem_singleton.2 rfl

theorem Emit.instruction_ends {graph : Graph} {call : Caller} {ins : Instruction} {f f' : Frame}
    {stop : Stop} (htame : ∀ o ∈ Emit.instruction graph.layout ins, o.IsTame)
    (hroom : headerSize ≤ f.state.slots.size)
    (h : Exec.ops call (Emit.instruction graph.layout ins) f = .error stop f')
    : ins.Ends f.state (.error stop f') f' ∧
        graph.Kept [⟨ins, f.store, f'.store⟩] [] f.toProcess f'.toProcess := by
  obtain ⟨hhandlers, hblock, hslots⟩ :=
    Emit.instruction_stopped graph.layout_apart htame hroom h
  constructor
  . refine .stop hblock fun b hb => (hhandlers b hb).imp_right fun hpush => ?_
    simp [Instruction.targets, hpush]
  . exact .one (fun id slot hslot hwrites => hslots id slot hwrites hslot)
      fun _ hmay => (Emit.instruction_spares hmay).error h

theorem Graph.Kept.of_exit {graph : Graph} {ins : Instruction} {exit : Exit} {f f' : Frame}
    (h : ∀ {γ : Type} {view : Frame → γ}, Exec.Spares view (Exec.exit exit) → view f' = view f)
    : graph.Kept [⟨ins, f.store, f.store⟩] [] f.toProcess f'.toProcess where
  slot id slot hslot _ := by
    have hheader := graph.layout_apart.header hslot
    have hspares : Exec.Spares (fun f => f.state.slot slot) (Exec.exit exit) :=
      Exec.exit_spares (fun f k value hk => State.slot_setSlot_ne f.state (by lia) value) exit
    exact h hspares
  global name _ _ := by
    have hspares : Exec.Spares (Exec.global? name) (Exec.exit exit) :=
      Exec.exit_spares (fun _ _ _ _ => rfl) exit
    exact h hspares

theorem Exec.exit_ends {graph : Graph} {ins : Instruction} {exit : Exit} {f : Frame}
    (hroom : headerSize ≤ f.state.slots.size) (htargets : exit.targets = ins.targets)
    : ∃ f', ins.Ends f.state (Exec.exit exit f) f' ∧
        graph.Kept [⟨ins, f.store, f.store⟩] [] f.toProcess f'.toProcess := by
  have hroom' := Nat.lt_of_lt_of_le (by decide : 1 < headerSize) hroom
  cases hexit : Exec.exit exit f with
  | ok flow f' =>
    exact ⟨f', (Exec.exit_left hroom' hexit).ends hroom' htargets, .of_exit fun h => h.ok hexit⟩
  | error stop f' =>
    have hsame := Exec.exit_error exit f stop f' hexit
    refine ⟨f', .stop (congrArg (·.slot 1) hsame) ?_, .of_exit fun h => h.error hexit⟩
    rw [hsame]
    exact fun _ => .inl

namespace Graph.Coded

open Plan

variable {options : CompileOptions} {source : Form} {graph : Graph} {plan : Plan}
  {table : Table String Handler} {name : String} {program : Program} {machines : Machines}
  {fuel : Nat} {p : Process} {b : BlockId} {i : Nat} {ins : Instruction} {f : Frame}
  {faults : List Value}

theorem emitted (h : graph.Coded options source plan)
    (hprogram : Program.ofGraph graph table name = .ok program) {code : BlockProgram}
    (hcode : program.blocks.get? b = some code)
    : Emit.block graph.layout table b (plan.code b) = .ok code := by
  rcases h.get?_program hprogram b with ⟨_, hnone⟩ | ⟨code', hsome, hemit⟩
  . rw [hnone] at hcode
    cases hcode
  . rw [hsome] at hcode
    cases hcode
    exact hemit

theorem begun_last (h : graph.Coded options source plan)
    (hreaches : program.Reaches machines graph fuel p b i f) {rest : List Instruction}
    (hins : (plan.code b).drop i = ins :: rest)
    : (program.begun machines graph fuel p).drop i =
        Exec.begun graph.layout (Run.call machines (Program.run machines fuel)) (ins :: rest) f := by
  have hi : i ≤ (graph.blocks.code b).length := by
    rw [h.code]
    refine Nat.le_of_not_lt fun hlt => ?_
    rw [List.drop_eq_nil_of_le (Nat.le_of_lt hlt)] at hins
    cases hins
  rw [hreaches.drop_begun hi, h.code, hins]

theorem regular_take (h : graph.Coded options source plan) (hi : i < (plan.code b).length)
    : ∀ ins ∈ (plan.code b).take i, ins.IsRegular := by
  have hrest : (plan.code b).drop i ≠ [] := by
    rw [Ne, List.drop_eq_nil_iff]
    exact Nat.not_le.2 hi
  exact h.regular (List.take_append_drop i _).symm hrest

theorem tame_instruction (h : graph.Coded options source plan) (hsmall : graph.IsSmall)
    (hins : (plan.code b)[i]? = some ins)
    : ∀ o ∈ Emit.instruction graph.layout ins, o.IsTame :=
  fun _ ho => Emit.instruction_tame graph.layout_apart (h.small_references hsmall hins) ho

theorem reaches_room (h : graph.Coded options source plan) (hsmall : graph.IsSmall)
    (hroom : headerSize ≤ p.state.slots.size)
    (hreaches : program.Reaches machines graph fuel p b i f)
    : headerSize ≤ f.state.slots.size := by
  obtain ⟨_, code, _, hrun⟩ := hreaches
  obtain ⟨⟨⟩, g, hload, hops⟩ := bind_ok.1 hrun
  obtain ⟨registers, hloaded⟩ := Exec.load_ok code.loads { toProcess := p }
  cases hload.symm.trans hloaded
  have hroom' : headerSize ≤ ({ toProcess := p, registers } : Frame).state.slots.size := hroom
  have htame : ∀ o ∈ graph.opsBefore b i, o.IsTame := by
    intro o ho
    obtain ⟨ins, hins, ho⟩ := List.mem_flatMap.1 ho
    rw [h.code] at hins
    obtain ⟨j, hj⟩ := List.mem_iff_getElem?.1 (List.mem_of_mem_take hins)
    exact h.tame_instruction hsmall hj o ho
  have hworked := Exec.ops_worked (Run.call machines (Program.run machines fuel)) htame hroom'
  rw [hops] at hworked
  rw [hworked.1.size]
  exact hroom

theorem executes_ends (h : graph.Coded options source plan) (hsmall : graph.IsSmall)
    (hprogram : Program.ofGraph graph table name = .ok program)
    (hroom : headerSize ≤ p.state.slots.size) {r : EStateM.Result Stop Frame Flow}
    (hexec : program.Executes machines fuel p r)
    : ∃ b i step f f', (plan.code b)[i]? = some step.ins ∧
        program.Reaches machines graph fuel p b i f ∧
        (program.begun machines graph fuel p).drop i = [step] ∧
        step.ins.Ends f.state r f' ∧ graph.Kept [step] [] f.toProcess f'.toProcess := by
  obtain ⟨b, code, hstatus, hcode, rfl⟩ := hexec
  have hemit := h.emitted hprogram hcode
  obtain ⟨effects, last, t, hsplit, hlast, hexit, _, hops⟩ := Emit.block_ok hemit
  obtain ⟨registers, hload⟩ := Exec.load_ok code.loads { toProcess := p }
  have hgets : ∀ {done rest : List Instruction} {g : Frame}, plan.code b = done ++ rest →
      Exec.ops (Run.call machines (Program.run machines fuel))
        (done.flatMap (Emit.instruction graph.layout)) { toProcess := p, registers } = .ok () g →
      program.Reaches machines graph fuel p b done.length g := by
    intro done rest g hcut hdone
    refine ⟨hstatus, code, hcode, ?_⟩
    rw [bind_of_ok hload, Graph.opsBefore, h.code, hcut, List.take_left]
    exact hdone
  rw [Exec.block, bind_of_ok hload, hops]
  cases hrun : Exec.ops (Run.call machines (Program.run machines fuel))
    (effects.flatMap (Emit.instruction graph.layout)) { toProcess := p, registers } with
  | error stop f' =>
    obtain ⟨done, ins, rest, f, rfl, hdone, hstop⟩ := Exec.ops_stopped hrun
    have hcut : plan.code b = done ++ ins :: (rest ++ [last]) := by simp [hsplit]
    have hins : (plan.code b)[done.length]? = some ins := by simp [hcut]
    have hreaches := hgets hcut hdone
    have hends := Emit.instruction_ends (h.tame_instruction hsmall hins)
      (h.reaches_room hsmall hroom hreaches) hstop
    rw [bind_of_error hrun]
    refine ⟨b, done.length, ⟨ins, f.store, f'.store⟩, f, f', hins, hreaches, ?_, hends⟩
    rw [h.begun_last hreaches (hcut ▸ List.drop_left), Exec.begun, hstop]
  | ok _ f =>
    have hins : (plan.code b)[effects.length]? = some last := by simp [hsplit]
    have hreaches := hgets hsplit hrun
    have htargets : code.exit.targets = last.targets := by
      rw [Emit.exit_targets hexit]
      simp only [Instruction.targets, hlast]
    obtain ⟨f', hends⟩ := @Exec.exit_ends graph last code.exit f
      (h.reaches_room hsmall hroom hreaches) htargets
    have hnone : Emit.instruction graph.layout last = [] := by
      simp only [Emit.instruction, hlast]
    rw [bind_of_ok hrun]
    refine ⟨b, effects.length, ⟨last, f.store, f.store⟩, f, f', hins, hreaches, ?_, hends⟩
    rw [h.begun_last hreaches (hsplit ▸ List.drop_left), Exec.begun, hnone]
    rfl

theorem reaches_linked (h : graph.Coded options source plan)
    (hprogram : Program.ofGraph graph table name = .ok program) {values : ValueId → Value}
    (hagrees : graph.layout.Agrees values p.state)
    (hreaches : program.Reaches machines graph fuel p b i f) (hi : i < (plan.code b).length)
    : ∃ p' known, Plain.effects (Run.call machines (Program.run machines fuel))
          ((plan.code b).take i) { toProcess := p, values } = .ok () p' ∧
        Linked graph.layout []
          (fun id => id ∈ known ∨ id ∈ Emit.readFirst known ((plan.code b).drop i)) f p' := by
  obtain ⟨_, code, hcode, hrun⟩ := hreaches
  obtain ⟨_, _, _, _, _, _, hloads, _⟩ := Emit.block_ok (h.emitted hprogram hcode)
  obtain ⟨f₀, hload, hlinked⟩ := h.load_linked hloads hagrees
  rw [bind_of_ok hload, Graph.opsBefore, h.code] at hrun
  have hlive : ∀ id, id ∈ [] ∨
      id ∈ Emit.readFirst [] ((plan.code b).take i ++ (plan.code b).drop i) →
        id ∈ Emit.readFirst [] (plan.code b) := by
    intro id hid
    rw [List.take_append_drop] at hid
    exact hid.resolve_left List.not_mem_nil
  have hsim := @Linked.sim_effects _ _ _ _ (Run.call machines (Program.run machines fuel)) hlinked
    graph.layout_apart _ _ (h.regular_take hi) [] hlive
  rw [hrun] at hsim
  obtain ⟨_, p', hdone, known, hlinked'⟩ := hsim.ok_left
  exact ⟨p', known, hdone, hlinked'⟩

theorem reaches_slack (h : graph.Coded options source plan) (hsmall : graph.IsSmall)
    (hprogram : Program.ofGraph graph table name = .ok program)
    (hgoes : plan.Goes graph.layout faults p.state)
    (hreaches : program.Reaches machines graph fuel p b i f) (hi : i < (plan.code b).length)
    : plan.Slack b i f.state ∧ f.state.slot 1 = State.ofBlock b := by
  obtain ⟨values, hagrees⟩ := hgoes.agrees
  obtain ⟨p', _, hdone, hlinked⟩ := h.reaches_linked hprogram hagrees hreaches hi
  have hat := hgoes.running hreaches.status
  have hloose : plan.Loose faults b 0 p.state := by
    refine ⟨hat.block, hat.slack, ?_⟩
    rintro (hplain | ⟨_, hle⟩)
    . exact hat.calm hplain
    . exact absurd hle (by decide)
  have heffects : ∀ ins ∈ (plan.code b).take i, ∃ e, ins.command = .effect e := by
    intro ins hins
    obtain ⟨e, he, _⟩ := h.regular_take hi ins hins
    exact ⟨e, he⟩
  have hloose' : plan.Loose faults b ((plan.code b).take i).length p'.state := by
    refine @Plain.effects_inv _ (plan.code b) (fun i p => plan.Loose faults b i p.state) ?_ _ _
      (List.take_append_drop i (plan.code b)).symm heffects _ _ hloose hdone
    intro i ins e p p' hi he hloose hok
    exact h.loose_effect hsmall hloose hi he hok
  rw [List.length_take_of_le (Nat.le_of_lt hi)] at hloose'
  exact ⟨hloose'.slack.alike hlinked.header, (hlinked.header.slot (by decide)).trans hloose'.block⟩

end Graph.Coded

theorem State.status?_of_slot {s s' : State} (h : s'.slot 1 = s.slot 1) : s'.status? = s.status? := by
  unfold State.status?
  rw [h]

theorem State.running_of_block {s : State} {target b : BlockId} (hsmall : target < blockLimit)
    (hslot : s.slot 1 = ofBlock target) (h : s.status? = some (.running b))
    : b = target := by
  rw [State.status?_of_block hslot hsmall] at h
  cases h
  rfl

theorem State.roomy_of_running {s : State} {b : BlockId} (h : s.status? = some (.running b))
    : 1 < s.slots.size := by
  refine Nat.lt_of_not_le fun hle => ?_
  have hnil : s.slot 1 = .nil := by
    rw [slot_eq, Array.getElem?_eq_none_iff.2 hle]
    rfl
  unfold status? at h
  rw [hnil] at h
  cases h

theorem State.running_resumeAt {s : State} {target b : BlockId} (hsmall : target < blockLimit)
    (h : (s.resumeAt target).status? = some (.running b))
    : b = target := by
  have hroom := roomy_of_running h
  rw [resumeAt, size_setSlot] at hroom
  exact running_of_block hsmall (slot_setSlot hroom _) h

theorem State.not_running_finish {s : State} {value : Value} {b : BlockId}
    : (s.finish value).status? ≠ some (.running b) := by
  intro h
  have hroom := roomy_of_running h
  rw [size_finish] at hroom
  unfold status? at h
  rw [Plan.slot_finish hroom] at h
  cases h

theorem Run.route_running {thrown : Value} {p : Process} {b : BlockId}
    (h : (Run.route thrown p).process.state.status? = some (.running b))
    : b ∈ p.state.handlers ∨
        (Run.route thrown p).faults ≠ [] ∧ p.state.status? = some (.running b) := by
  have hsame := State.handlers_setException p.state thrown
  unfold Run.route at h ⊢
  simp only [hsame] at h ⊢
  cases hhandlers : p.state.handlers with
  | nil =>
    simp only [hhandlers, Run.Turn.process, Run.Turn.faults] at h ⊢
    have hslot : (p.state.setException thrown).slot 1 = p.state.slot 1 :=
      State.slot_setSlot_ne p.state (by decide) thrown
    rw [State.status?_of_slot hslot] at h
    exact .inr ⟨List.cons_ne_nil _ _, h⟩
  | cons target rest =>
    simp only [hhandlers, Run.Turn.process] at h ⊢
    have hsmall := State.lt_of_mem_handlers (hhandlers ▸ List.mem_cons_self)
    rw [State.running_resumeAt hsmall h]
    exact .inl List.mem_cons_self

theorem Graph.Kept.route {graph : Graph} {done : List Begun} {worlds : List (Store × Store)}
    {p q : Process} (h : graph.Kept done worlds p q) (thrown : Value)
    : graph.Kept done worlds p (Run.route thrown q).process := by
  have hslots : ∀ slot, headerSize ≤ slot →
      (q.state.setException thrown).slot slot = q.state.slot slot := fun slot hslot =>
    State.slot_setSlot_ne q.state (by unfold headerSize at hslot; lia) thrown
  unfold Run.route
  simp only
  split
  . next target _ _ =>
    refine h.next (fun slot hslot => Eq.trans ?_ (hslots slot hslot)) rfl
    exact State.slot_setSlot_ne _ (by unfold headerSize at hslot; lia) _
  . exact h.next hslots rfl

/--
How a turn of a machine gets it to a block: from the last instruction that it begins, which names
the block, by a handler in force there, or since a fault is handed back and the machine stays.
-/
inductive Graph.Arrives (graph : Graph) (plan : Plan) (machines : Machines) (program : Program)
    (fuel : Nat) (p : Process) (new : List Value) (q : Process) (b' : BlockId) : Prop where
  | missing {b : BlockId} :
    p.state.status? = some (.running b) → program.begun machines graph fuel p = [] →
      graph.Kept [] [] p q → b' ∈ p.state.handlers ∨ b' = b →
        graph.Arrives plan machines program fuel p new q b'
  | behind {b : BlockId} {i : Nat} {step : Begun} {f : Frame} :
    (plan.code b)[i]? = some step.ins → program.Reaches machines graph fuel p b i f →
      (program.begun machines graph fuel p).drop i = [step] →
      graph.Kept [step] [] f.toProcess q →
      (b' ∈ step.ins.targets ∨ b' ∈ f.state.handlers ∨ b' = b ∧ new ≠ []) →
        graph.Arrives plan machines program fuel p new q b'

namespace Graph.Coded

open Plan

variable {options : CompileOptions} {source : Form} {graph : Graph} {plan : Plan}
  {table : Table String Handler} {name : String} {program : Program} {machines : Machines}
  {fuel : Nat} {p q : Process} {faults new : List Value} {b : BlockId}

theorem small_target_of (h : graph.Coded options source plan) (hsmall : graph.IsSmall) {i : Nat}
    {ins : Instruction} (hins : (plan.code b)[i]? = some ins) {target : BlockId}
    (htarget : target ∈ ins.targets)
    : target < State.blockLimit := by
  apply h.small_references hsmall hins
  unfold Instruction.targets at htarget
  unfold Instruction.references
  cases hcommand : ins.command with
  | transfer t =>
    rw [hcommand] at htarget
    exact htarget
  | effect e =>
    rw [hcommand] at htarget
    cases e with
    | pushHandler block => exact htarget
    | _ => cases htarget

theorem reaches_status (h : graph.Coded options source plan) (hsmall : graph.IsSmall)
    (hprogram : Program.ofGraph graph table name = .ok program)
    (hgoes : plan.Goes graph.layout faults p.state) {i : Nat} {f : Frame}
    (hreaches : program.Reaches machines graph fuel p b i f) (hi : i < (plan.code b).length)
    : f.state.status? = some (.running b) := by
  have hslot := (h.reaches_slack hsmall hprogram hgoes hreaches hi).2
  exact State.status?_of_block hslot (hgoes.running hreaches.status).enterable.small

theorem raises_arrives (h : graph.Coded options source plan) (hsmall : graph.IsSmall)
    (hprogram : Program.ofGraph graph table name = .ok program)
    (hhandlers : program.Supports machines table (4 ≤ ·)) (hfails : table.FailsInPlace)
    (hgoes : plan.Goes graph.layout faults p.state) {value : Value}
    (hraises : program.Raises machines fuel p value q)
    (hrunning : (Run.route value q).process.state.status? = some (.running b))
    : graph.Arrives plan machines program fuel p (Run.route value q).faults
        (Run.route value q).process b := by
  cases hraises with
  | @missing b' hstatus hnone =>
    refine .missing hstatus ?_ ((Graph.Kept.refl graph p).route _) ?_
    . simp only [Program.begun, hstatus, hnone]
    . rcases Run.route_running hrunning with hmem | ⟨_, hsame⟩
      . exact .inl hmem
      . cases hstatus.symm.trans hsame
        exact .inr rfl
  | thrown hexec =>
    obtain ⟨b', i, step, g, f, hins, hreaches, hbegun, hends, hkept⟩ :=
      h.executes_ends hsmall hprogram hgoes.room hexec
    have hi := (List.getElem?_eq_some_iff.1 hins).1
    have hstatus := h.reaches_status hsmall hprogram hgoes hreaches hi
    cases hends with
    | stop hblock hhandled =>
      refine .behind hins hreaches hbegun (hkept.route _) ?_
      rcases Run.route_running hrunning with hmem | ⟨hback, hsame⟩
      . exact (hhandled b hmem).elim (fun hmem => .inr (.inl hmem)) .inl
      . rw [State.status?_of_slot hblock, hstatus] at hsame
        cases hsame
        exact .inr (.inr ⟨rfl, hback⟩)
  | @answered handler resume args f _ s hexec hreply =>
    obtain ⟨_, _, hhandler, _, _, _, hkeeps, _⟩ := h.suspends_goes hsmall hprogram hhandlers
      (by decide) (by decide) hgoes hexec
    obtain ⟨b', i, step, g, f', hins, hreaches, hbegun, hends, hkept⟩ :=
      h.executes_ends hsmall hprogram hgoes.room hexec
    have hi := (List.getElem?_eq_some_iff.1 hins).1
    have hstatus := h.reaches_status hsmall hprogram hgoes hreaches hi
    rw [hreply] at hkeeps
    -- A handler that fails leaves the machine at its block, or at the continuation.
    cases hkeeps with
    | fault hrespects =>
    cases hends with
    | suspend hresume hstate =>
      rw [hstate] at hrespects
      have hkept' : graph.Kept [step] [] g.toProcess ⟨s, f.store⟩ := by
        refine hkept.next (fun slot hslot => ?_) rfl
        rw [hstate]
        exact hrespects.slot slot (by unfold headerSize at hslot; lia)
      refine .behind hins hreaches hbegun (hkept'.route _) ?_
      rcases Run.route_running hrunning with hmem | ⟨hback, hsame⟩
      . have hsame : s.handlers = g.state.handlers := by
          unfold State.handlers
          rw [hrespects.slot 4 (by decide)]
        exact .inr (.inl (hsame ▸ hmem))
      . rcases hfails _ _ hhandler f.state resume args _ s hreply with hblock | hblock
        . rw [State.status?_of_slot (hblock.trans (congrArg (·.slot 1) hstate)), hstatus] at hsame
          cases hsame
          exact .inr (.inr ⟨rfl, hback⟩)
        . have hsmall' := h.small_target_of hsmall hins hresume
          rw [State.running_of_block hsmall' hblock hsame]
          exact .inl hresume

theorem moves_arrives (h : graph.Coded options source plan) (hsmall : graph.IsSmall)
    (hprogram : Program.ofGraph graph table name = .ok program)
    (hhandlers : program.Supports machines table (4 ≤ ·)) (hfails : table.FailsInPlace)
    (hgoes : plan.Goes graph.layout faults p.state)
    (hmoves : program.Moves machines fuel p new q)
    (hrunning : q.state.status? = some (.running b))
    : graph.Arrives plan machines program fuel p new q b := by
  have hresumed : ∀ {handler : Handler} {resume : BlockId} {args : List Value} {f : Frame}
      {s : State}, program.Executes machines fuel p (.ok (.suspend handler resume args) f) →
        s.Respects f.state (4 ≤ ·) → s.slot 1 = State.ofBlock resume →
          s.status? = some (.running b) →
            graph.Arrives plan machines program fuel p new ⟨s, f.store⟩ b := by
    intro handler resume args f s hexec hrespects hblock hrunning
    obtain ⟨b', i, step, g, f', hins, hreaches, hbegun, hends, hkept⟩ :=
      h.executes_ends hsmall hprogram hgoes.room hexec
    cases hends with
    | suspend hresume hstate =>
      refine .behind hins hreaches hbegun (hkept.next (fun slot hslot => ?_) rfl) (.inl ?_)
      . exact hrespects.slot slot (by unfold headerSize at hslot; lia)
      . rwa [State.running_of_block (h.small_target_of hsmall hins hresume) hblock hrunning]
  have hkeeps : ∀ {handler : Handler} {resume : BlockId} {args : List Value} {f : Frame},
      program.Executes machines fuel p (.ok (.suspend handler resume args) f) →
        (handler f.state resume args).Keeps machines program (4 ≤ ·) f.state resume := by
    intro handler resume args f hexec
    obtain ⟨_, _, _, _, _, _, hkeeps, _⟩ := h.suspends_goes hsmall hprogram hhandlers (by decide)
      (by decide) hgoes hexec
    exact hkeeps
  cases hmoves with
  | next hexec =>
    obtain ⟨b', i, step, g, f, hins, hreaches, hbegun, hends, hkept⟩ :=
      h.executes_ends hsmall hprogram hgoes.room hexec
    cases hends with
    | next htarget hblock _ =>
      refine .behind hins hreaches hbegun hkept (.inl ?_)
      rwa [State.running_of_block (h.small_target_of hsmall hins htarget) hblock hrunning]
  | done hexec =>
    obtain ⟨b', i, step, g, f, hins, hreaches, hbegun, hends, hkept⟩ :=
      h.executes_ends hsmall hprogram hgoes.room hexec
    cases hends with
    | done hfinished =>
      unfold State.status? at hrunning
      rw [hfinished] at hrunning
      cases hrunning
  | control hexec hreply =>
    have hkeeps := hkeeps hexec
    rw [hreply] at hkeeps
    cases hkeeps with
    | suspend hrespects hblock | «continue» hrespects hblock =>
      exact hresumed hexec hrespects hblock hrunning
    | complete => exact absurd hrunning State.not_running_finish
  | drive hexec hreply =>
    have hkeeps := hkeeps hexec
    rw [hreply] at hkeeps
    cases hkeeps with
    | drive hrespects hblock _ => exact hresumed hexec hrespects hblock hrunning
  | raise hraises => exact h.raises_arrives hsmall hprogram hhandlers hfails hgoes hraises hrunning

end Graph.Coded

end Resumable
