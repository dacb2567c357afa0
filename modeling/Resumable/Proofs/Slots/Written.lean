import Resumable.Proofs.Handlers.Within
import Resumable.Proofs.Lowering.Founded
import Resumable.Proofs.Slots.Supply

/-!
This module contains the proof that no block reads a result before it was written, whatever way a
run has taken: what a block fetches from a slot has been saved there, and every register that it
reads has been filled.
-/

namespace Resumable

def Graph.Provides (graph : Graph) (past : List Op) (v : ValueId) : Prop :=
  v ∈ graph.params.map (·.2) ∨ (∃ o ∈ past, o.Writes v) ∧
    ∀ slot, graph.layout.slots.get? v = some slot → .save (.result v) slot ∈ past

theorem Graph.Provides.mono {graph : Graph} {past past' : List Op} {v : ValueId}
    (h : graph.Provides past v) (hsub : ∀ o ∈ past, o ∈ past')
    : graph.Provides past' v := by
  rcases h with hparam | ⟨⟨o, ho, hwrites⟩, hsaved⟩
  . exact .inl hparam
  . exact .inr ⟨⟨o, hsub o ho, hwrites⟩, fun slot hslot => hsub _ (hsaved slot hslot)⟩

/--
Whether handlers that fail leave the machine where it is, or where the suspended call goes on.
-/
def Table.FailsInPlace (table : Table String Handler) : Prop :=
  ∀ name handler, table.get? name = some handler → ∀ s resume args thrown s',
    handler s resume args = .fault thrown s' →
      s'.slot 1 = s.slot 1 ∨ s'.slot 1 = State.ofBlock resume

structure Plan.Marks (plan : Plan) (params : Nat) (marks : ValueId → BlockId → Prop) : Prop where
  start : ∀ v, marks v 0 → v < params
  sees : ∀ v {b : BlockId} {i : Nat} {ins : Instruction}, (plan.code b)[i]? = some ins →
    plan.Sees v (marks v) b i ins

def Graph.Opens (graph : Graph) (marks : ValueId → BlockId → Prop) (past : List Op) (b : BlockId) :
    Prop :=
  ∀ v, marks v b → graph.Provides past v

theorem Plan.Marks.provides_load {graph : Graph} {plan : Plan} {params : Nat}
    {marks : ValueId → BlockId → Prop} (hmarks : plan.Marks params marks)
    {table : Table String Handler} {b : BlockId} {code : BlockProgram}
    (hemit : Emit.block graph.layout table b (plan.code b) = .ok code) {past : List Op}
    (hopens : graph.Opens marks past b) {v : ValueId} {slot : Nat}
    (hload : (v, slot) ∈ code.loads)
    : graph.layout.slots.get? v = some slot ∧ graph.Provides past v := by
  obtain ⟨_, _, _, _, _, _, hloads, _⟩ := Emit.block_ok hemit
  rw [hloads] at hload
  obtain ⟨_, hread, hslot⟩ := List.mem_filterMap.1 hload
  obtain ⟨_, hslot, heq⟩ := Option.map_eq_some_iff.1 hslot
  cases heq
  refine ⟨hslot, hopens v ?_⟩
  obtain ⟨_, j, ins, hj, hreads, hbefore⟩ := Emit.mem_readFirst hread
  rcases (hmarks.sees v hj).reads hreads with hmarked | ⟨k, writer, hk, hwriter, hwrites⟩
  . exact hmarked
  . exact absurd hwrites (hbefore hk hwriter)

structure Graph.Warrants (graph : Graph) (marks : ValueId → BlockId → Prop) (past : List Op)
    (b : BlockId) (s : State) : Prop where
  block : s.slot 1 = State.ofBlock b
  small : b < State.blockLimit
  opens : graph.Opens marks past b
  handlers : ∀ h ∈ s.handlers, graph.Opens marks past h

structure Graph.Sound (graph : Graph) (marks : ValueId → BlockId → Prop) (past : List Op)
    (s : State) : Prop where
  room : headerSize ≤ s.slots.size
  goes : s.slot 1 = .keyword "finished" ∨ ∃ b, graph.Warrants marks past b s

namespace Graph.Coded

variable {options : CompileOptions} {source : Form} {graph : Graph} {plan : Plan}
  {table : Table String Handler} {name : String} {program : Program} {machines : Machines}
  {marks : ValueId → BlockId → Prop} {past : List Op} {b : BlockId} {code : BlockProgram}

theorem exists_marks (h : graph.Coded options source plan)
    : ∃ marks, plan.Marks options.params.length marks := by
  exact ⟨fun v => (h.sees v).choose, fun v => (h.sees v).choose_spec.1,
    fun v _ _ _ => (h.sees v).choose_spec.2⟩

theorem provides_param (h : graph.Coded options source plan) {v : ValueId}
    (hv : v < options.params.length)
    : graph.Provides past v := by
  left
  rw [h.params, List.map_snd_zip (by simp)]
  exact List.mem_range'_1.2 ⟨Nat.zero_le _, by simpa using hv⟩

theorem provides_of_has (h : graph.Coded options source plan) {before rest : List Instruction}
    (hsplit : plan.code b = before ++ rest) (hrest : rest ≠ [])
    (hopens : graph.Opens marks past b) {v : ValueId}
    (hhas : plan.Has v (marks v) b before.length)
    : graph.Provides (past ++ before.flatMap (Emit.instruction graph.layout)) v := by
  rcases hhas with hmarked | ⟨j, ins, hj, hins, hv⟩
  . exact (hopens v hmarked).mono fun o ho => List.mem_append_left _ ho
  . have hmem : ins ∈ before := by
      rw [hsplit, List.getElem?_append_left hj] at hins
      exact List.mem_of_getElem? hins
    obtain ⟨⟨o, ho, hwrites⟩, hsaved⟩ := @Emit.instruction_writes graph.layout _ _
      (h.regular hsplit hrest ins hmem) hv
    have hsub : ∀ o ∈ Emit.instruction graph.layout ins,
        o ∈ past ++ before.flatMap (Emit.instruction graph.layout) :=
      fun o ho => List.mem_append_right _ (List.mem_flatMap.2 ⟨ins, hmem, ho⟩)
    exact .inr ⟨⟨o, hsub o ho, hwrites⟩, fun slot hslot => hsub _ (hsaved slot hslot)⟩

theorem tame (h : graph.Coded options source plan) (hsmall : graph.IsSmall)
    (hemit : Emit.block graph.layout table b (plan.code b) = .ok code)
    : ∀ o ∈ code.ops, o.IsTame := by
  obtain ⟨effects, last, t, hsplit, _, _, _, hops⟩ := Emit.block_ok hemit
  intro o ho
  rw [hops] at ho
  obtain ⟨ins, hins, ho⟩ := List.mem_flatMap.1 ho
  obtain ⟨i, hi⟩ := List.mem_iff_getElem?.1 (List.mem_append_left [last] hins)
  exact Emit.instruction_tame graph.layout_apart
    (h.small_references hsmall (hsplit.symm ▸ hi)) ho

theorem opens_pushed (h : graph.Coded options source plan)
    (hmarks : plan.Marks options.params.length marks)
    (hemit : Emit.block graph.layout table b (plan.code b) = .ok code)
    (hopens : graph.Opens marks past b) {done : List Op} (hdone : done <+: code.ops)
    {target : BlockId} (hpushed : .pushHandler target ∈ done)
    : graph.Opens marks (past ++ done) target := by
  obtain ⟨effects, last, t, hsplit, _, _, _, hops⟩ := Emit.block_ok hemit
  obtain ⟨front, back, rfl⟩ := List.append_of_mem hpushed
  obtain ⟨rest, hrest⟩ := hdone
  rw [hops, List.append_assoc, List.cons_append] at hrest
  obtain ⟨before, ins, after, first, rfl, ho, rfl⟩ := Emit.split_instructions hrest.symm
  have hcommand := Emit.instruction_push ho
  have hsplit' : plan.code b = before ++ (ins :: (after ++ [last])) := by simp [hsplit]
  have hat : (plan.code b)[before.length]? = some ins := by simp [hsplit']
  intro v hmarked
  have hhas := (hmarks.sees v hat).targets target (by simp [Instruction.targets, hcommand]) hmarked
  refine (h.provides_of_has hsplit' (by simp) hopens hhas).mono ?_
  intro o ho
  rcases List.mem_append.1 ho with ho | ho
  . exact List.mem_append_left _ ho
  . exact List.mem_append_right _ (List.mem_append_left _ (List.mem_append_left _ ho))

theorem opens_target (h : graph.Coded options source plan)
    (hmarks : plan.Marks options.params.length marks)
    (hemit : Emit.block graph.layout table b (plan.code b) = .ok code)
    (hopens : graph.Opens marks past b) {target : BlockId} (htarget : target ∈ code.exit.targets)
    : graph.Opens marks (past ++ code.ops) target := by
  obtain ⟨effects, last, t, hsplit, ht, hexit, _, hops⟩ := Emit.block_ok hemit
  have hat : (plan.code b)[effects.length]? = some last := by simp [hsplit]
  rw [Emit.exit_targets hexit] at htarget
  intro v hmarked
  have hhas := (hmarks.sees v hat).targets target
    (by simpa only [Instruction.targets, ht] using htarget) hmarked
  rw [hops]
  exact h.provides_of_has hsplit (by simp) hopens hhas

theorem known_of_reads (h : graph.Coded options source plan)
    (hemit : Emit.block graph.layout table b (plan.code b) = .ok code)
    {before rest : List Instruction} {ins : Instruction}
    (hsplit : plan.code b = before ++ ins :: rest) {v : ValueId} (hv : v ∈ ins.reads)
    : (∃ v' slot, Register.result v = .result v' ∧ (v', slot) ∈ code.loads) ∨
        ∃ o ∈ before.flatMap (Emit.instruction graph.layout),
          o.target? = some (.result v) := by
  have hat : (plan.code b)[before.length]? = some ins := by simp [hsplit]
  by_cases hwritten : ∃ writer ∈ before, v ∈ writer.writes
  . obtain ⟨writer, hwriter, hwrites⟩ := hwritten
    obtain ⟨⟨o, ho, htarget⟩, _⟩ := @Emit.instruction_writes graph.layout _ _
      (h.regular hsplit (by simp) writer hwriter) hwrites
    exact .inr ⟨o, List.mem_flatMap.2 ⟨writer, hwriter, ho⟩, htarget⟩
  . left
    have hread : v ∈ Emit.readFirst [] (plan.code b) := by
      refine Emit.mem_readFirst_of_reads hat hv ?_ List.not_mem_nil
      intro k hk writer hwriter hwrites
      rw [hsplit, List.getElem?_append_left hk] at hwriter
      exact hwritten ⟨writer, List.mem_of_getElem? hwriter, hwrites⟩
    obtain ⟨slot, hslot⟩ := h.readFirst_slot hread
    obtain ⟨_, _, _, _, _, _, hloads, _⟩ := Emit.block_ok hemit
    refine ⟨v, slot, rfl, ?_⟩
    rw [hloads]
    exact List.mem_filterMap.2 ⟨v, hread, by rw [hslot]; rfl⟩

theorem supplied (h : graph.Coded options source plan)
    (hemit : Emit.block graph.layout table b (plan.code b) = .ok code)
    : code.IsSupplied := by
  obtain ⟨effects, last, t, hsplit, ht, hexit, _, hops⟩ := Emit.block_ok hemit
  have hrest : ∀ rest before : List Instruction, effects = before ++ rest →
      Op.Supplied (fun r => (∃ v slot, r = .result v ∧ (v, slot) ∈ code.loads) ∨
          ∃ o ∈ before.flatMap (Emit.instruction graph.layout), o.target? = some r)
        (rest.flatMap (Emit.instruction graph.layout)) := by
    intro rest
    induction rest with
    | nil => exact fun _ _ => trivial
    | cons ins rest ih =>
      intro before heffects
      have hsplit' : plan.code b = before ++ ins :: (rest ++ [last]) := by
        simp [hsplit, heffects]
      obtain ⟨e, he, hrecur⟩ := h.regular hsplit (by simp) ins (by simp [heffects])
      rw [List.flatMap_cons]
      refine .append (Emit.instruction_supplied he hrecur fun v hv =>
        h.known_of_reads hemit hsplit' hv) ((ih (before ++ [ins]) (by simp [heffects])).mono ?_)
      rintro r (hloaded | ⟨o, ho, htarget⟩)
      . exact .inl (.inl hloaded)
      . rw [List.flatMap_append, List.mem_append] at ho
        rcases ho with ho | ho
        . exact .inl (.inr ⟨o, ho, htarget⟩)
        . exact .inr ⟨o, by simpa using ho, htarget⟩
  constructor
  . rw [hops]
    exact (hrest effects [] rfl).mono fun r hr => hr.resolve_right (by simp)
  . intro r hr
    obtain ⟨v, rfl, hv⟩ := Emit.exit_reads hexit hr
    rw [hops]
    apply h.known_of_reads hemit hsplit
    apply Instruction.mem_reads.2
    simpa only [Instruction.operands, ht] using hv

end Graph.Coded

namespace Graph

variable {graph : Graph} {marks : ValueId → BlockId → Prop} {past past' : List Op} {b : BlockId}
  {s s' : State}

theorem Opens.mono (h : graph.Opens marks past b) (hsub : ∀ o ∈ past, o ∈ past')
    : graph.Opens marks past' b :=
  fun v hmarked => (h v hmarked).mono hsub

theorem Warrants.status (h : graph.Warrants marks past b s) : s.status? = some (.running b) :=
  State.status?_of_block h.block h.small

theorem Sound.running (h : graph.Sound marks past s) (hstatus : s.status? = some (.running b))
    : graph.Warrants marks past b s := by
  rcases h.goes with hfinished | ⟨b', hwarrants⟩
  . unfold State.status? at hstatus
    rw [hfinished] at hstatus
    cases hstatus
  . rw [hwarrants.status] at hstatus
    cases hstatus
    exact hwarrants

theorem Warrants.setSlot (h : graph.Warrants marks past b s) {i : Nat} (h1 : i ≠ 1) (h4 : i ≠ 4)
    (value : Value)
    : graph.Warrants marks past b (s.setSlot i value) where
  block := (State.slot_setSlot_ne s h1 value).trans h.block
  small := h.small
  opens := h.opens
  handlers := by
    rw [State.handlers_setSlot_ne s h4]
    exact h.handlers

theorem Sound.setSlot (h : graph.Sound marks past s) {i : Nat} (h1 : i ≠ 1) (h4 : i ≠ 4)
    (value : Value)
    : graph.Sound marks past (s.setSlot i value) where
  room := by
    rw [State.size_setSlot]
    exact h.room
  goes := by
    rcases h.goes with hfinished | ⟨b, hwarrants⟩
    . exact .inl ((State.slot_setSlot_ne s h1 value).trans hfinished)
    . exact .inr ⟨b, hwarrants.setSlot h1 h4 value⟩

theorem sound_finish (hroom : headerSize ≤ s.slots.size) (value : Value)
    : graph.Sound marks past (s.finish value) where
  room := by
    rw [State.finish, State.setPending, State.size_setSlot, State.size_setSlot]
    exact hroom
  goes := .inl (Plan.slot_finish (Nat.lt_of_lt_of_le (by decide) hroom) value)

theorem Warrants.sound_route {p : Process} (h : graph.Warrants marks past b p.state)
    (hroom : headerSize ≤ p.state.slots.size) (value : Value)
    : graph.Sound marks past (Run.route value p).process.state := by
  have hset : graph.Warrants marks past b (p.state.setException value) :=
    h.setSlot (by decide) (by decide) value
  have hroom' : headerSize ≤ (p.state.setException value).slots.size := by
    rw [State.setException, State.size_setSlot]
    exact hroom
  cases hhandlers : (p.state.setException value).handlers with
  | nil =>
    simp only [Run.route, hhandlers, Run.Turn.process]
    exact ⟨hroom', .inr ⟨b, hset⟩⟩
  | cons target rest =>
    simp only [Run.route, hhandlers, Run.Turn.process]
    have hmem : target ∈ (p.state.setException value).handlers := by simp [hhandlers]
    refine ⟨?_, .inr ⟨target, ?_, State.lt_of_mem_handlers hmem, hset.handlers target hmem, ?_⟩⟩
    . exact (State.size_setSlot _ 1 _).symm ▸ hroom'
    . exact State.slot_setSlot (Nat.lt_of_lt_of_le (by decide) hroom') _
    . intro h hh
      have hsame := State.handlers_setSlot_ne (p.state.setException value) (i := 1) (by decide)
        (State.ofBlock target)
      exact hset.handlers h (hsame ▸ hh)

theorem Warrants.respects (h : graph.Warrants marks past b s) (hrespects : s'.Respects s (· = 4))
    {target : BlockId} (hblock : s'.slot 1 = State.ofBlock target)
    (hsmall : target < State.blockLimit) (hopens : graph.Opens marks past target)
    : graph.Warrants marks past target s' where
  block := hblock
  small := hsmall
  opens := hopens
  handlers := by
    have hsame : s'.handlers = s.handlers := by
      unfold State.handlers
      rw [hrespects.slot 4 rfl]
    rw [hsame]
    exact h.handlers

inductive Issues (graph : Graph) (marks : ValueId → BlockId → Prop) (table : Table String Handler)
    (past : List Op) : EStateM.Result Stop Frame Flow → Prop where
  | next {f : Frame} :
    graph.Sound marks past f.state → graph.Issues marks table past (.ok .next f)
  | done {value : Value} {f : Frame} :
    graph.Sound marks past f.state → graph.Issues marks table past (.ok (.done value) f)
  | suspend {b : BlockId} {name : String} {handler : Handler} {resume : BlockId}
      {args : List Value} {f : Frame} :
    table.get? name = some handler → headerSize ≤ f.state.slots.size →
      graph.Warrants marks past b f.state → resume < State.blockLimit →
      graph.Opens marks past resume →
        graph.Issues marks table past (.ok (.suspend handler resume args) f)
  | stop {b : BlockId} {stop : Stop} {f : Frame} :
    headerSize ≤ f.state.slots.size → graph.Warrants marks past b f.state →
      graph.Issues marks table past (.error stop f)

end Graph

namespace Graph.Coded

variable {options : CompileOptions} {source : Form} {graph : Graph} {plan : Plan}
  {table : Table String Handler} {name : String} {program : Program} {machines : Machines}
  {marks : ValueId → BlockId → Prop} {past : List Op} {b : BlockId} {code : BlockProgram}

theorem warrants_worked (h : graph.Coded options source plan)
    (hmarks : plan.Marks options.params.length marks)
    (hemit : Emit.block graph.layout table b (plan.code b) = .ok code) {s s' : State}
    (hwarrants : graph.Warrants marks past b s) {done : List Op} (hdone : done <+: code.ops)
    (hworked : s.Worked done s')
    : graph.Warrants marks (past ++ done) b s' where
  block := hworked.block.trans hwarrants.block
  small := hwarrants.small
  opens := hwarrants.opens.mono fun _ ho => List.mem_append_left _ ho
  handlers := by
    intro target htarget
    rcases hworked.handlers target htarget with hold | hpushed
    . exact (hwarrants.handlers target hold).mono fun _ ho => List.mem_append_left _ ho
    . exact h.opens_pushed hmarks hemit hwarrants.opens hdone hpushed

theorem small_target (h : graph.Coded options source plan) (hsmall : graph.IsSmall)
    (hemit : Emit.block graph.layout table b (plan.code b) = .ok code) {target : BlockId}
    (htarget : target ∈ code.exit.targets)
    : target < State.blockLimit := by
  obtain ⟨effects, last, t, hsplit, ht, hexit, _, _⟩ := Emit.block_ok hemit
  have hat : (plan.code b)[effects.length]? = some last := by simp [hsplit]
  rw [Emit.exit_targets hexit] at htarget
  apply h.small_references hsmall hat
  simpa only [Instruction.references, ht] using htarget

theorem block_issues (h : graph.Coded options source plan) (hsmall : graph.IsSmall)
    (hmarks : plan.Marks options.params.length marks)
    (hemit : Emit.block graph.layout table b (plan.code b) = .ok code) (call : Caller)
    {p : Process} (hroom : headerSize ≤ p.state.slots.size)
    (hwarrants : graph.Warrants marks past b p.state)
    : graph.Issues marks table (past ++ code.carried call p)
        (Exec.block call code { toProcess := p }) := by
  have hleft := Exec.block_left call (h.tame hsmall hemit) hroom
  cases hrun : Exec.block call code { toProcess := p } with
  | error stop f =>
    simp only [hrun] at hleft
    refine .stop (hleft.size ▸ hroom) (h.warrants_worked hmarks hemit hwarrants ?_ hleft)
    exact code.carried_isPrefix call p
  | ok flow f =>
    simp only [hrun] at hleft
    obtain ⟨s, hworked, hall, hleft⟩ := hleft
    have hsize : headerSize ≤ s.slots.size := hworked.size ▸ hroom
    have hwarrants' := h.warrants_worked hmarks hemit hwarrants (List.prefix_refl _) hworked
    rw [hall]
    cases hleft with
    | next htarget hsize' hblock hhandlers =>
      refine .next ⟨hsize' ▸ hsize, .inr ⟨_, hblock, h.small_target hsmall hemit htarget,
        h.opens_target hmarks hemit hwarrants.opens htarget, ?_⟩⟩
      rw [hhandlers]
      exact hwarrants'.handlers
    | done hstate => exact .done (hstate ▸ sound_finish hsize _)
    | @suspend handler resume sources args _ hexit hstate =>
      have htarget : resume ∈ code.exit.targets := by simp [hexit, Exit.targets]
      obtain ⟨name, hhandler⟩ := Emit.mem_of_suspend hemit hexit
      exact .suspend hhandler (hstate ▸ hsize) (hstate ▸ hwarrants')
        (h.small_target hsmall hemit htarget) (h.opens_target hmarks hemit hwarrants.opens htarget)

theorem executes_issues (h : graph.Coded options source plan) (hsmall : graph.IsSmall)
    (hmarks : plan.Marks options.params.length marks)
    (hprogram : Program.ofGraph graph table name = .ok program) {p : Process}
    (hsound : graph.Sound marks past p.state) {fuel : Nat} {r : EStateM.Result Stop Frame Flow}
    (hexec : program.Executes machines fuel p r)
    : graph.Issues marks table (past ++ program.carried machines fuel p) r := by
  obtain ⟨b, code, hstatus, hcode, rfl⟩ := hexec
  have hcarried : program.carried machines fuel p =
      code.carried (Run.call machines (Program.run machines fuel)) p := by
    simp only [Program.carried, hstatus, hcode]
  rcases h.get?_program hprogram b with ⟨_, hnone⟩ | ⟨code', hsome, hemit⟩
  . rw [hnone] at hcode
    cases hcode
  . rw [hsome] at hcode
    cases hcode
    rw [hcarried]
    exact h.block_issues hsmall hmarks hemit _ hsound.room (hsound.running hstatus)

theorem raises_sound (h : graph.Coded options source plan) (hsmall : graph.IsSmall)
    (hmarks : plan.Marks options.params.length marks)
    (hprogram : Program.ofGraph graph table name = .ok program)
    (hhandlers : program.Supports machines table (· = 4)) (hfaults : table.FailsInPlace)
    {p q : Process} (hsound : graph.Sound marks past p.state) {fuel : Nat} {value : Value}
    (hraises : program.Raises machines fuel p value q)
    : graph.Sound marks (past ++ program.carried machines fuel p)
        (Run.route value q).process.state := by
  cases hraises with
  | missing hstatus hnone =>
    have hcarried : program.carried machines fuel p = [] := by
      simp only [Program.carried, hstatus, hnone]
    rw [hcarried, List.append_nil]
    exact (hsound.running hstatus).sound_route hsound.room _
  | thrown hexec =>
    cases h.executes_issues hsmall hmarks hprogram hsound hexec with
    | stop hroom hwarrants => exact hwarrants.sound_route hroom value
  | @answered handler resume args f _ s hexec hreply =>
    cases h.executes_issues hsmall hmarks hprogram hsound hexec with
    | suspend hhandler hroom hwarrants hresume hopens =>
      have hkeeps := hhandlers _ _ hhandler f.state resume args hroom
      rw [hreply] at hkeeps
      cases hkeeps with
      | fault hrespects =>
        have hroom' : headerSize ≤ s.slots.size := hrespects.size ▸ hroom
        rcases hfaults _ _ hhandler f.state resume args _ s hreply with hblock | hblock
        . exact (hwarrants.respects hrespects (hblock.trans hwarrants.block) hwarrants.small
            hwarrants.opens).sound_route (p := ⟨s, f.store⟩) hroom' _
        . exact (hwarrants.respects hrespects hblock hresume hopens).sound_route
            (p := ⟨s, f.store⟩) hroom' _

theorem moves_sound (h : graph.Coded options source plan) (hsmall : graph.IsSmall)
    (hmarks : plan.Marks options.params.length marks)
    (hprogram : Program.ofGraph graph table name = .ok program)
    (hhandlers : program.Supports machines table (· = 4)) (hfaults : table.FailsInPlace)
    {p q : Process} (hsound : graph.Sound marks past p.state) {fuel : Nat} {new : List Value}
    (hmoves : program.Moves machines fuel p new q)
    : graph.Sound marks (past ++ program.carried machines fuel p) q.state := by
  cases hmoves with
  | next hexec =>
    cases h.executes_issues hsmall hmarks hprogram hsound hexec with
    | next hsound' => exact hsound'
  | done hexec =>
    cases h.executes_issues hsmall hmarks hprogram hsound hexec with
    | done hsound' => exact hsound'
  | @control handler resume args f decision s hexec hreply =>
    cases h.executes_issues hsmall hmarks hprogram hsound hexec with
    | suspend hhandler hroom hwarrants hresume hopens =>
      have hkeeps := hhandlers _ _ hhandler f.state resume args hroom
      rw [hreply] at hkeeps
      cases hkeeps with
      | suspend hrespects hblock | «continue» hrespects hblock =>
        exact ⟨hrespects.size ▸ hroom,
          .inr ⟨resume, hwarrants.respects hrespects hblock hresume hopens⟩⟩
      | complete hsize => exact sound_finish (hsize ▸ hroom) _
  | @drive handler resume args f s decide hexec hreply =>
    cases h.executes_issues hsmall hmarks hprogram hsound hexec with
    | suspend hhandler hroom hwarrants hresume hopens =>
      have hkeeps := hhandlers _ _ hhandler f.state resume args hroom
      rw [hreply] at hkeeps
      cases hkeeps with
      | drive hrespects hblock _ =>
        exact ⟨hrespects.size ▸ hroom,
          .inr ⟨resume, hwarrants.respects hrespects hblock hresume hopens⟩⟩
  | raise hraises => exact h.raises_sound hsmall hmarks hprogram hhandlers hfaults hsound hraises

theorem create_sound (h : graph.Coded options source plan)
    (hmarks : plan.Marks options.params.length marks)
    (hprogram : Program.ofGraph graph table name = .ok program) {self : Value} {args : List Value}
    {state : State} (hcreate : program.create self args = .ok state)
    : graph.Sound marks [] state := by
  obtain ⟨hblock, hstacked, _⟩ := h.create_fresh hprogram hcreate
  refine ⟨hstacked.room, .inr ⟨0, hblock, by decide, ?_, ?_⟩⟩
  . exact fun v hmarked => h.provides_param (hmarks.start v hmarked)
  . rw [hstacked.handlers]
    simp

theorem ran_sound (h : graph.Coded options source plan) (hsmall : graph.IsSmall)
    (hmarks : plan.Marks options.params.length marks)
    (hprogram : Program.ofGraph graph table name = .ok program)
    (hhandlers : program.Supports machines table (· = 4)) (hfaults : table.FailsInPlace)
    {faults : List Value} {p : Process} (hran : program.Ran machines past faults p)
    : graph.Sound marks past p.state := by
  induction hran with
  | create hcreate => exact h.create_sound hmarks hprogram hcreate
  | move _ hmoves ih => exact h.moves_sound hsmall hmarks hprogram hhandlers hfaults ih hmoves
  | touch _ htouched ih =>
    cases htouched with
    | store => exact ih
    | pending => exact ih.setSlot (by decide) (by decide) _
    | finish => exact sound_finish ih.room _
    | fault => exact ih.setSlot (by decide) (by decide) _

end Graph.Coded

def Program.RanOn (machines : Machines) (program : Program) (past : List Op)
    (faults given : List Value) (p : Process) : Prop :=
  ∃ later new, program.Ran machines (past ++ later) (faults ++ new) p ∧ given ⊆ new

def Program.RanOutcome (machines : Machines) (program : Program) (past : List Op)
    (faults : List Value) : Outcome → Prop
  | .ok _ p => program.RanOn machines past faults [] p
  | .error (.thrown value) p =>
    p.state.handlers = [] ∧ program.RanOn machines past faults [value] p
  | .error .outOfFuel _ => True

def Program.RanTurn (machines : Machines) (program : Program) (past : List Op)
    (faults : List Value) : Run.Turn → Prop
  | .again p => program.RanOn machines past faults [] p
  | .ended outcome => program.RanOutcome machines past faults outcome

namespace Program

variable {program : Program} {machines : Machines} {past later : List Op}
  {faults new given : List Value} {p : Process}

theorem Ran.on (h : program.Ran machines past faults p) : program.RanOn machines past faults [] p :=
  ⟨[], [], by simpa using h, List.nil_subset _⟩

theorem RanOn.trans (h : program.RanOn machines (past ++ later) (faults ++ new) given p)
    : program.RanOn machines past faults given p := by
  obtain ⟨later', new', hran, hgiven⟩ := h
  rw [List.append_assoc, List.append_assoc] at hran
  exact ⟨_, _, hran, List.subset_append_of_subset_right _ hgiven⟩

theorem RanOutcome.trans {outcome : Outcome}
    (h : program.RanOutcome machines (past ++ later) (faults ++ new) outcome)
    : program.RanOutcome machines past faults outcome := by
  match outcome with
  | .ok _ _ => exact RanOn.trans h
  | .error (.thrown _) _ => exact ⟨h.1, RanOn.trans h.2⟩
  | .error .outOfFuel _ => trivial

theorem RanTurn.trans {turn : Run.Turn}
    (h : program.RanTurn machines (past ++ later) (faults ++ new) turn)
    : program.RanTurn machines past faults turn := by
  cases turn with
  | again _ => exact RanOn.trans h
  | ended _ => exact RanOutcome.trans h

theorem Ran.route {value : Value}
    (h : program.Ran machines (past ++ later) (faults ++ (Run.route value p).faults)
      (Run.route value p).process)
    : program.RanTurn machines past faults (Run.route value p) := by
  cases hhandlers : (p.state.setException value).handlers with
  | nil =>
    simp only [Run.route, hhandlers] at h ⊢
    exact ⟨hhandlers, later, [value], h, List.Subset.refl _⟩
  | cons target rest =>
    simp only [Run.route, hhandlers] at h ⊢
    exact ⟨later, [], h, List.nil_subset _⟩

theorem Ran.obey {decision : Control}
    (h : program.Ran machines past faults (Run.obey decision p).process)
    : program.RanTurn machines past faults (Run.obey decision p) := by
  cases decision <;> exact h.on

end Program

namespace Graph.Coded

variable {options : CompileOptions} {source : Form} {graph : Graph} {plan : Plan}
  {table : Table String Handler} {name : String} {program : Program} {machines : Machines}
  {past : List Op} {faults : List Value}

theorem ran_drive {runner : Run.Runner}
    (hrun : ∀ {past faults p}, program.Ran machines past faults p →
      program.RanOutcome machines past faults (runner program p))
    {s : State} {store : Store} (hran : program.Ran machines past faults ⟨s, store⟩)
    (hmachine : Run.machine? machines s = some program) (decide : Step → Control)
    : program.RanTurn machines past faults
        (Run.answer machines runner (.drive s decide) store) := by
  have houtcome := hrun hran
  simp only [Run.answer, hmachine]
  generalize runner program ⟨s, store⟩ = outcome at houtcome
  cases outcome with
  | ok step q =>
    obtain ⟨later, new, hq, _⟩ := houtcome
    simp only
    cases decide step with
    | suspend | «continue» => exact hq.on.trans
    | complete value =>
      have hfinish := hq.touch (@Process.Touched.finish _ value)
      rw [List.append_nil] at hfinish
      exact hfinish.on.trans
  | error stop q =>
    cases stop with
    | thrown value =>
      obtain ⟨hnone, later, new, hq, _⟩ := houtcome
      have hnone' : (q.state.setException value).handlers = [] :=
        (State.handlers_setException q.state value).trans hnone
      simp only [Run.route, hnone']
      have hfault := hq.touch (@Process.Touched.fault _ value hnone)
      rw [List.append_assoc] at hfault
      exact ⟨hnone', later, _, hfault, by simp⟩
    | outOfFuel => trivial

theorem ran_turn (h : graph.Coded options source plan) (hsmall : graph.IsSmall)
    (hprogram : Program.ofGraph graph table name = .ok program)
    (hhandlers : program.Supports machines table (· = 4)) (hfaults : table.FailsInPlace)
    {fuel : Nat}
    (hrun : ∀ {past faults p}, program.Ran machines past faults p →
      program.RanOutcome machines past faults (Program.run machines fuel program p))
    {p : Process} {b : BlockId} (hran : program.Ran machines past faults p)
    (hstatus : p.state.status? = some (.running b))
    : program.RanTurn machines past faults
        (Run.turn machines (Program.run machines fuel) program b p) := by
  obtain ⟨marks, hmarks⟩ := h.exists_marks
  have hsound := h.ran_sound hsmall hmarks hprogram hhandlers hfaults hran
  unfold Run.turn
  cases hcode : program.blocks.get? b with
  | none =>
    have hraises : program.Raises machines fuel p _ p := .missing hstatus hcode
    exact (hran.move (.raise hraises)).route
  | some code =>
    have hexec : program.Executes machines fuel p
        (Exec.block (Run.call machines (Program.run machines fuel)) code { toProcess := p }) :=
      ⟨b, code, hstatus, hcode, rfl⟩
    simp only
    generalize Exec.block (Run.call machines (Program.run machines fuel)) code { toProcess := p }
      = r at hexec
    have hissues := h.executes_issues hsmall hmarks hprogram hsound hexec
    cases hissues with
    | next => exact (hran.move (.next hexec)).on.trans
    | done => exact (hran.move (.done hexec)).on.trans
    | @stop _ stop f =>
      cases stop with
      | thrown value => exact (hran.move (.raise (.thrown hexec))).route
      | outOfFuel => trivial
    | @suspend _ _ handler resume args f hhandler hroom =>
      have hkeeps := hhandlers _ _ hhandler f.state resume args hroom
      simp only
      cases hreply : handler f.state resume args with
      | control decision s => exact (hran.move (.control hexec hreply)).obey.trans
      | fault thrown s => exact (hran.move (.raise (.answered hexec hreply))).route
      | drive s decide =>
        rw [hreply] at hkeeps
        cases hkeeps with
        | drive _ _ hmachine =>
          exact (ran_drive hrun (hran.move (.drive hexec hreply)) hmachine decide).trans

theorem ran_run (h : graph.Coded options source plan) (hsmall : graph.IsSmall)
    (hprogram : Program.ofGraph graph table name = .ok program)
    (hhandlers : program.Supports machines table (· = 4)) (hfaults : table.FailsInPlace)
    (fuel : Nat) {p : Process} (hran : program.Ran machines past faults p)
    : program.RanOutcome machines past faults (Program.run machines fuel program p) := by
  induction fuel generalizing past faults p with
  | zero => trivial
  | succ fuel ih =>
    obtain ⟨marks, hmarks⟩ := h.exists_marks
    have hsound := h.ran_sound hsmall hmarks hprogram hhandlers hfaults hran
    unfold Program.run
    rcases hsound.goes with hfinished | ⟨b, hwarrants⟩
    . have hstatus : p.state.status? = some .finished := by
        unfold State.status?
        rw [hfinished]
        rfl
      rw [hstatus]
      exact hran.on
    . rw [hwarrants.status]
      have hturn := h.ran_turn hsmall hprogram hhandlers hfaults ih hran hwarrants.status
      simp only
      generalize Run.turn machines (Program.run machines fuel) program b p = turn at hturn
      cases turn with
      | ended outcome => exact hturn
      | again q =>
        obtain ⟨later, new, hq, _⟩ := hturn
        exact (ih hq).trans

end Graph.Coded

/--
No block reads a result before it was written. Whatever a block fetches is a parameter, or has been
written and saved to its slot before the block was entered. Whatever it takes from the register of a
result is a parameter or has been written before, by the block itself if the result has no slot. So
nothing depends on what registers hold at first.
-/
theorem Program.reads_after_writes {options : CompileOptions} {source : Form} {graph : Graph}
    {table : Table String Handler} {name : String} {program : Program} {machines : Machines}
    (hgraph : Graph.ofForm options source = .ok graph) (hsmall : graph.IsSmall)
    (hprogram : Program.ofGraph graph table name = .ok program)
    (hhandlers : program.Supports machines table (· = 4)) (hfaults : table.FailsInPlace)
    {past : List Op} {faults : List Value} {p : Process}
    (hran : program.Ran machines past faults p) {b : BlockId}
    (hstatus : p.state.status? = some (.running b)) {code : BlockProgram}
    (hcode : program.blocks.get? b = some code)
    : (∀ v slot, (v, slot) ∈ code.loads → v ∈ graph.params.map (·.2) ∨
          (∃ o ∈ past, o.Writes v) ∧ .save (.result v) slot ∈ past) ∧
        (∀ done rest, code.ops = done ++ rest → ∀ v, .result v ∈ code.readsNext rest →
          (v ∈ graph.params.map (·.2) ∨ ∃ o ∈ past ++ done, o.Writes v) ∧
          (graph.layout.slots.get? v = none → ∃ o ∈ done, o.Writes v)) ∧
        ∀ call registers, Exec.outcome (Exec.block call code ⟨p, registers⟩) =
          Exec.outcome (Exec.block call code { toProcess := p }) := by
  obtain ⟨plan, hcoded⟩ := Graph.ofForm_coded hgraph
  obtain ⟨marks, hmarks⟩ := hcoded.exists_marks
  have hsound := hcoded.ran_sound hsmall hmarks hprogram hhandlers hfaults hran
  have hopens := (hsound.running hstatus).opens
  rcases hcoded.get?_program hprogram b with ⟨_, hnone⟩ | ⟨code', hsome, hemit⟩
  . rw [hnone] at hcode
    cases hcode
  rw [hsome] at hcode
  cases hcode
  have hload : ∀ v slot, (v, slot) ∈ code.loads →
      graph.layout.slots.get? v = some slot ∧ graph.Provides past v :=
    fun v slot hmem => hmarks.provides_load hemit hopens hmem
  refine ⟨?_, ?_, fun call => (hcoded.supplied hemit).outcome_eq call p⟩
  . intro v slot hmem
    obtain ⟨hslot, hparam | ⟨hwritten, hsaved⟩⟩ := hload v slot hmem
    . exact .inl hparam
    . exact .inr ⟨hwritten, hsaved slot hslot⟩
  . intro done rest hsplit v hread
    rcases (hcoded.supplied hemit).readsNext hsplit hread with ⟨_, slot, heq, hmem⟩ | ⟨o, ho, hv⟩
    . cases heq
      obtain ⟨hslot, hprovides⟩ := hload v slot hmem
      constructor
      . rcases hprovides with hparam | ⟨⟨o, ho, hwrites⟩, _⟩
        . exact .inl hparam
        . exact .inr ⟨o, List.mem_append_left _ ho, hwrites⟩
      . intro hnone
        rw [hslot] at hnone
        cases hnone
    . exact ⟨.inr ⟨o, List.mem_append_right _ ho, hv⟩, fun _ => ⟨o, ho, hv⟩⟩

theorem Table.failsInPlace_yield
    : (Table.ofList [("yield", Handler.yield)]).FailsInPlace := by
  intro name handler hhandler s resume args thrown s' hreply
  obtain rfl := Table.eq_of_get?_single hhandler
  cases hreply

def Program.suspendedTwice? (program : Program) (fuel : Nat) : Option Process :=
  match program.create .nil [] with
  | .ok state =>
    match Program.run {} fuel program ⟨state, {}⟩ with
    | .ok .suspended p =>
      match Program.run {} fuel program p with
      | .ok .suspended q => some q
      | _ => none
    | _ => none
  | .error _ => none

theorem Program.ran_suspendedTwice {graph : Graph} {plan : Plan} {options : CompileOptions}
    {source : Form} {program : Program} {name : String}
    (h : graph.Coded options source plan) (hsmall : graph.IsSmall)
    (hprogram : Program.ofGraph graph (.ofList [("yield", Handler.yield)]) name = .ok program)
    {fuel : Nat} {q : Process} (hq : program.suspendedTwice? fuel = some q)
    : ∃ past faults, program.Ran {} past faults q := by
  have hrun := fun past faults p => @Graph.Coded.ran_run _ _ _ _ _ _ _ {} past faults h hsmall
    hprogram (Program.supports_yield {} program (· = 4) (by decide) (by decide))
    Table.failsInPlace_yield fuel p
  unfold suspendedTwice? at hq
  split at hq
  . next state hstate =>
    split at hq
    . next p hp =>
      split at hq
      . next q' hq' =>
        cases hq
        have hfirst := hrun [] [] ⟨state, {}⟩ (.create hstate)
        rw [hp] at hfirst
        obtain ⟨later, new, hran, _⟩ := hfirst
        have hsecond := hrun _ _ p hran
        rw [hq'] at hsecond
        obtain ⟨later', new', hran', _⟩ := hsecond
        exact ⟨_, _, hran'⟩
      . cases hq
    . cases hq
  . cases hq

def Program.fetches (program : Program) (q : Process) : Bool :=
  match q.state.status? with
  | some (.running b) => (program.blocks.get? b).any (!·.loads.isEmpty)
  | _ => false

theorem Program.reads_after_writes_tryAcrossYield
    : ∃ graph program past faults p b code v slot,
        Graph.ofForm .yielding .tryAcrossYield = .ok graph ∧
        Program.ofGraph graph (.ofList [("yield", Handler.yield)]) "main" = .ok program ∧
        program.Ran {} past faults p ∧ p.state.status? = some (.running b) ∧
        program.blocks.get? b = some code ∧ (v, slot) ∈ code.loads ∧
        (∃ o ∈ past, o.Writes v) ∧ .save (.result v) slot ∈ past := by
  obtain ⟨graph, program, hgraph, hprogram, hcheck⟩ := Graph.exists_of_check .yielding
    .tryAcrossYield (.ofList [("yield", Handler.yield)]) "main"
    (fun graph program => decide graph.IsSmall && graph.params.isEmpty &&
      (program.suspendedTwice? 9).any program.fetches)
    (by decide +kernel)
  rw [Bool.and_eq_true, Bool.and_eq_true, decide_eq_true_eq, List.isEmpty_iff] at hcheck
  obtain ⟨⟨hsmall, hparams⟩, hcheck⟩ := hcheck
  obtain ⟨q, hq, hcheck⟩ := (Option.any_eq_true _ _).1 hcheck
  unfold Program.fetches at hcheck
  split at hcheck
  . next b hstatus =>
    obtain ⟨code, hcode, hloads⟩ := (Option.any_eq_true _ _).1 hcheck
    obtain ⟨plan, hcoded⟩ := Graph.ofForm_coded hgraph
    obtain ⟨past, faults, hran⟩ := Program.ran_suspendedTwice hcoded hsmall hprogram hq
    obtain ⟨hfetched, _⟩ := Program.reads_after_writes hgraph hsmall hprogram
      (Program.supports_yield {} program (· = 4) (by decide) (by decide))
      Table.failsInPlace_yield hran hstatus hcode
    obtain ⟨⟨v, slot⟩, hmem⟩ := List.exists_mem_of_ne_nil code.loads (by simpa using hloads)
    refine ⟨graph, program, past, faults, q, b, code, v, slot, hgraph, hprogram, hran, hstatus,
      hcode, hmem, (hfetched v slot hmem).resolve_left ?_⟩
    simp [hparams]
  . cases hcheck

def Program.waits? (program : Program) (fuel : Nat) (p : Process) : Option Process :=
  match p.state.status? with
  | some (.running b) =>
    match program.blocks.get? b with
    | some code =>
      match Exec.block (Run.call {} (Program.run {} fuel)) code { toProcess := p } with
      | .ok (.suspend handler resume args) f =>
        match handler f.state resume args with
        | .control .suspend s => some ⟨s, f.store⟩
        | _ => none
      | _ => none
    | none => none
  | _ => none

theorem Program.executes_of_waits? {program : Program} {fuel : Nat} {p q : Process}
    (h : program.waits? fuel p = some q)
    : ∃ handler resume args f s,
        program.Executes {} fuel p (.ok (.suspend handler resume args) f) ∧
        handler f.state resume args = .control .suspend s ∧ q = ⟨s, f.store⟩ := by
  unfold waits? at h
  split at h
  . next b hstatus =>
    split at h
    . next code hcode =>
      split at h
      . next handler resume args f hexec =>
        split at h
        . next s hreply =>
          cases h
          exact ⟨handler, resume, args, f, s, ⟨b, code, hstatus, hcode, hexec⟩, hreply, rfl⟩
        . cases h
      . cases h
    . cases h
  . cases h

def Handler.yieldInto : Handler := fun state resume args =>
  Handler.yield (state.pushHandler (resume + 1)) resume args

theorem Program.supports_yieldInto (machines : Machines) (program : Program)
    : program.Supports machines (.ofList [("yield", Handler.yieldInto)]) (fun _ => False) := by
  intro name handler hhandler s resume args hroom
  obtain rfl := Table.eq_of_get?_single hhandler
  have hsize : (s.pushHandler (resume + 1)).slots.size = s.slots.size := State.size_setSlot s 4 _
  have hyield : (Handler.yield (s.pushHandler (resume + 1)) resume args).Keeps machines program
      (fun _ => False) (s.pushHandler (resume + 1)) resume :=
    Handler.yield_keeps machines program id id (hsize ▸ hroom) resume args
  cases hyield with
  | suspend hrespects hresume =>
    exact .suspend ⟨hrespects.size.trans hsize, fun _ hkept => hkept.elim⟩ hresume

def Form.bindBetweenYields : Form :=
  .list [.symbol "do" .synthetic,
    .list [.symbol "yield" .synthetic, .atom (.int 1) .synthetic] .synthetic,
    .list [.symbol "let" .synthetic,
      .vector [.symbol "a" .synthetic, .list [.symbol "f" .synthetic] .synthetic] .synthetic,
      .list [.symbol "yield" .synthetic, .atom (.int 2) .synthetic] .synthetic,
      .symbol "a" .synthetic] .synthetic] .synthetic

def Program.rerouted? (program : Program) : Option (Process × Process × Process) :=
  match program.create .nil [] with
  | .ok s =>
    match program.waits? 1 ⟨s, {}⟩ with
    | some p =>
      match program.throws? {} 1 p with
      | some (v, r) =>
        match Run.route v r with
        | .again q => some (⟨s, {}⟩, p, q)
        | .ended _ => none
      | none => none
    | none => none
  | .error _ => none

theorem Program.of_rerouted? {program : Program} {p₀ p q : Process}
    (h : program.rerouted? = some (p₀, p, q))
    : (∃ s, program.create .nil [] = .ok s ∧ p₀ = ⟨s, {}⟩) ∧ program.waits? 1 p₀ = some p ∧
        ∃ v r, program.throws? {} 1 p = some (v, r) ∧ Run.route v r = .again q := by
  unfold rerouted? at h
  split at h
  . next s hcreate =>
    split at h
    . next p hwaits =>
      split at h
      . next v r hthrows =>
        split at h
        . next q hroute =>
          cases h
          exact ⟨⟨s, hcreate, rfl⟩, hwaits, v, r, hthrows, hroute⟩
        . cases h
      . cases h
    . cases h
  . cases h

theorem Program.not_reads_after_writes_bindBetweenYields
    : ∃ graph program past p b code v slot,
        Graph.ofForm .yielding .bindBetweenYields = .ok graph ∧ graph.IsSmall ∧
        Program.ofGraph graph (.ofList [("yield", Handler.yieldInto)]) "main" = .ok program ∧
        program.Supports {} (.ofList [("yield", Handler.yieldInto)]) (fun _ => False) ∧
        (Table.ofList [("yield", Handler.yieldInto)]).FailsInPlace ∧
        program.Ran {} past [] p ∧ p.state.status? = some (.running b) ∧
        program.blocks.get? b = some code ∧ (v, slot) ∈ code.loads ∧
        v ∉ graph.params.map (·.2) ∧ ∀ o ∈ past, ¬ o.Writes v := by
  obtain ⟨graph, program, hgraph, hprogram, hcheck⟩ := Graph.exists_of_check .yielding
    .bindBetweenYields (.ofList [("yield", Handler.yieldInto)]) "main"
    (fun graph program => decide graph.IsSmall && graph.params.isEmpty &&
      program.rerouted?.any fun (p₀, p, q) => q.state.status? == some (.running 2) &&
        (program.blocks.get? 2).any fun code => code.loads.any fun load =>
          (program.carried {} 1 p₀ ++ program.carried {} 1 p).all
            fun o => o.target? != some (.result load.1))
    (by decide +kernel)
  simp only [Bool.and_eq_true, decide_eq_true_eq, List.isEmpty_iff, Option.any_eq_true,
    beq_iff_eq, List.any_eq_true, List.all_eq_true, bne_iff_ne] at hcheck
  obtain ⟨⟨hsmall, hparams⟩, ⟨p₀, p, q⟩, hrerouted, hstatus, code, hcode, ⟨v, slot⟩, hload,
    hnever⟩ := hcheck
  obtain ⟨⟨s, hcreate, rfl⟩, hwaits, thrown, r, hthrows, hroute⟩ := Program.of_rerouted? hrerouted
  have hfails : (Table.ofList [("yield", Handler.yieldInto)]).FailsInPlace := by
    intro name handler hhandler s resume args thrown s' hreply
    obtain rfl := Table.eq_of_get?_single hhandler
    cases hreply
  obtain ⟨handler, resume, args, f, s', hexec, hreply, rfl⟩ := Program.executes_of_waits? hwaits
  have hwaiting : program.Ran {} (program.carried {} 1 ⟨s, {}⟩) [] ⟨s', f.store⟩ :=
    (Program.Ran.create hcreate).move (.control hexec hreply)
  have hran := hwaiting.move (.raise (Program.raises_of_throws? hthrows))
  rw [hroute] at hran
  exact ⟨graph, program, _, q, 2, code, v, slot, hgraph, hsmall, hprogram,
    Program.supports_yieldInto {} program, hfails, hran, hstatus, hcode, hload, by simp [hparams],
    hnever⟩

end Resumable
