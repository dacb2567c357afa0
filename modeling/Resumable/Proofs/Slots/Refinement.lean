import Resumable.Proofs.Slots.Assignment
import Resumable.Proofs.Slots.Effects
import Resumable.Proofs.Slots.Layout

/-!
This module contains the refinement of the plain meaning of instructions: a block as it is run, with
registers of its own and with slots for what has to outlive it, does what its instructions say.
-/

namespace Resumable

namespace Linked

variable {layout : Layout} {live : ValueId → Prop} {f : Frame} {p : Plain} {call : Caller}

theorem sim_result (h : Linked layout [] live f p) (id : ValueId) (value : Value)
    : Sim layout (After layout [id] fun i => i ∈ [id] ∨ live i)
        (Exec.put (.result id) value f) (Plain.write id value p) := by
  refine (h.sim_write id value).mono ?_
  intro _ _ f p hlinked
  apply hlinked.mono
  . exact fun _ hmem => hmem
  . intro i hi
    rwa [List.mem_singleton] at hi

theorem sim_effect (h : Linked layout [] live f p) (apart : layout.Apart) {e : Effect}
    {id : ValueId}
    (hrecur : ∀ targets args, e = .recur targets args →
      targets.Nodup ∧ targets.length = args.length)
    (hlive : ∀ id, .result id ∈ e.operands → live id)
    : Sim layout (After layout (e.writes id) fun i => i ∈ e.writes id ∨ live i)
        (Exec.ops call (Emit.effect id e) f) (Plain.effect call id e p) := by
  have hread : ∀ operand ∈ e.operands, ∀ id, operand = .result id → live id := by
    intro operand hmem id heq
    exact hlive id (heq ▸ hmem)
  cases e with
  | const value =>
    rw [Emit.effect, Exec.ops_singleton]
    refine (h.sim_read (hread _ (by simp [Effect.operands]))).bind ?_
    rintro v _ f p ⟨rfl, h⟩
    exact h.sim_result id v
  | call callee args =>
    rw [Emit.effect, Exec.ops_singleton]
    refine (h.sim_read (hread _ (by simp [Effect.operands]))).bind ?_
    rintro callee _ f p ⟨rfl, h⟩
    refine (h.sim_readAll fun id hid => hlive id (List.mem_cons_of_mem _ hid)).bind ?_
    rintro args _ f p ⟨rfl, h⟩
    refine (h.sim_onStore _).bind ?_
    rintro v _ f p ⟨rfl, h⟩
    exact h.sim_result id v
  | recur targets args =>
    obtain ⟨nodup, hlength⟩ := hrecur targets args rfl
    exact h.sim_recur call id nodup hlength hlive
  | lambda code captured =>
    rw [Emit.effect, Exec.ops_singleton]
    simp only [Exec.op, Exec.makeClosure, Plain.effect]
    cases code.compile with
    | error e => exact .error h.forget
    | ok program =>
      simp only [bind_assoc, pure_bind]
      refine (h.sim_readAll hlive).bind ?_
      rintro captured _ f p ⟨rfl, h⟩
      refine (h.sim_onStore _).bind ?_
      rintro tag _ f p ⟨rfl, h⟩
      exact h.sim_result id _
  | field target name args =>
    rw [Emit.effect, Exec.ops_singleton]
    refine (h.sim_read (hread _ (by simp [Effect.operands]))).bind ?_
    rintro object _ f p ⟨rfl, h⟩
    refine (h.sim_onStore _).bind ?_
    rintro v _ f p ⟨rfl, h⟩
    exact h.sim_result id v
  | method target name args =>
    rw [Emit.effect, Exec.ops_singleton]
    refine (h.sim_read (hread _ (by simp [Effect.operands]))).bind ?_
    rintro object _ f p ⟨rfl, h⟩
    refine (h.sim_readAll fun id hid => hlive id (List.mem_cons_of_mem _ hid)).bind ?_
    rintro args _ f p ⟨rfl, h⟩
    refine (h.sim_onStore _).bind ?_
    rintro v _ f p ⟨rfl, h⟩
    exact h.sim_result id v
  | setLocal target value =>
    rw [Emit.effect, Exec.ops_cons, Exec.ops_singleton]
    simp only [Exec.op, Plain.effect, bind_assoc]
    refine (h.sim_read (hread _ (by simp [Effect.operands]))).bind ?_
    rintro v _ f p ⟨rfl, h⟩
    have hset : (f.registers.set (.result target) v).get (.result target) = v := by
      simp [Registers.get_set, update]
    change Sim layout _ (.ok () { f with
      registers := (f.registers.set (.result target) v).set (.result id)
        ((f.registers.set (.result target) v).get (.result target)) }) _
    rw [hset]
    apply Sim.ok
    apply ((h.write target v).write id v).mono
    . simp [Effect.writes, or_comm]
    . simp only [Effect.writes, List.mem_cons, List.not_mem_nil, or_false]
      intro i hi
      rcases hi with (hi | hi) | hi
      . exact .inr (.inl hi)
      . exact .inl hi
      . exact .inr (.inr hi)
  | setGlobal name value =>
    rw [Emit.effect, Exec.ops_singleton]
    refine (h.sim_read (hread _ (by simp [Effect.operands]))).bind ?_
    rintro v _ f p ⟨rfl, h⟩
    refine (h.sim_onStore _).bind ?_
    rintro _ _ f p ⟨_, h⟩
    exact h.sim_result id v
  | setField object name value =>
    rw [Emit.effect, Exec.ops_singleton]
    refine (h.sim_read (hread _ (by simp [Effect.operands]))).bind ?_
    rintro v _ f p ⟨rfl, h⟩
    refine (h.sim_read (hread _ (by simp [Effect.operands]))).bind ?_
    rintro object _ f p ⟨rfl, h⟩
    refine (h.sim_onStore _).bind ?_
    rintro _ _ f p ⟨_, h⟩
    exact h.sim_result id v
  | pushHandler block =>
    rw [Emit.effect, Exec.ops_singleton]
    refine (h.sim_onState (.pushHandler block) apart).mono ?_
    intro _ _ f p h
    exact h.mono (fun _ hmem => hmem) (by simp [Effect.writes])
  | popHandler block =>
    rw [Emit.effect, Exec.ops_singleton]
    refine (h.sim_onState (.popHandler block) apart).mono ?_
    intro _ _ f p h
    exact h.mono (fun _ hmem => hmem) (by simp [Effect.writes])
  | takeException =>
    rw [Emit.effect, Exec.ops_singleton]
    have hthrown : f.state.exception = p.state.exception := h.header.slot (by decide)
    change Sim layout _ (.ok () { f with
      state := f.state.clearException
      registers := f.registers.set (.result id) f.state.exception }) _
    rw [hthrown]
    apply Sim.ok
    apply ((h.onState .clearException apart).write id p.state.exception).mono
    . exact fun _ hmem => hmem
    . simp [Effect.writes]
  | endFinally exception =>
    rw [Emit.effect, Exec.ops_singleton]
    refine (h.sim_read (hread _ (by simp [Effect.operands]))).bind ?_
    rintro v _ f p ⟨rfl, h⟩
    cases v.isNil with
    | true => exact .ok (h.mono (fun _ hmem => hmem) (by simp [Effect.writes]))
    | false => exact .error h.forget

def Leaves (layout : Layout) (handlers : Table String Handler) (flow : Flow)
    (ending : Plain.Ending) (f : Frame) (p : Plain) : Prop :=
  ending.flow? handlers = some flow ∧ Linked layout [] (fun _ => False) f p

theorem sim_goTo (h : Linked layout [] live f p) (apart : layout.Apart) {g : State → State}
    (hg : State.OnHeader g) (handlers : Table String Handler)
    : Sim layout (Leaves layout handlers)
        ((do Exec.onState g; return .next : Exec Flow) f)
        ((do Plain.onState g; return .next : PlainExec Plain.Ending) p) :=
  .ok ⟨rfl, (h.onState hg apart).forget⟩

theorem sim_get (h : Linked layout [] live f p)
    : Sim layout
        (fun a b f p => a.state.exception = b.state.exception ∧ Linked layout [] live f p)
        ((get : Exec Frame) f) ((get : PlainExec Plain) p) :=
  .ok ⟨h.header.slot (by decide), h⟩

theorem sim_transfer (h : Linked layout [] live f p) (apart : layout.Apart)
    {handlers : Table String Handler} {t : Transfer} {exit : Exit}
    (hexit : Emit.exit handlers t = .ok exit) (hlive : ∀ id, .result id ∈ t.operands → live id)
    : Sim layout (Leaves layout handlers) (Exec.exit exit f) (Plain.transfer t p) := by
  have hread : ∀ operand ∈ t.operands, ∀ id, operand = .result id → live id := by
    intro operand hmem id heq
    exact hlive id (heq ▸ hmem)
  cases t with
  | jump value target =>
    cases value with
    | none =>
      cases hexit
      exact h.sim_goTo apart (.resumeAt target) handlers
    | some value =>
      cases hexit
      refine (h.sim_read (hread _ (by simp [Transfer.operands]))).bind ?_
      rintro v _ f p ⟨rfl, h⟩
      exact h.sim_goTo apart (.comp (.resumeAt target) (.setPending v)) handlers
  | finish value =>
    cases hexit
    refine (h.sim_read (hread _ (by simp [Transfer.operands]))).bind ?_
    rintro v _ f p ⟨rfl, h⟩
    exact .ok ⟨rfl, (h.onState (.finish v) apart).forget⟩
  | branch test yes no =>
    cases hexit
    refine (h.sim_read (hread _ (by simp [Transfer.operands]))).bind ?_
    rintro v _ f p ⟨rfl, h⟩
    exact h.sim_goTo apart (.resumeAt _) handlers
  | case value tests clauses fallback =>
    cases hexit
    refine (h.sim_read (hread _ (by simp [Transfer.operands]))).bind ?_
    rintro v _ f p ⟨rfl, h⟩
    cases (Exec.findClause v tests clauses).or fallback with
    | some block => exact h.sim_goTo apart (.resumeAt block) handlers
    | none =>
      refine (h.sim_onStore Action.heap).bind ?_
      rintro heap _ f p ⟨rfl, h⟩
      exact .error h.forget
  | dispatch clauses =>
    cases hexit
    refine h.sim_get.bind ?_
    rintro f' p' f p ⟨hthrown, h⟩
    simp only [hthrown]
    generalize p'.state.exception = thrown
    refine (h.sim_onStore Action.heap).bind ?_
    rintro heap _ f p ⟨rfl, h⟩
    cases clauses.find? (Exec.catches heap thrown ·.2) with
    | some clause =>
      exact h.sim_goTo apart
        (.comp (.resumeAt clause.1) (.comp .clearException (.setPending thrown))) handlers
    | none => exact .error h.forget
  | suspend name resume args =>
    unfold Emit.exit at hexit
    cases hhandler : handlers.get? name with
    | none => simp [hhandler] at hexit
    | some handler =>
      simp only [hhandler] at hexit
      cases hexit
      refine (h.sim_readAll hlive).bind ?_
      rintro args _ f p ⟨rfl, h⟩
      exact .ok ⟨by simp [Plain.Ending.flow?, hhandler], h.forget⟩

end Linked

namespace Emit

variable {known : List ValueId} {ins : Instruction} {rest : List Instruction} {id : ValueId}

def knownAfter (known : List ValueId) (ins : Instruction) : List ValueId :=
  known ++ (Layout.distinct ins.reads).filter (!known.contains ·) ++ ins.writes

theorem readFirst_cons
    : readFirst known (ins :: rest) =
        (Layout.distinct ins.reads).filter (!known.contains ·) ++
          readFirst (knownAfter known ins) rest := rfl

theorem known_or_readFirst_of_mem_reads (h : id ∈ ins.reads)
    : id ∈ known ∨ id ∈ readFirst known (ins :: rest) := by
  by_cases hknown : id ∈ known
  . exact .inl hknown
  . right
    rw [readFirst_cons]
    apply List.mem_append_left
    simp [Layout.mem_distinct, h, hknown]

theorem known_or_readFirst_of_after
    (h : id ∈ knownAfter known ins ∨ id ∈ readFirst (knownAfter known ins) rest)
    : id ∈ ins.writes ∨ id ∈ known ∨ id ∈ readFirst known (ins :: rest) := by
  rw [readFirst_cons, List.mem_append]
  rcases h with h | h
  . simp only [knownAfter, List.mem_append] at h
    rcases h with (h | h) | h
    . exact .inr (.inl h)
    . exact .inr (.inr (.inl h))
    . exact .inl h
  . exact .inr (.inr (.inr h))

end Emit

def Instruction.IsRegular (ins : Instruction) : Prop :=
  ∃ e, ins.command = .effect e ∧
    ∀ targets args, e = .recur targets args → targets.Nodup ∧ targets.length = args.length

namespace Linked

variable {layout : Layout} {live : ValueId → Prop} {f : Frame} {p : Plain} {call : Caller}

theorem sim_instruction (h : Linked layout [] live f p) (apart : layout.Apart) {ins : Instruction}
    {e : Effect} (he : ins.command = .effect e)
    (hrecur : ∀ targets args, e = .recur targets args →
      targets.Nodup ∧ targets.length = args.length)
    (hlive : ∀ id ∈ ins.reads, live id)
    : Sim layout (After layout [] fun i => i ∈ ins.writes ∨ live i)
        (Exec.ops call (Emit.instruction layout ins) f) (Plain.effect call ins.id e p) := by
  have hwrites : ins.writes = e.writes ins.id := by simp only [Instruction.writes, he]
  have hoperands : ins.operands = e.operands := by simp only [Instruction.operands, he]
  simp only [Emit.instruction, he]
  rw [Exec.ops_append, hwrites]
  refine (h.sim_effect apart hrecur ?_).andThen ?_
  . intro id hid
    exact hlive id (Instruction.mem_reads.2 (hoperands ▸ hid))
  . intro _ _ f p h
    obtain ⟨f', hsaves, hlinked⟩ := h.saves apart fun id hid => .inl hid
    exact ⟨(), f', hsaves, hlinked⟩

theorem sim_effects (h : Linked layout [] live f p) (apart : layout.Apart)
    {done rest : List Instruction} (hdone : ∀ ins ∈ done, ins.IsRegular) {known : List ValueId}
    (hlive : ∀ id, id ∈ known ∨ id ∈ Emit.readFirst known (done ++ rest) → live id)
    : Sim layout (fun _ _ f p => ∃ known,
          Linked layout [] (fun id => id ∈ known ∨ id ∈ Emit.readFirst known rest) f p)
        (Exec.ops call (done.flatMap (Emit.instruction layout)) f)
        (Plain.effects call done p) := by
  induction done generalizing f p live known with
  | nil => exact .ok ⟨known, h.mono (fun _ hmem => hmem) hlive⟩
  | cons ins done ih =>
    rw [List.forall_mem_cons] at hdone
    obtain ⟨⟨e, he, hrecur⟩, hrest⟩ := hdone
    rw [List.flatMap_cons, Exec.ops_append]
    simp only [Plain.effects, he]
    refine (h.sim_instruction apart he hrecur ?_).bind ?_
    . intro id hid
      exact hlive id (Emit.known_or_readFirst_of_mem_reads hid)
    . intro _ _ f p h
      apply ih h hrest
      intro id hid
      exact (Emit.known_or_readFirst_of_after hid).imp_right (hlive id)

theorem sim_code (h : Linked layout [] live f p) (apart : layout.Apart)
    {handlers : Table String Handler} {effects : List Instruction} {last : Instruction}
    {t : Transfer} {exit : Exit} (hlast : last.command = .transfer t)
    (hexit : Emit.exit handlers t = .ok exit) (heffects : ∀ ins ∈ effects, ins.IsRegular)
    (hlive : ∀ id, id ∈ Emit.readFirst [] (effects ++ [last]) → live id)
    : Sim layout (Leaves layout handlers)
        ((do
          Exec.ops call (effects.flatMap (Emit.instruction layout))
          Exec.exit exit : Exec Flow) f)
        (Plain.code call (effects ++ [last]) p) := by
  have hplain : ∀ ins ∈ effects, ∃ e, ins.command = .effect e := by
    intro ins hins
    obtain ⟨e, he, _⟩ := heffects ins hins
    exact ⟨e, he⟩
  rw [Plain.code_append call hplain]
  have hlive' : ∀ id, id ∈ [] ∨ id ∈ Emit.readFirst [] (effects ++ [last]) → live id := by
    intro id hid
    exact hlive id (hid.resolve_left List.not_mem_nil)
  refine (h.sim_effects apart heffects hlive').bind ?_
  rintro _ _ f p ⟨known, h⟩
  simp only [Plain.code, hlast]
  apply h.sim_transfer apart hexit
  intro id hid
  apply Emit.known_or_readFirst_of_mem_reads
  apply Instruction.mem_reads.2
  simpa only [Instruction.operands, hlast] using hid

theorem load {loads : List (ValueId × Nat)} (h : Linked layout [] live f p)
    (hloads : ∀ load ∈ loads, layout.slots.get? load.1 = some load.2)
    : ∃ f', Exec.load loads f = .ok () f' ∧
        Linked layout [] (fun id => id ∈ loads.map (·.1) ∨ live id) f' p := by
  induction loads generalizing f live with
  | nil => exact ⟨f, rfl, h.mono (fun _ hmem => hmem) (by simp)⟩
  | cons load loads ih =>
    rw [List.forall_mem_cons] at hloads
    have hput : Linked layout [] (fun id => id = load.1 ∨ live id)
        { f with registers := f.registers.set (.result load.1) (f.state.slot load.2) } p :=
      { h.forget with
        registers := by
          intro id hid
          simp only [Registers.get_set, update, Register.result.injEq]
          split
          . next heq =>
            rw [heq]
            exact h.saved hloads.1 List.not_mem_nil
          . next hne => exact h.registers (hid.resolve_left hne) }
    obtain ⟨f', hload, hlinked⟩ := ih hput hloads.2
    refine ⟨f', hload, hlinked.mono (fun _ hmem => hmem) ?_⟩
    intro id hid
    rw [List.map_cons, List.mem_cons, or_assoc] at hid
    rcases hid with hid | hid | hid
    . exact .inr (.inl hid)
    . exact .inl hid
    . exact .inr (.inr hid)

end Linked

namespace Emit

variable {layout : Layout} {handlers : Table String Handler}

theorem block_ok {b : BlockId} {code : List Instruction} {program : BlockProgram}
    (h : block layout handlers b code = .ok program)
    : ∃ (effects : List Instruction) (last : Instruction) (t : Transfer),
        code = effects ++ [last] ∧ last.command = .transfer t ∧
          exit handlers t = .ok program.exit ∧ program.loads = loads layout code ∧
          program.ops = effects.flatMap (instruction layout) := by
  unfold block at h
  split at h
  . next id t span hlast =>
    cases hexit : exit handlers t with
    | error e => simp [hexit, Bind.bind, Except.bind] at h
    | ok exit =>
      simp only [hexit, Bind.bind, Except.bind, pure, Except.pure, Except.ok.injEq] at h
      subst h
      obtain ⟨effects, rfl⟩ := List.getLast?_eq_some_iff.1 hlast
      exact ⟨effects, _, t, rfl, rfl, hexit, rfl, by rw [List.dropLast_concat]⟩
  . cases h

theorem slot_of_mem_loads {code : List Instruction} {load : ValueId × Nat}
    (h : load ∈ loads layout code)
    : layout.slots.get? load.1 = some load.2 := by
  obtain ⟨id, _, hid⟩ := List.mem_filterMap.1 h
  obtain ⟨slot, hslot, rfl⟩ := Option.map_eq_some_iff.1 hid
  exact hslot

theorem get?_blocks {entries : List (BlockId × Block)} {programs : List (BlockId × BlockProgram)}
    (h : blocks layout handlers entries = .ok programs) (b : BlockId)
    : (Table.get?.go b entries = none ∧ Table.get?.go b programs = none) ∨
        ∃ code program, Table.get?.go b entries = some code ∧
          Table.get?.go b programs = some program ∧
          block layout handlers b code.code = .ok program := by
  induction entries generalizing programs with
  | nil =>
    cases h
    exact .inl ⟨rfl, rfl⟩
  | cons entry entries ih =>
    obtain ⟨b', code⟩ := entry
    unfold blocks at h
    cases hprogram : block layout handlers b' code.code with
    | error e => simp [hprogram, Bind.bind, Except.bind] at h
    | ok program =>
      cases hrest : blocks layout handlers entries with
      | error e => simp [hprogram, hrest, Bind.bind, Except.bind] at h
      | ok rest =>
        simp only [hprogram, hrest, Bind.bind, Except.bind, pure, Except.pure, Except.ok.injEq] at h
        subst h
        simp only [Table.get?.go]
        by_cases hb : b' = b
        . subst hb
          exact .inr ⟨code, program, if_pos rfl, if_pos rfl, hprogram⟩
        . rw [if_neg hb, if_neg hb]
          exact ih hrest

end Emit

theorem Graph.layout_apart (graph : Graph) : graph.layout.Apart where
  header := headerSize_le_slot
  inj := slot_inj

theorem Graph.Coded.regular {options : CompileOptions} {source : Form} {graph : Graph} {plan : Plan}
    (h : graph.Coded options source plan) {b : BlockId} {done rest : List Instruction}
    (hcode : plan.code b = done ++ rest) (hrest : rest ≠ [])
    : ∀ ins ∈ done, ins.IsRegular := by
  intro ins hins
  obtain ⟨i, hi⟩ := List.mem_iff_getElem?.1 hins
  have hlt := (List.getElem?_eq_some_iff.1 hi).1
  have hat : (plan.code b)[i]? = some ins := by
    rw [hcode, List.getElem?_append_left hlt]
    exact hi
  have hfits := h.fits hat
  unfold Instruction.IsRegular
  cases hcommand : ins.command with
  | transfer t =>
    -- A transfer would be the last instruction.
    have := h.last hat (by simp [Instruction.isTransfer, hcommand])
    have := List.length_pos_iff.2 hrest
    rw [hcode, List.length_append] at *
    omega
  | effect e =>
    refine ⟨e, rfl, ?_⟩
    intro targets args he
    rw [hcommand, he] at hfits
    cases hfits with
    | plain hplain _ => cases hplain
    | recur nodup hlength _ _ => exact ⟨nodup, hlength⟩

theorem Program.ofGraph_ok {graph : Graph} {handlers : Table String Handler} {name : String}
    {program : Program} (h : Program.ofGraph graph handlers name = .ok program)
    : ∃ blocks, Emit.blocks graph.layout handlers graph.blocks.entries = .ok blocks ∧
        program = {
          name := name
          blocks := ⟨blocks⟩
          start := graph.start
          size := graph.layout.size
          params := graph.params.map (·.1) } := by
  unfold Program.ofGraph at h
  cases hblocks : Emit.blocks graph.layout handlers graph.blocks.entries with
  | error e => simp [hblocks, Bind.bind, Except.bind] at h
  | ok blocks =>
    simp only [hblocks, Bind.bind, Except.bind, pure, Except.pure, Except.ok.injEq] at h
    exact ⟨blocks, rfl, h.symm⟩

theorem Program.compile_ok {table : Table String Handler} {options : CompileOptions} {source : Form}
    {program : Program} (h : Program.compile table options source = .ok program)
    : ∃ graph, Graph.ofForm options source = .ok graph ∧
        Program.ofGraph graph table options.name = .ok program := by
  unfold Program.compile at h
  cases hgraph : Graph.ofForm options source with
  | error e => simp [hgraph, Bind.bind, Except.bind] at h
  | ok graph => exact ⟨graph, rfl, by simpa [hgraph, Bind.bind, Except.bind] using h⟩

namespace Graph.Coded

variable {options : CompileOptions} {source : Form} {graph : Graph} {plan : Plan}
  {handlers : Table String Handler} {name : String} {program : Program}

theorem get?_program (h : graph.Coded options source plan)
    (hprogram : Program.ofGraph graph handlers name = .ok program) (b : BlockId)
    : (plan.code b = [] ∧ program.blocks.get? b = none) ∨
        ∃ code, program.blocks.get? b = some code ∧
          Emit.block graph.layout handlers b (plan.code b) = .ok code := by
  obtain ⟨blocks, hblocks, rfl⟩ := Program.ofGraph_ok hprogram
  have hcode := h.code b
  unfold Table.code at hcode
  rcases Emit.get?_blocks hblocks b with ⟨hnone, hprogram⟩ | ⟨block, code, hsome, hprogram, hblock⟩
  . left
    rw [show graph.blocks.get? b = none from hnone] at hcode
    exact ⟨hcode.symm, hprogram⟩
  . right
    rw [show graph.blocks.get? b = some block from hsome] at hcode
    refine ⟨code, hprogram, ?_⟩
    rw [← hcode]
    exact hblock

theorem load_linked (h : graph.Coded options source plan) {b : BlockId}
    {loads : List (ValueId × Nat)} (hloads : loads = Emit.loads graph.layout (plan.code b))
    {process : Process} {values : ValueId → Value}
    (hagrees : graph.layout.Agrees values process.state)
    : ∃ f, Exec.load loads { toProcess := process } = .ok () f ∧
        Linked graph.layout [] (fun id => id ∈ Emit.readFirst [] (plan.code b)) f
          { toProcess := process, values } := by
  have hslots : ∀ load ∈ loads, graph.layout.slots.get? load.1 = some load.2 :=
    hloads ▸ fun load => Emit.slot_of_mem_loads
  obtain ⟨f, hload, hlinked⟩ := (Linked.ofAgrees hagrees).load hslots
  refine ⟨f, hload, hlinked.mono (fun _ hmem => hmem) ?_⟩
  intro id hid
  left
  obtain ⟨slot, hslot⟩ := h.readFirst_slot hid
  rw [hloads]
  apply List.mem_map.2
  exact ⟨(id, slot), List.mem_filterMap.2 ⟨id, hid, by rw [hslot]; rfl⟩, rfl⟩

theorem sim_block (h : graph.Coded options source plan) {b : BlockId} {code : BlockProgram}
    (hcode : Emit.block graph.layout handlers b (plan.code b) = .ok code) (call : Caller)
    {process : Process} {values : ValueId → Value} (hagrees : graph.layout.Agrees values process.state)
    : Sim graph.layout (Linked.Leaves graph.layout handlers)
        (Exec.block call code { toProcess := process })
        (Plain.code call (plan.code b) { toProcess := process, values }) := by
  obtain ⟨effects, last, t, hsplit, hlast, hexit, hloads, hops⟩ := Emit.block_ok hcode
  obtain ⟨f, hload, hlinked⟩ := h.load_linked hloads hagrees
  unfold Exec.block
  rw [bind_of_ok hload, hsplit, hops]
  exact hlinked.sim_code graph.layout_apart hlast hexit (h.regular hsplit (by simp)) fun id hid =>
    hsplit ▸ hid

end Graph.Coded

namespace Layout

structure Keeps (layout : Layout) (f : Frame) (p : Plain) : Prop where
  store : f.store = p.store
  header : f.state.Alike p.state
  agrees : layout.Agrees p.values f.state

/--
Whether a block is left in the way its instructions say, with the same faults and suspensions.
-/
inductive Refines (layout : Layout) (handlers : Table String Handler) :
    EStateM.Result Stop Frame Flow → EStateM.Result Stop Plain Plain.Ending → Prop where
  | ok {flow : Flow} {ending : Plain.Ending} {f : Frame} {p : Plain} :
    ending.flow? handlers = some flow → layout.Keeps f p →
      layout.Refines handlers (.ok flow f) (.ok ending p)
  | error {stop : Stop} {f : Frame} {p : Plain} :
    layout.Keeps f p → layout.Refines handlers (.error stop f) (.error stop p)

end Layout

theorem Linked.keeps {layout : Layout} {live : ValueId → Prop} {f : Frame} {p : Plain}
    (h : Linked layout [] live f p)
    : layout.Keeps f p where
  store := h.store
  header := h.header
  agrees := h.agrees

theorem Sim.refines {layout : Layout} {handlers : Table String Handler}
    {r : EStateM.Result Stop Frame Flow} {r' : EStateM.Result Stop Plain Plain.Ending}
    (h : Sim layout (Linked.Leaves layout handlers) r r')
    : layout.Refines handlers r r' := by
  cases h with
  | ok h => exact .ok h.1 h.2.keeps
  | error h => exact .error h.keeps

/--
A block does what its instructions say, whatever calls do, and its slots hold what outlives it. If
it stops early, they hold what the instructions before the failing one have written.
-/
theorem Program.block_refines {options : CompileOptions} {source : Form} {graph : Graph}
    {handlers : Table String Handler} {name : String} {program : Program}
    (hgraph : Graph.ofForm options source = .ok graph)
    (hprogram : Program.ofGraph graph handlers name = .ok program)
    {b : BlockId} {block : Block} (hblock : graph.blocks.get? b = some block)
    {process : Process} {values : ValueId → Value}
    (hagrees : graph.layout.Agrees values process.state) (call : Caller)
    : ∃ code, program.blocks.get? b = some code ∧
        graph.layout.Refines handlers
          (Exec.block call code { toProcess := process })
          (Plain.code call block.code { toProcess := process, values }) ∧
        ∀ stop f, Exec.block call code { toProcess := process } = .error stop f →
          ∃ done ins rest p, block.code = done ++ ins :: rest ∧
            Plain.effects call done { toProcess := process, values } = .ok () p ∧
            graph.layout.Agrees p.values f.state := by
  obtain ⟨plan, hcoded⟩ := Graph.ofForm_coded hgraph
  have hcode : block.code = plan.code b := by
    rw [← hcoded.code b, Table.code, hblock]
    rfl
  rcases hcoded.get?_program hprogram b with ⟨hempty, _⟩ | ⟨code, hget, hemit⟩
  . exact absurd (hcode.trans hempty) (hcoded.filled hblock).1
  . have hsim := hcoded.sim_block hemit call hagrees
    rw [← hcode] at hsim
    refine ⟨code, hget, hsim.refines, ?_⟩
    intro stop f hstop
    rw [hstop] at hsim
    generalize hr : Plain.code call block.code { toProcess := process, values } = r at hsim
    cases hsim with
    | error hlinked =>
      obtain ⟨done, ins, rest, p, store, hsplit, hdone, rfl⟩ := Plain.code_error hr
      exact ⟨done, ins, rest, p, hsplit, hdone, hlinked.agrees⟩

def Form.letAcrossYield : Form :=
  .list [.symbol "let" .synthetic,
    .vector [.symbol "a" .synthetic, .list [.symbol "f" .synthetic] .synthetic] .synthetic,
    .list [.symbol "yield" .synthetic, .symbol "a" .synthetic] .synthetic,
    .list [.symbol "g" .synthetic, .symbol "a" .synthetic] .synthetic] .synthetic

def CompileOptions.yielding : CompileOptions :=
  { terminators := .ofList [("yield", "yield")], expander := .core }

theorem Graph.layout_agrees_replicate (graph : Graph) (value : Value)
    : graph.layout.Agrees (fun _ => value) ⟨.replicate graph.layout.size value⟩ := by
  intro id slot hslot
  simp [Graph.slot_lt_size hslot]

theorem Graph.exists_of_check (options : CompileOptions) (source : Form)
    (table : Table String Handler) (name : String) (check : Graph → Program → Bool)
    (h : (Graph.ofForm options source).toOption.any
      (fun graph => (Program.ofGraph graph table name).toOption.any (check graph)) = true)
    : ∃ graph program, Graph.ofForm options source = .ok graph ∧
        Program.ofGraph graph table name = .ok program ∧ check graph program = true := by
  cases hgraph : Graph.ofForm options source with
  | error e => simp [hgraph, Except.toOption] at h
  | ok graph =>
    simp only [hgraph, Except.toOption, Option.any_some] at h
    cases hprogram : Program.ofGraph graph table name with
    | error e => simp [hprogram] at h
    | ok program =>
      simp only [hprogram, Option.any_some] at h
      exact ⟨graph, program, rfl, hprogram, h⟩

theorem Program.block_refines_letAcrossYield
    : ∃ graph program block code,
        Graph.ofForm .yielding .letAcrossYield = .ok graph ∧
        Program.ofGraph graph (.ofList [("yield", Handler.yield)]) "main" = .ok program ∧
        graph.blocks.get? 1 = some block ∧ program.blocks.get? 1 = some code ∧
        graph.layout.Refines (.ofList [("yield", Handler.yield)])
          (Exec.block (fun _ _ => throw (.thrown (.int 1))) code
            { state := ⟨.replicate graph.layout.size (.int 7)⟩, store := {} })
          (Plain.code (fun _ _ => throw (.thrown (.int 1))) block.code
            { state := ⟨.replicate graph.layout.size (.int 7)⟩, store := {},
              values := fun _ => .int 7 }) := by
  obtain ⟨graph, program, hgraph, hprogram, hcheck⟩ := Graph.exists_of_check .yielding
    .letAcrossYield (.ofList [("yield", Handler.yield)]) "main"
    (fun graph _ => (graph.blocks.get? 1).isSome) (by decide +kernel)
  obtain ⟨block, hblock⟩ := Option.isSome_iff_exists.1 hcheck
  let process : Process := ⟨⟨.replicate graph.layout.size (.int 7)⟩, {}⟩
  have hagrees : graph.layout.Agrees (fun _ => .int 7) process.state :=
    graph.layout_agrees_replicate (.int 7)
  obtain ⟨code, hcode, hrefines, _⟩ := Program.block_refines hgraph hprogram hblock hagrees
    fun _ _ => throw (.thrown (.int 1))
  exact ⟨graph, program, block, code, hgraph, hprogram, hblock, hcode, hrefines⟩

end Resumable
