import Resumable.Proofs.Handlers.Propagation
import Resumable.Proofs.Slots.Parallel
import Resumable.Proofs.Slots.Written

/-!
This module contains the proof that an assignment reaches nothing but its variable: every
instruction leaves the registers and slots of results alone that it does not write, and no two names
in scope stand for the same result.
-/

namespace Resumable

theorem State.slot_popHandler_ne (s : State) {i : Nat} (hi : i ≠ 4) (block : BlockId)
    : (s.popHandler block).slot i = s.slot i := by
  unfold popHandler
  split
  . rfl
  . split
    . exact slot_setSlot_ne s hi.symm _
    . rfl

namespace Exec

def Outward {α : Type} (x : Exec α) : Prop :=
  ∀ f a f', x f = .ok a f' → f'.state = f.state ∧ f'.registers = f.registers

def Puts (target : Register) (x : Exec Unit) : Prop :=
  ∀ f f', x f = .ok () f' →
    f'.state = f.state ∧ ∀ r, r ≠ target → f'.registers.get r = f.registers.get r

namespace Outward

variable {α β : Type} {x : Exec α}

theorem pure (a : α) : Outward (Pure.pure a) := by
  rintro f _ _ ⟨⟩
  exact ⟨rfl, rfl⟩

theorem throw (stop : Stop) : Outward (MonadExcept.throw stop : Exec α) := by
  rintro f _ _ ⟨⟩

theorem bind {k : α → Exec β} (hx : Outward x) (hk : ∀ a, Outward (k a)) : Outward (x >>= k) := by
  intro f b f' h
  obtain ⟨a, g, hrun, hrest⟩ := bind_ok.1 h
  obtain ⟨hstate, hregisters⟩ := hx f a g hrun
  obtain ⟨hstate', hregisters'⟩ := hk a g b f' hrest
  exact ⟨hstate'.trans hstate, hregisters'.trans hregisters⟩

theorem onStore (action : Action α) : Outward (onStore action) := by
  intro f a f' h
  unfold Exec.onStore at h
  split at h <;> cases h
  exact ⟨rfl, rfl⟩

theorem eval (source : Source) : Outward (eval source) := by
  intro f a f' h
  rw [eval_eq] at h
  split at h <;> cases h
  exact ⟨rfl, rfl⟩

theorem evalAll (sources : List Source) : Outward (evalAll sources) := by
  induction sources with
  | nil => exact pure []
  | cons source sources ih => exact (eval source).bind fun _ => ih.bind fun _ => pure _

theorem makeClosure (code : Lambda) {captured : Exec (List Value)} (h : Outward captured)
    : Outward (makeClosure code captured) := by
  unfold Exec.makeClosure
  split
  . exact throw _
  . exact h.bind fun _ => (onStore _).bind fun _ => pure _

theorem puts {k : α → Exec Unit} {target : Register} (hx : Outward x)
    (hk : ∀ a, Puts target (k a))
    : Puts target (x >>= k) := by
  intro f f' h
  obtain ⟨a, g, hrun, hrest⟩ := bind_ok.1 h
  obtain ⟨hstate, hregisters⟩ := hx f a g hrun
  obtain ⟨hstate', hothers⟩ := hk a g f' hrest
  exact ⟨hstate'.trans hstate, fun r hr => (hothers r hr).trans (by rw [hregisters])⟩

end Outward

theorem puts_put (target : Register) (value : Value) : Puts target (put target value) := by
  rintro f _ ⟨⟩
  refine ⟨rfl, fun r hr => ?_⟩
  simp only [Registers.get_set, update, if_neg hr]

theorem op_kept {call : Caller} {o : Op} {f f' : Frame} (h : op call o f = .ok () f')
    : (∀ r, o.target? ≠ some r → f'.registers.get r = f.registers.get r) ∧
        ∀ i, i ≠ 4 → i ≠ 5 → (∀ source, o ≠ .save source i) →
          f'.state.slot i = f.state.slot i := by
  have hputs : ∀ {target : Register}, o.target? = some target → Puts target (op call o) →
      (∀ r, o.target? ≠ some r → f'.registers.get r = f.registers.get r) ∧
        ∀ i, i ≠ 4 → i ≠ 5 → (∀ source, o ≠ .save source i) →
          f'.state.slot i = f.state.slot i := by
    intro target htarget hputs
    obtain ⟨hstate, hothers⟩ := hputs f f' h
    refine ⟨fun r hr => hothers r fun heq => hr (heq ▸ htarget), fun i _ _ _ => by rw [hstate]⟩
  cases o with
  | move target source => exact hputs rfl ((Outward.eval source).puts fun _ => puts_put target _)
  | call target callee args =>
    exact hputs rfl ((Outward.eval callee).puts fun _ => (Outward.evalAll args).puts fun _ =>
      (Outward.onStore _).puts fun _ => puts_put target _)
  | closure target code captured =>
    exact hputs rfl ((Outward.makeClosure code (.evalAll captured)).puts fun _ => puts_put target _)
  | field target object name =>
    exact hputs rfl ((Outward.eval object).puts fun _ => (Outward.onStore _).puts fun _ =>
      puts_put target _)
  | method target object name args =>
    exact hputs rfl ((Outward.eval object).puts fun _ => (Outward.evalAll args).puts fun _ =>
      (Outward.onStore _).puts fun _ => puts_put target _)
  | setGlobal target name value =>
    exact hputs rfl ((Outward.eval value).puts fun _ => (Outward.onStore _).puts fun _ =>
      puts_put target _)
  | setField target object name value =>
    exact hputs rfl ((Outward.eval value).puts fun _ => (Outward.eval object).puts fun _ =>
      (Outward.onStore _).puts fun _ => puts_put target _)
  | pushHandler block =>
    cases h
    exact ⟨fun _ _ => rfl, fun i hi _ _ => State.slot_setSlot_ne _ hi.symm _⟩
  | popHandler block =>
    cases h
    exact ⟨fun _ _ => rfl, fun i hi _ _ => State.slot_popHandler_ne _ hi block⟩
  | takeException target =>
    cases h
    refine ⟨fun r hr => ?_, fun i _ hi _ => State.slot_setSlot_ne _ hi.symm _⟩
    have hne : r ≠ target := fun heq => hr (heq ▸ rfl)
    exact ((puts_put target _) f _ rfl).2 r hne
  | endFinally exception =>
    obtain ⟨value, g, hvalue, hrest⟩ := bind_ok.1 h
    obtain ⟨hstate, hregisters⟩ := Outward.eval exception f value g hvalue
    split at hrest
    . cases hrest
      exact ⟨fun _ _ => by rw [hregisters], fun _ _ _ _ => by rw [hstate]⟩
    . cases hrest
  | save source slot =>
    cases h
    refine ⟨fun _ _ => rfl, fun i _ _ hne => State.slot_setSlot_ne _ ?_ _⟩
    rintro rfl
    exact hne source rfl

theorem ops_kept {call : Caller} {todo : List Op} {f f' : Frame} (h : ops call todo f = .ok () f')
    : (∀ r, (∀ o ∈ todo, o.target? ≠ some r) → f'.registers.get r = f.registers.get r) ∧
        ∀ i, i ≠ 4 → i ≠ 5 → (∀ o ∈ todo, ∀ source, o ≠ .save source i) →
          f'.state.slot i = f.state.slot i := by
  induction todo generalizing f with
  | nil =>
    cases h
    exact ⟨fun _ _ => rfl, fun _ _ _ _ => rfl⟩
  | cons o todo ih =>
    obtain ⟨⟨⟩, g, hop, hrest⟩ := bind_ok.1 h
    obtain ⟨hregisters, hslots⟩ := op_kept hop
    obtain ⟨hregisters', hslots'⟩ := ih hrest
    constructor
    . intro r hr
      rw [List.forall_mem_cons] at hr
      exact (hregisters' r hr.2).trans (hregisters r hr.1)
    . intro i h4 h5 hne
      rw [List.forall_mem_cons] at hne
      exact (hslots' i h4 h5 hne.2).trans (hslots i h4 h5 hne.1)

end Exec

namespace Layout

/--
Whether a result is the same in two frames, in its register and in its slot if it has one.
-/
structure Same (layout : Layout) (id : ValueId) (f f' : Frame) : Prop where
  register : f'.registers.get (.result id) = f.registers.get (.result id)
  slot : ∀ slot, layout.slots.get? id = some slot → f'.state.slot slot = f.state.slot slot

structure Stores (layout : Layout) (id : ValueId) (value : Value) (f : Frame) : Prop where
  register : f.registers.get (.result id) = value
  slot : ∀ slot, layout.slots.get? id = some slot → f.state.slot slot = value

end Layout

def Effect.assigned : Effect → List (ValueId × Operand)
  | .setLocal target value => [(target, value)]
  | .recur targets args => targets.zip args
  | _ => []

namespace Emit

variable {layout : Layout} {call : Caller} {f f' : Frame} {ins : Instruction} {e : Effect}

theorem mem_writes_of_effect {o : Op} {id v : ValueId} (ho : o ∈ effect id e) (hv : o.Writes v)
    : v ∈ e.writes id := by
  cases e with
  | recur targets args =>
    have htarget : ∀ part ∈ parts targets 0 (targets.zip args), part.target ∈ targets := by
      intro part hpart
      obtain ⟨_, arg, hmem, _⟩ := mem_parts hpart
      exact (List.of_mem_zip hmem).1
    rcases List.mem_append.1 ho with ho | ho
    . rcases List.mem_append.1 ho with ho | ho
      . obtain ⟨part, _, rfl⟩ := List.mem_map.1 ho
        cases hv
      . obtain ⟨part, hpart, rfl⟩ := List.mem_map.1 ho
        cases hv
        exact htarget part (List.mem_filter.1 hpart).1
    . obtain ⟨part, hpart, rfl⟩ := List.mem_map.1 ho
      cases hv
      exact htarget part (List.mem_filter.1 hpart).1
  | setLocal target value =>
    rcases List.mem_cons.1 ho with rfl | ho
    . cases hv
      exact List.mem_cons_self ..
    . cases List.mem_singleton.1 ho
      cases hv
      exact List.mem_cons_of_mem _ (List.mem_singleton.2 rfl)
  | _ =>
    cases List.mem_singleton.1 ho
    cases hv
    try exact List.mem_singleton.2 rfl

theorem effect_not_save {o : Op} {id : ValueId} (ho : o ∈ effect id e) (source : Register)
    (slot : Nat)
    : o ≠ .save source slot := by
  rintro rfl
  cases e with
  | recur targets args => simp [effect, assignment] at ho
  | _ => simp [effect] at ho

theorem instruction_same (apart : layout.Apart) {id : ValueId} (hid : id ∉ ins.writes)
    (h : Exec.ops call (instruction layout ins) f = .ok () f')
    : layout.Same id f f' := by
  obtain ⟨hregisters, hslots⟩ := Exec.ops_kept h
  cases hcommand : ins.command with
  | transfer t =>
    simp only [instruction, hcommand] at hregisters hslots
    refine ⟨hregisters _ (by simp), fun slot hslot => ?_⟩
    have hbehind := Nat.lt_of_lt_of_le (by decide : 5 < headerSize) (apart.header hslot)
    exact hslots slot (by lia) (by lia) (by simp)
  | effect e =>
    have hwrites : ins.writes = e.writes ins.id := by simp only [Instruction.writes, hcommand]
    simp only [instruction, hcommand] at hregisters hslots
    constructor
    . apply hregisters
      intro o ho htarget
      rcases List.mem_append.1 ho with ho | ho
      . exact hid (hwrites ▸ mem_writes_of_effect ho htarget)
      . obtain ⟨_, _, _, _, rfl⟩ := mem_saves.1 ho
        cases htarget
    . intro slot hslot
      have hbehind := Nat.lt_of_lt_of_le (by decide : 5 < headerSize) (apart.header hslot)
      refine hslots slot (by lia) (by lia) ?_
      intro o ho source hsave
      rcases List.mem_append.1 ho with ho | ho
      . exact effect_not_save ho source slot hsave
      . obtain ⟨v, hv, _, hslot', heq⟩ := mem_saves.1 ho
        cases hsave.symm.trans heq
        exact hid (apart.inj hslot hslot' ▸ hv)

theorem stores_saved (apart : layout.Apart) {s : State}
    (hroom : ∀ id slot, layout.slots.get? id = some slot → slot < s.slots.size)
    {registers : Registers} {ids : List ValueId} {id : ValueId} (hid : id ∈ ids) {value : Value}
    (hvalue : registers.get (.result id) = value) (store : Store)
    : layout.Stores id value { state := saved layout registers ids s, store, registers } where
  register := hvalue
  slot slot hslot := (saved_slot apart hid hslot (hroom id slot hslot)).trans hvalue

theorem ops_setLocal (call : Caller) (id target : ValueId) (value : Operand) (f : Frame)
    : Exec.ops call (effect id (.setLocal target value)) f =
        match value.source.fault? f.store with
        | some stop => .error stop f
        | none => .ok () { f with
            registers := (f.registers.set (.result target) (f.look value.source)).set (.result id)
              (f.look value.source) } := by
  simp only [effect, Exec.ops_cons, Bind.bind, EStateM.bind, Exec.op_move]
  cases value.source.fault? f.store with
  | some stop => rfl
  | none =>
    simp only [Source.fault?, Frame.look, Registers.get_set, update, if_true]
    rfl

theorem instruction_assigns (hregular : ins.IsRegular) (hcommand : ins.command = .effect e)
    (hassigns : ins.command.Assigns) (apart : layout.Apart)
    (hroom : ∀ id slot, layout.slots.get? id = some slot → slot < f.state.slots.size)
    : match Exec.ops call (instruction layout ins) f with
      | .ok _ f' => ∀ pair ∈ e.assigned, ∃ value, Exec.eval pair.2.source f = .ok value f ∧
          layout.Stores pair.1 value f'
      | .error _ f' => f'.toProcess = f.toProcess := by
  obtain ⟨e', he, hrecur⟩ := hregular
  cases hcommand.symm.trans he
  rw [hcommand] at hassigns
  have hinstruction : instruction layout ins
      = effect ins.id e ++ saves layout (e.writes ins.id) := by
    simp only [instruction, Instruction.writes, hcommand]
  rw [hinstruction, Exec.ops_append]
  cases e with
  | setLocal target value =>
    have hset := ops_setLocal call ins.id target value f
    cases hfault : value.source.fault? f.store with
    | some stop =>
      rw [hfault] at hset
      rw [bind_of_error hset]
    | none =>
      rw [hfault] at hset
      rw [bind_of_ok hset, ops_saves]
      refine List.forall_mem_singleton.2 ⟨_, eval_of_fault_none hfault, ?_⟩
      refine stores_saved apart hroom (List.mem_cons_self ..) ?_ f.store
      simp only [Registers.get_set, update, if_true, ite_self]
  | recur targets args =>
    obtain ⟨nodup, hlength⟩ := hrecur targets args rfl
    have hparallel := assignment_parallel call f nodup hlength
    change match ((Exec.ops call (assignment targets args) >>= fun _ =>
      Exec.ops call (saves layout targets)) f) with | .ok _ _ => _ | .error _ _ => _
    cases hrun : Exec.ops call (assignment targets args) f with
    | error stop g =>
      rw [hrun] at hparallel
      rw [bind_of_error hrun]
      exact hparallel.1
    | ok _ g =>
      rw [hrun] at hparallel
      rw [bind_of_ok hrun, ops_saves]
      obtain ⟨hprocess, hvalues, _⟩ := hparallel
      rintro ⟨target, arg⟩ hpair
      refine ⟨_, hvalues target arg hpair,
        stores_saved apart ?_ (List.of_mem_zip hpair).1 rfl g.store⟩
      rw [hprocess]
      exact hroom
  | _ => exact hassigns.elim

end Emit

/--
What an assignment comes to, of which a scope is known: its variables have the values that its
operands had before, and all others in scope, hidden ones included, are the same. If an operand has
no value, nothing has happened to the machine.
-/
def Layout.Unaliased (layout : Layout) (e : Effect) (scope : Scope) (f : Frame) :
    EStateM.Result Stop Frame Unit → Prop
  | .ok _ f' =>
    (∀ pair ∈ e.assigned, ∃ value, Exec.eval pair.2.source f = .ok value f ∧
      layout.Stores pair.1 value f') ∧
    ∀ entry ∈ scope.locals, entry.2 ∉ e.assigned.map (·.1) → layout.Same entry.2 f f'
  | .error _ f' => f'.toProcess = f.toProcess

def Graph.opsBefore (graph : Graph) (b : BlockId) (i : Nat) : List Op :=
  ((graph.blocks.code b).take i).flatMap (Emit.instruction graph.layout)

theorem Exec.load_get {layout : Layout} {loads : List (ValueId × Nat)} {f f' : Frame}
    (hloads : ∀ load ∈ loads, layout.slots.get? load.1 = some load.2)
    (h : load loads f = .ok () f') {id : ValueId} {slot : Nat}
    (hslot : layout.slots.get? id = some slot)
    (hheld : (id, slot) ∈ loads ∨ f.registers.get (.result id) = f.state.slot slot)
    : f'.registers.get (.result id) = f.state.slot slot := by
  induction loads generalizing f with
  | nil =>
    cases h
    exact hheld.resolve_left List.not_mem_nil
  | cons load loads ih =>
    rw [List.forall_mem_cons] at hloads
    refine @ih { f with registers := f.registers.set (.result load.1) (f.state.slot load.2) }
      hloads.2 h ?_
    by_cases hid : id = load.1
    . have hsame : some slot = some load.2 := by rw [← hslot, hid, hloads.1]
      right
      simp only [Registers.get_set, update, hid, if_true]
      rw [Option.some.inj hsame]
    . refine hheld.imp (fun hmem => ?_) fun hheld => ?_
      . exact (List.mem_cons.1 hmem).resolve_left fun heq => hid (heq ▸ rfl)
      . simpa only [Registers.get_set, update, Register.result.injEq, if_neg hid] using hheld

def Reply.state : Reply → State
  | .control _ s | .fault _ s | .drive s _ => s

/--
Whether the handlers of a table keep the number of slots.
-/
def Table.KeepsSize (table : Table String Handler) : Prop :=
  ∀ name handler, table.get? name = some handler → ∀ s resume args, headerSize ≤ s.slots.size →
    (handler s resume args).state.slots.size = s.slots.size

theorem Table.keepsSize_yield : (Table.ofList [("yield", Handler.yield)]).KeepsSize := by
  intro name handler hhandler s resume args _
  obtain rfl := Table.eq_of_get?_single hhandler
  exact (State.size_setSlot _ 1 _).trans (State.size_setSlot _ 2 _)

namespace Assignment

variable {options : CompileOptions} {plan : Plan} {root q : Place} {b : BlockId} {i : Nat}
  {ins : Instruction} {e : Effect}

theorem not_mem_writes (h : Assignment options plan root b i ins q) (hq : q.Sound)
    (hcommand : ins.command = .effect e) (hregular : ins.IsRegular) {entry : String × ValueId}
    (hentry : entry ∈ q.scope.locals) (hother : entry.2 ∉ e.assigned.map (·.1))
    : entry.2 ∉ ins.writes := by
  obtain ⟨e', he, hrecur⟩ := hregular
  cases hcommand.symm.trans he
  have hwrites : ins.writes = e.writes ins.id := by simp only [Instruction.writes, hcommand]
  rw [hwrites]
  cases h with
  | set _ _ _ _ _ hoperands =>
    cases hcommand
    have hold := hq.sorted.locals _ (Scope.binds_of_mem hentry)
    have hle := hoperands.value_le
    intro hmem
    rcases List.mem_cons.1 hmem with heq | hmem
    . exact hother (List.mem_singleton.2 heq)
    . have := List.mem_singleton.1 hmem
      lia
  | recur =>
    cases hcommand
    obtain ⟨_, hlength⟩ := hrecur _ _ rfl
    rwa [Effect.assigned, List.map_fst_zip (Nat.le_of_eq hlength)] at hother

end Assignment

namespace Graph.Coded

variable {options : CompileOptions} {source : Form} {graph : Graph} {plan : Plan}
  {table : Table String Handler} {name : String} {program : Program} {machines : Machines}
  {b : BlockId} {i : Nat} {ins : Instruction} {e : Effect} {code : BlockProgram}

theorem split_at (h : graph.Coded options source plan) (hins : (plan.code b)[i]? = some ins)
    (hcommand : ins.command = .effect e)
    (hemit : Emit.block graph.layout table b (plan.code b) = .ok code)
    : (∃ rest, code.ops = graph.opsBefore b i ++ Emit.instruction graph.layout ins ++ rest) ∧
        ins.IsRegular := by
  obtain ⟨effects, last, t, hsplit, hlast, _, _, hops⟩ := Emit.block_ok hemit
  have hlt : i < effects.length := by
    refine Nat.lt_of_not_le fun hge => ?_
    have hi := (List.getElem?_eq_some_iff.1 hins).1
    rw [hsplit, List.length_append, List.length_singleton] at hi
    have heq : i = effects.length := by lia
    rw [hsplit, heq, List.getElem?_concat_length] at hins
    cases hins
    rw [hcommand] at hlast
    cases hlast
  have hat : effects[i]? = some ins := by
    rwa [hsplit, List.getElem?_append_left hlt] at hins
  constructor
  . obtain ⟨_, hget⟩ := List.getElem?_eq_some_iff.1 hat
    have hparts : effects = effects.take i ++ ins :: effects.drop (i + 1) := by
      rw [← hget, ← List.drop_eq_getElem_cons hlt, List.take_append_drop]
    have hbefore : graph.opsBefore b i
        = (effects.take i).flatMap (Emit.instruction graph.layout) := by
      rw [Graph.opsBefore, h.code, hsplit, List.take_append_of_le_length (Nat.le_of_lt hlt)]
    refine ⟨(effects.drop (i + 1)).flatMap (Emit.instruction graph.layout), ?_⟩
    rw [hops, hbefore]
    conv => lhs; rw [hparts]
    simp only [List.flatMap_append, List.flatMap_cons, List.append_assoc]
  . exact h.regular hsplit (List.cons_ne_nil _ _) ins (List.mem_of_getElem? hat)

theorem room_before (h : graph.Coded options source plan) (hsmall : graph.IsSmall)
    (hemit : Emit.block graph.layout table b (plan.code b) = .ok code) {call : Caller}
    {p : Process} (hroom : graph.layout.size ≤ p.state.slots.size) {done rest : List Op}
    (hops : code.ops = done ++ rest) {f : Frame}
    (hrun : (Exec.load code.loads >>= fun _ => Exec.ops call done) { toProcess := p } = .ok () f)
    : f.state.slots.size = p.state.slots.size := by
  obtain ⟨⟨⟩, g, hload, hdone⟩ := bind_ok.1 hrun
  have hstart : g.toProcess = p := by
    obtain ⟨registers, hloaded⟩ := Exec.load_ok code.loads { toProcess := p }
    cases hload.symm.trans hloaded
    rfl
  have htame : ∀ o ∈ done, o.IsTame := fun o ho =>
    h.tame hsmall hemit o (hops ▸ List.mem_append_left _ ho)
  have hheader : headerSize ≤ g.state.slots.size := by
    rw [hstart]
    exact Nat.le_trans (Graph.headerSize_le_size graph) hroom
  have hworked := Exec.ops_worked call htame hheader
  rw [hdone] at hworked
  rw [hworked.1.size, hstart]

theorem executes_size (h : graph.Coded options source plan) (hsmall : graph.IsSmall)
    (hprogram : Program.ofGraph graph table name = .ok program) {p : Process}
    (hroom : graph.layout.size ≤ p.state.slots.size) {fuel : Nat}
    {r : EStateM.Result Stop Frame Flow} (hexec : program.Executes machines fuel p r)
    : (∀ flow f, r = .ok flow f → f.state.slots.size = p.state.slots.size ∧
          ∀ handler resume args, flow = .suspend handler resume args →
            ∃ name, table.get? name = some handler) ∧
        ∀ stop f, r = .error stop f → f.state.slots.size = p.state.slots.size := by
  obtain ⟨b, code, _, hcode, rfl⟩ := hexec
  rcases h.get?_program hprogram b with ⟨_, hnone⟩ | ⟨code', hsome, hemit⟩
  . rw [hnone] at hcode
    cases hcode
  rw [hsome] at hcode
  cases hcode
  have hleft := Exec.block_left (Run.call machines (Program.run machines fuel))
    (h.tame hsmall hemit) (Nat.le_trans (Graph.headerSize_le_size graph) hroom)
  constructor
  . intro flow f hrun
    rw [hrun] at hleft
    obtain ⟨s, hworked, _, hleft⟩ := hleft
    cases hleft with
    | next _ hsize => exact ⟨hsize.trans hworked.size, by simp⟩
    | done hstate =>
      rw [hstate, State.size_finish]
      exact ⟨hworked.size, by simp⟩
    | suspend hexit hstate =>
      rw [hstate]
      refine ⟨hworked.size, ?_⟩
      intro handler resume args hflow
      cases hflow
      exact Emit.mem_of_suspend hemit hexit
  . intro stop f hrun
    rw [hrun] at hleft
    exact hleft.size

theorem answer_size (h : graph.Coded options source plan) (hsmall : graph.IsSmall)
    (hprogram : Program.ofGraph graph table name = .ok program) (hsizes : table.KeepsSize)
    {p : Process} (hroom : graph.layout.size ≤ p.state.slots.size) {fuel : Nat} {handler : Handler}
    {resume : BlockId} {args : List Value} {f : Frame}
    (hexec : program.Executes machines fuel p (.ok (.suspend handler resume args) f))
    : (handler f.state resume args).state.slots.size = p.state.slots.size := by
  obtain ⟨hsize, hhandler⟩ := (h.executes_size hsmall hprogram hroom hexec).1 _ f rfl
  obtain ⟨name, hhandler⟩ := hhandler _ _ _ rfl
  have hheader : headerSize ≤ f.state.slots.size := by
    rw [hsize]
    exact Nat.le_trans (Graph.headerSize_le_size graph) hroom
  exact (hsizes name handler hhandler f.state resume args hheader).trans hsize

theorem moves_size (h : graph.Coded options source plan) (hsmall : graph.IsSmall)
    (hprogram : Program.ofGraph graph table name = .ok program) (hsizes : table.KeepsSize)
    {p q : Process} (hroom : graph.layout.size ≤ p.state.slots.size) {fuel : Nat}
    {faults : List Value} (hmoves : program.Moves machines fuel p faults q)
    : q.state.slots.size = p.state.slots.size := by
  cases hmoves with
  | next hexec | done hexec => exact ((h.executes_size hsmall hprogram hroom hexec).1 _ _ rfl).1
  | @control _ _ _ _ decision _ hexec hreply =>
    have hsize := h.answer_size hsmall hprogram hsizes hroom hexec
    rw [hreply] at hsize
    cases decision with
    | suspend | «continue» => exact hsize
    | complete value => exact (State.size_finish _ value).trans hsize
  | drive hexec hreply =>
    have hsize := h.answer_size hsmall hprogram hsizes hroom hexec
    rwa [hreply] at hsize
  | @raise value q hraises =>
    have hsize : q.state.slots.size = p.state.slots.size := by
      cases hraises with
      | missing => rfl
      | thrown hexec => exact (h.executes_size hsmall hprogram hroom hexec).2 _ _ rfl
      | answered hexec hreply =>
        have hsize := h.answer_size hsmall hprogram hsizes hroom hexec
        rwa [hreply] at hsize
    refine Eq.trans ?_ hsize
    simp only [Run.route]
    cases (q.state.setException value).handlers with
    | nil => exact State.size_setSlot _ 5 _
    | cons => exact (State.size_setSlot _ 1 _).trans (State.size_setSlot _ 5 _)

theorem ran_room (h : graph.Coded options source plan) (hsmall : graph.IsSmall)
    (hprogram : Program.ofGraph graph table name = .ok program) (hsizes : table.KeepsSize)
    {past : List Op} {faults : List Value} {p : Process}
    (hran : program.Ran machines past faults p)
    : graph.layout.size ≤ p.state.slots.size := by
  induction hran with
  | create hcreate =>
    obtain ⟨_, rfl⟩ := Program.create_ok hcreate
    obtain ⟨blocks, _, rfl⟩ := Program.ofGraph_ok hprogram
    exact State.size_initial _ _
  | touch _ htouched ih =>
    cases htouched with
    | store => exact ih
    | pending => exact Nat.le_trans ih (Nat.le_of_eq (State.size_setSlot _ 2 _).symm)
    | finish => exact Nat.le_trans ih (Nat.le_of_eq (State.size_finish _ _).symm)
    | fault => exact Nat.le_trans ih (Nat.le_of_eq (State.size_setSlot _ 5 _).symm)
  | move _ hmoves ih =>
    exact Nat.le_trans ih (Nat.le_of_eq (h.moves_size hsmall hprogram hsizes ih hmoves).symm)

theorem unaliased (h : graph.Coded options source plan) (hsmall : graph.IsSmall)
    (hprogram : Program.ofGraph graph table name = .ok program)
    (hins : (plan.code b)[i]? = some ins) (hcommand : ins.command = .effect e)
    (hassigns : ins.command.Assigns) {q : Place}
    (hcomprises : Comprises options plan (.root options source) q)
    (hassignment : Assignment options plan (.root options source) b i ins q) {p : Process}
    (hroom : graph.layout.size ≤ p.state.slots.size) (hcode : program.blocks.get? b = some code)
    : (∃ rest, code.ops = graph.opsBefore b i ++ Emit.instruction graph.layout ins ++ rest) ∧
        ∀ {call : Caller} {f : Frame}, (Exec.load code.loads >>= fun _ =>
          Exec.ops call (graph.opsBefore b i)) { toProcess := p } = .ok () f →
            graph.layout.Unaliased e q.scope f
              (Exec.ops call (Emit.instruction graph.layout ins) f) := by
  rcases h.get?_program hprogram b with ⟨_, hnone⟩ | ⟨code', hsome, hemit⟩
  . rw [hnone] at hcode
    cases hcode
  rw [hsome] at hcode
  cases hcode
  obtain ⟨⟨rest, hops⟩, hregular⟩ := h.split_at hins hcommand hemit
  refine ⟨⟨rest, hops⟩, fun {call f} hrun => ?_⟩
  have hsize := h.room_before hsmall hemit hroom (hops.trans (List.append_assoc ..)) hrun
  have hslots : ∀ id slot, graph.layout.slots.get? id = some slot → slot < f.state.slots.size := by
    intro id slot hslot
    have := Graph.slot_lt_size hslot
    omega
  have hassigned := @Emit.instruction_assigns _ call _ _ _ hregular hcommand hassigns
    graph.layout_apart hslots
  have hsame := fun f' => @Emit.instruction_same graph.layout call f f' ins graph.layout_apart
  generalize Exec.ops call (Emit.instruction graph.layout ins) f = r at hassigned hsame
  cases r with
  | error stop f' => exact hassigned
  | ok _ f' =>
    refine ⟨hassigned, fun entry hentry hother => hsame f' ?_ rfl⟩
    exact hassignment.not_mem_writes (hcomprises.sound (Place.sound_root options source)) hcommand
      hregular hentry hother

end Graph.Coded

/--
Assigning to one name cannot reach another. The names in scope, hidden ones included, stand for
different results at every point of lowering: looking at them before and after each form changes
nothing, and they do at every place in the code of a graph. Every assignment in the graph is one to
the result that the name of a `set!` stands for at its place, or to the variables of the innermost
loop around a `recur`. Whenever a machine gets to it whose state has room for all results, it gives
these, in their registers and slots, the values of its operands, and leaves all other names in scope
alone. In every run there is that room. Both stays so until an instruction writes the result again,
and blocks fetch results from where they have been saved.
-/
theorem Program.assignments_unaliased (options : CompileOptions) (source : Form)
    : (∀ alarm,
        Lower.inspectedProgram alarm options source {} = Lower.program options source {}) ∧
        ∀ {graph : Graph}, Graph.ofForm options source = .ok graph →
          ∃ plan, (∀ b, graph.blocks.code b = plan.code b) ∧
            (∀ q, Comprises options plan (.root options source) q →
              (q.scope.locals.map (·.2)).Nodup) ∧
            (∀ {b : BlockId} {i : Nat} {ins : Instruction} {e : Effect},
              (graph.blocks.code b)[i]? = some ins → ins.command = .effect e →
              ins.command.Assigns →
                ∃ q, Comprises options plan (.root options source) q ∧
                  Assignment options plan (.root options source) b i ins q ∧
                  ∀ {table : Table String Handler} {name : String} {program : Program}
                    {p : Process} {code : BlockProgram},
                    graph.IsSmall → Program.ofGraph graph table name = .ok program →
                    graph.layout.size ≤ p.state.slots.size → program.blocks.get? b = some code →
                      (∃ rest, code.ops
                        = graph.opsBefore b i ++ Emit.instruction graph.layout ins ++ rest) ∧
                      ∀ {call : Caller} {f : Frame}, (Exec.load code.loads >>= fun _ =>
                        Exec.ops call (graph.opsBefore b i)) { toProcess := p } = .ok () f →
                          graph.layout.Unaliased e q.scope f
                            (Exec.ops call (Emit.instruction graph.layout ins) f)) ∧
            (∀ {table : Table String Handler} {name : String} {program : Program}
              {machines : Machines} {past : List Op} {faults : List Value} {p : Process},
              graph.IsSmall → Program.ofGraph graph table name = .ok program → table.KeepsSize →
              program.Ran machines past faults p → graph.layout.size ≤ p.state.slots.size) ∧
            (∀ {call : Caller} {f f' : Frame} {ins : Instruction} {id : ValueId},
              Exec.ops call (Emit.instruction graph.layout ins) f = .ok () f' →
                id ∉ ins.writes → graph.layout.Same id f f') ∧
            ∀ {table : Table String Handler} {name : String} {program : Program} {b : BlockId}
              {code : BlockProgram} {f f' : Frame},
              Program.ofGraph graph table name = .ok program →
              program.blocks.get? b = some code → Exec.load code.loads f = .ok () f' →
                ∀ load ∈ code.loads, graph.layout.slots.get? load.1 = some load.2 ∧
                  f'.registers.get (.result load.1) = f.state.slot load.2 := by
  refine ⟨fun alarm => Lower.inspectedProgram_eq alarm options source, fun {graph} hgraph => ?_⟩
  obtain ⟨plan, hcoded⟩ := Graph.ofForm_coded hgraph
  refine ⟨plan, hcoded.code, ?_, ?_, ?_, ?_, ?_⟩
  . intro q hcomprises
    exact (hcomprises.sound (Place.sound_root options source)).distinct
  . intro b i ins e hins hcommand hassigns
    rw [hcoded.code] at hins
    obtain ⟨q, hcomprises, hassignment⟩ := hcoded.assignment hins hassigns
    refine ⟨q, hcomprises, hassignment, ?_⟩
    intro table name program p code hsmall hprogram hroom hcode
    exact hcoded.unaliased hsmall hprogram hins hcommand hassigns hcomprises hassignment hroom hcode
  . intro table name program machines past faults p hsmall hprogram hsizes hran
    exact hcoded.ran_room hsmall hprogram hsizes hran
  . intro call f f' ins id hrun hid
    exact Emit.instruction_same graph.layout_apart hid hrun
  . intro table name program b code f f' hprogram hcode hload load hmem
    rcases hcoded.get?_program hprogram b with ⟨_, hnone⟩ | ⟨code', hsome, hemit⟩
    . rw [hnone] at hcode
      cases hcode
    rw [hsome] at hcode
    cases hcode
    obtain ⟨_, _, _, _, _, _, hloads, _⟩ := Emit.block_ok hemit
    rw [hloads] at hload hmem
    have hslot := Emit.slot_of_mem_loads hmem
    exact ⟨hslot, Exec.load_get (fun _ => Emit.slot_of_mem_loads) hload hslot (.inl hmem)⟩

def Form.setCopy : Form :=
  .list [.symbol "let" .synthetic,
    .vector [.symbol "a" .synthetic, .atom (.int 1) .synthetic, .symbol "b" .synthetic,
      .symbol "a" .synthetic] .synthetic,
    .list [.symbol "set!" .synthetic, .symbol "b" .synthetic, .atom (.int 2) .synthetic]
      .synthetic,
    .symbol "a" .synthetic] .synthetic

def Program.arrives? (graph : Graph) (program : Program) (i : Nat) : Option (State × Frame) :=
  match program.create .nil [], program.blocks.get? 0 with
  | .ok state, some code =>
    match (Exec.load code.loads >>= fun _ => Exec.ops (Run.call {} (Program.run {} 1))
      (graph.opsBefore 0 i)) { state, store := {} } with
    | .ok _ f => some (state, f)
    | .error _ _ => none
  | _, _ => none

def Graph.assigns (graph : Graph) (i : Nat) (target : ValueId) (f : Frame) : Bool :=
  match (graph.blocks.code 0)[i]? with
  | some ⟨id, .effect (.setLocal assigned value), span⟩ =>
    assigned == target && match Exec.ops (Run.call {} (Program.run {} 1))
        (Emit.instruction graph.layout ⟨id, .effect (.setLocal assigned value), span⟩) f with
      | .ok _ _ => true
      | .error _ _ => false
  | _ => false

theorem Program.assignments_unaliased_setCopy
    : ∃ (graph : Graph) (program : Program) (plan : Plan) (p : Process) (code : BlockProgram)
        (ins : Instruction) (e : Effect) (q : Place) (f f' : Frame),
        Graph.ofForm { expander := .core } .setCopy = .ok graph ∧
        program.Ran {} [] [] p ∧ program.blocks.get? 0 = some code ∧
        (graph.blocks.code 0)[2]? = some ins ∧ ins.command = .effect e ∧
        e.assigned.map (·.1) = [1] ∧
        Comprises { expander := .core } plan (.root { expander := .core } .setCopy) q ∧
        (Exec.load code.loads >>= fun _ => Exec.ops (Run.call {} (Program.run {} 1))
          (graph.opsBefore 0 2)) { toProcess := p } = .ok () f ∧
        Exec.ops (Run.call {} (Program.run {} 1)) (Emit.instruction graph.layout ins) f
          = .ok () f' ∧
        graph.layout.Unaliased e q.scope f (.ok () f') := by
  obtain ⟨graph, program, hgraph, hprogram, hcheck⟩ := Graph.exists_of_check { expander := .core }
    .setCopy (.ofList [("yield", Handler.yield)]) "main"
    (fun graph program => decide graph.IsSmall && (program.arrives? graph 2).any fun start =>
      graph.assigns 2 1 start.2)
    (by decide +kernel)
  simp only [Bool.and_eq_true, decide_eq_true_eq, Option.any_eq_true] at hcheck
  obtain ⟨hsmall, ⟨state, f⟩, harrives, hassigns⟩ := hcheck
  obtain ⟨code, hcreate, hcode, hrun⟩ : ∃ code, program.create .nil [] = .ok state ∧
      program.blocks.get? 0 = some code ∧
      (Exec.load code.loads >>= fun _ => Exec.ops (Run.call {} (Program.run {} 1))
        (graph.opsBefore 0 2)) { state, store := {} } = .ok () f := by
    unfold Program.arrives? at harrives
    split at harrives
    . next state' code hcreate hcode =>
      split at harrives
      . next hrun =>
        cases harrives
        exact ⟨code, hcreate, hcode, hrun⟩
      . cases harrives
    . cases harrives
  unfold Graph.assigns at hassigns
  split at hassigns
  . next id assigned value span hins =>
    rw [Bool.and_eq_true, beq_iff_eq] at hassigns
    obtain ⟨rfl, hassigns⟩ := hassigns
    split at hassigns
    . next f' hops =>
      obtain ⟨plan, _, _, hassigned, hroom, _⟩ :=
        (Program.assignments_unaliased { expander := .core } .setCopy).2 hgraph
      obtain ⟨q, hcomprises, _, hunaliased⟩ := hassigned hins rfl trivial
      have hran : program.Ran {} [] [] ⟨state, {}⟩ := .create hcreate
      have hresult := (hunaliased hsmall hprogram
        (hroom hsmall hprogram Table.keepsSize_yield hran) hcode).2 hrun
      rw [hops] at hresult
      exact ⟨graph, program, plan, ⟨state, {}⟩, code, _, _, q, f, f', hgraph, hran, hcode, hins,
        rfl, rfl, hcomprises, hrun, hops, hresult⟩
    . cases hassigns
  . cases hassigns

end Resumable
