import Resumable.Proofs.Handlers.Slack
import Resumable.Proofs.Slots.Unaliased

/-!
This module contains which instructions of a block a turn of a machine has begun, and what the turn
has left alone: the slots of results that none of them writes, and the global variables that none of
them may set.
-/

namespace Resumable

def Op.MaySet (name : String) : Op → Prop
  | .setGlobal _ name' _ => name' = name
  | .call _ _ _ | .method _ _ _ _ => True
  | _ => False

/--
Whether an instruction may give a global variable a new value: by `set!`, or in a function that it
calls.
-/
def Instruction.MaySet (name : String) (ins : Instruction) : Prop :=
  match ins.command with
  | .effect (.setGlobal name' _) => name' = name
  | .effect (.call _ _) | .effect (.method _ _ _) => True
  | _ => False

namespace Exec

def Spares {α γ : Type} (view : Frame → γ) (x : Exec α) : Prop :=
  ∀ f, match x f with
    | .ok _ f' => view f' = view f
    | .error _ f' => view f' = view f

namespace Spares

variable {α β γ : Type} {view : Frame → γ}

theorem ok {x : Exec α} (h : Spares view x) {a : α} {f f' : Frame} (hx : x f = .ok a f')
    : view f' = view f := by
  simpa only [hx] using h f

theorem error {x : Exec α} (h : Spares view x) {stop : Stop} {f f' : Frame}
    (hx : x f = .error stop f')
    : view f' = view f := by
  simpa only [hx] using h f

theorem pure (a : α) : Spares view (Pure.pure a) := fun _ => rfl

theorem throw (stop : Stop) : Spares view (MonadExcept.throw stop : Exec α) := fun _ => rfl

theorem get : Spares view (MonadState.get : Exec Frame) := fun _ => rfl

theorem bind {x : Exec α} {k : α → Exec β} (hx : Spares view x) (hk : ∀ a, Spares view (k a))
    : Spares view (x >>= k) := by
  intro f
  cases hrun : x f with
  | error stop f₁ =>
    rw [bind_of_error hrun]
    exact hx.error hrun
  | ok a f₁ =>
    rw [bind_of_ok hrun]
    cases hlater : k a f₁ with
    | ok b f₂ => exact ((hk a).ok hlater).trans (hx.ok hrun)
    | error stop f₂ => exact ((hk a).error hlater).trans (hx.ok hrun)

theorem eval (source : Source) : Spares view (eval source) := by
  intro f
  rw [eval_eq]
  cases source.fault? f.store <;> rfl

theorem evalAll (sources : List Source) : Spares view (evalAll sources) := by
  induction sources with
  | nil => exact pure []
  | cons source sources ih => exact (eval source).bind fun _ => ih.bind fun _ => pure _

theorem heap : Spares view (onStore Action.heap) := fun _ => rfl

theorem ops {call : Caller} {todo : List Op} (h : ∀ o ∈ todo, Spares view (op call o))
    : Spares view (ops call todo) := by
  induction todo with
  | nil => exact pure ()
  | cons o todo ih =>
    rw [List.forall_mem_cons] at h
    exact h.1.bind fun _ => ih h.2

end Spares

theorem exit_spares {γ : Type} {view : Frame → γ}
    (hview : ∀ f k value, k < headerSize →
      view { f with state := f.state.setSlot k value } = view f)
    (exit : Exit)
    : Spares view (Exec.exit exit) := by
  have hgoes : ∀ (target : BlockId),
      Spares view (do onState (·.resumeAt target); return .next : Exec Flow) :=
    fun target f => hview f 1 _ (by decide)
  cases exit with
  | jump value target =>
    cases value with
    | none => exact hgoes _
    | some source =>
      refine (Spares.eval source).bind fun value f => ?_
      exact (hview { f with state := f.state.setPending value } 1 _ (by decide)).trans
        (hview f 2 _ (by decide))
  | finish source =>
    refine (Spares.eval source).bind fun value f => ?_
    exact (hview { f with state := f.state.setSlot 1 _ } 2 _ (by decide)).trans
      (hview f 1 _ (by decide))
  | branch test yes no => exact (Spares.eval test).bind fun _ => hgoes _
  | case source tests clauses fallback =>
    refine (Spares.eval source).bind fun value => ?_
    cases (findClause value tests clauses).or fallback with
    | some target => exact hgoes _
    | none => exact Spares.heap.bind fun _ => .throw _
  | dispatch clauses =>
    refine Spares.get.bind fun frame => Spares.heap.bind fun heap => ?_
    cases clauses.find? (catches heap frame.state.exception ·.2) with
    | none => exact .throw _
    | some clause =>
      intro f
      refine (hview { f with state := (f.state.setPending frame.state.exception).clearException } 1
        _ (by decide)).trans ?_
      exact (hview { f with state := f.state.setPending frame.state.exception } 5 _
        (by decide)).trans (hview f 2 _ (by decide))
  | suspend handler resume sources => exact (Spares.evalAll sources).bind fun _ => .pure _

def global? (name : String) (f : Frame) : Option Value :=
  f.store.globals.get? name

theorem Spares.onStore {α : Type} {name : String} {action : Action α}
    (h : ∀ store, match action store with
      | .ok _ store' => store'.globals.get? name = store.globals.get? name
      | .error _ store' => store'.globals.get? name = store.globals.get? name)
    : Spares (global? name) (onStore action) := by
  intro f
  have hstore := h f.store
  unfold Exec.onStore
  cases hrun : action f.store with
  | ok _ store | error _ store =>
    simp only [hrun] at hstore ⊢
    exact hstore

theorem op_spares {call : Caller} {name : String} {o : Op} (h : ¬ o.MaySet name)
    : Spares (global? name) (op call o) := by
  have hput : ∀ {target : Register} {x : Exec Value}, Spares (global? name) x →
      Spares (global? name) (x >>= put target) :=
    fun hx => hx.bind fun _ _ => rfl
  cases o with
  | move target source => exact hput (.eval source)
  | call | method => exact absurd trivial h
  | closure target code captured =>
    refine hput ?_
    unfold makeClosure
    split
    . exact .throw _
    . exact (Spares.evalAll captured).bind fun _ => (Spares.onStore fun _ => rfl).bind fun _ =>
        .pure _
  | field target object field =>
    refine (Spares.eval object).bind fun object => hput (.onStore fun store => ?_)
    cases object <;> rfl
  | setGlobal target name' value =>
    refine (Spares.eval value).bind fun value => ?_
    refine (Spares.onStore fun store => ?_).bind fun _ _ => rfl
    unfold Action.assignGlobal
    rw [bind_of_ok (get_ok.2 ⟨rfl, rfl⟩)]
    cases store.globals.get? name' with
    | none => rfl
    | some _ => exact (Table.get?_insert _ _ _ _).trans (if_neg h)
  | setField target object field value =>
    refine (Spares.eval value).bind fun value => (Spares.eval object).bind fun object => ?_
    refine (Spares.onStore fun store => ?_).bind fun _ _ => rfl
    cases object <;> rfl
  | pushHandler | popHandler | takeException | save => exact fun _ => rfl
  | endFinally exception =>
    refine (Spares.eval exception).bind fun value => ?_
    split
    . exact .pure ()
    . exact .throw _

theorem ops_error {call : Caller} {todo : List Op} {f f' : Frame} {stop : Stop}
    (h : ops call todo f = .error stop f')
    : ∃ done o rest g, todo = done ++ o :: rest ∧ ops call done f = .ok () g ∧
        op call o g = .error stop f' := by
  induction todo generalizing f with
  | nil => cases h
  | cons o todo ih =>
    rw [ops_cons] at h
    cases hop : op call o f with
    | error stop' g =>
      rw [bind_of_error hop] at h
      cases h
      exact ⟨[], o, todo, f, rfl, rfl, hop⟩
    | ok _ g =>
      rw [bind_of_ok hop] at h
      obtain ⟨done, o', rest, g', rfl, hdone, hstop⟩ := ih h
      refine ⟨o :: done, o', rest, g', rfl, ?_, hstop⟩
      rw [ops_cons, bind_of_ok hop]
      exact hdone

end Exec

namespace Emit

variable {layout : Layout} {call : Caller} {ins : Instruction} {name : String}

theorem mem_assignment {targets : List ValueId} {args : List Operand} {o : Op}
    (h : o ∈ assignment targets args)
    : ∃ target source, o = .move target source := by
  simp only [assignment, List.mem_append, List.mem_map] at h
  rcases h with (⟨_, _, rfl⟩ | ⟨_, _, rfl⟩) | ⟨_, _, rfl⟩ <;> exact ⟨_, _, rfl⟩

theorem maySet_of_instruction {o : Op} (ho : o ∈ instruction layout ins) (h : o.MaySet name)
    : ins.MaySet name := by
  unfold instruction at ho
  unfold Instruction.MaySet
  cases hcommand : ins.command with
  | transfer t =>
    rw [hcommand] at ho
    cases ho
  | effect e =>
    simp only [hcommand] at ho ⊢
    rcases List.mem_append.1 ho with ho | ho
    . cases e with
      | recur targets args =>
        obtain ⟨_, _, rfl⟩ := mem_assignment ho
        cases h
      | setLocal target value =>
        simp only [effect, List.mem_cons, List.not_mem_nil, or_false] at ho
        rcases ho with rfl | rfl <;> cases h
      | _ =>
        cases List.mem_singleton.1 ho
        exact h
    . obtain ⟨_, _, _, _, rfl⟩ := mem_saves.1 ho
      cases h

theorem instruction_spares (h : ¬ ins.MaySet name)
    : Exec.Spares (Exec.global? name) (Exec.ops call (instruction layout ins)) :=
  .ops fun _ ho => Exec.op_spares fun hset => h (maySet_of_instruction ho hset)

theorem instructions_same {done : List Instruction} (apart : layout.Apart) {id : ValueId}
    (hid : ∀ ins ∈ done, id ∉ ins.writes) {f f' : Frame}
    (h : Exec.ops call (done.flatMap (instruction layout)) f = .ok () f')
    : layout.Same id f f' := by
  induction done generalizing f with
  | nil =>
    cases h
    exact ⟨rfl, fun _ _ => rfl⟩
  | cons ins done ih =>
    rw [List.forall_mem_cons] at hid
    rw [List.flatMap_cons, Exec.ops_append] at h
    obtain ⟨⟨⟩, g, hfirst, hrest⟩ := bind_ok.1 h
    have hsame := instruction_same apart hid.1 hfirst
    have hsame' := ih hid.2 hrest
    exact ⟨hsame'.register.trans hsame.register,
      fun slot hslot => (hsame'.slot slot hslot).trans (hsame.slot slot hslot)⟩

theorem writes_of_save {id : ValueId} {source : Register} {slot : Nat} (apart : layout.Apart)
    (hslot : layout.slots.get? id = some slot) (ho : .save source slot ∈ instruction layout ins)
    : id ∈ ins.writes := by
  unfold instruction at ho
  cases hcommand : ins.command with
  | transfer t =>
    rw [hcommand] at ho
    cases ho
  | effect e =>
    rw [hcommand] at ho
    rcases List.mem_append.1 ho with ho | ho
    . exact absurd rfl (effect_not_save ho source slot)
    . obtain ⟨v, hv, _, hslot', heq⟩ := mem_saves.1 ho
      cases heq
      exact apart.inj hslot hslot' ▸ hv

theorem instruction_stopped (apart : layout.Apart) {f f' : Frame} {stop : Stop}
    (htame : ∀ o ∈ instruction layout ins, o.IsTame) (hroom : headerSize ≤ f.state.slots.size)
    (h : Exec.ops call (instruction layout ins) f = .error stop f')
    : (∀ b ∈ f'.state.handlers, b ∈ f.state.handlers ∨ ins.command = .effect (.pushHandler b)) ∧
        f'.state.slot 1 = f.state.slot 1 ∧
        ∀ id slot, id ∉ ins.writes → layout.slots.get? id = some slot →
          f'.state.slot slot = f.state.slot slot := by
  obtain ⟨done, o, rest, g, hops, hdone, hstop⟩ := Exec.ops_error h
  rw [hops] at htame
  have hworked := Exec.ops_worked call (fun o ho => htame o (List.mem_append_left _ ho)) hroom
  rw [hdone] at hworked
  obtain ⟨hworked, hcarried⟩ := hworked
  have hstill := Exec.op_worked call (htame o (by simp)) (hworked.size ▸ hroom)
  rw [hstop] at hstill
  simp only at hstill
  refine ⟨fun b hb => ?_, hstill ▸ hworked.block, fun id slot hid hslot => ?_⟩
  . rw [hstill] at hb
    refine (hworked.handlers b hb).imp_right fun hpush => ?_
    rw [hcarried] at hpush
    have hmem : .pushHandler b ∈ instruction layout ins := hops ▸ List.mem_append_left _ hpush
    exact instruction_push hmem
  . have hbehind := Nat.lt_of_lt_of_le (by decide : 5 < headerSize) (apart.header hslot)
    rw [hstill]
    refine (Exec.ops_kept hdone).2 slot (by lia) (by lia) fun o ho source hsave => ?_
    exact hid (writes_of_save apart hslot (hops ▸ List.mem_append_left _ (hsave ▸ ho)))

end Emit

/--
An instruction that a turn has begun, with the stores before and after it.
-/
structure Begun where
  ins : Instruction
  before : Store
  after : Store

/--
Whether an instruction has given a global variable another value.
-/
def Begun.Sets (name : String) (step : Begun) : Prop :=
  step.ins.MaySet name ∧ step.after.globals.get? name ≠ step.before.globals.get? name

namespace Exec

/--
The instructions of a block that are begun before one of them stops early, itself included.
-/
def begun (layout : Layout) (call : Caller) : List Instruction → Frame → List Begun
  | [], _ => []
  | ins :: rest, f =>
    match ops call (Emit.instruction layout ins) f with
    | .ok _ f' => ⟨ins, f.store, f'.store⟩ :: begun layout call rest f'
    | .error _ f' => [⟨ins, f.store, f'.store⟩]

variable {layout : Layout} {call : Caller}

theorem begun_append {done rest : List Instruction} {f f' : Frame}
    (h : ops call (done.flatMap (Emit.instruction layout)) f = .ok () f')
    : begun layout call (done ++ rest) f = begun layout call done f ++ begun layout call rest f' := by
  induction done generalizing f with
  | nil =>
    cases h
    rfl
  | cons ins done ih =>
    rw [List.flatMap_cons, ops_append] at h
    obtain ⟨⟨⟩, g, hfirst, hrest⟩ := bind_ok.1 h
    simp only [List.cons_append, begun, hfirst, ih hrest]

theorem map_begun {done : List Instruction} {f f' : Frame}
    (h : ops call (done.flatMap (Emit.instruction layout)) f = .ok () f')
    : (begun layout call done f).map (·.ins) = done := by
  induction done generalizing f with
  | nil => rfl
  | cons ins done ih =>
    rw [List.flatMap_cons, ops_append] at h
    obtain ⟨⟨⟩, g, hfirst, hrest⟩ := bind_ok.1 h
    simp only [begun, hfirst, List.map_cons, ih hrest]

theorem ops_stopped {todo : List Instruction} {f f' : Frame} {stop : Stop}
    (h : ops call (todo.flatMap (Emit.instruction layout)) f = .error stop f')
    : ∃ done ins rest g, todo = done ++ ins :: rest ∧
        ops call (done.flatMap (Emit.instruction layout)) f = .ok () g ∧
        ops call (Emit.instruction layout ins) g = .error stop f' := by
  induction todo generalizing f with
  | nil => cases h
  | cons ins todo ih =>
    rw [List.flatMap_cons, ops_append] at h
    cases hfirst : ops call (Emit.instruction layout ins) f with
    | error stop' g =>
      rw [bind_of_error hfirst] at h
      cases h
      exact ⟨[], ins, todo, f, rfl, rfl, hfirst⟩
    | ok _ g =>
      rw [bind_of_ok hfirst] at h
      obtain ⟨done, ins', rest, g', rfl, hdone, hstop⟩ := ih h
      refine ⟨ins :: done, ins', rest, g', rfl, ?_, hstop⟩
      rw [List.flatMap_cons, ops_append, bind_of_ok hfirst]
      exact hdone

end Exec

/--
Whether a turn of a machine gets to an instruction of the block that the machine is at, with what is
in the machine then.
-/
structure Program.Reaches (machines : Machines) (program : Program) (graph : Graph) (fuel : Nat)
    (p : Process) (b : BlockId) (i : Nat) (f : Frame) : Prop where
  status : p.state.status? = some (.running b)
  arrives : ∃ code, program.blocks.get? b = some code ∧ (Exec.load code.loads >>= fun _ =>
    Exec.ops (Run.call machines (Program.run machines fuel)) (graph.opsBefore b i))
      { toProcess := p } = .ok () f

/--
The instructions that a turn of a machine begins. A turn that stops early does not get behind the
last of them.
-/
def Program.begun (machines : Machines) (program : Program) (graph : Graph) (fuel : Nat)
    (p : Process) : List Begun :=
  match p.state.status? with
  | some (.running b) =>
    match program.blocks.get? b with
    | some code =>
      match Exec.load code.loads { toProcess := p } with
      | .ok _ f => Exec.begun graph.layout (Run.call machines (Program.run machines fuel))
          (graph.blocks.code b) f
      | .error _ _ => []
    | none => []
  | _ => []

/--
What is the same in two processes if nothing but some instructions, and the world outside, has been
at work in between.
-/
structure Graph.Kept (graph : Graph) (done : List Begun) (worlds : List (Store × Store))
    (p q : Process) : Prop where
  slot : ∀ id slot, graph.layout.slots.get? id = some slot →
    (∀ step ∈ done, id ∉ step.ins.writes) → q.state.slot slot = p.state.slot slot
  global : ∀ name, (∀ step ∈ done, ¬ step.Sets name) →
    (∀ world ∈ worlds, world.2.globals.get? name = world.1.globals.get? name) →
      q.store.globals.get? name = p.store.globals.get? name

namespace Graph.Kept

variable {graph : Graph} {done done' : List Begun} {worlds worlds' : List (Store × Store)}
  {p q q' : Process}

theorem refl (graph : Graph) (p : Process) : graph.Kept [] [] p p where
  slot _ _ _ _ := rfl
  global _ _ _ := rfl

theorem trans (h : graph.Kept done worlds p q) (h' : graph.Kept done' worlds' q q')
    : graph.Kept (done ++ done') (worlds ++ worlds') p q' where
  slot id slot hslot hwrites := by
    rw [List.forall_mem_append] at hwrites
    exact (h'.slot id slot hslot hwrites.2).trans (h.slot id slot hslot hwrites.1)
  global name hset hworlds := by
    rw [List.forall_mem_append] at hset hworlds
    exact (h'.global name hset.2 hworlds.2).trans (h.global name hset.1 hworlds.1)

theorem next (h : graph.Kept done worlds p q) (hslots : ∀ slot, headerSize ≤ slot →
      q'.state.slot slot = q.state.slot slot)
    (hstore : q'.store = q.store)
    : graph.Kept done worlds p q' where
  slot id slot hslot hwrites :=
    (hslots slot (graph.layout_apart.header hslot)).trans (h.slot id slot hslot hwrites)
  global name hset hworlds := by
    rw [hstore]
    exact h.global name hset hworlds

theorem one {ins : Instruction} {f f' : Frame}
    (hslots : ∀ id slot, graph.layout.slots.get? id = some slot → id ∉ ins.writes →
      f'.state.slot slot = f.state.slot slot)
    (hglobals : ∀ name, ¬ ins.MaySet name → Exec.global? name f' = Exec.global? name f)
    : graph.Kept [⟨ins, f.store, f'.store⟩] [] f.toProcess f'.toProcess where
  slot id slot hslot hwrites := hslots id slot hslot (hwrites _ (List.mem_singleton.2 rfl))
  global name hset _ := by
    have hunset := hset _ (List.mem_singleton.2 rfl)
    refine Classical.byContradiction fun hother => hunset ⟨?_, hother⟩
    exact Classical.byContradiction fun hmay => hother (hglobals name hmay)

theorem of_ops {call : Caller} {code : List Instruction} {f f' : Frame}
    (h : Exec.ops call (code.flatMap (Emit.instruction graph.layout)) f = .ok () f')
    : graph.Kept (Exec.begun graph.layout call code f) [] f.toProcess f'.toProcess := by
  induction code generalizing f with
  | nil =>
    cases h
    exact refl graph _
  | cons ins code ih =>
    rw [List.flatMap_cons, Exec.ops_append] at h
    obtain ⟨⟨⟩, g, hfirst, hrest⟩ := bind_ok.1 h
    rw [Exec.begun, hfirst]
    refine trans (one (fun id slot hslot hwrites => ?_) fun name hmay => ?_) (ih hrest)
    . exact (Emit.instruction_same graph.layout_apart hwrites hfirst).slot slot hslot
    . exact (Emit.instruction_spares hmay).ok hfirst

end Graph.Kept

namespace Program.Reaches

variable {machines : Machines} {program : Program} {graph : Graph} {fuel : Nat} {p : Process}
  {b : BlockId} {i j : Nat} {f f' g : Frame} {code : BlockProgram}

theorem start (hstatus : p.state.status? = some (.running b))
    (hcode : program.blocks.get? b = some code)
    : ∃ f, program.Reaches machines graph fuel p b 0 f ∧ f.toProcess = p := by
  obtain ⟨registers, hload⟩ := Exec.load_ok code.loads { toProcess := p }
  refine ⟨{ toProcess := p, registers }, ⟨hstatus, code, hcode, ?_⟩, rfl⟩
  rw [bind_of_ok hload]
  rfl

theorem opsBefore_eq (hle : i ≤ j)
    : graph.opsBefore b j = graph.opsBefore b i ++
        (((graph.blocks.code b).take j).drop i).flatMap (Emit.instruction graph.layout) := by
  unfold Graph.opsBefore
  rw [← List.flatMap_append]
  conv =>
    lhs
    rw [← List.take_append_drop i ((graph.blocks.code b).take j), List.take_take, Nat.min_eq_left hle]

theorem before (h : program.Reaches machines graph fuel p b j f) (hle : i ≤ j)
    : ∃ g, program.Reaches machines graph fuel p b i g ∧
        Exec.ops (Run.call machines (Program.run machines fuel))
          ((((graph.blocks.code b).take j).drop i).flatMap (Emit.instruction graph.layout)) g
            = .ok () f := by
  obtain ⟨hstatus, code, hcode, hrun⟩ := h
  obtain ⟨⟨⟩, f₀, hload, hops⟩ := bind_ok.1 hrun
  rw [opsBefore_eq hle, Exec.ops_append] at hops
  obtain ⟨⟨⟩, g, hfirst, hrest⟩ := bind_ok.1 hops
  refine ⟨g, ⟨hstatus, code, hcode, ?_⟩, hrest⟩
  rw [bind_of_ok hload]
  exact hfirst

theorem after (h : program.Reaches machines graph fuel p b i f) (hle : i ≤ j)
    (hops : Exec.ops (Run.call machines (Program.run machines fuel))
      ((((graph.blocks.code b).take j).drop i).flatMap (Emit.instruction graph.layout)) f
        = .ok () f')
    : program.Reaches machines graph fuel p b j f' := by
  obtain ⟨hstatus, code, hcode, hrun⟩ := h
  refine ⟨hstatus, code, hcode, ?_⟩
  obtain ⟨⟨⟩, f₀, hload, hfirst⟩ := bind_ok.1 hrun
  rw [bind_of_ok hload, opsBefore_eq hle, Exec.ops_append, bind_of_ok hfirst]
  exact hops

theorem unique (h : program.Reaches machines graph fuel p b i f)
    (h' : program.Reaches machines graph fuel p b i f')
    : f = f' := by
  obtain ⟨_, code, hcode, hrun⟩ := h
  obtain ⟨_, code', hcode', hrun'⟩ := h'
  cases hcode.symm.trans hcode'
  cases hrun.symm.trans hrun'
  rfl

theorem begun_eq (h : program.Reaches machines graph fuel p b i f)
    : ∃ first, program.begun machines graph fuel p = first ++
          Exec.begun graph.layout (Run.call machines (Program.run machines fuel))
            ((graph.blocks.code b).drop i) f ∧
        first.map (·.ins) = (graph.blocks.code b).take i := by
  obtain ⟨hstatus, code, hcode, hrun⟩ := h
  obtain ⟨⟨⟩, f₀, hload, hops⟩ := bind_ok.1 hrun
  refine ⟨_, ?_, Exec.map_begun hops⟩
  simp only [Program.begun, hstatus, hcode, hload]
  rw [← Exec.begun_append hops, List.take_append_drop]

theorem drop_begun (h : program.Reaches machines graph fuel p b i f)
    (hi : i ≤ (graph.blocks.code b).length)
    : (program.begun machines graph fuel p).drop i =
        Exec.begun graph.layout (Run.call machines (Program.run machines fuel))
          ((graph.blocks.code b).drop i) f := by
  obtain ⟨first, hbegun, hfirst⟩ := h.begun_eq
  have hlength : first.length = i := by
    rw [← List.length_map (f := (·.ins)), hfirst, List.length_take_of_le hi]
  rw [hbegun, ← hlength, List.drop_left, hlength]

theorem slice_begun (hg : program.Reaches machines graph fuel p b j g)
    (h : program.Reaches machines graph fuel p b i f) (hle : j ≤ i)
    (hi : i ≤ (graph.blocks.code b).length)
    : (((program.begun machines graph fuel p).take i).drop j).map (·.ins)
          = ((graph.blocks.code b).take i).drop j ∧
        graph.Kept (((program.begun machines graph fuel p).take i).drop j) [] g.toProcess
          f.toProcess := by
  obtain ⟨g', hg', hops⟩ := h.before hle
  rw [hg'.unique hg] at hops
  have hparts : (graph.blocks.code b).drop j
      = ((graph.blocks.code b).take i).drop j ++ (graph.blocks.code b).drop i := by
    conv => lhs; rw [← List.take_append_drop i (graph.blocks.code b)]
    rw [List.drop_append_of_le_length (by rwa [List.length_take_of_le hi])]
  have hslice : ((program.begun machines graph fuel p).take i).drop j =
      Exec.begun graph.layout (Run.call machines (Program.run machines fuel))
        (((graph.blocks.code b).take i).drop j) g := by
    have hmap := Exec.map_begun hops
    have hlength := congrArg List.length hmap
    rw [List.length_map, List.length_drop, List.length_take_of_le hi] at hlength
    rw [List.drop_take, hg.drop_begun (Nat.le_trans hle hi), hparts, Exec.begun_append hops,
      ← hlength, List.take_left]
  rw [hslice]
  exact ⟨Exec.map_begun hops, .of_ops hops⟩

end Program.Reaches

end Resumable
