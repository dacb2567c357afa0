import Resumable.Proofs.Handlers.Course

/-!
This module contains the history of a machine: the operations that it has carried out whenever it
enters a block, in every run that is made of steps, resumptions and faults.
-/

namespace Resumable

def Exec.carried (call : Caller) : List Op → Frame → List Op
  | [], _ => []
  | o :: rest, f =>
    match op call o f with
    | .ok _ f' => o :: carried call rest f'
    | .error _ _ => []

def BlockProgram.carried (code : BlockProgram) (call : Caller) (p : Process) : List Op :=
  match Exec.load code.loads { toProcess := p } with
  | .ok _ f => Exec.carried call code.ops f
  | .error _ _ => []

def Run.Turn.process : Run.Turn → Process
  | .again p => p
  | .ended (.ok _ p) => p
  | .ended (.error _ p) => p

def Run.Turn.faults : Run.Turn → List Value
  | .ended (.error (.thrown value) _) => [value]
  | _ => []

inductive Process.Touched (p : Process) : List Value → Process → Prop where
  | store {store : Store} : p.Touched [] { p with store := store }
  | pending {value : Value} : p.Touched [] { p with state := p.state.setPending value }
  | finish {value : Value} : p.Touched [] { p with state := p.state.finish value }
  | fault {value : Value} :
    p.state.handlers = [] → p.Touched [value] { p with state := p.state.setException value }

namespace Program

def carried (machines : Machines) (program : Program) (fuel : Nat) (p : Process) : List Op :=
  match p.state.status? with
  | some (.running b) =>
    match program.blocks.get? b with
    | some code => code.carried (Run.call machines (Program.run machines fuel)) p
    | none => []
  | _ => []

inductive Moves (machines : Machines) (program : Program) (fuel : Nat) (p : Process) :
    List Value → Process → Prop where
  | next {f : Frame} :
    program.Executes machines fuel p (.ok .next f) → program.Moves machines fuel p [] f.toProcess
  | done {value : Value} {f : Frame} :
    program.Executes machines fuel p (.ok (.done value) f) →
      program.Moves machines fuel p [] f.toProcess
  | control {handler : Handler} {resume : BlockId} {args : List Value} {f : Frame}
      {decision : Control} {s : State} :
    program.Executes machines fuel p (.ok (.suspend handler resume args) f) →
      handler f.state resume args = .control decision s →
        program.Moves machines fuel p [] (Run.obey decision ⟨s, f.store⟩).process
  | drive {handler : Handler} {resume : BlockId} {args : List Value} {f : Frame} {s : State}
      {decide : Step → Control} :
    program.Executes machines fuel p (.ok (.suspend handler resume args) f) →
      handler f.state resume args = .drive s decide → program.Moves machines fuel p [] ⟨s, f.store⟩
  | raise {value : Value} {q : Process} :
    program.Raises machines fuel p value q →
      program.Moves machines fuel p (Run.route value q).faults (Run.route value q).process

/--
The runs of a machine from its creation on, with all operations that have been carried out and all
faults that have been handed back. A run goes on after a suspension, and also after such a fault.
-/
inductive Ran (machines : Machines) (program : Program) :
    List Op → List Value → Process → Prop where
  | create {self : Value} {args : List Value} {state : State} {store : Store} :
    program.create self args = .ok state → program.Ran machines [] [] ⟨state, store⟩
  | move {past : List Op} {faults new : List Value} {fuel : Nat} {p q : Process} :
    program.Ran machines past faults p → program.Moves machines fuel p new q →
      program.Ran machines (past ++ program.carried machines fuel p) (faults ++ new) q
  | touch {past : List Op} {faults new : List Value} {p q : Process} :
    program.Ran machines past faults p → p.Touched new q →
      program.Ran machines past (faults ++ new) q

end Program

namespace Exec

def Still {α : Type} (x : Exec α) : Prop :=
  ∀ f, match x f with
    | .ok _ f' => f'.state = f.state
    | .error _ f' => f'.state = f.state

namespace Still

variable {α β : Type}

theorem ok {x : Exec α} (h : Still x) {a : α} {f f' : Frame} (hx : x f = .ok a f')
    : f'.state = f.state := by
  simpa only [hx] using h f

theorem error {x : Exec α} (h : Still x) {stop : Stop} {f f' : Frame} (hx : x f = .error stop f')
    : f'.state = f.state := by
  simpa only [hx] using h f

theorem pure (a : α) : Still (Pure.pure a) := fun _ => rfl

theorem throw (stop : Stop) : Still (MonadExcept.throw stop : Exec α) := fun _ => rfl

theorem bind {x : Exec α} {k : α → Exec β} (hx : Still x) (hk : ∀ a, Still (k a))
    : Still (x >>= k) := by
  intro f
  cases hrun : x f with
  | error stop f₁ =>
    rw [bind_of_error hrun]
    exact hx.error hrun
  | ok a f₁ =>
    rw [bind_of_ok hrun]
    cases hlater : k a f₁ with
    | ok b f₂ => exact ((hk a).ok hlater).trans (hx.ok hrun)
    | error stop f₂ => exact ((hk a).error hlater).trans (hx.ok hrun)

theorem onStore (action : Action α) : Still (onStore action) := by
  intro f
  unfold Exec.onStore
  cases action f.store <;> rfl

theorem put (r : Register) (value : Value) : Still (put r value) := fun _ => rfl

theorem get : Still (MonadState.get : Exec Frame) := fun _ => rfl

theorem eval (source : Source) : Still (eval source) := by
  cases source with
  | register r => exact get.bind fun _ => pure _
  | value v => exact pure v
  | global name => exact onStore _
  | pending => exact get.bind fun _ => pure _

theorem evalAll (sources : List Source) : Still (evalAll sources) := by
  induction sources with
  | nil => exact pure []
  | cons source sources ih => exact (eval source).bind fun _ => ih.bind fun _ => pure _

theorem makeClosure (code : Lambda) {captured : Exec (List Value)} (h : Still captured)
    : Still (makeClosure code captured) := by
  unfold Exec.makeClosure
  split
  . exact throw _
  . exact h.bind fun _ => (onStore _).bind fun _ => pure _

end Still

end Exec

namespace State

theorem lt_of_mem_handlers {s : State} {h : BlockId} (hmem : h ∈ s.handlers) : h < blockLimit := by
  obtain ⟨value, _, hvalue⟩ := List.mem_filterMap.1 hmem
  unfold blockOf? at hvalue
  split at hvalue
  . split at hvalue
    . cases hvalue
      lia
    . cases hvalue
  . cases hvalue

theorem handlers_setHandlers {s : State} (hroom : 4 < s.slots.size) {blocks : List BlockId}
    (hsmall : ∀ b ∈ blocks, b < blockLimit)
    : (s.setHandlers blocks).handlers = blocks := by
  unfold handlers setHandlers
  rw [slot_setSlot hroom]
  exact filterMap_blockOf? hsmall

theorem handlers_setSlot_ne (s : State) {i : Nat} (h : i ≠ 4) (value : Value)
    : (s.setSlot i value).handlers = s.handlers := by
  unfold handlers
  rw [slot_setSlot_ne s h]

theorem size_setSlot (s : State) (i : Nat) (value : Value)
    : (s.setSlot i value).slots.size = s.slots.size :=
  Array.size_setIfInBounds

theorem size_finish (s : State) (value : Value) : (s.finish value).slots.size = s.slots.size :=
  (size_setSlot _ 2 _).trans (size_setSlot _ 1 _)

structure Worked (done : List Op) (s s' : State) : Prop where
  size : s'.slots.size = s.slots.size
  block : s'.slot 1 = s.slot 1
  handlers : ∀ h ∈ s'.handlers, h ∈ s.handlers ∨ .pushHandler h ∈ done

namespace Worked

variable {done done' : List Op} {s s' s'' : State}

theorem refl (done : List Op) (s : State) : Worked done s s :=
  ⟨rfl, rfl, fun _ hmem => .inl hmem⟩

theorem trans (h : Worked done s s') (h' : Worked done' s' s'') : Worked (done ++ done') s s'' where
  size := h'.size.trans h.size
  block := h'.block.trans h.block
  handlers := by
    intro b hb
    rcases h'.handlers b hb with hb | hb
    . exact (h.handlers b hb).imp_right (List.mem_append_left _)
    . exact .inr (List.mem_append_right _ hb)

theorem setSlot (done : List Op) (s : State) {i : Nat} (h1 : i ≠ 1) (h4 : i ≠ 4) (value : Value)
    : Worked done s (s.setSlot i value) where
  size := size_setSlot s i value
  block := slot_setSlot_ne s h1 value
  handlers := by
    rw [handlers_setSlot_ne s h4]
    exact fun _ hb => .inl hb

theorem setHandlers (done : List Op) (hroom : 4 < s.slots.size) {blocks : List BlockId}
    (hsmall : ∀ b ∈ blocks, b < blockLimit)
    (hblocks : ∀ b ∈ blocks, b ∈ s.handlers ∨ .pushHandler b ∈ done)
    : Worked done s (s.setHandlers blocks) where
  size := size_setSlot s 4 _
  block := slot_setSlot_ne s (by decide) _
  handlers := by
    rw [handlers_setHandlers hroom hsmall]
    exact hblocks

theorem pushHandler (hroom : 4 < s.slots.size) {b : BlockId} (hb : b < blockLimit)
    : Worked [.pushHandler b] s (s.pushHandler b) := by
  apply setHandlers _ hroom
  . rw [List.forall_mem_cons]
    exact ⟨hb, fun _ => lt_of_mem_handlers⟩
  . rw [List.forall_mem_cons]
    exact ⟨.inr (List.mem_singleton.2 rfl), fun _ hmem => .inl hmem⟩

theorem popHandler (done : List Op) (hroom : 4 < s.slots.size) (b : BlockId)
    : Worked done s (s.popHandler b) := by
  unfold State.popHandler
  split
  . exact refl done s
  . next top rest hhandlers =>
    have hmem : ∀ h ∈ rest, h ∈ s.handlers :=
      fun h hh => hhandlers ▸ List.mem_cons_of_mem _ hh
    split
    . exact setHandlers done hroom (fun h hh => lt_of_mem_handlers (hmem h hh))
        fun h hh => .inl (hmem h hh)
    . exact refl done s

end Worked

end State

def Op.IsTame : Op → Prop
  | .save _ slot => headerSize ≤ slot
  | .pushHandler block => block < State.blockLimit
  | _ => True

def Exit.targets : Exit → List BlockId
  | .jump _ target => [target]
  | .finish _ => []
  | .branch _ yes no => [yes, no]
  | .case _ _ clauses fallback => clauses ++ fallback.toList
  | .dispatch clauses => clauses.map (·.1)
  | .suspend _ resume _ => [resume]

namespace Exec

variable {call : Caller} {f f' : Frame}

theorem op_worked (call : Caller) {o : Op} (htame : o.IsTame) {f : Frame}
    (hroom : headerSize ≤ f.state.slots.size)
    : match op call o f with
      | .ok _ f' => f.state.Worked [o] f'.state
      | .error _ f' => f'.state = f.state := by
  have hstill : Still (op call o) → match op call o f with
      | .ok _ f' => State.Worked [o] f.state f'.state
      | .error _ f' => f'.state = f.state := by
    intro hstill
    cases hrun : op call o f with
    | ok _ f' =>
      simp only [hstill.ok hrun]
      exact .refl _ _
    | error _ f' => exact hstill.error hrun
  cases o with
  | move target source => exact hstill ((Still.eval source).bind fun _ => .put target _)
  | call target callee args =>
    exact hstill ((Still.eval callee).bind fun _ => (Still.evalAll args).bind fun _ =>
      (Still.onStore _).bind fun _ => .put target _)
  | closure target code captured =>
    exact hstill ((Still.makeClosure code (.evalAll captured)).bind fun _ => .put target _)
  | field target object name =>
    exact hstill ((Still.eval object).bind fun _ => (Still.onStore _).bind fun _ => .put target _)
  | method target object name args =>
    exact hstill ((Still.eval object).bind fun _ => (Still.evalAll args).bind fun _ =>
      (Still.onStore _).bind fun _ => .put target _)
  | setGlobal target name value =>
    exact hstill ((Still.eval value).bind fun _ => (Still.onStore _).bind fun _ => .put target _)
  | setField target object name value =>
    exact hstill ((Still.eval value).bind fun _ => (Still.eval object).bind fun _ =>
      (Still.onStore _).bind fun _ => .put target _)
  | pushHandler block => exact .pushHandler (Nat.lt_of_lt_of_le (by decide) hroom) htame
  | popHandler block => exact .popHandler _ (Nat.lt_of_lt_of_le (by decide) hroom) block
  | takeException target => exact .setSlot _ _ (by decide) (by decide) _
  | endFinally exception =>
    apply hstill
    refine (Still.eval exception).bind fun value => ?_
    split
    . exact .pure ()
    . exact .throw _
  | save source slot =>
    have hslot : headerSize ≤ slot := htame
    exact .setSlot _ _ (by unfold headerSize at hslot; omega)
      (by unfold headerSize at hslot; omega) _

theorem ops_worked (call : Caller) {todo : List Op} (htame : ∀ o ∈ todo, o.IsTame) {f : Frame}
    (hroom : headerSize ≤ f.state.slots.size)
    : match ops call todo f with
      | .ok _ f' => f.state.Worked (carried call todo f) f'.state ∧ carried call todo f = todo
      | .error _ f' => f.state.Worked (carried call todo f) f'.state := by
  induction todo generalizing f with
  | nil => exact ⟨.refl _ _, rfl⟩
  | cons o todo ih =>
    rw [List.forall_mem_cons] at htame
    have hfirst := op_worked call htame.1 hroom
    unfold ops carried
    cases hrun : op call o f with
    | error stop f' =>
      rw [bind_of_error hrun]
      simp only [hrun] at hfirst ⊢
      rw [hfirst]
      exact .refl _ _
    | ok _ f' =>
      rw [bind_of_ok hrun]
      simp only [hrun] at hfirst ⊢
      have hrest := ih htame.2 (f := f') (hfirst.size ▸ hroom)
      cases hlater : ops call todo f' with
      | error stop f'' =>
        simp only [hlater] at hrest ⊢
        exact hfirst.trans hrest
      | ok _ f'' =>
        simp only [hlater] at hrest ⊢
        exact ⟨hfirst.trans hrest.1, by rw [hrest.2]⟩

theorem carried_isPrefix (call : Caller) (todo : List Op) (f : Frame)
    : carried call todo f <+: todo := by
  induction todo generalizing f with
  | nil => exact List.prefix_refl _
  | cons o todo ih =>
    unfold carried
    split
    . exact List.cons_prefix_cons.2 ⟨rfl, ih _⟩
    . exact List.nil_prefix

inductive Left (exit : Exit) (s : State) : Flow → State → Prop where
  | next {target : BlockId} {s' : State} :
    target ∈ exit.targets → s'.slots.size = s.slots.size → s'.slot 1 = State.ofBlock target →
      s'.handlers = s.handlers → Left exit s .next s'
  | done {value : Value} {s' : State} : s' = s.finish value → Left exit s (.done value) s'
  | suspend {handler : Handler} {resume : BlockId} {sources : List Source} {args : List Value}
      {s' : State} :
    exit = .suspend handler resume sources → s' = s → Left exit s (.suspend handler resume args) s'

theorem Left.resumeAt {exit : Exit} {target : BlockId} (htarget : target ∈ exit.targets)
    {s : State} (hroom : 1 < s.slots.size)
    : Left exit s .next (s.resumeAt target) :=
  .next htarget (State.size_setSlot s 1 _) (State.slot_setSlot hroom _)
    (State.handlers_setSlot_ne s (by decide) _)

theorem exit_left {exit : Exit} {flow : Flow} (hroom : 1 < f.state.slots.size)
    (h : Exec.exit exit f = .ok flow f')
    : Left exit f.state flow f'.state := by
  cases exit with
  | jump value target =>
    cases value with
    | none =>
      cases h
      exact .resumeAt (List.mem_singleton.2 rfl) hroom
    | some source =>
      obtain ⟨value, g, hvalue, h⟩ := bind_ok.1 h
      rw [← (Still.eval source).ok hvalue] at hroom ⊢
      cases h
      refine .next (List.mem_singleton.2 rfl) ?_ ?_ ?_
      . exact (State.size_setSlot _ 1 _).trans (State.size_setSlot _ 2 _)
      . apply State.slot_setSlot
        rwa [State.setPending, State.size_setSlot]
      . exact (State.handlers_setSlot_ne _ (by decide) _).trans
          (State.handlers_setSlot_ne _ (by decide) _)
  | finish source =>
    obtain ⟨value, g, hvalue, h⟩ := bind_ok.1 h
    rw [← (Still.eval source).ok hvalue]
    cases h
    exact .done rfl
  | branch test yes no =>
    obtain ⟨value, g, hvalue, h⟩ := bind_ok.1 h
    rw [← (Still.eval test).ok hvalue] at hroom ⊢
    cases h
    refine .resumeAt ?_ hroom
    by_cases hv : value.isTruthy = true <;> simp [hv, Exit.targets]
  | case source tests clauses fallback =>
    obtain ⟨value, g, hvalue, h⟩ := bind_ok.1 h
    rw [← (Still.eval source).ok hvalue] at hroom ⊢
    cases hclause : (findClause value tests clauses).or fallback with
    | none =>
      simp only [hclause] at h
      obtain ⟨_, _, _, h⟩ := bind_ok.1 h
      cases h
    | some target =>
      simp only [hclause] at h
      cases h
      refine .resumeAt ?_ hroom
      simp only [Exit.targets, List.mem_append, Option.mem_toList]
      rcases Option.or_eq_some_iff.1 hclause with hfound | ⟨_, hfallback⟩
      . exact .inl (Plain.mem_of_findClause hfound)
      . exact .inr hfallback
  | dispatch clauses =>
    obtain ⟨frame, same, hget, hrest⟩ := bind_ok.1 h
    obtain ⟨hframe, hsame⟩ := get_ok.1 hget
    rw [hframe, hsame] at hrest
    obtain ⟨heap, g, hheap, hleft⟩ := bind_ok.1 hrest
    rw [← (Still.onStore Action.heap).ok hheap] at hroom ⊢
    cases hclause : clauses.find? (catches heap f.state.exception ·.2) with
    | none =>
      simp only [hclause] at hleft
      cases hleft
    | some clause =>
      simp only [hclause] at hleft
      cases hleft
      refine .next (List.mem_map_of_mem (List.mem_of_find?_eq_some hclause)) ?_ ?_ ?_
      . exact (State.size_setSlot _ 1 _).trans
          ((State.size_setSlot _ 5 _).trans (State.size_setSlot _ 2 _))
      . apply State.slot_setSlot
        rwa [State.clearException, State.setException, State.size_setSlot, State.setPending,
          State.size_setSlot]
      . exact (State.handlers_setSlot_ne _ (by decide) _).trans
          ((State.handlers_setSlot_ne _ (by decide) _).trans
            (State.handlers_setSlot_ne _ (by decide) _))
  | suspend handler resume sources =>
    obtain ⟨args, g, hargs, h⟩ := bind_ok.1 h
    rw [← (Still.evalAll sources).ok hargs]
    cases h
    exact .suspend rfl rfl

def StopsStill {α : Type} (x : Exec α) : Prop :=
  ∀ f stop f', x f = .error stop f' → f'.state = f.state

theorem Still.stopsStill {α β : Type} {x : Exec α} {k : α → Exec β} (hx : Still x)
    (hk : ∀ a, StopsStill (k a))
    : StopsStill (x >>= k) := by
  intro f stop f' h
  cases hrun : x f with
  | error stop' f₁ =>
    rw [bind_of_error hrun] at h
    cases h
    exact hx.error hrun
  | ok a f₁ =>
    rw [bind_of_ok hrun] at h
    exact (hk a _ _ _ h).trans (hx.ok hrun)

theorem exit_error (exit : Exit) : StopsStill (Exec.exit exit) := by
  have hgoes : ∀ (g : State → State) (flow : Flow),
      StopsStill (do onState g; return flow : Exec Flow) := by
    intro g flow f stop f' h
    cases h
  cases exit with
  | jump value target =>
    cases value with
    | none => exact hgoes _ _
    | some source => exact (Still.eval source).stopsStill fun _ => hgoes _ _
  | finish source => exact (Still.eval source).stopsStill fun _ => hgoes _ _
  | branch test yes no => exact (Still.eval test).stopsStill fun _ => hgoes _ _
  | case source tests clauses fallback =>
    refine (Still.eval source).stopsStill fun value => ?_
    cases (findClause value tests clauses).or fallback with
    | some target => exact hgoes _ _
    | none =>
      exact (Still.onStore Action.heap).stopsStill fun _ _ _ _ h => (Still.throw _).error h
  | dispatch clauses =>
    refine Still.get.stopsStill fun frame => (Still.onStore Action.heap).stopsStill fun heap => ?_
    cases clauses.find? (catches heap frame.state.exception ·.2) with
    | some clause => exact hgoes _ _
    | none => exact fun _ _ _ h => (Still.throw _).error h
  | suspend handler resume sources =>
    refine (Still.evalAll sources).stopsStill fun args => ?_
    intro f stop f' h
    cases h

end Exec

theorem BlockProgram.carried_isPrefix (code : BlockProgram) (call : Caller) (p : Process)
    : code.carried call p <+: code.ops := by
  unfold BlockProgram.carried
  split
  . exact Exec.carried_isPrefix call code.ops _
  . exact List.nil_prefix

theorem Exec.block_left (call : Caller) {code : BlockProgram} (htame : ∀ o ∈ code.ops, o.IsTame)
    {p : Process} (hroom : headerSize ≤ p.state.slots.size)
    : match block call code { toProcess := p } with
      | .ok flow f => ∃ s, p.state.Worked code.ops s ∧ code.carried call p = code.ops ∧
          Left code.exit s flow f.state
      | .error _ f => p.state.Worked (code.carried call p) f.state := by
  have hloaded : ∃ f, load code.loads { toProcess := p } = .ok () f ∧ f.state = p.state := by
    obtain ⟨registers, hload⟩ := load_ok code.loads { toProcess := p }
    exact ⟨_, hload, rfl⟩
  obtain ⟨f, hload, hstate⟩ := hloaded
  have hcarried : code.carried call p = carried call code.ops f := by
    simp only [BlockProgram.carried, hload]
  have hops := ops_worked call htame (f := f) (hstate ▸ hroom)
  rw [block, bind_of_ok hload, hcarried]
  rw [hstate] at hops
  cases hrun : ops call code.ops f with
  | error stop f' =>
    rw [bind_of_error hrun]
    simpa only [hrun] using hops
  | ok _ f' =>
    rw [bind_of_ok hrun]
    simp only [hrun] at hops
    obtain ⟨hworked, hall⟩ := hops
    rw [hall] at hworked ⊢
    cases hexit : exit code.exit f' with
    | error stop f'' =>
      simp only
      rw [exit_error code.exit _ _ _ hexit]
      exact hworked
    | ok flow f'' =>
      have hroom' : 1 < f'.state.slots.size := by
        rw [hworked.size]
        exact Nat.lt_of_lt_of_le (by decide) hroom
      exact ⟨f'.state, hworked, rfl, exit_left hroom' hexit⟩

end Resumable
