import Resumable.Proofs.Mirror
import Resumable.Run.Step

/-!
This module contains the registers that operations read and fill. A block whose operations read only
what has been filled does the same whatever its registers hold at first.
-/

namespace Resumable

def Source.reads : Source → List Register
  | .register r => [r]
  | _ => []

def Op.reads : Op → List Register
  | .move _ source => source.reads
  | .call _ callee args => callee.reads ++ args.flatMap Source.reads
  | .closure _ _ captured => captured.flatMap Source.reads
  | .field _ object _ => object.reads
  | .method _ object _ args => object.reads ++ args.flatMap Source.reads
  | .setGlobal _ _ value => value.reads
  | .setField _ object _ value => value.reads ++ object.reads
  | .pushHandler _ | .popHandler _ | .takeException _ => []
  | .endFinally exception => exception.reads
  | .save source _ => [source]

def Op.target? : Op → Option Register
  | .move target _ | .call target _ _ | .closure target _ _ | .field target _ _
  | .method target _ _ _ | .setGlobal target _ _ | .setField target _ _ _
  | .takeException target => some target
  | .pushHandler _ | .popHandler _ | .endFinally _ | .save _ _ => none

def Exit.reads : Exit → List Register
  | .jump value _ => value.toList.flatMap Source.reads
  | .finish value => value.reads
  | .branch test _ _ => test.reads
  | .case value _ _ _ => value.reads
  | .dispatch _ => []
  | .suspend _ _ args => args.flatMap Source.reads

def BlockProgram.readsNext (code : BlockProgram) : List Op → List Register
  | [] => code.exit.reads
  | o :: _ => o.reads

def Op.Supplied (known : Register → Prop) : List Op → Prop
  | [] => True
  | o :: rest =>
    (∀ r ∈ o.reads, known r) ∧ Supplied (fun r => known r ∨ o.target? = some r) rest

namespace Op.Supplied

variable {known known' : Register → Prop} {ops ops' : List Op}

theorem mono (h : Supplied known ops) (hknown : ∀ r, known r → known' r) : Supplied known' ops := by
  induction ops generalizing known known' with
  | nil => trivial
  | cons o ops ih =>
    exact ⟨fun r hr => hknown r (h.1 r hr), ih h.2 fun r hr => hr.imp_left (hknown r)⟩

theorem all (h : ∀ o ∈ ops, ∀ r ∈ o.reads, known r) : Supplied known ops := by
  induction ops generalizing known with
  | nil => trivial
  | cons o ops ih =>
    rw [List.forall_mem_cons] at h
    exact ⟨h.1, ih fun o ho r hr => .inl (h.2 o ho r hr)⟩

theorem append (h : Supplied known ops)
    (h' : Supplied (fun r => known r ∨ ∃ o ∈ ops, o.target? = some r) ops')
    : Supplied known (ops ++ ops') := by
  induction ops generalizing known with
  | nil => exact h'.mono fun r hr => hr.resolve_right (by simp)
  | cons o ops ih =>
    refine ⟨h.1, ih h.2 (h'.mono ?_)⟩
    rintro r (hr | ⟨q, hq, htarget⟩)
    . exact .inl (.inl hr)
    . rcases List.mem_cons.1 hq with rfl | hq
      . exact .inl (.inr htarget)
      . exact .inr ⟨q, hq, htarget⟩

theorem reads {done rest : List Op} {o : Op} (h : Supplied known (done ++ o :: rest))
    {r : Register} (hr : r ∈ o.reads)
    : known r ∨ ∃ q ∈ done, q.target? = some r := by
  induction done generalizing known with
  | nil => exact .inl (h.1 r hr)
  | cons q done ih =>
    rcases ih h.2 with (hknown | htarget) | ⟨q', hq', htarget⟩
    . exact .inl hknown
    . exact .inr ⟨q, List.mem_cons_self .., htarget⟩
    . exact .inr ⟨q', List.mem_cons_of_mem _ hq', htarget⟩

end Op.Supplied

structure Frame.Alike (known : Register → Prop) (f g : Frame) : Prop where
  process : g.toProcess = f.toProcess
  registers : ∀ r, known r → g.registers.get r = f.registers.get r

namespace Exec

variable {α : Type} {known : Register → Prop} {f g : Frame}

theorem alike_onStore (action : Action α)
    : Mirrors (Frame.Alike known) (onStore action) (onStore action) := by
  intro f g h
  unfold onStore
  rw [h.process]
  cases action f.store with
  | ok a store => exact ⟨_, rfl, rfl, h.registers⟩
  | error stop store => exact ⟨_, rfl, rfl, h.registers⟩

theorem alike_eval {source : Source} (hreads : ∀ r ∈ source.reads, known r)
    : Mirrors (Frame.Alike known) (eval source) (eval source) := by
  cases source with
  | register r =>
    refine .reading fun f g h => ?_
    rw [h.registers r (hreads r (List.mem_singleton.2 rfl))]
    exact .pure _
  | value v => exact .pure v
  | global name => exact alike_onStore _
  | pending =>
    refine .reading fun f g h => ?_
    rw [h.process]
    exact .pure _

theorem alike_evalAll {sources : List Source}
    (hreads : ∀ r ∈ sources.flatMap Source.reads, known r)
    : Mirrors (Frame.Alike known) (evalAll sources) (evalAll sources) := by
  induction sources with
  | nil => exact .pure []
  | cons source sources ih =>
    rw [List.flatMap_cons, List.forall_mem_append] at hreads
    exact (alike_eval hreads.1).bind fun _ => (ih hreads.2).bind fun _ => .pure _

theorem alike_makeClosure (code : Lambda) {captured : Exec (List Value)}
    (h : Mirrors (Frame.Alike known) captured captured)
    : Mirrors (Frame.Alike known) (makeClosure code captured) (makeClosure code captured) := by
  unfold makeClosure
  split
  . exact .throw _
  . exact h.bind fun _ => (alike_onStore _).bind fun _ => .pure _

theorem alike_onState (k : State → State)
    : Mirrors (Frame.Alike known) (onState k) (onState k) :=
  .modify fun f g h => ⟨by rw [h.process], h.registers⟩

def Fills (known : Register → Prop) (o : Op) (x : Exec Unit) : Prop :=
  ∀ f g, f.Alike known g → match x f with
    | .ok _ f' => ∃ g', x g = .ok () g' ∧ f'.Alike (fun r => known r ∨ o.target? = some r) g'
    | .error stop f' => ∃ g', x g = .error stop g' ∧ g'.toProcess = f'.toProcess

theorem Fills.bind {o : Op} {x : Exec α} {k : α → Exec Unit}
    (hx : Mirrors (Frame.Alike known) x x) (hk : ∀ a, Fills known o (k a))
    : Fills known o (x >>= k) := by
  intro f g h
  cases hrun : x f with
  | error stop f' =>
    obtain ⟨g', hrun', h'⟩ := hx.error h hrun
    rw [bind_of_error hrun]
    exact ⟨g', bind_of_error hrun', h'.process⟩
  | ok value f' =>
    obtain ⟨g', hrun', h'⟩ := hx.ok h hrun
    rw [bind_of_ok hrun, bind_of_ok hrun']
    exact hk value f' g' h'

theorem get_set_alike (h : f.Alike known g) (target : Register) (value : Value) {r : Register}
    (hr : known r ∨ target = r)
    : (g.registers.set target value).get r = (f.registers.set target value).get r := by
  simp only [Registers.get, Registers.set, Registers.get.go]
  split
  . rfl
  . next hne => exact h.registers r (hr.resolve_right hne)

theorem fills_put {o : Op} {target : Register} (htarget : o.target? = some target) (value : Value)
    : Fills known o (put target value) := by
  intro f g h
  refine ⟨_, rfl, h.process, fun r hr => get_set_alike h target value (hr.imp_right ?_)⟩
  rw [htarget]
  exact Option.some.inj

theorem fills_of_mirrors {o : Op} (htarget : o.target? = none) {x : Exec Unit}
    (hx : Mirrors (Frame.Alike known) x x)
    : Fills known o x := by
  intro f g h
  cases hrun : x f with
  | error stop f' =>
    obtain ⟨g', hrun', h'⟩ := hx.error h hrun
    exact ⟨g', hrun', h'.process⟩
  | ok value f' =>
    obtain ⟨g', hrun', h'⟩ := hx.ok h hrun
    refine ⟨g', hrun', h'.process, ?_⟩
    intro r hr
    exact h'.registers r (hr.resolve_right (by simp [htarget]))

theorem fills_op (call : Caller) {o : Op} (hreads : ∀ r ∈ o.reads, known r)
    : Fills known o (op call o) := by
  cases o with
  | move target source => exact .bind (alike_eval hreads) fun _ => fills_put rfl _
  | call target callee args =>
    obtain ⟨hcallee, hargs⟩ := List.forall_mem_append.1 hreads
    exact .bind (alike_eval hcallee) fun _ => .bind (alike_evalAll hargs) fun _ =>
      .bind (alike_onStore _) fun _ => fills_put rfl _
  | closure target code captured =>
    exact .bind (alike_makeClosure code (alike_evalAll hreads)) fun _ => fills_put rfl _
  | field target object name =>
    exact .bind (alike_eval hreads) fun _ => .bind (alike_onStore _) fun _ => fills_put rfl _
  | method target object name args =>
    obtain ⟨hobject, hargs⟩ := List.forall_mem_append.1 hreads
    exact .bind (alike_eval hobject) fun _ => .bind (alike_evalAll hargs) fun _ =>
      .bind (alike_onStore _) fun _ => fills_put rfl _
  | setGlobal target name value =>
    exact .bind (alike_eval hreads) fun _ => .bind (alike_onStore _) fun _ => fills_put rfl _
  | setField target object name value =>
    obtain ⟨hvalue, hobject⟩ := List.forall_mem_append.1 hreads
    exact .bind (alike_eval hvalue) fun _ => .bind (alike_eval hobject) fun _ =>
      .bind (alike_onStore _) fun _ => fills_put rfl _
  | pushHandler block => exact fills_of_mirrors rfl (alike_onState (·.pushHandler block))
  | popHandler block => exact fills_of_mirrors rfl (alike_onState (·.popHandler block))
  | takeException target =>
    intro f g h
    refine ⟨_, rfl, ?_, ?_⟩
    . change { g.toProcess with state := g.state.clearException } = _
      rw [h.process]
    . intro r hr
      rw [← get_set_alike h target f.state.exception (hr.imp_right Option.some.inj), h.process]
  | endFinally exception =>
    refine fills_of_mirrors rfl ((alike_eval hreads).bind fun value => ?_)
    split
    . exact .pure ()
    . exact .throw _
  | save source slot =>
    refine fills_of_mirrors rfl (.reading fun f g h => ?_)
    rw [h.registers source (hreads source (List.mem_singleton.2 rfl))]
    exact alike_onState _

theorem alike_exit {e : Exit} (hreads : ∀ r ∈ e.reads, known r)
    : Mirrors (Frame.Alike known) (exit e) (exit e) := by
  have hgoes : ∀ (k : State → State) (flow : Flow), Mirrors (Frame.Alike known)
      (do onState k; return flow : Exec Flow) (do onState k; return flow : Exec Flow) :=
    fun k flow => (alike_onState k).bind fun _ => .pure flow
  cases e with
  | jump value target =>
    cases value with
    | none => exact hgoes _ _
    | some source =>
      have hsource : ∀ r ∈ source.reads, known r := by simpa [Exit.reads] using hreads
      exact (alike_eval hsource).bind fun _ => hgoes _ _
  | finish value => exact (alike_eval hreads).bind fun _ => hgoes _ _
  | branch test yes no => exact (alike_eval hreads).bind fun _ => hgoes _ _
  | case value tests clauses fallback =>
    refine (alike_eval hreads).bind fun value => ?_
    cases (findClause value tests clauses).or fallback with
    | some block => exact hgoes _ _
    | none => exact (alike_onStore _).bind fun _ => .throw _
  | dispatch clauses =>
    refine .reading fun f g h => (alike_onStore _).bind fun heap => ?_
    rw [h.process]
    cases clauses.find? (catches heap f.state.exception ·.2) with
    | some clause => exact hgoes _ _
    | none => exact .throw _
  | suspend handler resume args => exact (alike_evalAll hreads).bind fun _ => .pure _

theorem alike_ops (call : Caller) {todo : List Op} (hsupplied : Op.Supplied known todo)
    (h : f.Alike known g)
    : match ops call todo f with
      | .ok _ f' => ∃ g', ops call todo g = .ok () g' ∧
          f'.Alike (fun r => known r ∨ ∃ o ∈ todo, o.target? = some r) g'
      | .error stop f' => ∃ g', ops call todo g = .error stop g' ∧ g'.toProcess = f'.toProcess := by
  induction todo generalizing known f g with
  | nil =>
    refine ⟨g, rfl, h.process, ?_⟩
    intro r hr
    exact h.registers r (hr.resolve_right (by simp))
  | cons o todo ih =>
    have hfirst := fills_op call hsupplied.1 f g h
    unfold ops
    cases hrun : op call o f with
    | error stop f' =>
      simp only [hrun] at hfirst
      obtain ⟨g', hrun', hprocess⟩ := hfirst
      rw [bind_of_error hrun]
      exact ⟨g', bind_of_error hrun', hprocess⟩
    | ok _ f' =>
      simp only [hrun] at hfirst
      obtain ⟨g', hrun', h'⟩ := hfirst
      rw [bind_of_ok hrun, bind_of_ok hrun']
      have hrest := ih hsupplied.2 h'
      cases hlater : ops call todo f' with
      | error stop f'' => simpa only [hlater] using hrest
      | ok _ f'' =>
        simp only [hlater] at hrest
        obtain ⟨g'', hlater', h''⟩ := hrest
        refine ⟨g'', hlater', h''.process, ?_⟩
        rintro r (hr | ⟨q, hq, htarget⟩)
        . exact h''.registers r (.inl (.inl hr))
        . rcases List.mem_cons.1 hq with rfl | hq
          . exact h''.registers r (.inl (.inr htarget))
          . exact h''.registers r (.inr ⟨q, hq, htarget⟩)

theorem alike_load {loads : List (ValueId × Nat)} (h : f.Alike known g)
    : ∃ f' g', load loads f = .ok () f' ∧ load loads g = .ok () g' ∧
        f'.Alike (fun r => known r ∨ ∃ v slot, r = .result v ∧ (v, slot) ∈ loads) g' := by
  induction loads generalizing known f g with
  | nil =>
    refine ⟨f, g, rfl, rfl, h.process, ?_⟩
    intro r hr
    exact h.registers r (hr.resolve_right (by simp))
  | cons first loads ih =>
    obtain ⟨v, slot⟩ := first
    obtain ⟨f', g', hf, hg, h'⟩ := @ih (fun r => known r ∨ r = .result v)
      { f with registers := f.registers.set (.result v) (f.state.slot slot) }
      { g with registers := g.registers.set (.result v) (g.state.slot slot) }
      ⟨h.process, by
        intro r hr
        rw [h.process]
        exact get_set_alike h _ _ (hr.imp_right Eq.symm)⟩
    refine ⟨f', g', hf, hg, h'.process, ?_⟩
    rintro r (hr | ⟨v', slot', rfl, hmem⟩)
    . exact h'.registers r (.inl (.inl hr))
    . rcases List.mem_cons.1 hmem with heq | hmem
      . cases heq
        exact h'.registers _ (.inl (.inr rfl))
      . exact h'.registers _ (.inr ⟨v', slot', rfl, hmem⟩)

def outcome : EStateM.Result Stop Frame Flow → EStateM.Result Stop Process Flow
  | .ok flow f => .ok flow f.toProcess
  | .error stop f => .error stop f.toProcess

end Exec

structure BlockProgram.IsSupplied (code : BlockProgram) : Prop where
  ops : Op.Supplied (fun r => ∃ v slot, r = .result v ∧ (v, slot) ∈ code.loads) code.ops
  exit : ∀ r ∈ code.exit.reads, (∃ v slot, r = .result v ∧ (v, slot) ∈ code.loads) ∨
    ∃ o ∈ code.ops, o.target? = some r

theorem BlockProgram.IsSupplied.readsNext {code : BlockProgram} (h : code.IsSupplied)
    {done rest : List Op} (hsplit : code.ops = done ++ rest) {r : Register}
    (hr : r ∈ code.readsNext rest)
    : (∃ v slot, r = .result v ∧ (v, slot) ∈ code.loads) ∨ ∃ o ∈ done, o.target? = some r := by
  cases rest with
  | nil =>
    rw [List.append_nil] at hsplit
    exact hsplit ▸ h.exit r hr
  | cons o rest => exact (hsplit ▸ h.ops).reads hr

theorem BlockProgram.IsSupplied.outcome_eq {code : BlockProgram} (h : code.IsSupplied)
    (call : Caller) (p : Process) (registers : Registers)
    : Exec.outcome (Exec.block call code ⟨p, registers⟩) =
        Exec.outcome (Exec.block call code { toProcess := p }) := by
  have hstart : Frame.Alike (fun _ => False) { toProcess := p } ⟨p, registers⟩ := ⟨rfl, by simp⟩
  obtain ⟨f, g, hf, hg, hloaded⟩ := @Exec.alike_load _ _ _ code.loads hstart
  simp only [false_or] at hloaded
  have hops := Exec.alike_ops call h.ops hloaded
  unfold Exec.block
  rw [bind_of_ok hf, bind_of_ok hg]
  cases hrun : Exec.ops call code.ops f with
  | error stop f' =>
    simp only [hrun] at hops
    obtain ⟨g', hrun', hprocess⟩ := hops
    rw [bind_of_error hrun, bind_of_error hrun', Exec.outcome, Exec.outcome, hprocess]
  | ok _ f' =>
    simp only [hrun] at hops
    obtain ⟨g', hrun', halike⟩ := hops
    rw [bind_of_ok hrun, bind_of_ok hrun']
    have hexit := Exec.alike_exit h.exit
    cases hleft : Exec.exit code.exit f' with
    | ok flow f'' =>
      obtain ⟨g'', hleft', h''⟩ := hexit.ok halike hleft
      rw [hleft', Exec.outcome, Exec.outcome, h''.process]
    | error stop f'' =>
      obtain ⟨g'', hleft', h''⟩ := hexit.error halike hleft
      rw [hleft', Exec.outcome, Exec.outcome, h''.process]

end Resumable
