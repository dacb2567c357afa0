import Resumable.Proofs.Lowering.Closed
import Resumable.Proofs.Lowering.Comprised
import Resumable.Proofs.Slots.Supply

/-!
This module contains the proof that `recur` is a parallel assignment: its moves give every variable
of the loop the value that its argument had before the first of them, or leave the slots of the
machine alone if an argument has no value.
-/

namespace Resumable

namespace Emit

/--
What a parallel assignment comes to from a frame. If all arguments have values, each target gets the
value of its argument there, and no other result changes. Otherwise one of the arguments fails, and
nothing has happened to the machine.
-/
def Parallel (targets : List ValueId) (args : List Operand) (f : Frame) :
    EStateM.Result Stop Frame Unit → Prop
  | .ok _ f' =>
    f'.toProcess = f.toProcess ∧
      (∀ target arg, (target, arg) ∈ targets.zip args →
        Exec.eval arg.source f = .ok (f'.registers.get (.result target)) f) ∧
      ∀ id, id ∉ targets → f'.registers.get (.result id) = f.registers.get (.result id)
  | .error stop f' =>
    f'.toProcess = f.toProcess ∧ ∃ arg ∈ args, Exec.eval arg.source f = .error stop f

variable {targets : List ValueId} {pairs : List (ValueId × Operand)} {index : Nat}
  {args : List Operand} {layout : Layout} {call : Caller} {f : Frame}

theorem exists_part {target : ValueId} {arg : Operand} (h : (target, arg) ∈ pairs)
    : ∃ part ∈ parts targets index pairs, part.target = target ∧ part.source = arg.source := by
  induction pairs generalizing index with
  | nil => cases h
  | cons pair pairs ih =>
    rcases List.mem_cons.1 h with rfl | h
    . exact ⟨_, List.mem_cons_self .., rfl, rfl⟩
    . obtain ⟨part, hpart, heq⟩ := @ih (index + 1) h
      exact ⟨part, List.mem_cons_of_mem _ hpart, heq⟩

theorem eval_of_fault_none {source : Source} (h : source.fault? f.store = none)
    : Exec.eval source f = .ok (f.look source) f := by
  rw [Exec.eval_eq, h]

theorem assignment_parallel (call : Caller) (f : Frame) (nodup : targets.Nodup)
    (hlength : targets.length = args.length)
    : Parallel targets args f (Exec.ops call (assignment targets args) f) := by
  have htargets : (targets.zip args).map (·.1) = targets := List.map_fst_zip (Nat.le_of_eq hlength)
  cases hfault : args.findSome? (·.source.fault? f.store) with
  | some stop =>
    obtain ⟨registers, herror⟩ := ops_assignment_error call hlength hfault
    obtain ⟨arg, harg, hstop⟩ := List.exists_of_findSome?_eq_some hfault
    rw [herror]
    exact ⟨rfl, arg, harg, by rw [Exec.eval_eq, hstop]⟩
  | none =>
    rw [ops_assignment nodup hlength hfault]
    refine ⟨rfl, ?_, fun id hid => assigned_get_of_not_mem htargets hid⟩
    intro target arg hmem
    obtain ⟨part, hpart, rfl, hsource⟩ := @exists_part targets _ 0 _ _ hmem
    rw [assigned_get htargets nodup hpart, hsource]
    exact eval_of_fault_none (List.findSome?_eq_none_iff.1 hfault arg (List.of_mem_zip hmem).2)

def saved (layout : Layout) (registers : Registers) : List ValueId → State → State
  | [], s => s
  | id :: ids, s =>
    match layout.slots.get? id with
    | none => saved layout registers ids s
    | some slot => saved layout registers ids (s.setSlot slot (registers.get (.result id)))

theorem ops_saves (call : Caller) (ids : List ValueId) (f : Frame)
    : Exec.ops call (saves layout ids) f
        = .ok () { f with state := saved layout f.registers ids f.state } := by
  induction ids generalizing f with
  | nil => rfl
  | cons id ids ih =>
    rw [saves, List.filterMap_cons, saved]
    cases layout.slots.get? id with
    | none => exact ih f
    | some slot => exact ih { f with state := f.state.setSlot slot (f.registers.get (.result id)) }

theorem saved_slot_of_ne {registers : Registers} {ids : List ValueId} {s : State} {i : Nat}
    (h : ∀ id ∈ ids, layout.slots.get? id ≠ some i)
    : (saved layout registers ids s).slot i = s.slot i := by
  induction ids generalizing s with
  | nil => rfl
  | cons id ids ih =>
    rw [List.forall_mem_cons] at h
    unfold saved
    cases hslot : layout.slots.get? id with
    | none => exact ih h.2
    | some slot =>
      have hne : slot ≠ i := fun heq => h.1 (heq ▸ hslot)
      exact (ih h.2).trans (State.slot_setSlot_ne s hne _)

theorem saved_slot {registers : Registers} {ids : List ValueId} {s : State} {id : ValueId}
    {slot : Nat} (apart : layout.Apart) (hid : id ∈ ids) (hslot : layout.slots.get? id = some slot)
    (hroom : slot < s.slots.size)
    : (saved layout registers ids s).slot slot = registers.get (.result id) := by
  induction ids generalizing s with
  | nil => cases hid
  | cons first ids ih =>
    unfold saved
    by_cases hmem : id ∈ ids
    . cases layout.slots.get? first with
      | none => exact ih hmem hroom
      | some other => exact ih hmem (by rwa [State.size_setSlot])
    . cases (List.mem_cons.1 hid).resolve_right hmem
      have hother : ∀ id' ∈ ids, layout.slots.get? id' ≠ some slot :=
        fun id' hid' heq => hmem (apart.inj hslot heq ▸ hid')
      rw [hslot]
      exact (saved_slot_of_ne hother).trans (State.slot_setSlot hroom _)

theorem recur_error {id : ValueId} {span : Span} {stop : Stop} {f' : Frame}
    (nodup : targets.Nodup) (hlength : targets.length = args.length)
    (h : Exec.ops call (instruction layout ⟨id, .effect (.recur targets args), span⟩) f
      = .error stop f')
    : f'.toProcess = f.toProcess := by
  have hparallel := assignment_parallel call f nodup hlength
  change Exec.ops call (assignment targets args ++ saves layout targets) f = _ at h
  rw [Exec.ops_append] at h
  cases hrun : Exec.ops call (assignment targets args) f with
  | ok _ g =>
    rw [bind_of_ok hrun, ops_saves] at h
    cases h
  | error stop' g =>
    rw [hrun] at hparallel
    rw [bind_of_error hrun] at h
    cases h
    exact hparallel.1

end Emit

/--
`recur` is a parallel assignment. For targets that differ from each other and as many arguments,
whatever these are, its moves give each target the value that its argument had before, and leave the
results that are no targets alone; if an argument has no value, they stop, and no slot has been
written. In a graph `recur` always has such targets: they are the variables of the innermost loop
around it, and the jump to the header of that loop follows at once.
-/
theorem Graph.recur_parallel
    : (∀ {targets : List ValueId} {args : List Operand} (call : Caller) (f : Frame),
        targets.Nodup → targets.length = args.length →
          Emit.Parallel targets args f (Exec.ops call (Emit.assignment targets args) f) ∧
          ∀ layout id span stop f',
            Exec.ops call (Emit.instruction layout ⟨id, .effect (.recur targets args), span⟩) f
              = .error stop f' → f'.toProcess = f.toProcess) ∧
        ∀ {options : CompileOptions} {source : Form} {graph : Graph},
          Graph.ofForm options source = .ok graph →
            ∃ plan, (∀ b, graph.blocks.code b = plan.code b) ∧
              ∀ {b : BlockId} {i : Nat} {ins : Instruction} {targets : List ValueId}
                {args : List Operand}, (graph.blocks.code b)[i]? = some ins →
                ins.command = .effect (.recur targets args) →
                  targets.length = args.length ∧ targets.Nodup ∧
                  ∃ p point span, Comprises options plan (.root options source) p ∧
                    Assignment options plan (.root options source) b i ins p ∧
                    Innermost options plan (.root options source) point p ∧
                    targets = point.carried ∧
                    (graph.blocks.code b)[i + 1]?
                      = some ⟨ins.id + 1, .transfer (.jump none point.header), span⟩ := by
  constructor
  . intro targets args call f nodup hlength
    exact ⟨Emit.assignment_parallel call f nodup hlength,
      fun _ _ _ _ _ => Emit.recur_error nodup hlength⟩
  . intro options source graph hgraph
    obtain ⟨plan, hcoded⟩ := Graph.ofForm_coded hgraph
    refine ⟨plan, hcoded.code, ?_⟩
    intro b i ins targets args hins hcommand
    rw [hcoded.code] at hins ⊢
    have hfits := hcoded.fits hins
    rw [hcommand] at hfits
    obtain ⟨p, hcomprises, hassignment⟩ := hcoded.assignment hins (by rw [hcommand]; trivial)
    obtain ⟨nodup, hlength⟩ : targets.Nodup ∧ targets.length = args.length := by
      cases hfits with
      | plain hplain => cases hplain
      | recur nodup hlength => exact ⟨nodup, hlength⟩
    refine ⟨hlength, nodup, ?_⟩
    cases hassignment with
    | set => cases hcommand
    | @recur _ _ point _ _ _ _ hpart hinnermost hoperands hblock hindex hvalue hjump =>
      cases hcommand
      obtain ⟨span, hat⟩ := hjump
      exact ⟨p, point, span, hcomprises,
        .recur hpart hinnermost hoperands hblock hindex hvalue ⟨span, hat⟩, hinnermost, rfl, hat⟩

def Form.swapLoop : Form :=
  .list [.symbol "loop" .synthetic,
    .vector [.symbol "a" .synthetic, .atom (.int 1) .synthetic, .symbol "b" .synthetic,
      .atom (.int 2) .synthetic] .synthetic,
    .list [.symbol "recur" .synthetic, .symbol "b" .synthetic, .symbol "a" .synthetic]
      .synthetic] .synthetic

def Graph.recursAt? (graph : Graph) (b : BlockId) : Option (List ValueId × List Operand) :=
  match (graph.blocks.code b)[0]?.map Instruction.command with
  | some (.effect (.recur targets args)) => some (targets, args)
  | _ => none

theorem Graph.recur_parallel_swapLoop
    : ∃ graph targets args, Graph.ofForm { expander := .core } .swapLoop = .ok graph ∧
        graph.recursAt? 1 = some (targets, args) ∧ targets.length = 2 ∧
        (∃ plan point p, targets = point.carried ∧
          Comprises { expander := .core } plan (.root { expander := .core } .swapLoop) p ∧
          Innermost { expander := .core } plan (.root { expander := .core } .swapLoop) point p) ∧
        ∀ call f,
          Emit.Parallel targets args f (Exec.ops call (Emit.assignment targets args) f) := by
  obtain ⟨graph, hgraph, hcheck⟩ := Graph.ofForm_of_check { expander := .core } .swapLoop
    (fun graph => (graph.recursAt? 1).any (·.1.length == 2)) (by decide +kernel)
  obtain ⟨⟨targets, args⟩, hrecurs, htwo⟩ := (Option.any_eq_true _ _).1 hcheck
  obtain ⟨plan, hcode, hstatic⟩ := Graph.recur_parallel.2 hgraph
  obtain ⟨ins, hins, hcommand⟩ : ∃ ins, (graph.blocks.code 1)[0]? = some ins ∧
      ins.command = .effect (.recur targets args) := by
    unfold Graph.recursAt? at hrecurs
    split at hrecurs
    . next hat =>
      cases hrecurs
      exact Option.map_eq_some_iff.1 hat
    . cases hrecurs
  obtain ⟨hlength, nodup, p, point, _, hcomprises, _, hinnermost, hcarried, _⟩ :=
    hstatic hins hcommand
  exact ⟨graph, targets, args, hgraph, hrecurs, by simpa using htwo,
    ⟨plan, point, p, hcarried, hcomprises, hinnermost⟩,
    fun call f => (Graph.recur_parallel.1 call f nodup hlength).1⟩

end Resumable
