import Resumable.Proofs.Lowering.Sorted

/-!
This module contains what becomes of the value that is handed over to a `finally` block. It is put
aside under a number that no name ever stands for, so that nothing else is written there, and the
end of the clause hands it on to the exit of the `try` form.
-/

namespace Resumable

namespace Plan

def Receives (plan : Plan) (block : BlockId) (value : ValueId) : Prop :=
  ∃ span, (plan.code block)[0]? = some { id := value, command := .receive, span }

/--
Whether blocks are those of a `try` form.
-/
def Tries (options : CompileOptions) (plan : Plan) (blocks : TryBlocks) : Prop :=
  ∃ handlers scope s parts r t, Code options plan handlers scope s (.shape (.attempt parts)) r t ∧
    blocks = .number s.fresh parts

def Closes (options : CompileOptions) (plan : Plan) (b : BlockId) (i : Nat) (exception : ValueId) :
    Prop :=
  ∃ blocks F value id span, plan.Tries options blocks ∧ blocks.cleanup = some F ∧
    plan.Takes F exception ∧ plan.Receives F value ∧
    (plan.code b)[i + 1]? = some { id, command := .handOver (.result value) blocks.exit, span }

structure Spares (options : CompileOptions) (plan : Plan) (y : ValueId) (b : BlockId) (i : Nat)
    (ins : Instruction) : Prop where
  writes : y ∈ ins.writes → ins.id = y
  ends : ∀ x, ins.command = .effect (.endFinally (.result x)) → plan.Closes options b i x

end Plan

def Command.isBasic : Command → Bool
  | .effect (.const _) | .effect (.pushHandler _) | .effect (.popHandler _)
  | .effect .takeException | .transfer _ => true
  | _ => false

def Operand.Clear (y : ValueId) : Operand → Prop
  | .result id => id ≠ y
  | .literal _ | .global _ => True
  | .pending => False

structure Scope.Clear (scope : Scope) (y : ValueId) : Prop where
  locals : scope.binds y = false
  carried : ∀ point ∈ scope.loops, y ∉ point.carried

def Part.Clear (options : CompileOptions) (plan : Plan) (y : ValueId) : Part → Prop
  | .shape (.value operand) => operand.Clear y
  | .shape (.perform job _) => y ∉ job.ids
  | .body last _ => last.Clear y
  | .cleanup blocks _ _ => plan.Tries options blocks
  | _ => True

open Plan

variable {options : CompileOptions} {plan : Plan} {handlers : List BlockId} {scope : Scope}
  {s t u : Spot} {r : Option (List Operand)} {F : BlockId} {y : ValueId}

namespace Scope.Clear

theorem bind {id : ValueId} (h : scope.Clear y) (name : String) (hid : id ≠ y)
    : (scope.bind name id).Clear y where
  locals := by
    rw [Bool.eq_false_iff]
    intro hbinds
    rcases Scope.binds_bind.1 hbinds with heq | hbinds
    . exact hid heq
    . rw [h.locals] at hbinds
      cases hbinds
  carried := h.carried

theorem inLoop {names : List String} {point : LoopPoint} (h : scope.Clear y)
    (hcarried : y ∉ point.carried)
    : ((scope.bindAll (names.zip point.carried)).inLoop point).Clear y where
  locals := by
    rw [Bool.eq_false_iff]
    intro hbinds
    rcases Scope.binds_bindAll.1 hbinds with hmem | hbinds
    . obtain ⟨pair, hpair, rfl⟩ := List.mem_map.1 hmem
      exact hcarried (List.of_mem_zip hpair).2
    . rw [h.locals] at hbinds
      cases hbinds
  carried := List.forall_mem_cons.2 ⟨hcarried, h.carried⟩

theorem guarded (h : scope.Clear y) (handler : Option BlockId) : (scope.guarded handler).Clear y :=
  ⟨h.locals, h.carried⟩

theorem inFinally (h : scope.Clear y) (block : BlockId) : (scope.inFinally block).Clear y :=
  ⟨h.locals, h.carried⟩

end Scope.Clear

theorem Named.clear {name : String} {args : List Form} {span : Span} {shape : Shape}
    (h : Named options scope name args span shape) (hids : y ∉ shape.ids)
    : (Part.shape shape).Clear options plan y := by
  cases h with
  | closure | setLocal | setGlobal | setField | field | method | call => exact hids
  | quote | body | choose | bind | loop | recur | case | attempt | finish | suspend => trivial

theorem Reads.clear {form : Form} {shape : Shape} (h : Reads options scope form shape)
    (hscope : scope.Clear y)
    : (Part.shape shape).Clear options plan y := by
  have hids : y ∉ shape.ids := by
    intro hmem
    obtain ⟨name, hlocal⟩ := h.ids.1 y hmem
    have := Scope.binds_of_mem hlocal
    rw [hscope.locals] at this
    cases this
  cases h with
  | «local» hfind =>
    intro heq
    exact hids (List.mem_singleton.2 heq.symm)
  | global | atom | quote | empty => trivial
  | vector | map | set | apply => exact hids
  | named _ hnamed => exact hnamed.clear hids

theorem Job.effect_ne_receive (job : Job) (operands : List Operand)
    : Command.effect (job.effect operands) ≠ .receive := by
  unfold effect Command.receive
  split <;> simp

theorem Job.effect_ne_endFinally (job : Job) (operands : List Operand) (operand : Operand)
    : job.effect operands ≠ .endFinally operand := by
  unfold effect
  split <;> simp

namespace Plan

theorem Spares.ofEffect {b : BlockId} {i : Nat} {id : ValueId} {e : Effect} {span : Span}
    (hwrites : y ∈ e.writes id → id = y) (hend : ∀ operand, e ≠ .endFinally operand)
    : plan.Spares options y b i ⟨id, .effect e, span⟩ where
  writes := hwrites
  ends _ heq := absurd (Command.effect.inj heq) (hend _)

theorem Spares.row {commands : List Command} (horderly : Orderly plan.code)
    (hholds : plan.Holds s commands) (hrow : ∀ command ∈ commands, command.isBasic = true)
    : plan.Between (plan.Spares options y) s.value (s.value + commands.length) := by
  refine .row horderly hholds ?_
  intro command hmem b i id span
  have hbasic := hrow command hmem
  match command with
  | .transfer _ => exact ⟨fun hmem => absurd hmem List.not_mem_nil, by simp⟩
  | .effect (.const _) | .effect .takeException =>
    exact .ofEffect (fun hmem => (List.mem_singleton.1 hmem).symm) (by simp)
  | .effect (.pushHandler _) | .effect (.popHandler _) =>
    exact .ofEffect (fun hmem => absurd hmem List.not_mem_nil) (by simp)

theorem Receives.ne_of_holds (hy : plan.Receives F y) (horderly : Orderly plan.code)
    {command : Command} (hholds : plan.Holds s [command]) (hcommand : command ≠ .receive)
    : s.value ≠ y := by
  intro heq
  obtain ⟨⟨span, hspan⟩, _⟩ := hholds
  obtain ⟨span', hreceive⟩ := hy
  obtain ⟨hblock, hindex⟩ := horderly.unique hspan hreceive heq
  rw [hblock, hindex, hreceive, Option.some.injEq] at hspan
  exact hcommand (Instruction.mk.inj hspan).2.1.symm

theorem Receives.ne_of_plain (hy : plan.Receives F y) (hrole : (plan.label F).role ≠ .plain)
    (horderly : Orderly plan.code) {b : BlockId} (hlabel : plan.label b = .plain handlers scope)
    (hholds : plan.Holds (s.goTo b) [.receive])
    : s.value ≠ y := by
  intro heq
  obtain ⟨⟨span, hspan⟩, _⟩ := hholds
  obtain ⟨span', hreceive⟩ := hy
  obtain ⟨rfl, _⟩ := horderly.unique hspan hreceive heq
  exact hrole (congrArg Label.role hlabel)

theorem Receives.not_mem_range (hy : plan.Receives F y) (horderly : Orderly plan.code)
    {operands : List Operand}
    (hholds : plan.Holds s (operands.map fun operand => .effect (.const operand)))
    (hclear : ∀ operand ∈ operands, operand.Clear y)
    : y ∉ List.range' s.value operands.length := by
  induction operands generalizing s with
  | nil => exact List.not_mem_nil
  | cons operand operands ih =>
    rw [List.forall_mem_cons] at hclear
    intro hmem
    rcases List.mem_cons.1 hmem with rfl | hmem
    . refine hy.ne_of_holds horderly ⟨hholds.1, trivial⟩ ?_ rfl
      intro heq
      cases heq
      exact hclear.1
    . exact ih hholds.2 hclear.2 hmem

end Plan

theorem loop_spares {names : List String} {operands : List Operand} {point : LoopPoint}
    (horderly : Orderly plan.code) (hy : plan.Receives F y) (hscope : scope.Clear y)
    (hclear : ∀ operand ∈ operands, operand.Clear y)
    (hholds : plan.Holds t (operands.map (fun operand => .effect (.const operand)) ++
      [.transfer (.jump none t.fresh)]))
    (hpoint : point = ⟨t.fresh, scope.tryDepth, .range' t.value operands.length⟩)
    : plan.Between (plan.Spares options y) t.value (t.value + (operands.length + 1)) ∧
        ((scope.bindAll (names.zip point.carried)).inLoop point).Clear y := by
  have hrow : plan.Between (plan.Spares options y) t.value
      (t.value + (operands.map (fun operand => Command.effect (.const operand)) ++
        [Command.transfer (.jump none t.fresh)]).length) :=
    Spares.row horderly hholds (by simp +contextual [or_imp, Command.isBasic])
  rw [List.length_append, List.length_map, List.length_singleton] at hrow
  rw [holds_append] at hholds
  subst hpoint
  exact ⟨hrow, hscope.inLoop (hy.not_mem_range horderly hholds.1 hclear)⟩

theorem Code.spares {part : Part} (horderly : Orderly plan.code)
    (hrole : (plan.label F).role ≠ .plain) (hy : plan.Receives F y)
    (h : Code options plan handlers scope s part r t) (hscope : scope.Clear y)
    (hpart : part.Clear options plan y)
    : plan.Between (plan.Spares options y) s.value t.value ∧
        ∀ operands, r = some operands → ∀ operand ∈ operands, operand.Clear y := by
  have hnone : ∀ operands, (none : Option (List Operand)) = some operands →
      ∀ operand ∈ operands, operand.Clear y := by
    intro operands heq
    cases heq
  have hsome : ∀ {operand : Operand}, operand.Clear y →
      ∀ operands, some [operand] = some operands → ∀ operand ∈ operands, operand.Clear y := by
    intro operand hclear operands heq
    cases heq
    simpa using hclear
  have hleave : ∀ {s : Spot} {transfer : Transfer}, plan.Holds s [.transfer transfer] →
      plan.Between (plan.Spares options y) s.value (s.value + 1) :=
    fun hholds => Spares.row horderly hholds (by simp [Command.isBasic])
  have hreceive : ∀ {s : Spot} {b : BlockId} {handlers scope},
      plan.label b = .plain handlers scope → plan.Holds (s.goTo b) [.receive] →
        plan.Between (plan.Spares options y) s.value (s.value + 1) ∧ s.value ≠ y := by
    intro s b handlers scope hlabel hholds
    exact ⟨@Spares.row options plan (s.goTo b) y _ horderly hholds
      (by simp [Command.isBasic, Command.receive]),
      hy.ne_of_plain hrole horderly hlabel hholds⟩
  induction h with
  | form _ hreads _ ih => exact ih hscope (hreads.clear hscope)
  | value => exact ⟨.refl _, hsome hpart⟩
  | @perform handlers scope s t job items operands _ hholds ih =>
    obtain ⟨hitems, _⟩ := ih hscope trivial
    refine ⟨hitems.trans (.one horderly hholds fun _ => .ofEffect ?_ ?_), hsome ?_⟩
    . intro hmem
      rcases Job.effect_writes hmem with heq | hmem
      . exact heq.symm
      . exact absurd hmem hpart
    . exact Job.effect_ne_endFinally job operands
    . exact hy.ne_of_holds horderly hholds (Job.effect_ne_receive job operands)
  | performStop _ ih | selectStop _ ih | loopStop _ ih | recurStop _ ih | suspendStop _ ih
  | body _ ih | bind _ ih | finishStop _ ih => exact ih hscope trivial
  | select _ hmeet hholds _ hreceived ih ihArms =>
    obtain ⟨hmet, hne⟩ := hreceive hmeet hreceived
    refine ⟨(((ih hscope trivial).1.trans (hleave hholds)).trans
      (ihArms hscope trivial).1).trans hmet, hsome hne⟩
  | selectDead _ _ hholds _ ih ihArms =>
    exact ⟨((ih hscope trivial).1.trans (hleave hholds)).trans
      (ihArms hscope trivial).1, hnone⟩
  | loop _ _ hholds hpoint _ hexit hjump hreceived ih ihBody =>
    obtain ⟨hinits, hclear⟩ := ih hscope trivial
    obtain ⟨hentered, hscope'⟩ := loop_spares horderly hy hscope (hclear _ rfl) hholds hpoint
    obtain ⟨hmet, hne⟩ := hreceive hexit hreceived
    refine ⟨(((hinits.trans hentered).trans (ihBody hscope' trivial).1).trans
      (hleave hjump)).trans hmet, hsome hne⟩
  | loopDead _ _ hholds hpoint _ ih ihBody =>
    obtain ⟨hinits, hclear⟩ := ih hscope trivial
    obtain ⟨hentered, hscope'⟩ := loop_spares horderly hy hscope (hclear _ rfl) hholds hpoint
    exact ⟨(hinits.trans hentered).trans (ihBody hscope' trivial).1, hnone⟩
  | @recur handlers scope s t point outer args operands hloops _ _ _ hholds ih =>
    have hset : plan.Between (plan.Spares options y) t.value (t.value + 1) := by
      refine .one horderly ⟨hholds.1, trivial⟩ fun _ => .ofEffect ?_ (by simp)
      intro hmem
      exact absurd hmem (hscope.carried point (by simp [hloops]))
    exact ⟨((ih hscope trivial).1.trans hset).trans (hleave hholds.2), hnone⟩
  | suspend _ hlabel hholds hreceived ih =>
    obtain ⟨hmet, hne⟩ := hreceive hlabel hreceived
    exact ⟨((ih hscope trivial).1.trans (hleave hholds)).trans hmet, hsome hne⟩
  | finish _ _ hholds ih => exact ⟨(ih hscope trivial).1.trans (hleave hholds), hnone⟩
  | finishBy _ _ hlabel hholds hfinish ih =>
    obtain ⟨hmet, _⟩ := hreceive hlabel ⟨hfinish.1, trivial⟩
    exact ⟨(((ih hscope trivial).1.trans (hleave hholds)).trans hmet).trans
      (hleave hfinish.2), hnone⟩
  | operandsNil =>
    refine ⟨.refl _, ?_⟩
    intro operands heq
    cases heq
    simp
  | operandsCons _ _ ih ihRest =>
    obtain ⟨hfirst, hclear⟩ := ih hscope trivial
    obtain ⟨hrest, hclear'⟩ := ihRest hscope trivial
    refine ⟨hfirst.trans hrest, ?_⟩
    intro operands heq
    cases heq
    exact List.forall_mem_cons.2 ⟨hclear _ rfl _ (List.mem_singleton.2 rfl), hclear' _ rfl⟩
  | operandsStop _ ih | bodyStop _ ih | bindingsStop _ ih => exact ⟨(ih hscope trivial).1, hnone⟩
  | operandsStopLater _ _ ih ihRest =>
    exact ⟨(ih hscope trivial).1.trans (ihRest hscope trivial).1, hnone⟩
  | bodyNil => exact ⟨.refl _, hsome hpart⟩
  | bodyCons _ _ ih ihRest =>
    obtain ⟨hfirst, hclear⟩ := ih hscope trivial
    obtain ⟨hrest, hclear'⟩ := ihRest hscope (hclear _ rfl _ (List.mem_singleton.2 rfl))
    exact ⟨hfirst.trans hrest, hclear'⟩
  | bindingsNil _ ih => exact ih hscope trivial
  | @bindingsCopy handlers scope s r t u name init pairs forms operand _ hholds _ ih ihRest =>
    obtain ⟨hfirst, hclear⟩ := ih hscope trivial
    have hne : t.value ≠ y := by
      refine hy.ne_of_holds horderly hholds ?_
      intro heq
      cases heq
      exact hclear _ rfl _ (List.mem_singleton.2 rfl)
    obtain ⟨hrest, hclear'⟩ := ihRest (hscope.bind name hne) trivial
    exact ⟨(hfirst.trans (Spares.row horderly hholds (by simp [Command.isBasic]))).trans hrest,
      hclear'⟩
  | @bindingsKeep handlers scope s r t u name init pairs forms id _ _ _ ih ihRest =>
    obtain ⟨hfirst, hclear⟩ := ih hscope trivial
    obtain ⟨hrest, hclear'⟩ := ihRest
      (hscope.bind name (hclear _ rfl _ (List.mem_singleton.2 rfl))) trivial
    exact ⟨hfirst.trans hrest, hclear'⟩
  | armsNil | clausesNil | catchingNone _ | cleanupNone _ => exact ⟨.refl _, hnone⟩
  | armsLive _ _ hjump _ ih ihRest =>
    exact ⟨((ih hscope trivial).1.trans (hleave hjump)).trans
      (ihRest hscope trivial).1, hnone⟩
  | armsDead _ _ _ ih ihRest =>
    exact ⟨(ih hscope trivial).1.trans (ihRest hscope trivial).1, hnone⟩
  | guardedLive hpush _ hpop ih =>
    have hpushed : plan.Between (plan.Spares options y) _ _ :=
      Spares.row horderly hpush (by simp +contextual [Command.isBasic])
    have hpopped : plan.Between (plan.Spares options y) _ _ :=
      Spares.row horderly hpop (by simp +contextual [or_imp, Command.isBasic, Command.handOver])
    rw [List.length_map, List.length_reverse] at hpushed
    rw [List.length_append, List.length_map, List.length_singleton] at hpopped
    exact ⟨(hpushed.trans (ih (hscope.guarded _) trivial).1).trans hpopped, hnone⟩
  | guardedDead hpush _ ih =>
    have hpushed : plan.Between (plan.Spares options y) _ _ :=
      Spares.row horderly hpush (by simp +contextual [Command.isBasic])
    rw [List.length_map, List.length_reverse] at hpushed
    exact ⟨hpushed.trans (ih (hscope.guarded _) trivial).1, hnone⟩
  | catching _ hholds _ ih =>
    have hpicked : plan.Between (plan.Spares options y) _ _ :=
      Spares.row horderly hholds (by simp [Command.isBasic])
    exact ⟨hpicked.trans (ih (hscope.guarded _) trivial).1, hnone⟩
  | clausesLive hlabel hreceived _ hjump _ ih ihRest =>
    obtain ⟨hmet, hne⟩ := hreceive hlabel hreceived
    exact ⟨((hmet.trans (ih (hscope.bind _ hne) trivial).1).trans (hleave hjump)).trans
      (ihRest hscope trivial).1, hnone⟩
  | clausesDead hlabel hreceived _ _ ih ihRest =>
    obtain ⟨hmet, hne⟩ := hreceive hlabel hreceived
    exact ⟨(hmet.trans (ih (hscope.bind _ hne) trivial).1).trans (ihRest hscope trivial).1, hnone⟩
  | @cleanupLive handlers scope s t blocks forms block operand hcleanup hholds _ hend ih =>
    have hended : plan.Between (plan.Spares options y) t.value (t.value + 1) := by
      refine .one horderly ⟨hend.1, trivial⟩ fun _ => ⟨by simp [Instruction.writes, Effect.writes],
        ?_⟩
      intro x heq
      cases heq
      obtain ⟨span, hlast⟩ := hend.2.1
      exact ⟨blocks, block, s.value, _, span, hpart, hcleanup, hholds.2.1, hholds.1, hlast⟩
    have hstarted : plan.Between (plan.Spares options y) _ _ :=
      Spares.row horderly hholds (by simp [Command.isBasic, Command.receive])
    exact ⟨((hstarted.trans (ih (hscope.inFinally _) trivial).1).trans hended).trans
      (hleave hend.2), hnone⟩
  | cleanupDead _ hholds _ ih =>
    have hstarted : plan.Between (plan.Spares options y) _ _ :=
      Spares.row horderly hholds (by simp [Command.isBasic, Command.receive])
    exact ⟨hstarted.trans (ih (hscope.inFinally _) trivial).1, hnone⟩
  | attempt hblocks hentry hexit hcleanup hdispatch hjump hbody hcatch hfinally hlive hreceived ih₁
      ih₂ ih₃ =>
    obtain ⟨hmet, hne⟩ := hreceive hexit hreceived
    have htries : plan.Tries options _ := ⟨_, _, _, _, _, _, .attempt hblocks hentry hexit hcleanup
      hdispatch hjump hbody hcatch hfinally hlive hreceived, hblocks⟩
    exact ⟨((((hleave hjump).trans (ih₁ hscope trivial).1).trans
      (ih₂ hscope trivial).1).trans (ih₃ hscope htries).1).trans hmet, hsome hne⟩
  | attemptDead hblocks hentry hexit hcleanup hdispatch hjump hbody hcatch hfinally hdead ih₁ ih₂
      ih₃ =>
    have htries : plan.Tries options _ := ⟨_, _, _, _, _, _, .attemptDead hblocks hentry hexit
      hcleanup hdispatch hjump hbody hcatch hfinally hdead, hblocks⟩
    exact ⟨(((hleave hjump).trans (ih₁ hscope trivial).1).trans
      (ih₂ hscope trivial).1).trans (ih₃ hscope htries).1, hnone⟩

namespace Graph.Coded

variable {source : Form} {graph : Graph}

theorem spares (h : graph.Coded options source plan) (hrole : (plan.label F).role ≠ .plain)
    (hy : plan.Receives F y) {b : BlockId} {i : Nat} {ins : Instruction}
    (hins : (plan.code b)[i]? = some ins)
    : plan.Spares options y b i ins := by
  obtain ⟨t, hcode, hbound, _⟩ := h.main
  have hparams : options.params.length ≤ y := by
    obtain ⟨_, hreceive⟩ := hy
    exact (hbound hreceive).1
  have hscope : (Scope.ofParams options.params).Clear y := by
    constructor
    . rw [Bool.eq_false_iff]
      intro hbinds
      rw [Scope.ofParams, Scope.binds_bindAll] at hbinds
      rcases hbinds with hmem | hbinds
      . obtain ⟨pair, hpair, rfl⟩ := List.mem_map.1 hmem
        have := List.mem_range'_1.1 (List.of_mem_zip hpair).2
        lia
      . cases hbinds
    . intro point hpoint
      simp [Scope.ofParams, Scope.bindAll] at hpoint
  exact (hcode.spares h.toOrderly hrole hy hscope trivial).1.each hins (hbound hins).1
    (hbound hins).2

end Graph.Coded

end Resumable
