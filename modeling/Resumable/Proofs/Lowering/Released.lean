import Resumable.Proofs.Lowering.Aside

/-!
This module contains where the handlers of a `try` form are in force: they are put in force at the
start of its protected body, and taken out of force at the end only, right before the value of the
body is handed over. No other instruction takes them out of force, apart from their own blocks.
-/

namespace Resumable

theorem TryBlocks.mem_handlers_of_cleanup {blocks : TryBlocks} {F : BlockId}
    (hcleanup : blocks.cleanup = some F)
    : F ∈ blocks.handlers := by
  simp [handlers, hcleanup]

namespace Plan

/--
Whether blocks are those of a `try` form with certain parts.
-/
def Attempts (options : CompileOptions) (plan : Plan) (parts : TryParts) (blocks : TryBlocks) :
    Prop :=
  ∃ handlers scope s r t, Code options plan handlers scope s (.shape (.attempt parts)) r t ∧
    blocks = .number s.fresh parts

def Released (options : CompileOptions) (plan : Plan) (b : BlockId) (i : Nat) (handler : BlockId) :
    Prop :=
  ∃ blocks t operand k, plan.Tries options blocks ∧
    plan.Holds t (blocks.handlers.map (.effect <| .popHandler ·) ++
      [.handOver operand blocks.after]) ∧
    b = t.block ∧ i = t.index + k ∧ blocks.handlers[k]? = some handler

structure Shifts (options : CompileOptions) (plan : Plan) (b : BlockId) (i : Nat)
    (ins : Instruction) : Prop where
  push : ∀ handler, ins.command = .effect (.pushHandler handler) →
    ∃ blocks, plan.Tries options blocks ∧ handler ∈ blocks.handlers
  pop : ∀ handler, ins.command = .effect (.popHandler handler) →
    handler = b ∨ plan.Released options b i handler

variable {options : CompileOptions} {plan : Plan} {parts : TryParts} {blocks blocks' : TryBlocks}
  {handlers : List BlockId} {scope : Scope} {s t : Spot} {H : BlockId}

theorem Attempts.tries (h : plan.Attempts options parts blocks) : plan.Tries options blocks := by
  obtain ⟨handlers, scope, s, r, t, hcode, hblocks⟩ := h
  exact ⟨handlers, scope, s, parts, r, t, hcode, hblocks⟩

theorem Tries.attempts (h : plan.Tries options blocks)
    : ∃ parts, plan.Attempts options parts blocks := by
  obtain ⟨handlers, scope, s, parts, r, t, hcode, hblocks⟩ := h
  exact ⟨parts, handlers, scope, s, r, t, hcode, hblocks⟩

theorem Attempts.labelled (h : plan.Attempts options parts blocks)
    : ∃ handlers scope s, blocks.Labelled plan handlers scope s ∧
        (∃ u live t, Code options plan handlers scope u (.guarded blocks parts.body live) none t) ∧
        ∃ u live t,
          Code options plan handlers scope u (.catching blocks parts.catches live) none t := by
  obtain ⟨handlers, scope, s, r, t, hcode, rfl⟩ := h
  cases hcode with
  | attempt hblocks hentry hexit hcleanup hdispatch _ hguarded hcatching
  | attemptDead hblocks hentry hexit hcleanup hdispatch _ hguarded hcatching =>
    subst hblocks
    refine ⟨handlers, scope, ⟨0, 0, 0, (TryBlocks.number s.fresh parts).exit⟩,
      ⟨hentry, hexit, hcleanup, hdispatch, ?_⟩, ⟨_, _, _, hguarded⟩, ⟨_, _, _, hcatching⟩⟩
    intro b hb
    rcases List.mem_append.1 hb with hb | hb
    . exact (TryBlocks.number_dispatch_bounds s.fresh parts b (by simpa using hb)).2
    . exact (TryBlocks.number_cleanup_bounds s.fresh parts b (by simpa using hb)).2.1

theorem Tries.labelled (h : plan.Tries options blocks)
    : ∃ first parts handlers scope s, blocks = .number first parts ∧
        blocks.Labelled plan handlers scope s := by
  obtain ⟨handlers, scope, s, parts, r, t, hcode, hblocks⟩ := h
  obtain ⟨handlers', scope', s', hlabelled, _⟩ : ∃ handlers scope s,
      blocks.Labelled plan handlers scope s ∧ _ :=
    Attempts.labelled ⟨handlers, scope, s, r, t, hcode, hblocks⟩
  exact ⟨s.fresh, parts, handlers', scope', s', hblocks, hlabelled⟩

theorem Tries.numbered (h : plan.Tries options blocks) (hmem : H ∈ blocks.handlers)
    : (plan.label H).role = .cleanup ∧ blocks.cleanup = some H ∧ blocks.entry + 1 = H ∧
          (blocks.dispatch = none ∧ (plan.label (H + 1)).role = .plain ∧ blocks.exit = H + 1 ∨
            blocks.dispatch = some (H + 1) ∧ (plan.label (H + 1)).role = .dispatch ∧
              blocks.exit = H + 2) ∨
        (plan.label H).role = .dispatch ∧ blocks.dispatch = some H ∧ blocks.exit = H + 1 ∧
          (blocks.cleanup = none ∧ blocks.entry + 1 = H ∧
              (plan.label blocks.entry).role = .plain ∨
            ∃ F, blocks.cleanup = some F ∧ blocks.entry + 1 = F ∧ F + 1 = H ∧
              (plan.label F).role = .cleanup) := by
  obtain ⟨first, ⟨body, catches, cleanup⟩, handlers, scope, _, rfl, hlabelled⟩ := h.labelled
  have hentry := congrArg Label.role hlabelled.entry
  have hexit := congrArg Label.role hlabelled.exit
  have hcleanup := fun b hb => congrArg Label.role (hlabelled.cleanup b hb)
  have hdispatch := fun b hb => congrArg Label.role (hlabelled.dispatch b hb)
  unfold TryBlocks.handlers at hmem
  unfold TryBlocks.number at hmem hentry hexit hcleanup hdispatch ⊢
  cases catches <;> cases cleanup <;> grind [Label.plain]

theorem Tries.unique (h : plan.Tries options blocks) (h' : plan.Tries options blocks')
    (hmem : H ∈ blocks.handlers) (hmem' : H ∈ blocks'.handlers)
    : blocks = blocks' := by
  have hnumbered := h.numbered hmem
  have hnumbered' := h'.numbered hmem'
  obtain ⟨entry, exit, dispatch, cleanup⟩ := blocks
  obtain ⟨entry', exit', dispatch', cleanup'⟩ := blocks'
  grind

theorem Stacked.under {outer inside front back : List BlockId}
    (h : plan.Stacked outer inside (front ++ H :: back))
    : (plan.label H).under = back ++ outer := by
  induction front with
  | nil => rcases h.1 with hlabel | hlabel <;> rw [hlabel]
  | cons _ front ih => exact ih h.2

theorem Tries.under (h : plan.Tries options blocks) (front back : List BlockId)
    (hsplit : blocks.handlers = front ++ H :: back)
    : (plan.label H).under = back ++ (plan.label blocks.entry).under := by
  obtain ⟨_, _, handlers, scope, s, _, hlabelled⟩ := h.labelled
  have hstacked := hlabelled.stacked
  rw [hsplit] at hstacked
  rw [hlabelled.entry]
  exact hstacked.under

theorem Tries.mem_under (h : plan.Tries options blocks) (hmem : H ∈ blocks.handlers)
    : ∀ g ∈ (plan.label blocks.entry).under, g ∈ (plan.label H).under := by
  obtain ⟨front, back, hsplit⟩ := List.append_of_mem hmem
  rw [h.under _ _ hsplit]
  exact fun g hg => List.mem_append_right _ hg

theorem Tries.role_cleanup (h : plan.Tries options blocks) (hcleanup : blocks.cleanup = some H)
    : (plan.label H).role = .cleanup := by
  obtain ⟨_, _, _, _, _, _, hlabelled⟩ := h.labelled
  rw [hlabelled.cleanup H hcleanup]

theorem Tries.under_cleanup (h : plan.Tries options blocks) (hcleanup : blocks.cleanup = some H)
    : (plan.label H).under = (plan.label blocks.entry).under :=
  h.under blocks.dispatch.toList [] (by simp [TryBlocks.handlers, hcleanup])

theorem Tries.exit_ne (h : plan.Tries options blocks) (hcleanup : blocks.cleanup = some H)
    : H ≠ blocks.exit := by
  have := h.numbered (TryBlocks.mem_handlers_of_cleanup hcleanup)
  lia

theorem Attempts.dispatch_of_mem (h : plan.Attempts options parts blocks) {clause : CatchClause}
    (hclause : clause ∈ parts.catches)
    : ∃ D, blocks.dispatch = some D := by
  obtain ⟨_, _, _, _, _, _, rfl⟩ := h
  obtain ⟨first, rest, hcons⟩ := List.exists_cons_of_ne_nil (List.ne_nil_of_mem hclause)
  rw [← Option.isSome_iff_exists]
  simp [TryBlocks.number, hcons]

theorem Attempts.handlers_ne_nil (h : plan.Attempts options parts blocks)
    (hclauses : parts.catches ≠ [] ∨ parts.cleanup ≠ none)
    : blocks.handlers ≠ [] := by
  rcases hclauses with hcatches | hcleanup
  . obtain ⟨clause, hclause⟩ := List.exists_mem_of_ne_nil _ hcatches
    obtain ⟨D, hD⟩ := h.dispatch_of_mem hclause
    simp [TryBlocks.handlers, hD]
  . obtain ⟨_, _, _, _, _, _, rfl⟩ := h
    obtain ⟨forms, hforms⟩ := Option.ne_none_iff_exists'.1 hcleanup
    simp [TryBlocks.handlers, TryBlocks.number, hforms]

theorem Shifts.row {commands : List Command} (horderly : Orderly plan.code)
    (hholds : plan.Holds s commands)
    (h : ∀ command ∈ commands, ∀ handler,
      command ≠ .effect (.pushHandler handler) ∧ command ≠ .effect (.popHandler handler))
    : plan.Between (plan.Shifts options) s.value (s.value + commands.length) :=
  .row horderly hholds fun command hcommand _ _ _ _ =>
    ⟨fun handler hpush => absurd hpush (h command hcommand handler).1,
      fun handler hpop => absurd hpop (h command hcommand handler).2⟩

theorem Shifts.own (horderly : Orderly plan.code)
    (hholds : plan.Holds s [.effect (.popHandler s.block)])
    : plan.Between (plan.Shifts options) s.value (s.value + 1) := by
  refine .one horderly hholds fun _ => ⟨nofun, fun handler hpop => ?_⟩
  cases hpop
  exact .inl rfl

theorem Shifts.enter (horderly : Orderly plan.code) (htries : plan.Tries options blocks)
    (hholds : plan.Holds s (blocks.handlers.reverse.map (.effect <| .pushHandler ·)))
    : plan.Between (plan.Shifts options) s.value (s.value + blocks.handlers.length) := by
  have hrow : plan.Between (plan.Shifts options) s.value _ := .row horderly hholds (by
    intro command hcommand b i id span
    obtain ⟨block, hblock, rfl⟩ := List.mem_map.1 hcommand
    refine ⟨fun handler hpush => ?_, nofun⟩
    cases hpush
    exact ⟨blocks, htries, List.mem_reverse.1 hblock⟩)
  rwa [List.length_map, List.length_reverse] at hrow

theorem Shifts.leave (horderly : Orderly plan.code) (htries : plan.Tries options blocks)
    {operand : Operand}
    (hholds : plan.Holds t (blocks.handlers.map (.effect <| .popHandler ·) ++
      [.handOver operand blocks.after]))
    : plan.Between (plan.Shifts options) t.value (t.value + (blocks.handlers.length + 1)) where
  le := Nat.le_add_right _ _
  each {b i ins} hins hlow hhigh := by
    obtain ⟨k, hk⟩ := Nat.exists_eq_add_of_le hlow
    obtain ⟨command, hcommand⟩ : ∃ command,
        (blocks.handlers.map (Command.effect <| Effect.popHandler ·) ++
          [Command.handOver operand blocks.after])[k]? = some command := by
      refine ⟨_, List.getElem?_eq_getElem ?_⟩
      rw [List.length_append, List.length_map, List.length_singleton]
      lia
    obtain ⟨span, hspan⟩ := hholds.getElem? hcommand
    obtain ⟨rfl, rfl⟩ := horderly.unique hins hspan hk
    rw [hins, Option.some.injEq] at hspan
    obtain rfl : ins.command = command := by rw [hspan]
    constructor
    case push =>
      intro handler hpush
      have hmem := List.mem_of_getElem? hcommand
      simp [hpush, Command.handOver] at hmem
    case pop =>
      intro handler hpop
      refine .inr ⟨blocks, t, operand, k, htries, hholds, rfl, rfl, ?_⟩
      rw [hpop, List.getElem?_append] at hcommand
      split at hcommand
      . simpa using hcommand
      . have hmem := List.mem_of_getElem? hcommand
        simp [Command.handOver] at hmem

end Plan

def Part.Tried (options : CompileOptions) (plan : Plan) : Part → Prop
  | .guarded blocks _ _ => plan.Tries options blocks
  | _ => True

open Plan

variable {options : CompileOptions} {plan : Plan} {handlers : List BlockId} {scope : Scope}
  {s t : Spot} {r : Option (List Operand)}

theorem Job.effect_ne_handler (job : Job) (operands : List Operand) (handler : BlockId)
    : job.effect operands ≠ .pushHandler handler ∧ job.effect operands ≠ .popHandler handler := by
  unfold effect
  split <;> simp

theorem Code.shifts {part : Part} (horderly : Orderly plan.code)
    (h : Code options plan handlers scope s part r t) (hpart : part.Tried options plan)
    : plan.Between (plan.Shifts options) s.value t.value := by
  have hquiet : ∀ {s : Spot} {commands : List Command}, plan.Holds s commands →
      (∀ command ∈ commands, ∀ handler,
        command ≠ .effect (.pushHandler handler) ∧ command ≠ .effect (.popHandler handler)) →
        plan.Between (plan.Shifts options) s.value (s.value + commands.length) :=
    Shifts.row horderly
  have hleave : ∀ {s : Spot} {transfer : Transfer}, plan.Holds s [.transfer transfer] →
      plan.Between (plan.Shifts options) s.value (s.value + 1) :=
    fun hholds => hquiet hholds (by simp)
  have hreceive : ∀ {s : Spot} {b : BlockId}, plan.Holds (s.goTo b) [.receive] →
      plan.Between (plan.Shifts options) s.value (s.value + 1) :=
    fun {s b} hholds => @hquiet (s.goTo b) _ hholds (by simp [Command.receive])
  have hstart : ∀ {s : Spot} {b : BlockId}, plan.Holds (s.goTo b)
        [.receive, .effect .takeException, .effect (.popHandler b)] →
      plan.Between (plan.Shifts options) s.value (s.value + 3) := by
    intro s b hholds
    have hfirst : plan.Between (plan.Shifts options) s.value (s.value + 2) :=
      @hquiet (s.goTo b) [_, _] ⟨hholds.1, hholds.2.1, trivial⟩ (by simp [Command.receive])
    exact hfirst.trans (Shifts.own (s := ((s.goTo b).skip 1).skip 1) horderly hholds.2.2)
  induction h with
  | form _ _ _ ih | body _ ih | bind _ ih | bindingsNil _ ih | performStop _ ih | selectStop _ ih
  | loopStop _ ih | recurStop _ ih | suspendStop _ ih | finishStop _ ih | operandsStop _ ih
  | bodyStop _ ih | bindingsStop _ ih => exact ih trivial
  | value | operandsNil | bodyNil | armsNil | catchingNone | clausesNil | cleanupNone =>
    exact .refl _
  | @perform handlers scope s t job items operands _ hholds ih =>
    refine (ih trivial).trans (hquiet hholds ?_)
    intro command hmem handler
    rw [List.mem_singleton.1 hmem, ne_eq, ne_eq, Command.effect.injEq, Command.effect.injEq]
    exact job.effect_ne_handler operands handler
  | operandsCons _ _ ih ihRest | operandsStopLater _ _ ih ihRest | bodyCons _ _ ih ihRest
  | bindingsKeep _ _ _ ih ihRest | armsDead _ _ _ ih ihRest =>
    exact (ih trivial).trans (ihRest trivial)
  | select _ _ hholds _ hreceived ih ihArms =>
    exact (((ih trivial).trans (hleave hholds)).trans (ihArms trivial)).trans (hreceive hreceived)
  | selectDead _ _ hholds _ ih ihArms =>
    exact ((ih trivial).trans (hleave hholds)).trans (ihArms trivial)
  | loop _ _ hholds _ _ _ hjump hreceived ih ihBody =>
    have hentered := hquiet hholds (by simp +contextual [or_imp])
    rw [List.length_append, List.length_map] at hentered
    exact ((((ih trivial).trans hentered).trans (ihBody trivial)).trans (hleave hjump)).trans
      (hreceive hreceived)
  | loopDead _ _ hholds _ _ ih ihBody =>
    have hentered := hquiet hholds (by simp +contextual [or_imp])
    rw [List.length_append, List.length_map] at hentered
    exact ((ih trivial).trans hentered).trans (ihBody trivial)
  | recur _ _ _ _ hholds ih => exact (ih trivial).trans (hquiet hholds (by simp))
  | suspend _ _ hholds hreceived ih =>
    exact ((ih trivial).trans (hleave hholds)).trans (hreceive hreceived)
  | finish _ _ hholds ih => exact (ih trivial).trans (hleave hholds)
  | finishBy _ _ _ hholds hfinish ih =>
    exact ((ih trivial).trans (hleave hholds)).trans
      (hquiet hfinish (by simp [Command.receive]))
  | bindingsCopy _ hholds _ ih ihRest =>
    exact ((ih trivial).trans (hquiet hholds (by simp))).trans (ihRest trivial)
  | armsLive _ _ hjump _ ih ihRest =>
    exact ((ih trivial).trans (hleave hjump)).trans (ihRest trivial)
  | guardedLive hpush _ hpop ih =>
    have hpushed := Shifts.enter horderly hpart hpush
    exact (hpushed.trans (ih trivial)).trans (Shifts.leave horderly hpart hpop)
  | guardedDead hpush _ ih =>
    have hpushed := Shifts.enter horderly hpart hpush
    exact hpushed.trans (ih trivial)
  | @catching handlers scope s t blocks catches dispatch live _ hholds _ ih =>
    have hpopped : plan.Between (plan.Shifts options) s.value (s.value + 1) :=
      Shifts.own (s := s.goTo dispatch) horderly ⟨hholds.1, trivial⟩
    exact (hpopped.trans (hleave hholds.2)).trans (ih trivial)
  | clausesLive _ hreceived _ hjump _ ih ihRest =>
    exact (((hreceive hreceived).trans (ih trivial)).trans (hleave hjump)).trans (ihRest trivial)
  | clausesDead _ hreceived _ _ ih ihRest =>
    exact ((hreceive hreceived).trans (ih trivial)).trans (ihRest trivial)
  | cleanupLive _ hholds _ hend ih =>
    exact ((hstart hholds).trans (ih trivial)).trans (hquiet hend (by simp [Command.handOver]))
  | cleanupDead _ hholds _ ih => exact (hstart hholds).trans (ih trivial)
  | attempt hblocks hentry hexit hcleanup hdispatch hjump hbody hcatch hfinally hlive hreceived ih₁
      ih₂ ih₃ =>
    have htries : plan.Tries options _ := ⟨_, _, _, _, _, _, .attempt hblocks hentry hexit hcleanup
      hdispatch hjump hbody hcatch hfinally hlive hreceived, hblocks⟩
    exact ((((hleave hjump).trans (ih₁ htries)).trans (ih₂ trivial)).trans (ih₃ trivial)).trans
      (hreceive hreceived)
  | attemptDead hblocks hentry hexit hcleanup hdispatch hjump hbody hcatch hfinally hdead ih₁ ih₂
      ih₃ =>
    have htries : plan.Tries options _ := ⟨_, _, _, _, _, _, .attemptDead hblocks hentry hexit
      hcleanup hdispatch hjump hbody hcatch hfinally hdead, hblocks⟩
    exact (((hleave hjump).trans (ih₁ htries)).trans (ih₂ trivial)).trans (ih₃ trivial)

end Resumable
