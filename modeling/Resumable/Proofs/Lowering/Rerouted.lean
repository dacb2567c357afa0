import Resumable.Lowering.Form
import Resumable.Proofs.Mirror

/-!
This module contains the proof that lowering only passes the names of handlers on: a form that is
lowered with other handlers for the same call sites gives the same graph, but for these names.
-/

namespace Resumable

def Transfer.reroute (handler : String) : Transfer → Transfer
  | .suspend _ resume args => .suspend handler resume args
  | t => t

def Command.reroute (handler : String) : Command → Command
  | .effect e => .effect e
  | .transfer t => .transfer (t.reroute handler)

def Instruction.reroute (handler : String) (i : Instruction) : Instruction :=
  { i with command := i.command.reroute handler }

def Block.reroute (handler : String) (block : Block) : Block :=
  { block with code := block.code.map (·.reroute handler) }

def Table.map {κ α β : Type} (f : α → β) (table : Table κ α) : Table κ β :=
  ⟨table.entries.map fun entry => (entry.1, f entry.2)⟩

def Graph.reroute (handler : String) (graph : Graph) : Graph :=
  { graph with blocks := graph.blocks.map (·.reroute handler) }

def Draft.reroute (handler : String) (draft : Draft) : Draft :=
  { draft with builder := { draft.builder with
      blocks := draft.builder.blocks.map (·.reroute handler) } }

def Draft.Rerouted (handler : String) (draft draft' : Draft) : Prop :=
  draft' = draft.reroute handler

structure CompileOptions.Rerouted (options : CompileOptions) (handler : String)
    (options' : CompileOptions) : Prop where
  params : options'.params = options.params
  aliases : options'.aliases = options.aliases
  expander : options'.expander = options.expander
  handler? : ∀ site, options'.terminators.handler? site
    = (options.terminators.handler? site).map fun _ => handler

namespace Table

variable {κ α β : Type} [DecidableEq κ]

theorem get?_map (f : α → β) (table : Table κ α) (key : κ)
    : (table.map f).get? key = (table.get? key).map f := by
  obtain ⟨entries⟩ := table
  induction entries with
  | nil => rfl
  | cons entry entries ih =>
    by_cases h : entry.1 = key
    . simp [map, get?, get?.go, h]
    . simpa [map, get?, get?.go, h] using ih

theorem insert_map [LT κ] [DecidableLT κ] (f : α → β) (table : Table κ α) (key : κ) (a : α)
    : (table.map f).insert key (f a) = (table.insert key a).map f := by
  obtain ⟨entries⟩ := table
  simp only [map, insert, mk.injEq]
  induction entries with
  | nil => rfl
  | cons entry entries ih =>
    simp only [List.map_cons, insert.go, ih]
    split
    . rfl
    . split <;> rfl

end Table

namespace Instruction

variable (handler : String) (i : Instruction)

theorem isTransfer_reroute : (i.reroute handler).isTransfer = i.isTransfer := by
  obtain ⟨id, command, span⟩ := i
  cases command <;> rfl

theorem reads_reroute : (i.reroute handler).reads = i.reads := by
  obtain ⟨id, command, span⟩ := i
  cases command with
  | effect e => rfl
  | transfer t => cases t <;> rfl

theorem writes_reroute : (i.reroute handler).writes = i.writes := by
  obtain ⟨id, command, span⟩ := i
  cases command <;> rfl

end Instruction

theorem Block.isSealed_reroute (handler : String) (block : Block)
    : (block.reroute handler).isSealed = block.isSealed := by
  simp only [isSealed, reroute, List.getLast?_map]
  cases block.code.getLast? with
  | none => rfl
  | some i => exact i.isTransfer_reroute handler

namespace Lower

variable {handler : String} {α β : Type}

theorem mirrors_build {f g : Builder → α × Builder}
    (hfst : ∀ d : Draft, (g (d.reroute handler).builder).1 = (f d.builder).1)
    (hsnd : ∀ d : Draft, (g (d.reroute handler).builder).2
      = (Draft.reroute handler ⟨(f d.builder).2, d.temporaries⟩).builder)
    : Mirrors (Draft.Rerouted handler) (build f) (build g) := by
  rintro d _ rfl
  change ∃ d', EStateM.Result.ok (g (d.reroute handler).builder).1 _ = _ ∧ _
  rw [hfst, hsnd]
  exact ⟨_, rfl, rfl⟩

theorem mirrors_newBlock : Mirrors (Draft.Rerouted handler) newBlock newBlock := by
  apply mirrors_build
  . intro d
    rfl
  . intro d
    have hblock : (⟨d.builder.scope.catches, []⟩ : Block)
        = Block.reroute handler ⟨d.builder.scope.catches, []⟩ := rfl
    simp only [Draft.reroute, Builder.newBlock]
    rw [hblock, Table.insert_map]
    rfl

theorem mirrors_newBlocks (list : List β)
    : Mirrors (Draft.Rerouted handler) (newBlocks list) (newBlocks list) := by
  induction list with
  | nil => exact .pure _
  | cons _ list ih =>
    apply Mirrors.bind mirrors_newBlock
    intro block
    exact .bind ih fun _ => .pure _

theorem mirrors_goTo (block : BlockId)
    : Mirrors (Draft.Rerouted handler) (goTo block) (goTo block) :=
  mirrors_build (fun _ => rfl) (fun _ => rfl)

theorem mirrors_add (command : Command) (span : Span)
    : Mirrors (Draft.Rerouted handler) (build (·.add command span))
        (build (·.add (command.reroute handler) span)) := by
  apply mirrors_build
  . intro d
    rfl
  . intro d
    have hadd : ∀ (b : Builder) (current : BlockId) (i : Instruction),
        (b.blocks.map (Block.reroute handler)).insert current
          { (((b.blocks.map (Block.reroute handler)).get? current).getD {}) with
            code := (((b.blocks.map (Block.reroute handler)).get? current).getD {}).code
              ++ [i.reroute handler] }
        = (b.blocks.insert current
            { ((b.blocks.get? current).getD {}) with
              code := ((b.blocks.get? current).getD {}).code ++ [i] }).map
            (Block.reroute handler) := by
      intro b current i
      rw [← Table.insert_map, Table.get?_map]
      cases b.blocks.get? current <;> simp [Block.reroute]
    obtain ⟨⟨nextBlock, nextValue, blocks, start, current, params, scope⟩, temporaries⟩ := d
    cases current with
    | some current =>
      simp only [Draft.reroute, Builder.add, Builder.freshValue, Builder.currentBlock]
      rw [← hadd ⟨nextBlock, nextValue, blocks, start, some current, params, scope⟩]
      rfl
    | none =>
      have hopen := Table.insert_map (Block.reroute handler) blocks nextBlock ⟨scope.catches, []⟩
      simp only [Draft.reroute, Builder.add, Builder.freshValue, Builder.currentBlock,
        Builder.newBlock, Builder.goTo]
      rw [← hadd ⟨nextBlock, nextValue, blocks.insert nextBlock ⟨scope.catches, []⟩, start,
        none, params, scope⟩, ← hopen]
      rfl

theorem mirrors_perform (effect : Effect) (span : Span)
    : Mirrors (Draft.Rerouted handler) (perform effect span) (perform effect span) :=
  mirrors_add (.effect effect) span

theorem mirrors_leave (transfer : Transfer) (span : Span)
    : Mirrors (Draft.Rerouted handler) (leave transfer span)
        (leave (transfer.reroute handler) span) :=
  .bind (mirrors_add (.transfer transfer) span) fun _ => .pure _

theorem mirrors_performValue (effect : Effect) (span : Span)
    : Mirrors (Draft.Rerouted handler) (performValue effect span) (performValue effect span) :=
  .bind (mirrors_perform effect span) fun _ => .pure _

theorem mirrors_enter (block : BlockId) (span : Span)
    : Mirrors (Draft.Rerouted handler) (enter block span) (enter block span) :=
  .bind (mirrors_goTo block) fun _ => mirrors_perform _ span

theorem mirrors_meetAt (block : BlockId) (span : Span)
    : Mirrors (Draft.Rerouted handler) (meetAt block span) (meetAt block span) :=
  .bind (mirrors_enter block span) fun _ => .pure _

theorem mirrors_bindLocal (name : String) (id : ValueId)
    : Mirrors (Draft.Rerouted handler) (bindLocal name id) (bindLocal name id) :=
  mirrors_build (fun _ => rfl) (fun _ => rfl)

theorem mirrors_scope : Mirrors (Draft.Rerouted handler) scope scope :=
  .reading fun d _ hd => by
    cases hd
    exact .pure d.builder.scope

theorem mirrors_within {x y : Lower α} (h : Mirrors (Draft.Rerouted handler) x y)
    (enter leave : Scope → Scope)
    : Mirrors (Draft.Rerouted handler) (within enter leave x) (within enter leave y) := by
  rintro d _ rfl
  unfold within
  have hstep := h { d with builder := { d.builder with scope := enter d.builder.scope } } _ rfl
  cases hx : x { d with builder := { d.builder with scope := enter d.builder.scope } } with
  | ok a t =>
    simp only [hx] at hstep ⊢
    obtain ⟨_, hy, rfl⟩ := hstep
    split
    . next hy' =>
      cases hy'.symm.trans hy
      exact ⟨_, rfl, rfl⟩
    . next hy' => cases hy'.symm.trans hy
  | error e t =>
    simp only [hx] at hstep ⊢
    obtain ⟨_, hy, rfl⟩ := hstep
    split
    . next hy' => cases hy'.symm.trans hy
    . next hy' =>
      cases hy'.symm.trans hy
      exact ⟨_, rfl, rfl⟩

theorem mirrors_withLocals {x y : Lower α} (h : Mirrors (Draft.Rerouted handler) x y)
    : Mirrors (Draft.Rerouted handler) (withLocals x) (withLocals y) :=
  .bind mirrors_scope fun _ => mirrors_within h _ _

theorem mirrors_withCatch {x y : Lower α} (h : Mirrors (Draft.Rerouted handler) x y)
    (block : Option BlockId)
    : Mirrors (Draft.Rerouted handler) (withCatch block x) (withCatch block y) := by
  cases block with
  | none => exact h
  | some block =>
    unfold withCatch
    exact mirrors_within h _ _

theorem mirrors_ofExcept (x : Except CompileError α)
    : Mirrors (Draft.Rerouted handler) (ofExcept x) (ofExcept x) := by
  cases x with
  | ok a => exact .pure a
  | error e => exact .throw e

theorem mirrors_expectSymbol (form : Form) (owner what : String)
    : Mirrors (Draft.Rerouted handler) (expectSymbol form owner what)
        (expectSymbol form owner what) := by
  unfold expectSymbol
  split
  . exact .pure _
  . exact .throw _

theorem mirrors_performEach (effect : BlockId → Effect) (span : Span) (blocks : List BlockId)
    : Mirrors (Draft.Rerouted handler) (performEach effect span blocks)
        (performEach effect span blocks) := by
  induction blocks with
  | nil => exact .pure _
  | cons block blocks ih => exact .bind (mirrors_perform _ span) fun _ => ih

theorem mirrors_handOver (lowered : Lowered) (pops : List BlockId) (target : BlockId) (span : Span)
    : Mirrors (Draft.Rerouted handler) (handOver lowered pops target span)
        (handOver lowered pops target span) := by
  cases lowered with
  | terminated => exact .pure _
  | value operand =>
    apply Mirrors.bind (mirrors_performEach _ span pops)
    intro _
    exact .bind (mirrors_leave (.jump (some operand) target) span) fun _ => .pure _

theorem mirrors_copyAll (list : List (Operand × Form))
    : Mirrors (Draft.Rerouted handler) (copyAll list) (copyAll list) := by
  induction list with
  | nil => exact .pure _
  | cons entry list ih =>
    apply Mirrors.bind (mirrors_perform _ _)
    intro _
    exact .bind ih fun _ => .pure _

theorem mirrors_bindLocals (list : List (String × ValueId))
    : Mirrors (Draft.Rerouted handler) (bindLocals list) (bindLocals list) := by
  induction list with
  | nil => exact .pure _
  | cons entry list ih => exact .bind (mirrors_bindLocal _ _) fun _ => ih

theorem mirrors_ownResult (operand : Operand) (span : Span)
    : Mirrors (Draft.Rerouted handler) (ownResult operand span) (ownResult operand span) := by
  cases operand with
  | result id =>
    apply Mirrors.bind mirrors_scope
    intro scope
    split
    . exact mirrors_perform _ span
    . exact .pure _
  | _ => exact mirrors_perform _ span

theorem mirrors_bindingPairs (owner : String) (items : List Form)
    : Mirrors (Draft.Rerouted handler) (bindingPairs owner items) (bindingPairs owner items) := by
  fun_induction bindingPairs owner items with
  | case1 name init rest ih =>
    apply Mirrors.bind (mirrors_expectSymbol _ _ _)
    intro _
    exact .bind ih fun _ => .pure _
  | case2 => exact .pure _

theorem mirrors_bindings (owner : String) (form : Form)
    : Mirrors (Draft.Rerouted handler) (bindings owner form) (bindings owner form) := by
  unfold bindings
  split
  . exact .throw _
  . split
    . exact .throw _
    . exact mirrors_bindingPairs owner _

theorem mirrors_parameterNames (items : List Form)
    : Mirrors (Draft.Rerouted handler) (parameterNames items) (parameterNames items) := by
  induction items with
  | nil => exact .pure _
  | cons form items ih =>
    apply Mirrors.bind (mirrors_expectSymbol _ _ _)
    intro _
    exact .bind ih fun _ => .pure _

theorem mirrors_expand (expander : Expander) (form : Form)
    : Mirrors (Draft.Rerouted handler) (expand expander form) (expand expander form) := by
  have hgo : ∀ rounds current, Mirrors (Draft.Rerouted handler)
      (expand.go expander form rounds current) (expand.go expander form rounds current) := by
    intro rounds
    induction rounds with
    | zero => exact fun _ => .throw _
    | succ rounds ih =>
      intro current
      apply Mirrors.reading
      rintro draft _ rfl
      have htemporaries : (draft.reroute handler).temporaries = draft.temporaries := rfl
      rw [htemporaries]
      generalize expander.expand draft.temporaries current = expanded
      split
      . exact .throw _
      . exact .pure _
      . exact .bind (.modify fun _ _ hd => by rw [hd]; rfl) fun _ => ih _
  exact hgo maxExpansions form

theorem mirrors_addParams (names : List String)
    : Mirrors (Draft.Rerouted handler) (addParams names) (addParams names) := by
  induction names with
  | nil => exact .pure _
  | cons name names ih =>
    exact .bind (mirrors_build (fun _ => rfl) (fun _ => rfl)) fun _ => ih

section

variable {lower lower' : Form → Lower Lowered}
  (hlower : ∀ form, Mirrors (Draft.Rerouted handler) (lower form) (lower' form))

include hlower

omit hlower in
theorem mirrors_andThen {x y : Lower Lowered} {j k : Operand → Lower Lowered}
    (hx : Mirrors (Draft.Rerouted handler) x y)
    (hk : ∀ operand, Mirrors (Draft.Rerouted handler) (j operand) (k operand))
    : Mirrors (Draft.Rerouted handler) (andThen x j) (andThen y k) := by
  apply Mirrors.bind hx
  intro lowered
  cases lowered with
  | value operand => exact hk operand
  | terminated => exact .pure _

theorem mirrors_body (forms : List Form)
    : Mirrors (Draft.Rerouted handler) (body lower forms) (body lower' forms) := by
  unfold body
  generalize Operand.literal .nil = last
  induction forms generalizing last with
  | nil => exact .pure _
  | cons form forms ih => exact mirrors_andThen (hlower form) fun operand => ih operand

theorem mirrors_operands (forms : List Form)
    : Mirrors (Draft.Rerouted handler) (operands lower forms) (operands lower' forms) := by
  induction forms with
  | nil => exact .pure _
  | cons form forms ih =>
    apply Mirrors.bind (hlower form)
    intro lowered
    cases lowered with
    | terminated => exact .pure _
    | value operand =>
      apply Mirrors.bind ih
      intro more
      cases more <;> exact .pure _

theorem mirrors_withOperands {j k : List Operand → Lower Lowered} (forms : List Form)
    (hk : ∀ operands, Mirrors (Draft.Rerouted handler) (j operands) (k operands))
    : Mirrors (Draft.Rerouted handler) (withOperands lower forms j)
        (withOperands lower' forms k) := by
  apply Mirrors.bind (mirrors_operands hlower forms)
  intro operands
  cases operands with
  | some operands => exact hk operands
  | none => exact .pure _

theorem mirrors_arms (meet : BlockId) (span : Span) (list : List (Option Form × BlockId))
    : Mirrors (Draft.Rerouted handler) (arms lower meet span list)
        (arms lower' meet span list) := by
  have hjump : ∀ operand, Mirrors (Draft.Rerouted handler)
      (do
        leave (.jump (some operand) meet) span
        return true)
      (do
        leave (.jump (some operand) meet) span
        return true) :=
    fun operand => .bind (mirrors_leave (.jump (some operand) meet) span) fun _ => .pure _
  have harm : ∀ form, Mirrors (Draft.Rerouted handler) (arm lower form meet span)
      (arm lower' form meet span) := by
    intro form
    cases form with
    | none => exact hjump _
    | some form =>
      apply Mirrors.bind (hlower form)
      intro lowered
      cases lowered with
      | value operand => exact hjump operand
      | terminated => exact .pure _
  induction list with
  | nil => exact .pure _
  | cons entry list ih =>
    apply Mirrors.bind (mirrors_goTo _)
    intro _
    apply Mirrors.bind (harm _)
    intro _
    exact .bind ih fun _ => .pure _

omit hlower in
theorem mirrors_meetIf (live : Bool) (meet : BlockId) (span : Span)
    : Mirrors (Draft.Rerouted handler) (meetIf live meet span) (meetIf live meet span) := by
  cases live with
  | true => exact mirrors_meetAt meet span
  | false => exact .pure _

theorem mirrors_ifForm (args : List Form) (span : Span)
    : Mirrors (Draft.Rerouted handler) (ifForm lower args span) (ifForm lower' args span) := by
  have hchoose : ∀ test yes no, Mirrors (Draft.Rerouted handler) (choose lower test yes no span)
      (choose lower' test yes no span) := by
    intro test yes no
    apply mirrors_andThen (hlower test)
    intro test
    apply Mirrors.bind mirrors_newBlock
    intro yesBlock
    apply Mirrors.bind mirrors_newBlock
    intro noBlock
    apply Mirrors.bind mirrors_newBlock
    intro meet
    apply Mirrors.bind (mirrors_leave (.branch test yesBlock noBlock) span)
    intro _
    exact .bind (mirrors_arms hlower meet span _) fun live => mirrors_meetIf live meet span
  unfold ifForm
  split
  . exact hchoose _ _ _
  . exact hchoose _ _ _
  . exact .throw _

theorem mirrors_caseForm (args : List Form) (span : Span)
    : Mirrors (Draft.Rerouted handler) (caseForm lower args span) (caseForm lower' args span) := by
  cases args with
  | nil => exact .throw _
  | cons value rest =>
    apply mirrors_andThen (hlower value)
    intro value
    apply Mirrors.bind (mirrors_newBlocks _)
    intro blocks
    apply Mirrors.bind (mirrors_newBlocks _)
    intro fallbackBlocks
    apply Mirrors.bind mirrors_newBlock
    intro meet
    apply Mirrors.bind (mirrors_leave (.case value _ blocks _) span)
    intro _
    exact .bind (mirrors_arms hlower meet span _) fun live => mirrors_meetIf live meet span

theorem mirrors_callForm (head : Form) (args : List Form) (span : Span)
    : Mirrors (Draft.Rerouted handler) (callForm lower head args span)
        (callForm lower' head args span) := by
  apply mirrors_andThen (hlower head)
  intro callee
  exact mirrors_withOperands hlower args fun _ => mirrors_performValue _ span

theorem mirrors_globalCall (name : String) (args : List Form) (span : Span)
    : Mirrors (Draft.Rerouted handler) (globalCall lower name args span)
        (globalCall lower' name args span) :=
  mirrors_withOperands hlower args fun _ => mirrors_performValue _ span

theorem mirrors_suspendCall (name : String) (args : List Form) (span : Span)
    : Mirrors (Draft.Rerouted handler) (suspendCall lower name args span)
        (suspendCall lower' handler args span) := by
  apply mirrors_withOperands hlower args
  intro operands
  apply Mirrors.bind mirrors_newBlock
  intro resume
  exact .bind (mirrors_leave (.suspend name resume operands) span) fun _ =>
    mirrors_meetAt resume span

omit hlower in
theorem mirrors_finishWith {options options' : CompileOptions}
    (hoptions : options.Rerouted handler options') (value : Operand) (span : Span)
    : Mirrors (Draft.Rerouted handler) (finishWith options value span)
        (finishWith options' value span) := by
  have hreturn : options'.terminators.returnHandler?
      = options.terminators.returnHandler?.map fun _ => handler := hoptions.handler? "return"
  unfold finishWith
  rw [hreturn]
  cases options.terminators.returnHandler? with
  | none => exact mirrors_leave (.finish value) span
  | some name =>
    apply Mirrors.bind mirrors_newBlock
    intro resume
    apply Mirrors.bind (mirrors_leave (.suspend name resume [value]) span)
    intro _
    exact .bind (mirrors_enter resume span) fun result =>
      mirrors_leave (.finish (.result result)) span

theorem mirrors_returnForm {options options' : CompileOptions}
    (hoptions : options.Rerouted handler options') (args : List Form) (span : Span)
    : Mirrors (Draft.Rerouted handler) (returnForm options lower args span)
        (returnForm options' lower' args span) := by
  unfold returnForm
  split
  . exact .bind (mirrors_finishWith hoptions _ span) fun _ => .pure _
  . apply mirrors_andThen (hlower _)
    intro value
    exact .bind (mirrors_finishWith hoptions value span) fun _ => .pure _
  . exact .throw _

theorem mirrors_letForm (args : List Form) (span : Span)
    : Mirrors (Draft.Rerouted handler) (letForm lower args span) (letForm lower' args span) := by
  have hbind : ∀ forms pairs, Mirrors (Draft.Rerouted handler) (bindAll lower forms pairs)
      (bindAll lower' forms pairs) := by
    intro forms pairs
    induction pairs with
    | nil => exact mirrors_body hlower forms
    | cons pair pairs ih =>
      apply mirrors_andThen (hlower pair.2)
      intro operand
      apply Mirrors.bind (mirrors_ownResult operand _)
      intro id
      exact .bind (mirrors_bindLocal _ id) fun _ => ih
  cases args with
  | nil => exact .throw _
  | cons first forms =>
    exact .bind (mirrors_bindings "let" first) fun pairs => mirrors_withLocals (hbind forms pairs)

theorem mirrors_loopForm (args : List Form) (span : Span)
    : Mirrors (Draft.Rerouted handler) (loopForm lower args span) (loopForm lower' args span) := by
  cases args with
  | nil => exact .throw _
  | cons first forms =>
    apply Mirrors.bind (mirrors_bindings "loop" first)
    intro pairs
    apply mirrors_withOperands hlower
    intro operands
    apply Mirrors.bind (mirrors_copyAll _)
    intro carried
    apply Mirrors.bind mirrors_newBlock
    intro header
    apply Mirrors.bind (mirrors_leave (.jump none header) span)
    intro _
    apply Mirrors.bind (mirrors_goTo header)
    intro _
    apply Mirrors.bind mirrors_scope
    intro scope
    have hround := mirrors_body hlower forms
    apply Mirrors.bind (mirrors_withLocals (.bind (mirrors_bindLocals _) fun _ =>
      mirrors_within hround _ _))
    intro lowered
    cases lowered with
    | terminated => exact .pure _
    | value operand =>
      apply Mirrors.bind mirrors_newBlock
      intro exit
      exact .bind (mirrors_leave (.jump (some operand) exit) span) fun _ => mirrors_meetAt exit span

theorem mirrors_recurForm (args : List Form) (span : Span)
    : Mirrors (Draft.Rerouted handler) (recurForm lower args span)
        (recurForm lower' args span) := by
  apply Mirrors.bind mirrors_scope
  intro scope
  cases scope.loops with
  | nil => exact .throw _
  | cons point points =>
    dsimp only
    split
    . exact .throw _
    . split
      . exact .throw _
      . apply mirrors_withOperands hlower args
        intro operands
        apply Mirrors.bind (mirrors_perform _ span)
        intro _
        exact .bind (mirrors_leave (.jump none point.header) span) fun _ => .pure _

omit hlower in
theorem mirrors_fnForm {options options' : CompileOptions}
    (hoptions : options.Rerouted handler options') (args : List Form) (span : Span)
    : Mirrors (Draft.Rerouted handler) (fnForm options args span) (fnForm options' args span) := by
  have hmake : ∀ name rest, Mirrors (Draft.Rerouted handler) (makeLambda options name rest span)
      (makeLambda options' name rest span) := by
    intro name rest
    unfold makeLambda
    rw [hoptions.aliases, hoptions.expander]
    cases rest with
    | nil => exact .throw _
    | cons params body =>
      dsimp only
      split
      . exact .throw _
      . apply Mirrors.bind (mirrors_parameterNames _)
        intro names
        exact .bind mirrors_scope fun scope => mirrors_performValue _ span
  unfold fnForm
  split
  . exact hmake _ _
  . exact hmake _ _

theorem mirrors_memberForm (accessor : List Char) (args : List Form) (span : Span)
    : Mirrors (Draft.Rerouted handler) (memberForm lower accessor args span)
        (memberForm lower' accessor args span) := by
  unfold memberForm
  dsimp only
  split
  . exact .throw _
  . split
    . exact .throw _
    . exact mirrors_andThen (hlower _) fun _ => mirrors_performValue _ span
    . exact .throw _
  . split
    . exact .throw _
    . exact mirrors_andThen (hlower _) fun _ =>
        mirrors_withOperands hlower _ fun _ => mirrors_performValue _ span

theorem mirrors_setForm (args : List Form) (span : Span)
    : Mirrors (Draft.Rerouted handler) (setForm lower args span) (setForm lower' args span) := by
  unfold setForm
  split
  . apply Mirrors.bind mirrors_scope
    intro scope
    split
    . exact mirrors_andThen (hlower _) fun _ => mirrors_performValue _ span
    . exact mirrors_andThen (hlower _) fun _ => mirrors_performValue _ span
  . split
    . exact .throw _
    . exact mirrors_andThen (hlower _) fun _ =>
        mirrors_andThen (hlower _) fun _ => mirrors_performValue _ span
  . exact .throw _

theorem mirrors_catchBodies (after : BlockId) (span : Span) (list : List (CatchClause × BlockId))
    : Mirrors (Draft.Rerouted handler) (catchBodies lower after span list)
        (catchBodies lower' after span list) := by
  induction list with
  | nil => exact .pure _
  | cons entry list ih =>
    apply Mirrors.bind (mirrors_enter _ span)
    intro caught
    have hclause := mirrors_body hlower entry.1.body
    apply Mirrors.bind (mirrors_withLocals (.bind (mirrors_bindLocal _ caught) fun _ => hclause))
    intro lowered
    apply Mirrors.bind (mirrors_handOver lowered [] after span)
    intro _
    exact .bind ih fun _ => .pure _

theorem mirrors_catchPart (dispatch : Option BlockId) (catches : List CatchClause)
    (finallyBlock : Option BlockId) (after : BlockId) (span : Span)
    : Mirrors (Draft.Rerouted handler) (catchPart lower dispatch catches finallyBlock after span)
        (catchPart lower' dispatch catches finallyBlock after span) := by
  cases dispatch with
  | none => exact .pure _
  | some dispatch =>
    apply Mirrors.bind (mirrors_newBlocks catches)
    intro blocks
    apply Mirrors.bind (mirrors_goTo dispatch)
    intro _
    apply Mirrors.bind (mirrors_perform _ span)
    intro _
    apply Mirrors.bind (mirrors_leave (.dispatch _) span)
    intro _
    exact mirrors_withCatch (mirrors_catchBodies hlower after span _) finallyBlock

theorem mirrors_finallyPart (block : Option BlockId) (exit : BlockId) (forms : Option (List Form))
    (span : Span)
    : Mirrors (Draft.Rerouted handler) (finallyPart lower block exit forms span)
        (finallyPart lower' block exit forms span) := by
  unfold finallyPart
  split
  . next block forms =>
    apply Mirrors.bind (mirrors_enter block span)
    intro value
    apply Mirrors.bind (mirrors_perform _ span)
    intro exception
    apply Mirrors.bind (mirrors_perform _ span)
    intro _
    apply Mirrors.bind (mirrors_within (mirrors_body hlower forms) _ _)
    intro lowered
    cases lowered with
    | terminated => exact .pure _
    | value operand =>
      apply Mirrors.bind (mirrors_perform _ span)
      intro _
      exact .bind (mirrors_leave (.jump (some (.result value)) exit) span) fun _ => .pure _
  . exact .pure _

theorem mirrors_tryForm (args : List Form) (span : Span)
    : Mirrors (Draft.Rerouted handler) (tryForm lower args span) (tryForm lower' args span) := by
  apply Mirrors.bind (mirrors_ofExcept _)
  intro parts
  apply Mirrors.bind mirrors_newBlock
  intro bodyBlock
  apply Mirrors.bind (mirrors_newBlocks _)
  intro finallyBlocks
  apply Mirrors.bind (mirrors_newBlocks _)
  intro dispatchBlocks
  apply Mirrors.bind mirrors_newBlock
  intro exit
  apply Mirrors.bind (mirrors_leave (.jump none bodyBlock) span)
  intro _
  apply Mirrors.bind (mirrors_goTo bodyBlock)
  intro _
  apply Mirrors.bind (mirrors_performEach _ span _)
  intro _
  apply Mirrors.bind (mirrors_withCatch (mirrors_body hlower parts.body) _)
  intro lowered
  apply Mirrors.bind (mirrors_handOver lowered _ _ span)
  intro bodyLive
  apply Mirrors.bind (mirrors_catchPart hlower _ _ _ _ span)
  intro catchLive
  apply Mirrors.bind (mirrors_finallyPart hlower _ _ _ span)
  intro finallyLive
  split
  . exact mirrors_meetAt exit span
  . exact .pure _

theorem mirrors_named {options options' : CompileOptions}
    (hoptions : options.Rerouted handler options') (name : String) (args : List Form) (span : Span)
    : Mirrors (Draft.Rerouted handler) (named options lower name args span)
        (named options' lower' name args span) := by
  unfold named
  split
  . split
    . exact .pure _
    . exact .throw _
  . exact mirrors_body hlower args
  . exact mirrors_ifForm hlower args span
  . exact mirrors_letForm hlower args span
  . exact mirrors_loopForm hlower args span
  . exact mirrors_recurForm hlower args span
  . exact mirrors_caseForm hlower args span
  . exact mirrors_fnForm hoptions args span
  . exact mirrors_tryForm hlower args span
  . exact mirrors_setForm hlower args span
  . exact mirrors_returnForm hlower hoptions args span
  . split
    . exact mirrors_memberForm hlower _ args span
    . rw [hoptions.handler?]
      cases options.terminators.handler? _ with
      | some site => exact mirrors_suspendCall hlower site args span
      | none => exact mirrors_globalCall hlower _ args span

theorem mirrors_listForm {options options' : CompileOptions}
    (hoptions : options.Rerouted handler options') (head : Form) (args : List Form) (span : Span)
    : Mirrors (Draft.Rerouted handler) (listForm options lower head args span)
        (listForm options' lower' head args span) := by
  unfold listForm
  rw [hoptions.aliases]
  split
  . apply Mirrors.bind mirrors_scope
    intro scope
    split
    . exact mirrors_callForm hlower _ args span
    . exact mirrors_named hlower hoptions _ args span
  . exact mirrors_callForm hlower _ args span

theorem mirrors_coreForm {options options' : CompileOptions}
    (hoptions : options.Rerouted handler options') (form : Form)
    : Mirrors (Draft.Rerouted handler) (coreForm options lower form)
        (coreForm options' lower' form) := by
  unfold coreForm
  split
  . refine .bind (.bind mirrors_scope fun scope => ?_) fun _ => .pure _
    split <;> exact .pure _
  . exact .pure _
  . exact .pure _
  . exact .pure _
  . exact mirrors_listForm hlower hoptions _ _ _
  . exact mirrors_globalCall hlower _ _ _
  . exact mirrors_globalCall hlower _ _ _
  . exact mirrors_globalCall hlower _ _ _

end

variable {options options' : CompileOptions} (hoptions : options.Rerouted handler options')

include hoptions

theorem mirrors_form (depth : Nat) (source : Form)
    : Mirrors (Draft.Rerouted handler) (form options depth source)
        (form options' depth source) := by
  induction depth generalizing source with
  | zero => exact .throw _
  | succ depth ih =>
    unfold form
    rw [hoptions.expander]
    exact .bind (mirrors_expand _ source) fun core => mirrors_coreForm ih hoptions core

theorem mirrors_program (source : Form)
    : Mirrors (Draft.Rerouted handler) (program options source) (program options' source) := by
  unfold program
  rw [hoptions.params, hoptions.expander]
  apply Mirrors.bind (mirrors_addParams _)
  intro _
  apply Mirrors.bind mirrors_newBlock
  intro block
  apply Mirrors.bind (mirrors_goTo block)
  intro _
  apply Mirrors.bind (mirrors_form hoptions _ source)
  intro lowered
  cases lowered with
  | value operand => exact mirrors_finishWith hoptions operand _
  | terminated => exact .pure _

end Lower

theorem Draft.finish_reroute (handler : String) (draft : Draft)
    : (draft.reroute handler).builder.finish
        = draft.builder.finish.map (Graph.reroute handler) := by
  have hfilled : ((draft.reroute handler).builder.blocks.entries.filter (!·.2.code.isEmpty))
      = (draft.builder.blocks.entries.filter (!·.2.code.isEmpty)).map
        fun entry => (entry.1, entry.2.reroute handler) := by
    simp only [reroute, Table.map, List.filter_map]
    congr 1
    apply List.filter_congr
    intro entry _
    simp [Block.reroute]
  simp only [Builder.finish, hfilled, List.find?_map]
  have hsealed : ((fun entry : BlockId × Block => !entry.2.isSealed) ∘
      fun entry : BlockId × Block => (entry.1, entry.2.reroute handler))
      = fun entry => !entry.2.isSealed := by
    funext entry
    simp [Block.isSealed_reroute]
  rw [hsealed]
  cases (draft.builder.blocks.entries.filter (!·.2.code.isEmpty)).find? (!·.2.isSealed) with
  | some entry => rfl
  | none =>
    simp only [Option.map_none, Draft.reroute]
    cases draft.builder.start <;> rfl

theorem Graph.ofForm_reroute {handler : String} {options options' : CompileOptions}
    (hoptions : options.Rerouted handler options') (source : Form)
    : Graph.ofForm options' source = (Graph.ofForm options source).map (Graph.reroute handler) := by
  have hprogram := Lower.mirrors_program hoptions source
  have hempty : Draft.Rerouted handler {} {} := rfl
  unfold Graph.ofForm
  cases hrun : Lower.program options source {} with
  | ok a draft =>
    obtain ⟨_, hmirror, rfl⟩ := hprogram.ok hempty hrun
    simp only [hmirror]
    exact draft.finish_reroute handler
  | error e draft =>
    obtain ⟨_, hmirror, rfl⟩ := hprogram.error hempty hrun
    simp only [hmirror]
    rfl

end Resumable
