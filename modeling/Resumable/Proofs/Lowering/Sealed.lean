import Resumable.Proofs.Lowering.Graph
import Resumable.Proofs.Lowering.Stands

/-!
This module contains the proof that every block is ended exactly once: whatever a form consists of,
lowering goes on only in blocks that have no end yet, and leaves no block behind without one.
-/

namespace Resumable

namespace Lower

open Draft

variable {live : Bool} {todo : List BlockId} {d : Draft} {lower lower' : Form → Lower Lowered}

theorem meets_withCatch {α : Type} {x y : Lower α} {post : α → Draft → Prop}
    (handler : Option BlockId) (h : d.Stands live todo)
    (hstep : ∀ e : Draft, e.Stands live todo → e.Meets post x y)
    (hscope : ∀ a e scope, post a e → post a (e.within scope))
    : d.Meets post (withCatch handler x) (withCatch handler y) := by
  unfold withCatch
  cases handler with
  | none => exact hstep d h
  | some block => exact .within (hstep _ (h.within _)) hscope

theorem meets_catchBodies (hlower : AllMeet lower lower') (after : BlockId) (span : Span)
    (clauses : List (CatchClause × BlockId)) (h : d.Stands false (clauses.map (·.2) ++ todo))
    : d.Meets (fun _ e => e.Stands false todo) (catchBodies lower after span clauses)
        (catchBodies lower' after span clauses) := by
  induction clauses generalizing d with
  | nil => exact .pure h
  | cons entry clauses ih =>
    obtain ⟨clause, block⟩ := entry
    refine .bind (meets_enter h span) fun caught e he => ?_
    refine .bind (meets_withLocals he fun e he => ?_) fun lowered e he => ?_
    . exact .bind (meets_bindLocal he _ caught) fun _ _ he => meets_body hlower _ he
    . refine .bind (meets_handOver [] after span he) fun here e he => ?_
      exact .bind (ih he) fun _ _ he => .pure he

theorem meets_catchForms (hlower : AllMeet lower lower') (dispatch : BlockId)
    (catches : List CatchClause) (finallyBlock : Option BlockId) (after : BlockId) (span : Span)
    (h : d.Stands false (dispatch :: todo))
    : d.Meets (fun _ e => e.Stands false todo)
        (catchForms lower dispatch catches finallyBlock after span)
        (catchForms lower' dispatch catches finallyBlock after span) := by
  refine .bind (meets_newBlocks catches h) fun blocks e hblocks => ?_
  have hopen : e.Stands false (dispatch :: (blocks ++ todo)) :=
    hblocks.2.perm List.perm_middle.symm
  refine .bind (meets_goTo hopen) fun _ e he => ?_
  refine .bind (meets_perform he _ span) fun _ e he => ?_
  refine .bind (meets_leave he _ span) fun _ e he => ?_
  have hclauses : e.Stands false ((catches.zip blocks).map (·.2) ++ todo) := by
    rwa [List.map_snd_zip (Nat.le_of_eq hblocks.1)]
  exact meets_withCatch finallyBlock hclauses
    (fun e he => meets_catchBodies hlower after span _ he) fun _ _ scope he => he.within scope

theorem meets_catchPart (hlower : AllMeet lower lower') (dispatch : Option BlockId)
    (catches : List CatchClause) (finallyBlock : Option BlockId) (after : BlockId) (span : Span)
    (h : d.Stands false (dispatch.toList ++ todo))
    : d.Meets (fun _ e => e.Stands false todo)
        (catchPart lower dispatch catches finallyBlock after span)
        (catchPart lower' dispatch catches finallyBlock after span) := by
  cases dispatch with
  | none => exact .pure h
  | some dispatch => exact meets_catchForms hlower dispatch catches finallyBlock after span h

theorem meets_finallyForms (hlower : AllMeet lower lower') (block exit : BlockId)
    (forms : List Form) (span : Span) (h : d.Stands false (block :: todo))
    : d.Meets (fun _ e => e.Stands false todo) (finallyForms lower block exit forms span)
        (finallyForms lower' block exit forms span) := by
  refine .bind (meets_enter h span) fun value e he => ?_
  refine .bind (meets_perform he _ span) fun exception e he => ?_
  refine .bind (meets_perform he _ span) fun _ e he => ?_
  refine .bind (meets_within he fun e he => meets_body hlower forms he) fun lowered e he => ?_
  cases lowered with
  | terminated => exact .pure he
  | value operand =>
    refine .bind (meets_perform he _ span) fun _ e he => ?_
    exact .bind (meets_leave he _ span) fun _ _ he => .pure he

theorem meets_finallyPart (hlower : AllMeet lower lower') (block : Option BlockId)
    (exit : BlockId) (forms : Option (List Form)) (span : Span)
    (h : d.Stands false (block.toList ++ todo))
    : d.Meets (fun _ e => e.Stands false todo) (finallyPart lower block exit forms span)
        (finallyPart lower' block exit forms span) := by
  cases block with
  | none => exact .pure h
  | some block =>
    cases forms with
    | none => exact .pure h.tail
    | some forms => exact meets_finallyForms hlower block exit forms span h

theorem meets_attempt (hlower : AllMeet lower lower') (parts : TryParts) (span : Span)
    (h : d.Stands true todo)
    : d.Meets (Leaves todo) (attempt lower parts span) (attempt lower' parts span) := by
  have hhead : ∀ {bs : List BlockId}, bs.length ≤ 1 → bs = bs.head?.toList := by
    intro bs hlength
    rcases bs with _ | ⟨b, _ | ⟨c, bs⟩⟩
    . rfl
    . rfl
    . simp at hlength
  refine .bind (meets_newBlock h) fun bodyBlock e he => ?_
  refine .bind (meets_newBlocks _ he) fun finallys e hfinallys => ?_
  refine .bind (meets_newBlocks _ hfinallys.2) fun dispatches e hdispatches => ?_
  refine .bind (meets_newBlock hdispatches.2) fun exit e he => ?_
  have hfinally : finallys = finallys.head?.toList := by
    refine hhead (hfinallys.1 ▸ ?_)
    cases parts.cleanup <;> simp
  have hdispatch : dispatches = dispatches.head?.toList := by
    refine hhead (hdispatches.1 ▸ ?_)
    simp only [List.length_take]
    omega
  rw [hfinally, hdispatch] at he
  generalize finallys.head? = finallyBlock at he ⊢
  generalize dispatches.head? = dispatchBlock at he ⊢
  refine .bind (meets_leave he _ span) fun _ e he => ?_
  -- The blocks are written in this order.
  have hordered : e.Stands false
      (bodyBlock :: (dispatchBlock.toList ++ (finallyBlock.toList ++ exit :: todo))) := by
    refine he.perm ?_
    rw [← List.append_assoc, ← List.append_assoc]
    exact (List.Perm.cons _ List.perm_middle).trans
      ((List.Perm.swap ..).trans (.cons _ List.perm_middle.symm))
  refine .bind (meets_goTo hordered) fun _ e he => ?_
  refine .bind (meets_performEach _ span _ he) fun _ e he => ?_
  refine .bind (meets_withCatch _ he (fun e he => meets_body hlower _ he)
    fun _ _ scope he => he.within scope) fun lowered e he => ?_
  refine .bind (meets_handOver _ _ span he) fun bodyLive e he => ?_
  refine .bind (meets_catchPart hlower _ _ _ _ span he) fun catchLive e he => ?_
  refine .bind (meets_finallyPart hlower _ exit _ span he) fun finallyLive e he => ?_
  exact meets_meetIf he ((bodyLive || catchLive) && finallyLive) span

end Lower

namespace TryParts

def Fair {α : Type} (x : Except CompileError α) : Prop :=
  ∀ b, x ≠ .error (.unterminated b)

namespace Fair

variable {α β : Type}

theorem ok (a : α) : Fair (.ok a) := nofun

theorem bind {x : Except CompileError α} {k : α → Except CompileError β} (hx : Fair x)
    (hk : ∀ a, Fair (k a))
    : Fair (x >>= k) := by
  cases x with
  | ok a => exact hk a
  | error e =>
    intro b h
    cases h
    exact hx b rfl

end Fair

theorem fair_readCatch (items : List Form) (span : Span) : Fair (readCatch items span) := by
  unfold readCatch
  split
  . next type name body =>
    refine .bind ?_ fun type => ?_
    . unfold catchType
      split <;> nofun
    . cases name.symbol? <;> nofun
  . nofun

theorem fair_nothingAfterFinally (forms : List Form) : Fair (nothingAfterFinally forms) := by
  cases forms with
  | nil => exact .ok ()
  | cons form rest =>
    unfold nothingAfterFinally
    simp only
    cases kind form <;> nofun

theorem fair_clauses (forms : List Form) : Fair (clauses forms) := by
  induction forms with
  | nil => exact .ok _
  | cons form rest ih =>
    unfold clauses
    simp only
    cases kind form with
    | ordinary => nofun
    | finallyClause items => exact .bind (fair_nothingAfterFinally rest) fun _ => .ok _
    | catchClause items =>
      exact .bind (fair_readCatch items form.span) fun clause => .bind ih fun _ => .ok _

theorem fair_ofForms (forms : List Form) : Fair (ofForms forms) := by
  induction forms with
  | nil => exact .ok _
  | cons form rest ih =>
    unfold ofForms
    simp only
    cases kind form with
    | ordinary => exact .bind ih fun _ => .ok _
    | catchClause | finallyClause => exact .bind (fair_clauses _) fun _ => .ok _

end TryParts

namespace Lower

open Draft

variable {live : Bool} {todo : List BlockId} {d : Draft} {lower lower' : Form → Lower Lowered}

theorem meets_tryForm (hlower : AllMeet lower lower') (args : List Form) (span : Span)
    (h : d.Stands true todo)
    : d.Meets (Leaves todo) (tryForm lower args span) (tryForm lower' args span) := by
  have hparts := TryParts.fair_ofForms args
  unfold tryForm
  cases hread : TryParts.ofForms args with
  | ok parts => exact .bind (.pure h) fun _ _ he => meets_attempt hlower _ span he
  | error e =>
    have hfails : d.Meets (fun _ e => e.Stands true todo) (throw (α := TryParts) e) (throw e) := by
      refine .throw ?_
      rintro b rfl
      exact hparts b hread
    exact .bind hfails fun _ _ he => meets_attempt hlower _ span he

theorem meets_named (options : CompileOptions) (hlower : AllMeet lower lower') (name : String)
    (args : List Form) (span : Span) (h : d.Stands true todo)
    : d.Meets (Leaves todo) (named options lower name args span)
        (named options lower' name args span) := by
  unfold named
  split
  . split
    . exact .pure h
    . exact .malformed ..
  . exact meets_body hlower args h
  . exact meets_ifForm hlower args span h
  . exact meets_letForm hlower args span h
  . exact meets_loopForm hlower args span h
  . exact meets_recurForm hlower args span h
  . exact meets_caseForm hlower args span h
  . exact meets_fnForm options args span h
  . exact meets_tryForm hlower args span h
  . exact meets_setForm hlower args span h
  . exact meets_returnForm options hlower args span h
  . split
    . exact meets_memberForm hlower _ args span h
    . cases options.terminators.handler? name with
      | some handler => exact meets_suspendCall hlower handler args span h
      | none => exact meets_globalCall hlower name args span h

theorem meets_listForm (options : CompileOptions) (hlower : AllMeet lower lower') (head : Form)
    (args : List Form) (span : Span) (h : d.Stands true todo)
    : d.Meets (Leaves todo) (listForm options lower head args span)
        (listForm options lower' head args span) := by
  unfold listForm
  split
  . next name _ =>
    refine .bind (meets_scope h) fun scope e he => ?_
    cases scope.find? name with
    | some _ => exact meets_callForm hlower _ args span he.2
    | none => exact meets_named options hlower _ args span he.2
  . exact meets_callForm hlower head args span h

theorem meets_coreForm (options : CompileOptions) (hlower : AllMeet lower lower') (form : Form)
    (h : d.Stands true todo)
    : d.Meets (Leaves todo) (coreForm options lower form) (coreForm options lower' form) := by
  unfold coreForm
  split
  . next name _ =>
    have hfound : d.Meets (fun _ e => e.Stands true todo) (symbolOperand name)
        (symbolOperand name) := by
      refine .bind (meets_scope h) fun scope e he => ?_
      cases scope.find? name <;> exact .pure he.2
    exact .bind hfound fun _ _ he => .pure he
  . exact .pure h
  . exact .pure h
  . exact .pure h
  . exact meets_listForm options hlower _ _ _ h
  . exact meets_globalCall hlower _ _ _ h
  . exact meets_globalCall hlower _ _ _ h
  . exact meets_globalCall hlower _ _ _ h

theorem meets_expand (expander : Expander) (form : Form) (h : d.Stands live todo)
    : d.Meets (fun _ e => e.Stands live todo) (expand expander form) (expand expander form) := by
  have hgo : ∀ rounds current (d : Draft), d.Stands live todo →
      d.Meets (fun _ e => e.Stands live todo) (expand.go expander form rounds current)
        (expand.go expander form rounds current) := by
    intro rounds
    induction rounds with
    | zero => exact fun _ _ _ => .throw nofun
    | succ rounds ih =>
      intro current d h
      have hget : d.Meets (fun s e => s = d ∧ e.Stands live todo) get get := .ok rfl rfl ⟨rfl, h⟩
      refine .bind hget fun s e he => ?_
      split
      . exact .throw nofun
      . exact .pure he.2
      . next next temporaries _ =>
        have hrenamed : e.Meets (fun _ e => e.Stands live todo)
            (modify fun draft => { draft with temporaries := temporaries })
            (modify fun draft => { draft with temporaries := temporaries }) :=
          .ok rfl rfl (he.2.renamed temporaries)
        exact .bind hrenamed fun _ e he => ih next e he
  exact hgo _ form d h

def watch (alarm : CompileError) (live : Bool) : Lower Unit := do
  let builder := (← get).builder
  if builder.blocks.entries.all (fun entry => entry.2.code.dropLast.all (!·.isTransfer))
      && builder.isSealed == !live then
    return ()
  else throw alarm

def watched (alarm : CompileError) (lower : Form → Lower Lowered) (form : Form) :
    Lower Lowered := do
  watch alarm true
  let lowered ← lower form
  watch alarm lowered.operands.isSome
  return lowered

def watchedForm (alarm : CompileError) (options : CompileOptions) : Nat → Form → Lower Lowered
  | 0, form => throw (.expansion "expansion did not terminate" form.span)
  | depth + 1, surface => do
    let core ← expand options.expander surface
    coreForm options (watched alarm (watchedForm alarm options depth)) core

def watchedProgram (alarm : CompileError) (options : CompileOptions) (source : Form) :
    Lower Unit := do
  addParams options.params
  goTo (← newBlock)
  match ← watched alarm (watchedForm alarm options (options.expander.depth source)) source with
  | .value operand => finishWith options operand source.span
  | .terminated => return ()

end Lower

theorem Block.isSealed_iff (block : Block) : block.isSealed = true ↔ Sealed block.code := by
  unfold Block.isSealed
  constructor
  . intro h
    rcases List.eq_nil_or_concat block.code with hempty | ⟨effects, last, hends⟩
    . simp [hempty] at h
    . exact ⟨effects, last, hends.trans List.concat_eq_append, by simpa [hends] using h⟩
  . rintro ⟨effects, last, hends, hlast⟩
    simpa [hends] using hlast

namespace Draft

variable {live : Bool} {todo : List BlockId} {d : Draft}

theorem Tidy.code_of_mem (h : d.Tidy) {entry : BlockId × Block}
    (hentry : entry ∈ d.builder.blocks.entries)
    : d.code entry.1 = entry.2.code := by
  unfold code Table.code
  rw [h.ascending.mem_iff.1 hentry]
  rfl

theorem Tidy.isSealed_iff (h : d.Tidy)
    : d.builder.isSealed = true ↔ Sealed (d.code d.spot.block) := by
  unfold Builder.isSealed code Table.code
  rw [h.current, Option.bind_some]
  cases d.builder.blocks.get? d.spot.block with
  | none => simp [Sealed]
  | some block => exact block.isSealed_iff

theorem Stands.isSealed (h : d.Stands live todo) : d.builder.isSealed = !live := by
  cases live with
  | false => exact h.isSealed_iff.2 (h.ended rfl)
  | true =>
    refine Bool.eq_false_iff.2 fun hsealed => ?_
    obtain ⟨effects, last, hcode, hlast⟩ := h.isSealed_iff.1 hsealed
    have hopen := h.goesOn rfl last (by simp [hcode])
    simp [hlast] at hopen

theorem Stands.finishes {start : BlockId} (h : d.Stands false todo)
    (hstart : d.builder.start = some start) (b : BlockId)
    : d.builder.finish ≠ .error (.unterminated b) := by
  unfold Builder.finish
  simp only [hstart]
  split
  . next id block hopen =>
    have hmem := List.mem_filter.1 (List.mem_of_find?_eq_some hopen)
    have hcode : d.code id = block.code := h.toTidy.code_of_mem hmem.1
    have hsealed : block.isSealed = true := by
      rcases h.all id with hempty | hsealed
      . simp [← hcode, hempty] at hmem
      . exact block.isSealed_iff.2 (hcode ▸ hsealed)
    simpa [hsealed] using List.find?_some hopen
  . nofun

end Draft

theorem Orderly.dropLast {code : BlockId → List Instruction} (h : Orderly code) (b : BlockId)
    : ∀ ins ∈ (code b).dropLast, ins.isTransfer = false := by
  intro ins hins
  obtain ⟨i, hi, hget⟩ := List.mem_iff_getElem.1 hins
  rw [List.length_dropLast] at hi
  rw [List.getElem_dropLast] at hget
  refine Bool.eq_false_iff.2 fun htransfer => ?_
  have := h.last (List.getElem?_eq_some_iff.2 ⟨_, hget⟩) htransfer
  omega

namespace Lower

open Draft

variable {live : Bool} {todo : List BlockId} {d : Draft} {lower lower' : Form → Lower Lowered}

theorem watch_quiet (alarm : CompileError) (h : d.Stands live todo)
    : watch alarm live d = .ok () d := by
  have hlast : d.builder.blocks.entries.all
      (fun entry => entry.2.code.dropLast.all (!·.isTransfer)) = true := by
    refine List.all_eq_true.2 fun entry hentry => List.all_eq_true.2 fun ins hins => ?_
    rw [h.toOrderly.dropLast entry.1 ins (h.toTidy.code_of_mem hentry ▸ hins)]
    rfl
  have hwatch : watch alarm live d
      = (if d.builder.blocks.entries.all (fun entry => entry.2.code.dropLast.all (!·.isTransfer))
          && d.builder.isSealed == !live then Pure.pure () else throw alarm : Lower Unit) d := rfl
  rw [hwatch, hlast, h.isSealed, if_pos (by simp)]
  rfl

theorem meets_watched (alarm : CompileError) (hlower : AllMeet lower lower')
    : AllMeet lower (watched alarm lower') := by
  intro form todo d h
  have hstart : watched alarm lower' form d
      = (lower' form >>= fun lowered => watch alarm lowered.operands.isSome >>= fun _ =>
          Pure.pure lowered) d := bind_of_ok (watch_quiet alarm h)
  cases hlower form todo d h with
  | ok hx hy h =>
    exact .ok hx (hstart.trans ((bind_of_ok hy).trans (bind_of_ok (watch_quiet alarm h)))) h
  | error hx hy h => exact .error hx (hstart.trans (bind_of_error hy)) h

theorem allMeet_watched (alarm : CompileError) (options : CompileOptions) (depth : Nat)
    : AllMeet (form options depth) (watchedForm alarm options depth) := by
  induction depth with
  | zero => exact fun _ _ _ _ => .throw nofun
  | succ depth ih =>
    intro surface todo d h
    refine .bind (meets_expand options.expander surface h) fun core e he => ?_
    exact meets_coreForm options (meets_watched alarm ih) core he

theorem start_stands (params : List String) : (Draft.start params).Stands true [] where
  toTidy := start_tidy params
  goesOn _ := start_open params
  ended := nofun
  others b _ := .inl (start_code params b)
  blank := nofun
  away := nofun
  nodup := .nil

theorem meets_program (alarm : CompileError) (options : CompileOptions) (source : Form)
    : ({} : Draft).Meets (fun _ e => e.Stands false []) (program options source)
        (watchedProgram alarm options source) := by
  obtain ⟨d, hparams⟩ := addParams_total options.params {}
  have hbegun : ({} : Draft).Meets (fun _ e => e = d) (addParams options.params)
      (addParams options.params) := .ok hparams hparams rfl
  refine .bind hbegun fun _ _ he => he ▸ ?_
  have hopened : d.Meets (fun b e => b = d.spot.fresh ∧ e = d.opened) newBlock newBlock :=
    .ok rfl rfl ⟨rfl, rfl⟩
  refine .bind hopened fun b _ he => he.1 ▸ he.2 ▸ ?_
  have hstart : (d.opened.goTo d.spot.fresh).Stands true [] :=
    start_of_params hparams ▸ start_stands options.params
  have hat : d.opened.Meets (fun _ e => e.Stands true []) (goTo d.spot.fresh) (goTo d.spot.fresh) :=
    .ok rfl rfl hstart
  refine .bind hat fun _ e he => ?_
  refine .bind (meets_watched alarm (allMeet_watched alarm options _) source [] e he)
    fun lowered e he => ?_
  cases lowered with
  | value operand => exact meets_finishWith options operand source.span he
  | terminated => exact .pure he

end Lower

/--
Every block is ended exactly once. Lowering never complains about a block without an end, and every
block of a graph has one transfer, which stands last. Nor does it make a difference to watch each
form that is lowered, at any depth: nothing ever follows a transfer, no form starts in a block that
has been ended, and the block that is being written has an end after a form just if control does not
get past that form.
-/
theorem Graph.sealed_once (options : CompileOptions) (source : Form)
    : (∀ b, Graph.ofForm options source ≠ .error (.unterminated b)) ∧
        (∀ graph, Graph.ofForm options source = .ok graph → ∀ entry ∈ graph.blocks.entries,
          ∃ effects last, entry.2.code = effects ++ [last] ∧ last.isTransfer = true ∧
            ∀ ins ∈ effects, ins.isTransfer = false) ∧
        ∀ alarm,
          Lower.watchedProgram alarm options source {} = Lower.program options source {} := by
  refine ⟨?_, ?_, ?_⟩
  . intro b hfails
    cases Lower.meets_program (.unterminated 0) options source with
    | error hprogram _ hfair =>
      unfold Graph.ofForm at hfails
      rw [hprogram] at hfails
      cases hfails
      exact hfair b rfl
    | ok hprogram _ hstands =>
      unfold Graph.ofForm at hfails
      rw [hprogram] at hfails
      exact hstands.finishes ((Lower.program_laid hprogram).start 0 rfl) b hfails
  . intro graph hgraph entry hentry
    obtain ⟨plan, hcoded⟩ := Graph.ofForm_coded hgraph
    have hblock := hcoded.ascending.mem_iff.1 hentry
    have hcode : plan.code entry.1 = entry.2.code := by
      rw [← hcoded.code, Table.code, hblock]
      rfl
    obtain ⟨effects, last, hends, hlast⟩ := entry.2.isSealed_iff.1 (hcoded.filled hblock).2
    refine ⟨effects, last, hends, hlast, fun ins hins => ?_⟩
    exact hcoded.toOrderly.dropLast entry.1 ins (by simpa [hcode, hends] using hins)
  . intro alarm
    cases Lower.meets_program alarm options source with
    | ok hx hy => rw [hx, hy]
    | error hx hy => rw [hx, hy]

def Form.returnInArgument : Form :=
  .list [.symbol "try" .synthetic,
    .list [.symbol "f" .synthetic, .list [.symbol "if" .synthetic, .symbol "p" .synthetic,
      .list [.symbol "return" .synthetic, .atom (.int 1) .synthetic] .synthetic] .synthetic]
      .synthetic,
    .list [.symbol "finally" .synthetic, .list [.symbol "g" .synthetic] .synthetic] .synthetic]
    .synthetic

def CompileOptions.returning : CompileOptions :=
  { terminators := .ofList [("return", "done")], expander := .core }

theorem Graph.sealed_once_returnInArgument
    : ∃ graph, Graph.ofForm .returning .returnInArgument = .ok graph ∧
        ∀ entry ∈ graph.blocks.entries, ∃ effects last, entry.2.code = effects ++ [last] ∧
          last.isTransfer = true ∧ ∀ ins ∈ effects, ins.isTransfer = false := by
  have hlowers : (Graph.ofForm .returning .returnInArgument).isOk = true := by decide +kernel
  cases hgraph : Graph.ofForm .returning .returnInArgument with
  | ok graph => exact ⟨graph, rfl, (Graph.sealed_once _ _).2.1 graph hgraph⟩
  | error e => simp [hgraph, Except.isOk, Except.toBool] at hlowers

end Resumable
