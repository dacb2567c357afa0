import Resumable.Proofs.Lowering.Checked
import Resumable.Proofs.Lowering.Kept

/-!
This module contains the proof that lowering a form leaves the scope as it was, whether there is a
value, control never gets past the form, or the form is refused somewhere inside.
-/

namespace Resumable

namespace Lower

open Draft

variable {track free : Prop} {d : Draft} {lower lower' : Form → Lower Lowered}

theorem goes_catchBodies (hlower : AllGo track lower lower') (after : BlockId) (span : Span)
    (clauses : List (CatchClause × BlockId)) (h : track → d.Apart)
    : d.Goes track free (fun _ _ => True) (catchBodies lower after span clauses)
        (catchBodies lower' after span clauses) := by
  induction clauses generalizing d with
  | nil => exact .pure h fun _ => trivial
  | cons entry clauses ih =>
    obtain ⟨clause, block⟩ := entry
    refine .bindFreer False.elim (goes_enter block span h) fun caught e he hcaught => ?_
    have hnew : track → caught ∉ e.scope.locals.map (·.2) ∧ caught < e.spot.value := by
      intro htrack
      obtain ⟨hlow, hhigh⟩ := hcaught htrack
      refine ⟨fun hmem => ?_, hhigh⟩
      obtain ⟨entry, hentry, rfl⟩ := List.mem_map.1 hmem
      exact absurd ((h htrack).given entry (he.scope.eq ▸ hentry)) (Nat.not_lt.2 hlow)
    have hclause := Goes.bind (goes_bindLocal he.apart clause.name caught hnew) fun _ e he _ =>
      goes_body hlower clause.body he.apart
    refine .bind (goes_withLocals he.apart hclause) fun lowered e he _ => ?_
    refine .bind (goes_handOver lowered [] after span he.apart) fun here e he _ => ?_
    exact .bind (ih he.apart) fun _ _ he _ => .pure he.apart fun _ => trivial

theorem goes_catchForms (hlower : AllGo track lower lower') (dispatch : BlockId)
    (catches : List CatchClause) (finallyBlock : Option BlockId) (after : BlockId) (span : Span)
    (h : track → d.Apart)
    : d.Goes track free (fun _ _ => True)
        (catchForms lower dispatch catches finallyBlock after span)
        (catchForms lower' dispatch catches finallyBlock after span) := by
  refine .bind (goes_newBlocks catches h) fun blocks e he _ => ?_
  refine .bind (goes_goTo he.apart dispatch) fun _ e he _ => ?_
  refine .bind (goes_perform he.apart _ span) fun _ e he _ => ?_
  refine .bind (goes_leave he.apart _ span) fun _ e he _ => ?_
  exact goes_withCatch finallyBlock he.apart fun _ _ he =>
    goes_catchBodies hlower after span _ he

theorem goes_catchPart (hlower : AllGo track lower lower') (dispatch : Option BlockId)
    (catches : List CatchClause) (finallyBlock : Option BlockId) (after : BlockId) (span : Span)
    (h : track → d.Apart)
    : d.Goes track free (fun _ _ => True)
        (catchPart lower dispatch catches finallyBlock after span)
        (catchPart lower' dispatch catches finallyBlock after span) := by
  cases dispatch with
  | none => exact .pure h fun _ => trivial
  | some dispatch => exact goes_catchForms hlower dispatch catches finallyBlock after span h

theorem goes_finallyForms (hlower : AllGo track lower lower') (block exit : BlockId)
    (forms : List Form) (span : Span) (h : track → d.Apart)
    : d.Goes track free (fun _ _ => True) (finallyForms lower block exit forms span)
        (finallyForms lower' block exit forms span) := by
  refine .bind (goes_enter block span h) fun value e he _ => ?_
  refine .bind (goes_perform he.apart _ span) fun exception e he _ => ?_
  refine .bind (goes_perform he.apart _ span) fun _ e he _ => ?_
  refine .bind (goes_withFinally block he.apart fun e he => goes_body hlower forms he)
    fun lowered e he _ => ?_
  cases lowered with
  | terminated => exact .pure he.apart fun _ => trivial
  | value operand =>
    refine .bind (goes_perform he.apart _ span) fun _ e he _ => ?_
    exact .bind (goes_leave he.apart _ span) fun _ _ he _ => .pure he.apart fun _ => trivial

theorem goes_finallyPart (hlower : AllGo track lower lower') (block : Option BlockId)
    (exit : BlockId) (forms : Option (List Form)) (span : Span) (h : track → d.Apart)
    : d.Goes track free (fun _ _ => True) (finallyPart lower block exit forms span)
        (finallyPart lower' block exit forms span) := by
  cases block with
  | none => exact .pure h fun _ => trivial
  | some block =>
    cases forms with
    | none => exact .pure h fun _ => trivial
    | some forms => exact goes_finallyForms hlower block exit forms span h

theorem goes_attempt (hlower : AllGo track lower lower') (parts : TryParts) (span : Span)
    (h : track → d.Apart)
    : d.Goes track free Lowered.Given (attempt lower parts span) (attempt lower' parts span) := by
  refine .bind (goes_newBlock h) fun bodyBlock e he _ => ?_
  refine .bind (goes_newBlocks _ he.apart) fun finallys e he _ => ?_
  refine .bind (goes_newBlocks _ he.apart) fun dispatches e he _ => ?_
  refine .bind (goes_newBlock he.apart) fun exit e he _ => ?_
  refine .bind (goes_leave he.apart _ span) fun _ e he _ => ?_
  refine .bind (goes_goTo he.apart bodyBlock) fun _ e he _ => ?_
  refine .bind (goes_performEach _ span _ he.apart) fun _ e he _ => ?_
  refine .bind (goes_withCatch _ he.apart fun _ _ he => goes_body hlower parts.body he)
    fun lowered e he _ => ?_
  refine .bind (goes_handOver lowered _ _ span he.apart) fun bodyLive e he _ => ?_
  refine .bind (goes_catchPart hlower _ _ _ _ span he.apart) fun catchLive e he _ => ?_
  refine .bind (goes_finallyPart hlower _ exit _ span he.apart) fun finallyLive e he _ => ?_
  exact goes_meetIf ((bodyLive || catchLive) && finallyLive) exit span he.apart

theorem goes_tryForm (hlower : AllGo track lower lower') (args : List Form) (span : Span)
    (h : track → d.Apart)
    : d.Goes track free Lowered.Given (tryForm lower args span) (tryForm lower' args span) :=
  .bind ((looks_ofExcept (TryParts.ofForms args)).goes h) fun parts _ he _ =>
    goes_attempt hlower parts span he.apart

theorem goes_named (options : CompileOptions) (hlower : AllGo track lower lower') (name : String)
    (args : List Form) (span : Span) (h : track → d.Apart)
    : d.Goes track free Lowered.Given (named options lower name args span)
        (named options lower' name args span) := by
  unfold named
  split
  . split
    . exact .pure h fun _ => trivial
    . exact .malformed ..
  . exact goes_body hlower args h
  . exact goes_ifForm hlower args span h
  . exact goes_letForm hlower args span h
  . exact goes_loopForm hlower args span h
  . exact goes_recurForm hlower args span h
  . exact goes_caseForm hlower args span h
  . exact goes_fnForm options args span h
  . exact goes_tryForm hlower args span h
  . exact goes_setForm hlower args span h
  . exact goes_returnForm options hlower args span h
  . split
    . exact goes_memberForm hlower _ args span h
    . cases options.terminators.handler? name with
      | some handler => exact goes_suspendCall hlower handler args span h
      | none => exact goes_globalCall hlower name args span h

theorem goes_listForm (options : CompileOptions) (hlower : AllGo track lower lower') (head : Form)
    (args : List Form) (span : Span) (h : track → d.Apart)
    : d.Goes track free Lowered.Given (listForm options lower head args span)
        (listForm options lower' head args span) := by
  unfold listForm
  split
  . next name _ =>
    refine .bind (goes_scope h) fun scope e he _ => ?_
    cases scope.find? name with
    | some _ => exact goes_callForm hlower _ args span he.apart
    | none => exact goes_named options hlower _ args span he.apart
  . exact goes_callForm hlower head args span h

theorem goes_symbolOperand (name : String) (h : track → d.Apart)
    : d.Goes track free (fun operand n => (Lowered.value operand).Given n) (symbolOperand name)
        (symbolOperand name) := by
  cases hfind : d.scope.find? name with
  | none =>
    have hglobal : symbolOperand name d = .ok (.global name) d := by
      refine (bind_of_ok (scope_ok.2 ⟨rfl, rfl⟩)).trans ?_
      rw [hfind]
      rfl
    exact .ok hglobal hglobal (.refl h) fun _ => trivial
  | some id =>
    have hlocal : symbolOperand name d = .ok (.result id) d := by
      refine (bind_of_ok (scope_ok.2 ⟨rfl, rfl⟩)).trans ?_
      rw [hfind]
      rfl
    exact .ok hlocal hlocal (.refl h) fun htrack =>
      (h htrack).given (name, id) (Scope.mem_of_find? hfind)

theorem goes_coreForm (options : CompileOptions) (hlower : AllGo track lower lower') (form : Form)
    (h : track → d.Apart)
    : d.Goes track free Lowered.Given (coreForm options lower form)
        (coreForm options lower' form) := by
  unfold coreForm
  split
  . exact .bind (goes_symbolOperand _ h) fun _ _ he hgiven => .pure he.apart hgiven
  . exact .pure h fun _ => trivial
  . exact .pure h fun _ => trivial
  . exact .pure h fun _ => trivial
  . exact goes_listForm options hlower _ _ _ h
  . exact goes_globalCall hlower _ _ _ h
  . exact goes_globalCall hlower _ _ _ h
  . exact goes_globalCall hlower _ _ _ h

theorem goes_expand (expander : Expander) (form : Form) (h : track → d.Apart)
    : d.Goes track free (fun _ _ => True) (expand expander form) (expand expander form) := by
  have hgo : ∀ rounds current (d : Draft), (track → d.Apart) →
      d.Goes track free (fun _ _ => True) (expand.go expander form rounds current)
        (expand.go expander form rounds current) := by
    intro rounds
    induction rounds with
    | zero => exact fun _ _ _ => .throw _
    | succ rounds ih =>
      intro current d h
      have hget : d.Goes track free (fun _ _ => True) get get :=
        .ok rfl rfl (.refl h) fun _ => trivial
      refine .bind hget fun s e he _ => ?_
      split
      . exact .throw _
      . exact .pure he.apart fun _ => trivial
      . next next temporaries _ =>
        have hrenamed : e.Goes track free (fun _ _ => True)
            (modify fun draft => { draft with temporaries := temporaries })
            (modify fun draft => { draft with temporaries := temporaries }) :=
          .ok rfl rfl ⟨.refl _, Nat.le_refl _, fun htrack =>
            (he.apart htrack).of_scope_eq rfl (Nat.le_refl _)⟩ fun _ => trivial
        exact .bind hrenamed fun _ e he _ => ih next e he.apart
  exact hgo _ form d h

theorem allGo_form (track : Prop) (options : CompileOptions) (depth : Nat)
    : AllGo track (form options depth) (form options depth) := by
  induction depth with
  | zero => exact fun _ _ _ _ => .throw _
  | succ depth ih =>
    intro surface free d h
    refine .bind (goes_expand options.expander surface h) fun core e he _ => ?_
    exact goes_coreForm options ih core he.apart

/--
The scope is restored exactly. From any draft, lowering a form leaves behind the variables, the
loops, the handlers and the `finally` bodies that it has found, whether it comes to a value, control
never gets past the form, or there is an error at any depth.
-/
theorem scope_restored (options : CompileOptions) (depth : Nat) (source : Form) (d : Draft)
    : match form options depth source d with
      | .ok _ e => e.builder.scope = d.builder.scope
      | .error _ e => e.builder.scope = d.builder.scope := by
  cases allGo_form False options depth source False d False.elim with
  | ok hform _ hleads =>
    rw [hform]
    exact hleads.scope.eq
  | error hform _ hscope =>
    rw [hform]
    exact hscope.eq

end Lower

end Resumable
