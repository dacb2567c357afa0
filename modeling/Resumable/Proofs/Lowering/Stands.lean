import Resumable.Proofs.Lowering.Forms

/-!
This module contains where lowering stands between two steps: the block that is being written is
open or sealed, as the step before has said, and of the other blocks only those have no end that
nothing has been written to.
-/

namespace Resumable

def Sealed (code : List Instruction) : Prop :=
  ∃ effects last, code = effects ++ [last] ∧ last.isTransfer = true

namespace Draft

structure Stands (live : Bool) (todo : List BlockId) (d : Draft) : Prop extends d.Tidy where
  goesOn : live = true → d.Open
  ended : live = false → Sealed (d.code d.spot.block)
  others : ∀ b, b ≠ d.spot.block → d.code b = [] ∨ Sealed (d.code b)
  blank : d.Blank todo
  away : d.spot.block ∉ todo
  nodup : todo.Nodup

namespace Stands

variable {live : Bool} {todo todo' : List BlockId} {d : Draft} {b : BlockId}

theorem within (h : d.Stands live todo) (scope : Scope) : (d.within scope).Stands live todo :=
  { h with toTidy := h.toTidy.within scope }

theorem renamed (h : d.Stands live todo) (temporaries : Nat)
    : ({ d with temporaries := temporaries } : Draft).Stands live todo :=
  { h with toTidy := h.toTidy.renamed temporaries }

theorem subset (h : d.Stands live todo) (hsub : todo' ⊆ todo) (hnodup : todo'.Nodup)
    : d.Stands live todo' :=
  { h with
    blank := h.blank.subset hsub
    away := fun hmem => h.away (hsub hmem)
    nodup := hnodup }

theorem perm (h : d.Stands live todo) (hperm : todo'.Perm todo) : d.Stands live todo' :=
  h.subset hperm.subset (hperm.nodup_iff.2 h.nodup)

theorem tail (h : d.Stands live (b :: todo)) : d.Stands live todo :=
  h.subset (List.subset_cons_self ..) (List.nodup_cons.1 h.nodup).2

theorem opened (h : d.Stands live todo) : d.opened.Stands live (d.spot.fresh :: todo) where
  toTidy := h.toTidy.opened
  goesOn hlive := openedBy_open h.toTidy (h.goesOn hlive) 1
  ended hended := by
    rw [opened_code h.toTidy, opened_spot h.toTidy]
    exact h.ended hended
  others := by
    rw [opened_code h.toTidy, opened_spot h.toTidy]
    exact h.others
  blank := by
    intro b hb
    rw [opened_code h.toTidy, opened_spot h.toTidy]
    rcases List.mem_cons.1 hb with rfl | hb
    . exact ⟨Nat.lt_succ_self _, h.beyond _ (Nat.le_refl _)⟩
    . exact ⟨Nat.lt_succ_of_lt (h.blank b hb).1, (h.blank b hb).2⟩
  away := by
    rw [opened_spot h.toTidy, List.mem_cons, not_or]
    exact ⟨Nat.ne_of_lt h.inside, h.away⟩
  nodup := List.nodup_cons.2 ⟨fun hmem => Nat.lt_irrefl _ (h.blank _ hmem).1, h.nodup⟩

theorem push_others (h : d.Stands true todo) (command : Command) (span : Span)
    : (∀ b, b ≠ d.spot.block → (d.push command span).code b = d.code b) ∧
        (d.push command span).spot.block = d.spot.block ∧ (d.push command span).Blank todo := by
  have hsame : ∀ b, b ≠ d.spot.block → (d.push command span).code b = d.code b := by
    intro b hb
    rw [push_code h.toTidy, if_neg (Ne.symm hb)]
  refine ⟨hsame, by rw [push_spot h.toTidy]; rfl, ?_⟩
  intro b hb
  have hne : b ≠ d.spot.block := fun heq => h.away (heq ▸ hb)
  rw [hsame b hne, push_spot h.toTidy]
  exact h.blank b hb

theorem perform (h : d.Stands true todo) (effect : Effect) (span : Span)
    : (d.push (.effect effect) span).Stands true todo := by
  have hopen := h.goesOn rfl
  obtain ⟨hsame, hblock, hblank⟩ := h.push_others (.effect effect) span
  refine ⟨h.toTidy.push hopen _ _, fun _ => push_open h.toTidy hopen effect span, nofun, ?_, hblank,
    hblock ▸ h.away, h.nodup⟩
  intro b hb
  rw [hblock] at hb
  rw [hsame b hb]
  exact h.others b hb

theorem leave (h : d.Stands true todo) (transfer : Transfer) (span : Span)
    : (d.push (.transfer transfer) span).Stands false todo := by
  obtain ⟨hsame, hblock, hblank⟩ := h.push_others (.transfer transfer) span
  refine ⟨h.toTidy.push (h.goesOn rfl) _ _, nofun, fun _ => ?_, ?_, hblank, hblock ▸ h.away,
    h.nodup⟩
  . rw [hblock, push_code h.toTidy, if_pos rfl]
    exact ⟨_, _, rfl, rfl⟩
  . intro b hb
    rw [hblock] at hb
    rw [hsame b hb]
    exact h.others b hb

theorem goTo (h : d.Stands false (b :: todo)) : (d.goTo b).Stands true todo := by
  obtain ⟨hinside, hempty⟩ := h.blank b (List.mem_cons_self ..)
  have hnodup := List.nodup_cons.1 h.nodup
  have hblock : (d.goTo b).spot.block = b := rfl
  refine ⟨h.toTidy.goTo hinside, fun _ => goTo_open hempty, nofun, ?_,
    h.blank.subset (List.subset_cons_self ..), hblock ▸ hnodup.1, hnodup.2⟩
  intro b' _
  by_cases hb : b' = d.spot.block
  . subst hb
    exact .inr (h.ended rfl)
  . exact h.others b' hb

theorem all (h : d.Stands false todo) (b : BlockId) : d.code b = [] ∨ Sealed (d.code b) := by
  by_cases hb : b = d.spot.block
  . subst hb
    exact .inr (h.ended rfl)
  . exact h.others b hb

end Stands

inductive Meets {α : Type} (d : Draft) (post : α → Draft → Prop) (x y : Lower α) : Prop where
  | ok {a : α} {e : Draft} : x d = .ok a e → y d = .ok a e → post a e → d.Meets post x y
  | error {error : CompileError} {e : Draft} : x d = .error error e → y d = .error error e →
    (∀ b, error ≠ .unterminated b) → d.Meets post x y

namespace Meets

variable {α β : Type} {d : Draft} {x y : Lower α} {j k : α → Lower β} {post : α → Draft → Prop}
  {post' : β → Draft → Prop}

theorem pure {a : α} (h : post a d) : d.Meets post (Pure.pure a) (Pure.pure a) :=
  .ok rfl rfl h

theorem throw {error : CompileError} (h : ∀ b, error ≠ .unterminated b)
    : d.Meets post (MonadExcept.throw error) (MonadExcept.throw error) :=
  .error rfl rfl h

theorem malformed (form message : String) (span : Span)
    : d.Meets post (Lower.malformed form message span) (Lower.malformed form message span) :=
  .error rfl rfl nofun

theorem mono {post₁ : α → Draft → Prop} (h : d.Meets post x y) (hpost : ∀ a e, post a e → post₁ a e)
    : d.Meets post₁ x y := by
  cases h with
  | ok hx hy h => exact .ok hx hy (hpost _ _ h)
  | error hx hy h => exact .error hx hy h

theorem bind (h : d.Meets post x y) (hnext : ∀ a e, post a e → e.Meets post' (j a) (k a))
    : d.Meets post' (x >>= j) (y >>= k) := by
  cases h with
  | ok hx hy h =>
    cases hnext _ _ h with
    | ok hj hk h => exact .ok ((bind_of_ok hx).trans hj) ((bind_of_ok hy).trans hk) h
    | error hj hk h => exact .error ((bind_of_ok hx).trans hj) ((bind_of_ok hy).trans hk) h
  | error hx hy h => exact .error (bind_of_error hx) (bind_of_error hy) h

theorem within {enter leave : Scope → Scope} (h : (d.within (enter d.scope)).Meets post x y)
    (hscope : ∀ a e scope, post a e → post a (e.within scope))
    : d.Meets post (Lower.within enter leave x) (Lower.within enter leave y) := by
  have herror : ∀ {z : Lower α} {error : CompileError} {e : Draft},
      z (d.within (enter d.scope)) = .error error e →
        Lower.within enter leave z d = .error error (e.within (leave e.scope)) := by
    intro z error e hz
    unfold Draft.within Draft.scope at hz ⊢
    simp only [Lower.within, hz]
  cases h with
  | ok hx hy h =>
    exact .ok (Lower.within_ok.2 ⟨_, hx, rfl⟩) (Lower.within_ok.2 ⟨_, hy, rfl⟩) (hscope _ _ _ h)
  | error hx hy h => exact .error (herror hx) (herror hy) h

end Meets

end Draft

namespace Lower

open Draft

variable {live : Bool} {todo : List BlockId} {d : Draft}

section

variable (h : d.Stands true todo)

include h

theorem meets_perform (effect : Effect) (span : Span)
    : d.Meets (fun _ e => e.Stands true todo) (perform effect span) (perform effect span) :=
  .ok ((perform_ok h.toTidy).2 ⟨rfl, rfl⟩) ((perform_ok h.toTidy).2 ⟨rfl, rfl⟩)
    (h.perform effect span)

theorem meets_leave (transfer : Transfer) (span : Span)
    : d.Meets (fun _ e => e.Stands false todo) (leave transfer span) (leave transfer span) :=
  .ok ((leave_ok (a := ()) h.toTidy).2 rfl) ((leave_ok h.toTidy).2 rfl) (h.leave transfer span)

theorem meets_bindLocal (name : String) (id : ValueId)
    : d.Meets (fun _ e => e.Stands true todo) (bindLocal name id) (bindLocal name id) :=
  .ok (bindLocal_ok (a := ()).2 rfl) (bindLocal_ok.2 rfl) (h.within _)

end

theorem meets_scope (h : d.Stands live todo)
    : d.Meets (fun scope e => scope = d.scope ∧ e.Stands live todo) scope scope :=
  .ok (scope_ok.2 ⟨rfl, rfl⟩) (scope_ok.2 ⟨rfl, rfl⟩) ⟨rfl, h⟩

theorem meets_newBlock (h : d.Stands live todo)
    : d.Meets (fun b e => e.Stands live (b :: todo)) newBlock newBlock :=
  .ok (newBlock_ok.2 ⟨rfl, rfl⟩) (newBlock_ok.2 ⟨rfl, rfl⟩) h.opened

theorem meets_newBlocks {α : Type} (l : List α) (h : d.Stands live todo)
    : d.Meets (fun bs e => bs.length = l.length ∧ e.Stands live (bs ++ todo)) (newBlocks l)
        (newBlocks l) := by
  induction l generalizing d todo with
  | nil => exact .pure ⟨rfl, h⟩
  | cons a l ih =>
    refine .bind (meets_newBlock h) fun b e he => ?_
    refine .bind (ih he) fun bs e he => .pure ⟨congrArg (· + 1) he.1, he.2.perm ?_⟩
    exact List.perm_middle.symm

theorem meets_goTo {b : BlockId} (h : d.Stands false (b :: todo))
    : d.Meets (fun _ e => e.Stands true todo) (goTo b) (goTo b) :=
  .ok (goTo_ok (a := ()).2 rfl) (goTo_ok.2 rfl) h.goTo

theorem meets_enter {b : BlockId} (h : d.Stands false (b :: todo)) (span : Span)
    : d.Meets (fun _ e => e.Stands true todo) (enter b span) (enter b span) :=
  .bind (meets_goTo h) fun _ _ he => meets_perform he _ span

def Leaves (todo : List BlockId) (lowered : Lowered) (e : Draft) : Prop :=
  e.Stands lowered.operands.isSome todo

theorem meets_performValue (h : d.Stands true todo) (effect : Effect) (span : Span)
    : d.Meets (Leaves todo) (performValue effect span) (performValue effect span) :=
  .bind (meets_perform h effect span) fun _ _ he => .pure he

theorem meets_meetAt {b : BlockId} (h : d.Stands false (b :: todo)) (span : Span)
    : d.Meets (Leaves todo) (meetAt b span) (meetAt b span) :=
  .bind (meets_enter h span) fun _ _ he => .pure he

theorem meets_meetIf {b : BlockId} (h : d.Stands false (b :: todo)) (live : Bool) (span : Span)
    : d.Meets (Leaves todo) (meetIf live b span) (meetIf live b span) := by
  cases live with
  | true => exact meets_meetAt h span
  | false => exact .pure h.tail

theorem meets_performEach (effect : BlockId → Effect) (span : Span) (blocks : List BlockId)
    (h : d.Stands true todo)
    : d.Meets (fun _ e => e.Stands true todo) (performEach effect span blocks)
        (performEach effect span blocks) := by
  induction blocks generalizing d with
  | nil => exact .pure h
  | cons block blocks ih => exact .bind (meets_perform h _ span) fun _ _ he => ih he

theorem meets_handOver {lowered : Lowered} (pops : List BlockId) (target : BlockId) (span : Span)
    (h : Leaves todo lowered d)
    : d.Meets (fun _ e => e.Stands false todo) (handOver lowered pops target span)
        (handOver lowered pops target span) := by
  cases lowered with
  | terminated => exact .pure h
  | value operand =>
    refine .bind (meets_performEach .popHandler span pops h) fun _ e he => ?_
    exact .bind (meets_leave he _ span) fun _ _ he => .pure he

theorem meets_finishWith (options : CompileOptions) (value : Operand) (span : Span)
    (h : d.Stands true todo)
    : d.Meets (fun _ e => e.Stands false todo) (finishWith options value span)
        (finishWith options value span) := by
  unfold finishWith
  cases options.terminators.returnHandler? with
  | none => exact meets_leave h _ span
  | some handler =>
    refine .bind (meets_newBlock h) fun resume e he => ?_
    refine .bind (meets_leave he _ span) fun _ e he => ?_
    exact .bind (meets_enter he span) fun _ _ he => meets_leave he _ span

def AllMeet (lower lower' : Form → Lower Lowered) : Prop :=
  ∀ (form : Form) (todo : List BlockId) (d : Draft), d.Stands true todo →
    d.Meets (Leaves todo) (lower form) (lower' form)

variable {lower lower' : Form → Lower Lowered}

theorem meets_andThen {x y : Lower Lowered} {j k : Operand → Lower Lowered}
    (h : d.Meets (Leaves todo) x y)
    (hnext : ∀ (operand : Operand) (e : Draft), e.Stands true todo →
      e.Meets (Leaves todo) (j operand) (k operand))
    : d.Meets (Leaves todo) (andThen x j) (andThen y k) := by
  refine .bind h fun lowered e he => ?_
  cases lowered with
  | value operand => exact hnext operand e he
  | terminated => exact .pure he

theorem meets_sequence (hlower : AllMeet lower lower') (last : Operand) (forms : List Form)
    (h : d.Stands true todo)
    : d.Meets (Leaves todo) (sequence lower last forms) (sequence lower' last forms) := by
  induction forms generalizing d last with
  | nil => exact .pure h
  | cons form rest ih =>
    exact meets_andThen (hlower form todo d h) fun operand _ he => ih operand he

theorem meets_body (hlower : AllMeet lower lower') (forms : List Form) (h : d.Stands true todo)
    : d.Meets (Leaves todo) (body lower forms) (body lower' forms) :=
  meets_sequence hlower _ forms h

theorem meets_operands (hlower : AllMeet lower lower') (forms : List Form) (h : d.Stands true todo)
    : d.Meets (fun r e => e.Stands r.isSome todo) (operands lower forms)
        (operands lower' forms) := by
  induction forms generalizing d with
  | nil => exact .pure h
  | cons form rest ih =>
    refine .bind (hlower form todo d h) fun lowered e he => ?_
    cases lowered with
    | terminated => exact .pure he
    | value operand =>
      refine .bind (ih he) fun more e he => ?_
      cases more <;> exact .pure he

theorem meets_withOperands {j k : List Operand → Lower Lowered} (hlower : AllMeet lower lower')
    (forms : List Form) (h : d.Stands true todo)
    (hnext : ∀ (os : List Operand) (e : Draft), e.Stands true todo →
      e.Meets (Leaves todo) (j os) (k os))
    : d.Meets (Leaves todo) (withOperands lower forms j) (withOperands lower' forms k) := by
  refine .bind (meets_operands hlower forms h) fun r e he => ?_
  cases r with
  | some os => exact hnext os e he
  | none => exact .pure he

theorem meets_arms (hlower : AllMeet lower lower') (meet : BlockId) (span : Span)
    (arms : List (Option Form × BlockId)) (h : d.Stands false (arms.map (·.2) ++ todo))
    : d.Meets (fun _ e => e.Stands false todo) (Lower.arms lower meet span arms)
        (Lower.arms lower' meet span arms) := by
  induction arms generalizing d with
  | nil => exact .pure h
  | cons entry arms ih =>
    obtain ⟨form, block⟩ := entry
    refine .bind (meets_goTo h) fun _ e he => ?_
    refine .bind (?_ : e.Meets (fun _ e => e.Stands false (arms.map (·.2) ++ todo)) _ _)
      fun here e he => .bind (ih he) fun _ _ he => .pure he
    rw [arm_eq, arm_eq]
    exact .bind (meets_body hlower _ he) fun lowered _ he => meets_handOver [] meet span he

theorem meets_choose (hlower : AllMeet lower lower') (test yes : Form) (no : Option Form)
    (span : Span) (h : d.Stands true todo)
    : d.Meets (Leaves todo) (choose lower test yes no span) (choose lower' test yes no span) := by
  refine meets_andThen (hlower test todo d h) fun operand e he => ?_
  refine .bind (meets_newBlock he) fun yesBlock e he => ?_
  refine .bind (meets_newBlock he) fun noBlock e he => ?_
  refine .bind (meets_newBlock he) fun meet e he => ?_
  refine .bind (meets_leave he _ span) fun _ e he => ?_
  have hopen : e.Stands false ([yesBlock, noBlock] ++ meet :: todo) :=
    he.perm ((List.Perm.swap _ _ _).trans
      (((List.Perm.swap _ _ _).cons _).trans (List.Perm.swap _ _ _)))
  refine .bind (meets_arms hlower meet span [(some yes, yesBlock), (no, noBlock)] hopen)
    fun live e he => meets_meetIf he live span

theorem meets_ifForm (hlower : AllMeet lower lower') (args : List Form) (span : Span)
    (h : d.Stands true todo)
    : d.Meets (Leaves todo) (ifForm lower args span) (ifForm lower' args span) := by
  unfold ifForm
  split
  . exact meets_choose hlower _ _ _ span h
  . exact meets_choose hlower _ _ _ span h
  . exact .malformed ..

theorem meets_caseForm (hlower : AllMeet lower lower') (args : List Form) (span : Span)
    (h : d.Stands true todo)
    : d.Meets (Leaves todo) (caseForm lower args span) (caseForm lower' args span) := by
  cases args with
  | nil => exact .malformed ..
  | cons value rest =>
    refine meets_andThen (hlower value todo d h) fun operand e he => ?_
    refine .bind (meets_newBlocks _ he) fun blocks e hblocks => ?_
    refine .bind (meets_newBlocks _ hblocks.2) fun fallbacks e hfallbacks => ?_
    refine .bind (meets_newBlock hfallbacks.2) fun meet e he => ?_
    refine .bind (meets_leave he _ span) fun _ e he => ?_
    refine .bind (?_ : e.Meets (fun _ e => e.Stands false (meet :: todo)) _ _)
      fun live e he => meets_meetIf he live span
    refine meets_arms hlower meet span _ (he.perm ?_)
    rw [List.map_append, List.map_snd_zip (by simp [hblocks.1]),
      List.map_snd_zip (by simp [hfallbacks.1])]
    refine List.perm_middle.trans (.cons _ ?_)
    rw [← List.append_assoc]
    exact List.perm_append_comm.append_right _

theorem meets_callForm (hlower : AllMeet lower lower') (head : Form) (args : List Form)
    (span : Span) (h : d.Stands true todo)
    : d.Meets (Leaves todo) (callForm lower head args span) (callForm lower' head args span) :=
  meets_andThen (hlower head todo d h) fun _ _ he =>
    meets_withOperands hlower args he fun _ _ he => meets_performValue he _ span

theorem meets_globalCall (hlower : AllMeet lower lower') (name : String) (args : List Form)
    (span : Span) (h : d.Stands true todo)
    : d.Meets (Leaves todo) (globalCall lower name args span) (globalCall lower' name args span) :=
  meets_withOperands hlower args h fun _ _ he => meets_performValue he _ span

theorem meets_suspendCall (hlower : AllMeet lower lower') (handler : String) (args : List Form)
    (span : Span) (h : d.Stands true todo)
    : d.Meets (Leaves todo) (suspendCall lower handler args span)
        (suspendCall lower' handler args span) := by
  refine meets_withOperands hlower args h fun os e he => ?_
  refine .bind (meets_newBlock he) fun resume e he => ?_
  exact .bind (meets_leave he _ span) fun _ _ he => meets_meetAt he span

theorem meets_returnForm (options : CompileOptions) (hlower : AllMeet lower lower')
    (args : List Form) (span : Span) (h : d.Stands true todo)
    : d.Meets (Leaves todo) (returnForm options lower args span)
        (returnForm options lower' args span) := by
  unfold returnForm
  split
  . exact .bind (meets_finishWith options _ span h) fun _ _ he => .pure he
  . next form =>
    refine meets_andThen (hlower form todo d h) fun value e he => ?_
    exact .bind (meets_finishWith options value span he) fun _ _ he => .pure he
  . exact .malformed ..

theorem meets_within {α : Type} {enter leave : Scope → Scope} {x y : Lower α}
    {live : α → Bool} (h : d.Stands true todo)
    (hstep : ∀ e : Draft, e.Stands true todo → e.Meets (fun a e => e.Stands (live a) todo) x y)
    : d.Meets (fun a e => e.Stands (live a) todo) (Lower.within enter leave x)
        (Lower.within enter leave y) :=
  .within (hstep _ (h.within _)) fun _ _ scope he => he.within scope

theorem meets_withLocals {x y : Lower Lowered} (h : d.Stands true todo)
    (hstep : ∀ e : Draft, e.Stands true todo → e.Meets (Leaves todo) x y)
    : d.Meets (Leaves todo) (withLocals x) (withLocals y) :=
  .bind (meets_scope h) fun _ _ he => meets_within he.2 hstep

def Inspects {α : Type} (x : Lower α) : Prop :=
  ∀ d : Draft, d.Meets (fun _ e => e = d) x x

theorem Inspects.meets {α : Type} {x : Lower α} (hinspects : Inspects x) (h : d.Stands live todo)
    : d.Meets (fun _ e => e.Stands live todo) x x :=
  (hinspects d).mono fun _ _ he => he ▸ h

theorem Inspects.bind {α β : Type} {x : Lower α} {k : α → Lower β} (hx : Inspects x)
    (hk : ∀ a, Inspects (k a))
    : Inspects (x >>= k) :=
  fun d => .bind (hx d) fun a e he => he ▸ hk a e

theorem inspects_expectSymbol (form : Form) (owner what : String)
    : Inspects (expectSymbol form owner what) := by
  intro d
  unfold expectSymbol
  cases form.symbol? with
  | some name => exact .pure rfl
  | none => exact .malformed ..

theorem inspects_bindingPairs (owner : String) (items : List Form)
    : Inspects (bindingPairs owner items) := by
  induction items using bindingPairs.induct with
  | case1 name init rest ih =>
    unfold bindingPairs
    exact .bind (inspects_expectSymbol name owner _) fun _ => .bind ih fun _ _ => .pure rfl
  | case2 items hshort =>
    intro d
    rcases items with _ | ⟨name, _ | ⟨init, rest⟩⟩
    . exact .pure rfl
    . exact .pure rfl
    . exact absurd rfl (hshort name init rest)

theorem inspects_bindings (owner : String) (form : Form) : Inspects (bindings owner form) := by
  intro d
  unfold bindings
  cases form.vector? with
  | none => exact .malformed ..
  | some items =>
    by_cases hodd : items.length % 2 ≠ 0
    . simp only [if_pos hodd]
      exact .malformed ..
    . simp only [if_neg hodd]
      exact inspects_bindingPairs owner items d

theorem inspects_parameterNames (items : List Form) : Inspects (parameterNames items) := by
  induction items with
  | nil => exact fun _ => .pure rfl
  | cons form rest ih =>
    exact .bind (inspects_expectSymbol form "fn" _) fun _ => .bind ih fun _ _ => .pure rfl

theorem meets_ownResult (operand : Operand) (span : Span) (h : d.Stands true todo)
    : d.Meets (fun _ e => e.Stands true todo) (ownResult operand span)
        (ownResult operand span) := by
  cases operand with
  | result id =>
    refine .bind (meets_scope h) fun scope e he => ?_
    cases scope.binds id with
    | true => exact meets_perform he.2 _ span
    | false => exact .pure he.2
  | global | literal | pending => exact meets_perform h _ span

theorem meets_bindAll (hlower : AllMeet lower lower') (forms : List Form)
    (pairs : List (String × Form)) (h : d.Stands true todo)
    : d.Meets (Leaves todo) (bindAll lower forms pairs) (bindAll lower' forms pairs) := by
  induction pairs generalizing d with
  | nil => exact meets_body hlower forms h
  | cons pair pairs ih =>
    refine meets_andThen (hlower pair.2 todo d h) fun operand e he => ?_
    refine .bind (meets_ownResult operand _ he) fun id e he => ?_
    exact .bind (meets_bindLocal he pair.1 id) fun _ _ he => ih he

theorem meets_letForm (hlower : AllMeet lower lower') (args : List Form) (span : Span)
    (h : d.Stands true todo)
    : d.Meets (Leaves todo) (letForm lower args span) (letForm lower' args span) := by
  cases args with
  | nil => exact .malformed ..
  | cons first forms =>
    refine .bind ((inspects_bindings "let" first).meets h) fun pairs e he => ?_
    exact meets_withLocals he fun _ he => meets_bindAll hlower forms pairs he

theorem meets_copyAll (pairs : List (Operand × Form)) (h : d.Stands true todo)
    : d.Meets (fun _ e => e.Stands true todo) (copyAll pairs) (copyAll pairs) := by
  induction pairs generalizing d with
  | nil => exact .pure h
  | cons pair pairs ih =>
    refine .bind (meets_perform h _ _) fun id e he => ?_
    exact .bind (ih he) fun _ _ he => .pure he

theorem meets_bindLocals (pairs : List (String × ValueId)) (h : d.Stands true todo)
    : d.Meets (fun _ e => e.Stands true todo) (bindLocals pairs) (bindLocals pairs) := by
  induction pairs generalizing d with
  | nil => exact .pure h
  | cons pair pairs ih => exact .bind (meets_bindLocal h _ _) fun _ _ he => ih he

theorem meets_loopOver (hlower : AllMeet lower lower') (pairs : List (String × Form))
    (forms : List Form) (span : Span) (h : d.Stands true todo)
    : d.Meets (Leaves todo) (loopOver lower pairs forms span)
        (loopOver lower' pairs forms span) := by
  refine meets_withOperands hlower _ h fun operands e he => ?_
  refine .bind (meets_copyAll _ he) fun carried e he => ?_
  refine .bind (meets_newBlock he) fun header e he => ?_
  refine .bind (meets_leave he _ span) fun _ e he => ?_
  refine .bind (meets_goTo he) fun _ e he => ?_
  refine .bind (meets_scope he) fun scope e he => ?_
  refine .bind (meets_withLocals he.2 fun e he => ?_) fun lowered e he => ?_
  . refine .bind (meets_bindLocals _ he) fun _ e he => ?_
    exact meets_within he fun e he => meets_body hlower forms he
  . cases lowered with
    | terminated => exact .pure he
    | value operand =>
      refine .bind (meets_newBlock he) fun exit e he => ?_
      exact .bind (meets_leave he _ span) fun _ _ he => meets_meetAt he span

theorem meets_loopForm (hlower : AllMeet lower lower') (args : List Form) (span : Span)
    (h : d.Stands true todo)
    : d.Meets (Leaves todo) (loopForm lower args span) (loopForm lower' args span) := by
  cases args with
  | nil => exact .malformed ..
  | cons first forms =>
    refine .bind ((inspects_bindings "loop" first).meets h) fun pairs e he => ?_
    exact meets_loopOver hlower pairs forms span he

theorem meets_recurForm (hlower : AllMeet lower lower') (args : List Form) (span : Span)
    (h : d.Stands true todo)
    : d.Meets (Leaves todo) (recurForm lower args span) (recurForm lower' args span) := by
  refine .bind (meets_scope h) fun scope e he => ?_
  cases scope.loops with
  | nil => exact .throw nofun
  | cons point outer =>
    simp only
    by_cases hdepth : point.tryDepth ≠ scope.tryDepth
    . simp only [if_pos hdepth]
      exact .throw nofun
    . by_cases hlength : point.carried.length ≠ args.length
      . simp only [if_neg hdepth, if_pos hlength]
        exact .throw nofun
      . simp only [if_neg hdepth, if_neg hlength]
        refine meets_withOperands hlower args he.2 fun os e he => ?_
        refine .bind (meets_perform he _ span) fun _ e he => ?_
        exact .bind (meets_leave he _ span) fun _ _ he => .pure he

theorem meets_makeLambda (options : CompileOptions) (name : Option String) (rest : List Form)
    (span : Span) (h : d.Stands true todo)
    : d.Meets (Leaves todo) (makeLambda options name rest span)
        (makeLambda options name rest span) := by
  cases rest with
  | nil => exact .malformed ..
  | cons params body =>
    unfold makeLambda
    simp only
    cases params.vector? with
    | none => exact .malformed ..
    | some items =>
      refine .bind ((inspects_parameterNames items).meets h) fun names e he => ?_
      exact .bind (meets_scope he) fun _ _ he => meets_performValue he.2 _ span

theorem meets_fnForm (options : CompileOptions) (args : List Form) (span : Span)
    (h : d.Stands true todo)
    : d.Meets (Leaves todo) (fnForm options args span) (fnForm options args span) := by
  unfold fnForm
  split <;> exact meets_makeLambda options _ _ span h

theorem meets_memberForm (hlower : AllMeet lower lower') (accessor : List Char)
    (args : List Form) (span : Span) (h : d.Stands true todo)
    : d.Meets (Leaves todo) (memberForm lower accessor args span)
        (memberForm lower' accessor args span) := by
  unfold memberForm
  split
  . exact .malformed ..
  . split
    . exact .malformed ..
    . next target =>
      exact meets_andThen (hlower target todo d h) fun _ _ he => meets_performValue he _ span
    . exact .malformed ..
  . split
    . exact .malformed ..
    . next target rest =>
      exact meets_andThen (hlower target todo d h) fun _ _ he =>
        meets_withOperands hlower rest he fun _ _ he => meets_performValue he _ span

theorem meets_setForm (hlower : AllMeet lower lower') (args : List Form) (span : Span)
    (h : d.Stands true todo)
    : d.Meets (Leaves todo) (setForm lower args span) (setForm lower' args span) := by
  unfold setForm
  split
  . next name span' value =>
    refine .bind (meets_scope h) fun scope e he => ?_
    cases scope.find? name <;>
      exact meets_andThen (hlower value todo e he.2) fun _ _ he => meets_performValue he _ span
  . next place value _ =>
    cases fieldPlace? place with
    | none => exact .malformed ..
    | some entry =>
      refine meets_andThen (hlower entry.2 todo d h) fun object e he => ?_
      exact meets_andThen (hlower value todo e he) fun _ _ he => meets_performValue he _ span
  . exact .malformed ..

end Lower

end Resumable
