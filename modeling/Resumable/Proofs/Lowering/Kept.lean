import Resumable.Proofs.Lowering.Laid

/-!
This module contains what lowering does to the scope of a draft, step by step and however a step
ends. A rule leaves the scope as it has found it; in between, names are brought into scope on top of
those that are there.

The results that names stand for can be kept track of at the same time: they stay different from
each other if they have been to begin with. Whether this is wanted is a parameter, since the scope
is kept in any case.
-/

namespace Resumable

namespace Draft

structure Apart (d : Draft) : Prop where
  nodup : (d.scope.locals.map (·.2)).Nodup
  given : ∀ entry ∈ d.scope.locals, entry.2 < d.spot.value

theorem Apart.of_scope_eq {d e : Draft} (h : d.Apart) (hscope : e.scope = d.scope)
    (hvalue : d.spot.value ≤ e.spot.value)
    : e.Apart where
  nodup := hscope ▸ h.nodup
  given entry hentry := Nat.lt_of_lt_of_le (h.given entry (hscope ▸ hentry)) hvalue

end Draft

def Scope.Over (free : Prop) (outer inner : Scope) : Prop :=
  ∃ names, inner = { outer with locals := names ++ outer.locals } ∧ (names = [] ∨ free)

namespace Scope.Over

variable {free : Prop} {outer scope inner : Scope}

theorem refl (scope : Scope) : scope.Over free scope :=
  ⟨[], rfl, .inl rfl⟩

theorem trans (h : outer.Over free scope) (h' : scope.Over free inner) : outer.Over free inner := by
  obtain ⟨names, rfl, hnames⟩ := h
  obtain ⟨names', rfl, hnames'⟩ := h'
  refine ⟨names' ++ names, by simp, ?_⟩
  rcases hnames with rfl | hfree
  . simpa using hnames'
  . exact .inr hfree

theorem widen {free' : Prop} (hfree : free' → free) (h : outer.Over free' inner)
    : outer.Over free inner := by
  obtain ⟨names, rfl, hnames⟩ := h
  exact ⟨names, rfl, hnames.imp_right hfree⟩

theorem eq (h : outer.Over False inner) : inner = outer := by
  obtain ⟨names, rfl, rfl | hfree⟩ := h
  . rfl
  . exact hfree.elim

theorem bind (scope : Scope) (name : String) (id : ValueId)
    : scope.Over True (scope.bind name id) :=
  ⟨[(name, id)], rfl, .inr trivial⟩

theorem keepLocals (h : outer.Over free inner)
    : inner.keepLocals outer.locals.length = outer := by
  obtain ⟨names, rfl, _⟩ := h
  simp [Scope.keepLocals]

end Scope.Over

def Lowered.Given : Lowered → ValueId → Prop
  | .value (.result id), next => id < next
  | _, _ => True

namespace Draft

structure Leads (track free : Prop) (d e : Draft) : Prop where
  scope : d.scope.Over free e.scope
  value : d.spot.value ≤ e.spot.value
  apart : track → e.Apart

inductive Goes {α : Type} (track free : Prop) (post : α → ValueId → Prop) (d : Draft)
    (x y : Lower α) : Prop where
  | ok {a : α} {e : Draft} : x d = .ok a e → y d = .ok a e → d.Leads track free e →
    (track → post a e.spot.value) → Goes track free post d x y
  | error {error : CompileError} {e : Draft} : x d = .error error e → y d = .error error e →
    d.scope.Over free e.scope → Goes track free post d x y

variable {α β : Type} {track free : Prop} {d : Draft} {x y : Lower α} {j k : α → Lower β}
  {post : α → ValueId → Prop} {post' : β → ValueId → Prop}

theorem Leads.refl (h : track → d.Apart) : d.Leads track free d :=
  ⟨.refl _, Nat.le_refl _, h⟩

namespace Goes

theorem pure {a : α} (h : track → d.Apart) (hpost : track → post a d.spot.value)
    : d.Goes track free post (Pure.pure a) (Pure.pure a) :=
  .ok rfl rfl (.refl h) hpost

theorem throw (error : CompileError)
    : d.Goes track free post (MonadExcept.throw error) (MonadExcept.throw error) :=
  .error rfl rfl (.refl _)

theorem malformed (form message : String) (span : Span)
    : d.Goes track free post (Lower.malformed form message span)
        (Lower.malformed form message span) :=
  .throw _

theorem mono {post₁ : α → ValueId → Prop} (h : d.Goes track free post x y)
    (hpost : ∀ a n, post a n → post₁ a n)
    : d.Goes track free post₁ x y := by
  cases h with
  | ok hx hy hleads h => exact .ok hx hy hleads fun htrack => hpost _ _ (h htrack)
  | error hx hy hscope => exact .error hx hy hscope

theorem bindFreer {free' : Prop} (hfree : free' → free) (h : d.Goes track free' post x y)
    (hnext : ∀ a e, d.Leads track free' e → (track → post a e.spot.value) →
      e.Goes track free post' (j a) (k a))
    : d.Goes track free post' (x >>= j) (y >>= k) := by
  cases h with
  | ok hx hy hleads h =>
    have hscope := hleads.scope.widen hfree
    cases hnext _ _ hleads h with
    | ok hj hk hleads' h' =>
      exact .ok ((bind_of_ok hx).trans hj) ((bind_of_ok hy).trans hk)
        ⟨hscope.trans hleads'.scope, Nat.le_trans hleads.value hleads'.value, hleads'.apart⟩ h'
    | error hj hk hscope' =>
      exact .error ((bind_of_ok hx).trans hj) ((bind_of_ok hy).trans hk) (hscope.trans hscope')
  | error hx hy hscope => exact .error (bind_of_error hx) (bind_of_error hy) (hscope.widen hfree)

theorem bind (h : d.Goes track free post x y)
    (hnext : ∀ a e, d.Leads track free e → (track → post a e.spot.value) →
      e.Goes track free post' (j a) (k a))
    : d.Goes track free post' (x >>= j) (y >>= k) :=
  bindFreer id h hnext

theorem within {free' : Prop} {enter leave : Scope → Scope} (h : track → d.Apart)
    (hstep : (d.within (enter d.scope)).Goes track free' post x y)
    (hback : ∀ inner, (enter d.scope).Over free' inner → leave inner = d.scope)
    : d.Goes track free post (Lower.within enter leave x) (Lower.within enter leave y) := by
  have herror : ∀ {z : Lower α} {error : CompileError} {e : Draft},
      z (d.within (enter d.scope)) = .error error e →
        Lower.within enter leave z d = .error error (e.within (leave e.scope)) := by
    intro z error e hz
    unfold Draft.within Draft.scope at hz ⊢
    simp only [Lower.within, hz]
  have hover : ∀ {e : Draft}, (enter d.scope).Over free' e.scope →
      d.scope.Over free (e.within (leave e.scope)).scope := by
    intro e he
    rw [within_scope, hback _ he]
    exact .refl _
  cases hstep with
  | @ok a e hx hy hleads hpost =>
    refine .ok (Lower.within_ok.2 ⟨_, hx, rfl⟩) (Lower.within_ok.2 ⟨_, hy, rfl⟩)
      ⟨hover hleads.scope, hleads.value, fun htrack => ?_⟩ hpost
    exact (h htrack).of_scope_eq (hback _ hleads.scope) hleads.value
  | error hx hy hscope => exact .error (herror hx) (herror hy) (hover hscope)

end Goes

end Draft

namespace Builder

theorem currentBlock_scope (b : Builder) : b.currentBlock.2.scope = b.scope := by
  unfold currentBlock
  split <;> rfl

theorem currentBlock_nextValue (b : Builder) : b.currentBlock.2.nextValue = b.nextValue := by
  unfold currentBlock
  split <;> rfl

theorem add_scope (b : Builder) (command : Command) (span : Span)
    : (b.add command span).2.scope = b.scope :=
  currentBlock_scope _

theorem add_nextValue (b : Builder) (command : Command) (span : Span)
    : (b.add command span).2.nextValue = b.nextValue + 1 :=
  currentBlock_nextValue _

end Builder

namespace Lower

open Draft

variable {track free : Prop} {d : Draft}

section

variable (h : track → d.Apart)

include h

theorem goes_build {α : Type} {f : Builder → α × Builder} {post : α → ValueId → Prop}
    (hscope : (f d.builder).2.scope = d.builder.scope)
    (hvalue : d.builder.nextValue ≤ (f d.builder).2.nextValue)
    (hpost : post (f d.builder).1 (f d.builder).2.nextValue)
    : d.Goes track free post (build f) (build f) :=
  .ok rfl rfl ⟨⟨[], hscope, .inl rfl⟩, hvalue,
    fun htrack => (h htrack).of_scope_eq hscope hvalue⟩ fun _ => hpost

theorem goes_newBlock : d.Goes track free (fun _ _ => True) newBlock newBlock :=
  goes_build h rfl (Nat.le_refl _) trivial

theorem goes_goTo (b : BlockId) : d.Goes track free (fun _ _ => True) (goTo b) (goTo b) :=
  goes_build h rfl (Nat.le_refl _) trivial

theorem goes_perform (effect : Effect) (span : Span)
    : d.Goes track free (fun id n => d.spot.value ≤ id ∧ id < n) (perform effect span)
        (perform effect span) := by
  have hnext := d.builder.add_nextValue (.effect effect) span
  refine goes_build h (d.builder.add_scope _ span) ?_ ⟨Nat.le_refl _, ?_⟩
  . rw [hnext]
    exact Nat.le_succ _
  . rw [hnext]
    exact Nat.lt_succ_self _

theorem goes_leave (transfer : Transfer) (span : Span)
    : d.Goes track free (fun _ _ => True) (leave transfer span) (leave transfer span) := by
  refine .bind (goes_build h (d.builder.add_scope _ span) ?_ trivial
    : d.Goes track free (fun _ _ => True) _ _) fun _ e he _ => .pure he.apart fun _ => trivial
  rw [d.builder.add_nextValue]
  exact Nat.le_succ _

theorem goes_scope
    : d.Goes track free (fun scope _ => scope = d.scope) scope scope :=
  .ok rfl rfl (.refl h) fun _ => rfl

theorem goes_bindLocal (name : String) (id : ValueId)
    (hid : track → id ∉ d.scope.locals.map (·.2) ∧ id < d.spot.value)
    : d.Goes track True (fun _ _ => True) (bindLocal name id) (bindLocal name id) := by
  refine .ok rfl rfl ⟨.bind d.scope name id, Nat.le_refl _, fun htrack => ?_⟩ fun _ => trivial
  constructor
  . exact List.nodup_cons.2 ⟨(hid htrack).1, (h htrack).nodup⟩
  . exact List.forall_mem_cons.2 ⟨(hid htrack).2, (h htrack).given⟩

end

theorem goes_newBlocks {α : Type} (l : List α) (h : track → d.Apart)
    : d.Goes track free (fun _ _ => True) (newBlocks l) (newBlocks l) := by
  induction l generalizing d with
  | nil => exact .pure h fun _ => trivial
  | cons a l ih =>
    refine .bind (goes_newBlock h) fun b e he _ => ?_
    exact .bind (ih he.apart) fun bs e he _ => .pure he.apart fun _ => trivial

theorem goes_enter (b : BlockId) (span : Span) (h : track → d.Apart)
    : d.Goes track free (fun id n => d.spot.value ≤ id ∧ id < n) (enter b span) (enter b span) :=
  .bind (goes_goTo h b) fun _ _ he _ => (goes_perform he.apart _ span).mono
    fun _ _ hid => ⟨Nat.le_trans he.value hid.1, hid.2⟩

theorem goes_performValue (effect : Effect) (span : Span) (h : track → d.Apart)
    : d.Goes track free Lowered.Given (performValue effect span)
        (performValue effect span) :=
  .bind (goes_perform h effect span) fun _ _ he hid => .pure he.apart fun htrack => (hid htrack).2

theorem goes_meetAt (b : BlockId) (span : Span) (h : track → d.Apart)
    : d.Goes track free Lowered.Given (meetAt b span) (meetAt b span) :=
  .bind (goes_enter b span h) fun _ _ he hid => .pure he.apart fun htrack => (hid htrack).2

theorem goes_meetIf (live : Bool) (b : BlockId) (span : Span) (h : track → d.Apart)
    : d.Goes track free Lowered.Given (meetIf live b span)
        (meetIf live b span) := by
  cases live with
  | true => exact goes_meetAt b span h
  | false => exact .pure h fun _ => trivial

theorem goes_performEach (effect : BlockId → Effect) (span : Span) (blocks : List BlockId)
    (h : track → d.Apart)
    : d.Goes track free (fun _ _ => True) (performEach effect span blocks)
        (performEach effect span blocks) := by
  induction blocks generalizing d with
  | nil => exact .pure h fun _ => trivial
  | cons block blocks ih => exact .bind (goes_perform h _ span) fun _ _ he _ => ih he.apart

theorem goes_handOver (lowered : Lowered) (pops : List BlockId) (target : BlockId) (span : Span)
    (h : track → d.Apart)
    : d.Goes track free (fun _ _ => True) (handOver lowered pops target span)
        (handOver lowered pops target span) := by
  cases lowered with
  | terminated => exact .pure h fun _ => trivial
  | value operand =>
    refine .bind (goes_performEach .popHandler span pops h) fun _ e he _ => ?_
    exact .bind (goes_leave he.apart _ span) fun _ _ he _ => .pure he.apart fun _ => trivial

theorem goes_finishWith (options : CompileOptions) (value : Operand) (span : Span)
    (h : track → d.Apart)
    : d.Goes track free (fun _ _ => True) (finishWith options value span)
        (finishWith options value span) := by
  unfold finishWith
  cases options.terminators.returnHandler? with
  | none => exact goes_leave h _ span
  | some handler =>
    refine .bind (goes_newBlock h) fun resume e he _ => ?_
    refine .bind (goes_leave he.apart _ span) fun _ e he _ => ?_
    exact .bind (goes_enter resume span he.apart) fun _ _ he _ => goes_leave he.apart _ span

def AllGo (track : Prop) (lower lower' : Form → Lower Lowered) : Prop :=
  ∀ (form : Form) (free : Prop) (d : Draft), (track → d.Apart) →
    d.Goes track free Lowered.Given (lower form) (lower' form)

variable {lower lower' : Form → Lower Lowered}

theorem goes_andThen {x y : Lower Lowered} {j k : Operand → Lower Lowered}
    (h : d.Goes track free Lowered.Given x y)
    (hnext : ∀ (operand : Operand) (e : Draft), d.Leads track free e →
      (track → (Lowered.value operand).Given e.spot.value) →
        e.Goes track free Lowered.Given (j operand) (k operand))
    : d.Goes track free Lowered.Given (andThen x j) (andThen y k) := by
  refine .bind h fun lowered e he hgiven => ?_
  cases lowered with
  | value operand => exact hnext operand e he hgiven
  | terminated => exact .pure he.apart fun _ => trivial

theorem goes_sequence (hlower : AllGo track lower lower') (last : Operand) (forms : List Form)
    (h : track → d.Apart) (hlast : track → (Lowered.value last).Given d.spot.value)
    : d.Goes track free Lowered.Given (sequence lower last forms) (sequence lower' last forms) := by
  induction forms generalizing d last with
  | nil => exact .pure h hlast
  | cons form rest ih =>
    exact goes_andThen (hlower form free d h) fun operand _ he hgiven => ih operand he.apart hgiven

theorem goes_body (hlower : AllGo track lower lower') (forms : List Form) (h : track → d.Apart)
    : d.Goes track free Lowered.Given (body lower forms) (body lower' forms) :=
  goes_sequence hlower _ forms h fun _ => trivial

theorem goes_operands (hlower : AllGo track lower lower') (forms : List Form)
    (h : track → d.Apart)
    : d.Goes track free (fun _ _ => True) (operands lower forms) (operands lower' forms) := by
  induction forms generalizing d with
  | nil => exact .pure h fun _ => trivial
  | cons form rest ih =>
    refine .bind (hlower form free d h) fun lowered e he _ => ?_
    cases lowered with
    | terminated => exact .pure he.apart fun _ => trivial
    | value operand =>
      refine .bind (ih he.apart) fun more e he _ => ?_
      cases more <;> exact .pure he.apart fun _ => trivial

theorem goes_withOperands {j k : List Operand → Lower Lowered} (hlower : AllGo track lower lower')
    (forms : List Form) (h : track → d.Apart)
    (hnext : ∀ (os : List Operand) (e : Draft), (track → e.Apart) →
      e.Goes track free Lowered.Given (j os) (k os))
    : d.Goes track free Lowered.Given (withOperands lower forms j)
        (withOperands lower' forms k) := by
  refine .bind (goes_operands hlower forms h) fun r e he _ => ?_
  cases r with
  | some os => exact hnext os e he.apart
  | none => exact .pure he.apart fun _ => trivial

theorem goes_withLocals {α : Type} {post : α → ValueId → Prop} {x y : Lower α}
    (h : track → d.Apart) (hstep : d.Goes track True post x y)
    : d.Goes track free post (withLocals x) (withLocals y) := by
  have hwithin : d.Goes track free post (within id (·.keepLocals d.scope.locals.length) x)
      (within id (·.keepLocals d.scope.locals.length) y) :=
    .within h hstep fun _ hinner => hinner.keepLocals
  cases hwithin with
  | ok hx hy hleads hpost => exact .ok hx hy hleads hpost
  | error hx hy hscope => exact .error hx hy hscope

theorem goes_inside {α : Type} {post : α → ValueId → Prop} {enter leave : Scope → Scope}
    {x y : Lower α} (h : track → d.Apart) (hlocals : (enter d.scope).locals = d.scope.locals)
    (hback : leave (enter d.scope) = d.scope)
    (hstep : ∀ e : Draft, (track → e.Apart) → e.Goes track False post x y)
    : d.Goes track free post (within enter leave x) (within enter leave y) := by
  refine .within h (hstep _ fun htrack => ?_) fun inner hinner => hinner.eq ▸ hback
  exact ⟨by simpa [hlocals] using (h htrack).nodup, by simpa [hlocals] using (h htrack).given⟩

theorem goes_withLoop {α : Type} {post : α → ValueId → Prop} (point : LoopPoint) {x y : Lower α}
    (h : track → d.Apart) (hstep : ∀ e : Draft, (track → e.Apart) → e.Goes track False post x y)
    : d.Goes track free post (withLoop point x) (withLoop point y) :=
  goes_inside h rfl rfl hstep

theorem goes_withFinally {α : Type} {post : α → ValueId → Prop} (block : BlockId) {x y : Lower α}
    (h : track → d.Apart) (hstep : ∀ e : Draft, (track → e.Apart) → e.Goes track False post x y)
    : d.Goes track free post (withFinally block x) (withFinally block y) :=
  goes_inside h rfl rfl hstep

theorem goes_withCatch {α : Type} {post : α → ValueId → Prop} (handler : Option BlockId)
    {x y : Lower α} (h : track → d.Apart)
    (hstep : ∀ (free : Prop) (e : Draft), (track → e.Apart) → e.Goes track free post x y)
    : d.Goes track free post (withCatch handler x) (withCatch handler y) := by
  unfold withCatch
  cases handler with
  | none => exact hstep free d h
  | some block => exact goes_inside h rfl rfl (hstep False)

theorem goes_arms (hlower : AllGo track lower lower') (meet : BlockId) (span : Span)
    (arms : List (Option Form × BlockId)) (h : track → d.Apart)
    : d.Goes track free (fun _ _ => True) (Lower.arms lower meet span arms)
        (Lower.arms lower' meet span arms) := by
  induction arms generalizing d with
  | nil => exact .pure h fun _ => trivial
  | cons entry arms ih =>
    obtain ⟨form, block⟩ := entry
    refine .bind (goes_goTo h block) fun _ e he _ => ?_
    refine .bind (?_ : e.Goes track free (fun _ _ => True) _ _) fun here e he _ =>
      .bind (ih he.apart) fun _ _ he _ => .pure he.apart fun _ => trivial
    rw [arm_eq, arm_eq]
    exact .bind (goes_body hlower _ he.apart) fun lowered _ he _ =>
      goes_handOver lowered [] meet span he.apart

theorem goes_choose (hlower : AllGo track lower lower') (test yes : Form) (no : Option Form)
    (span : Span) (h : track → d.Apart)
    : d.Goes track free Lowered.Given (choose lower test yes no span)
        (choose lower' test yes no span) := by
  refine goes_andThen (hlower test free d h) fun operand e he _ => ?_
  refine .bind (goes_newBlock he.apart) fun yesBlock e he _ => ?_
  refine .bind (goes_newBlock he.apart) fun noBlock e he _ => ?_
  refine .bind (goes_newBlock he.apart) fun meet e he _ => ?_
  refine .bind (goes_leave he.apart _ span) fun _ e he _ => ?_
  exact .bind (goes_arms hlower meet span _ he.apart) fun live _ he _ =>
    goes_meetIf live meet span he.apart

theorem goes_ifForm (hlower : AllGo track lower lower') (args : List Form) (span : Span)
    (h : track → d.Apart)
    : d.Goes track free Lowered.Given (ifForm lower args span) (ifForm lower' args span) := by
  unfold ifForm
  split
  . exact goes_choose hlower _ _ _ span h
  . exact goes_choose hlower _ _ _ span h
  . exact .malformed ..

theorem goes_caseForm (hlower : AllGo track lower lower') (args : List Form) (span : Span)
    (h : track → d.Apart)
    : d.Goes track free Lowered.Given (caseForm lower args span) (caseForm lower' args span) := by
  cases args with
  | nil => exact .malformed ..
  | cons value rest =>
    refine goes_andThen (hlower value free d h) fun operand e he _ => ?_
    refine .bind (goes_newBlocks _ he.apart) fun blocks e he _ => ?_
    refine .bind (goes_newBlocks _ he.apart) fun fallbacks e he _ => ?_
    refine .bind (goes_newBlock he.apart) fun meet e he _ => ?_
    refine .bind (goes_leave he.apart _ span) fun _ e he _ => ?_
    exact .bind (goes_arms hlower meet span _ he.apart) fun live _ he _ =>
      goes_meetIf live meet span he.apart

theorem goes_callForm (hlower : AllGo track lower lower') (head : Form) (args : List Form)
    (span : Span) (h : track → d.Apart)
    : d.Goes track free Lowered.Given (callForm lower head args span)
        (callForm lower' head args span) :=
  goes_andThen (hlower head free d h) fun _ _ he _ =>
    goes_withOperands hlower args he.apart fun _ _ he => goes_performValue _ span he

theorem goes_globalCall (hlower : AllGo track lower lower') (name : String) (args : List Form)
    (span : Span) (h : track → d.Apart)
    : d.Goes track free Lowered.Given (globalCall lower name args span)
        (globalCall lower' name args span) :=
  goes_withOperands hlower args h fun _ _ he => goes_performValue _ span he

theorem goes_suspendCall (hlower : AllGo track lower lower') (handler : String) (args : List Form)
    (span : Span) (h : track → d.Apart)
    : d.Goes track free Lowered.Given (suspendCall lower handler args span)
        (suspendCall lower' handler args span) := by
  refine goes_withOperands hlower args h fun os e he => ?_
  refine .bind (goes_newBlock he) fun resume e he _ => ?_
  exact .bind (goes_leave he.apart _ span) fun _ _ he _ => goes_meetAt resume span he.apart

theorem goes_returnForm (options : CompileOptions) (hlower : AllGo track lower lower')
    (args : List Form) (span : Span) (h : track → d.Apart)
    : d.Goes track free Lowered.Given (returnForm options lower args span)
        (returnForm options lower' args span) := by
  unfold returnForm
  split
  . exact .bind (goes_finishWith options _ span h) fun _ _ he _ => .pure he.apart fun _ => trivial
  . next form =>
    refine goes_andThen (hlower form free d h) fun value e he _ => ?_
    exact .bind (goes_finishWith options value span he.apart) fun _ _ he _ =>
      .pure he.apart fun _ => trivial
  . exact .malformed ..

def Looks {α : Type} (x : Lower α) : Prop :=
  ∀ d : Draft, (∃ a, x d = .ok a d) ∨ ∃ error, x d = .error error d

theorem Looks.goes {α : Type} {x : Lower α} (hlooks : Looks x) (h : track → d.Apart)
    : d.Goes track free (fun _ _ => True) x x := by
  rcases hlooks d with ⟨a, hx⟩ | ⟨error, hx⟩
  . exact .ok hx hx (.refl h) fun _ => trivial
  . exact .error hx hx (.refl _)

theorem Looks.bind {α β : Type} {x : Lower α} {k : α → Lower β} (hx : Looks x)
    (hk : ∀ a, Looks (k a))
    : Looks (x >>= k) := by
  intro d
  rcases hx d with ⟨a, hx⟩ | ⟨error, hx⟩
  . rw [bind_of_ok hx]
    exact hk a d
  . exact .inr ⟨error, bind_of_error hx⟩

theorem Looks.pure {α : Type} (a : α) : Looks (Pure.pure a : Lower α) :=
  fun _ => .inl ⟨a, rfl⟩

theorem Looks.throw {α : Type} (error : CompileError)
    : Looks (MonadExcept.throw error : Lower α) :=
  fun _ => .inr ⟨error, rfl⟩

theorem looks_expectSymbol (form : Form) (owner what : String)
    : Looks (expectSymbol form owner what) := by
  unfold expectSymbol
  cases form.symbol? with
  | some name => exact .pure name
  | none => exact .throw _

theorem looks_bindingPairs (owner : String) (items : List Form)
    : Looks (bindingPairs owner items) := by
  induction items using bindingPairs.induct with
  | case1 name init rest ih =>
    unfold bindingPairs
    exact (looks_expectSymbol name owner _).bind fun _ => ih.bind fun _ => .pure _
  | case2 items hshort =>
    rcases items with _ | ⟨name, _ | ⟨init, rest⟩⟩
    . exact .pure _
    . exact .pure _
    . exact absurd rfl (hshort name init rest)

theorem looks_bindings (owner : String) (form : Form) : Looks (bindings owner form) := by
  unfold bindings
  cases form.vector? with
  | none => exact .throw _
  | some items =>
    by_cases hodd : items.length % 2 ≠ 0
    . simp only [if_pos hodd]
      exact .throw _
    . simp only [if_neg hodd]
      exact looks_bindingPairs owner items

theorem looks_parameterNames (items : List Form) : Looks (parameterNames items) := by
  induction items with
  | nil => exact .pure _
  | cons form rest ih =>
    exact (looks_expectSymbol form "fn" _).bind fun _ => ih.bind fun _ => .pure _

theorem looks_ofExcept {α : Type} (x : Except CompileError α) : Looks (ofExcept x) := by
  cases x with
  | ok a => exact .pure a
  | error error => exact .throw error

theorem goes_ownResult (operand : Operand) (span : Span) (h : track → d.Apart)
    (hgiven : track → (Lowered.value operand).Given d.spot.value)
    : d.Goes track free (fun id n => id ∉ d.scope.locals.map (·.2) ∧ id < n)
        (ownResult operand span) (ownResult operand span) := by
  have hcopy : ∀ operand : Operand, d.Goes track free
      (fun id n => id ∉ d.scope.locals.map (·.2) ∧ id < n)
      (perform (.const operand) span) (perform (.const operand) span) := by
    intro operand
    cases @goes_perform track free d h (.const operand) span with
    | error hx hy hscope => exact .error hx hy hscope
    | ok hx hy hleads hid =>
      refine .ok hx hy hleads fun htrack => ⟨fun hmem => ?_, (hid htrack).2⟩
      obtain ⟨entry, hentry, rfl⟩ := List.mem_map.1 hmem
      exact absurd ((h htrack).given entry hentry) (Nat.not_lt.2 (hid htrack).1)
  cases operand with
  | result id =>
    cases hbinds : d.scope.binds id with
    | true =>
      have hown : ownResult (.result id) span d = perform (.const (.result id)) span d := by
        refine (bind_of_ok (scope_ok.2 ⟨rfl, rfl⟩)).trans ?_
        rw [if_pos hbinds]
      cases hcopy (.result id) with
      | ok hx hy hleads hid => exact .ok (hown.trans hx) (hown.trans hy) hleads hid
      | error hx hy hscope => exact .error (hown.trans hx) (hown.trans hy) hscope
    | false =>
      have hown : ownResult (.result id) span d = .ok id d := by
        refine (bind_of_ok (scope_ok.2 ⟨rfl, rfl⟩)).trans ?_
        rw [hbinds]
        rfl
      refine .ok hown hown (.refl h) fun htrack => ⟨fun hmem => ?_, hgiven htrack⟩
      obtain ⟨entry, hentry, rfl⟩ := List.mem_map.1 hmem
      simpa using List.any_eq_false.1 hbinds entry hentry
  | global | literal | pending => exact hcopy _

theorem goes_bindAll (hlower : AllGo track lower lower') (forms : List Form)
    (pairs : List (String × Form)) (h : track → d.Apart)
    : d.Goes track True Lowered.Given (bindAll lower forms pairs)
        (bindAll lower' forms pairs) := by
  induction pairs generalizing d with
  | nil => exact goes_body hlower forms h
  | cons pair pairs ih =>
    refine goes_andThen (hlower pair.2 True d h) fun operand e he hgiven => ?_
    refine .bindFreer (False.elim) (goes_ownResult operand _ he.apart hgiven) fun id e he hid => ?_
    rw [← he.scope.eq] at hid
    exact .bind (goes_bindLocal he.apart pair.1 id hid) fun _ _ he _ => ih he.apart

theorem goes_letForm (hlower : AllGo track lower lower') (args : List Form) (span : Span)
    (h : track → d.Apart)
    : d.Goes track free Lowered.Given (letForm lower args span) (letForm lower' args span) := by
  cases args with
  | nil => exact .malformed ..
  | cons first forms =>
    refine .bind ((looks_bindings "let" first).goes h) fun pairs e he _ => ?_
    exact goes_withLocals he.apart (goes_bindAll hlower forms pairs he.apart)

theorem goes_copyAll (pairs : List (Operand × Form)) (h : track → d.Apart)
    : d.Goes track free (fun ids n => ids.Nodup ∧ ∀ id ∈ ids, d.spot.value ≤ id ∧ id < n)
        (copyAll pairs) (copyAll pairs) := by
  induction pairs generalizing d with
  | nil => exact .pure h fun _ => ⟨.nil, nofun⟩
  | cons pair pairs ih =>
    refine .bind (goes_perform h _ _) fun id e he hid => ?_
    refine .bind (ih he.apart) fun ids f hf hids => .pure hf.apart fun htrack => ?_
    obtain ⟨hlow, hhigh⟩ := hid htrack
    obtain ⟨hnodup, hbounds⟩ := hids htrack
    refine ⟨List.nodup_cons.2 ⟨fun hmem => ?_, hnodup⟩, List.forall_mem_cons.2 ⟨⟨hlow, ?_⟩, ?_⟩⟩
    . exact absurd hhigh (Nat.not_lt.2 (hbounds id hmem).1)
    . exact Nat.lt_of_lt_of_le hhigh hf.value
    . exact fun id' hid' => ⟨Nat.le_trans he.value (hbounds id' hid').1, (hbounds id' hid').2⟩

theorem nodup_zip_snd {names : List String} {ids : List ValueId} (h : ids.Nodup)
    : ((names.zip ids).map (·.2)).Nodup := by
  induction names generalizing ids with
  | nil => exact .nil
  | cons name names ih =>
    cases ids with
    | nil => exact .nil
    | cons id ids =>
      obtain ⟨hfirst, hrest⟩ := List.nodup_cons.1 h
      refine List.nodup_cons.2 ⟨fun hmem => hfirst ?_, ih hrest⟩
      obtain ⟨entry, hentry, rfl⟩ := List.mem_map.1 hmem
      exact (List.of_mem_zip hentry).2

theorem goes_bindLocals (pairs : List (String × ValueId)) (h : track → d.Apart)
    (hids : track → (pairs.map (·.2)).Nodup ∧ ∀ id ∈ pairs.map (·.2),
      (∀ entry ∈ d.scope.locals, entry.2 < id) ∧ id < d.spot.value)
    : d.Goes track True (fun _ _ => True) (bindLocals pairs) (bindLocals pairs) := by
  refine .ok (bindLocals_ok (a := ()).2 rfl) (bindLocals_ok.2 rfl)
    ⟨⟨pairs.reverse, rfl, .inr trivial⟩, Nat.le_refl _, fun htrack => ?_⟩ fun _ => trivial
  obtain ⟨hnodup, hids⟩ := hids htrack
  constructor
  . simp only [within_scope, Scope.bindAll, List.map_append, List.map_reverse]
    refine List.nodup_append.2 ⟨List.pairwise_reverse.2 (hnodup.imp Ne.symm), (h htrack).nodup, ?_⟩
    intro id hid other hother
    obtain ⟨entry, hentry, rfl⟩ := List.mem_map.1 hother
    exact Nat.ne_of_gt ((hids _ (List.mem_reverse.1 hid)).1 entry hentry)
  . intro entry hentry
    rcases List.mem_append.1 hentry with hentry | hentry
    . exact (hids _ (List.mem_map_of_mem (List.mem_reverse.1 hentry))).2
    . exact (h htrack).given entry hentry

theorem goes_loopOver (hlower : AllGo track lower lower') (pairs : List (String × Form))
    (forms : List Form) (span : Span) (h : track → d.Apart)
    : d.Goes track free Lowered.Given (loopOver lower pairs forms span)
        (loopOver lower' pairs forms span) := by
  refine goes_withOperands hlower _ h fun operands e he => ?_
  refine .bindFreer False.elim (goes_copyAll _ he) fun carried e₁ h₁ hcarried => ?_
  refine .bindFreer False.elim (goes_newBlock h₁.apart) fun header e₂ h₂ _ => ?_
  refine .bindFreer False.elim (goes_leave h₂.apart _ span) fun _ e₃ h₃ _ => ?_
  refine .bindFreer False.elim (goes_goTo h₃.apart header) fun _ e₄ h₄ _ => ?_
  refine .bindFreer False.elim (goes_scope h₄.apart) fun scope e₅ h₅ _ => ?_
  have hover := h₁.scope.trans (h₂.scope.trans (h₃.scope.trans (h₄.scope.trans h₅.scope)))
  have hvalue := Nat.le_trans h₂.value (Nat.le_trans h₃.value (Nat.le_trans h₄.value h₅.value))
  have hids : track → (((pairs.map (·.1)).zip carried).map (·.2)).Nodup ∧
      ∀ id ∈ ((pairs.map (·.1)).zip carried).map (·.2),
        (∀ entry ∈ e₅.scope.locals, entry.2 < id) ∧ id < e₅.spot.value := by
    intro htrack
    obtain ⟨hnodup, hbounds⟩ := hcarried htrack
    rw [hover.eq]
    refine ⟨nodup_zip_snd hnodup, fun id hid => ?_⟩
    obtain ⟨entry, hentry, rfl⟩ := List.mem_map.1 hid
    obtain ⟨hlow, hhigh⟩ := hbounds _ (List.of_mem_zip hentry).2
    exact ⟨fun other hother => Nat.lt_of_lt_of_le ((he htrack).given other hother) hlow,
      Nat.lt_of_lt_of_le hhigh hvalue⟩
  have hround := Goes.bind (goes_bindLocals _ h₅.apart hids) fun _ e he _ =>
    goes_withLoop ⟨header, scope.tryDepth, carried⟩ he.apart fun e he =>
      goes_body hlower forms he
  refine .bind (goes_withLocals h₅.apart hround) fun lowered e he _ => ?_
  cases lowered with
  | terminated => exact .pure he.apart fun _ => trivial
  | value operand =>
    refine .bind (goes_newBlock he.apart) fun exit e he _ => ?_
    exact .bind (goes_leave he.apart _ span) fun _ _ he _ => goes_meetAt exit span he.apart

theorem goes_loopForm (hlower : AllGo track lower lower') (args : List Form) (span : Span)
    (h : track → d.Apart)
    : d.Goes track free Lowered.Given (loopForm lower args span) (loopForm lower' args span) := by
  cases args with
  | nil => exact .malformed ..
  | cons first forms =>
    refine .bind ((looks_bindings "loop" first).goes h) fun pairs e he _ => ?_
    exact goes_loopOver hlower pairs forms span he.apart

theorem goes_recurForm (hlower : AllGo track lower lower') (args : List Form) (span : Span)
    (h : track → d.Apart)
    : d.Goes track free Lowered.Given (recurForm lower args span)
        (recurForm lower' args span) := by
  refine .bind (goes_scope h) fun scope e he _ => ?_
  cases scope.loops with
  | nil => exact .throw _
  | cons point outer =>
    simp only
    by_cases hdepth : point.tryDepth ≠ scope.tryDepth
    . simp only [if_pos hdepth]
      exact .throw _
    . by_cases hlength : point.carried.length ≠ args.length
      . simp only [if_neg hdepth, if_pos hlength]
        exact .throw _
      . simp only [if_neg hdepth, if_neg hlength]
        refine goes_withOperands hlower args he.apart fun os e he => ?_
        refine .bind (goes_perform he _ span) fun _ e he _ => ?_
        exact .bind (goes_leave he.apart _ span) fun _ _ he _ => .pure he.apart fun _ => trivial

theorem goes_makeLambda (options : CompileOptions) (name : Option String) (rest : List Form)
    (span : Span) (h : track → d.Apart)
    : d.Goes track free Lowered.Given (makeLambda options name rest span)
        (makeLambda options name rest span) := by
  cases rest with
  | nil => exact .malformed ..
  | cons params body =>
    unfold makeLambda
    simp only
    cases params.vector? with
    | none => exact .malformed ..
    | some items =>
      refine .bind ((looks_parameterNames items).goes h) fun names e he _ => ?_
      exact .bind (goes_scope he.apart) fun _ _ he _ => goes_performValue _ span he.apart

theorem goes_fnForm (options : CompileOptions) (args : List Form) (span : Span)
    (h : track → d.Apart)
    : d.Goes track free Lowered.Given (fnForm options args span) (fnForm options args span) := by
  unfold fnForm
  split <;> exact goes_makeLambda options _ _ span h

theorem goes_memberForm (hlower : AllGo track lower lower') (accessor : List Char)
    (args : List Form) (span : Span) (h : track → d.Apart)
    : d.Goes track free Lowered.Given (memberForm lower accessor args span)
        (memberForm lower' accessor args span) := by
  unfold memberForm
  split
  . exact .malformed ..
  . split
    . exact .malformed ..
    . next target =>
      exact goes_andThen (hlower target free d h) fun _ _ he _ =>
        goes_performValue _ span he.apart
    . exact .malformed ..
  . split
    . exact .malformed ..
    . next target rest =>
      exact goes_andThen (hlower target free d h) fun _ _ he _ =>
        goes_withOperands hlower rest he.apart fun _ _ he => goes_performValue _ span he

theorem goes_setForm (hlower : AllGo track lower lower') (args : List Form) (span : Span)
    (h : track → d.Apart)
    : d.Goes track free Lowered.Given (setForm lower args span) (setForm lower' args span) := by
  unfold setForm
  split
  . next name span' value =>
    refine .bind (goes_scope h) fun scope e he _ => ?_
    cases scope.find? name <;>
      exact goes_andThen (hlower value free e he.apart) fun _ _ he _ =>
        goes_performValue _ span he.apart
  . next place value _ =>
    cases fieldPlace? place with
    | none => exact .malformed ..
    | some entry =>
      refine goes_andThen (hlower entry.2 free d h) fun object e he _ => ?_
      exact goes_andThen (hlower value free e he.apart) fun _ _ he _ =>
        goes_performValue _ span he.apart
  . exact .malformed ..

end Lower

end Resumable
