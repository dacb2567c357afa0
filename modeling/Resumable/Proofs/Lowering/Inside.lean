import Resumable.Proofs.Lowering.Forms
import Resumable.Proofs.Source.Form

/-!
This module contains which forms the lowering of a core form looks at: forms inside of it only. Two
ways of lowering forms that come to the same inside of a core form come to the same for the core
form. At the same time it is kept track of which errors there can be: those of the forms inside, and
those of the rules themselves, which are not about expansion.
-/

namespace Resumable

def CompileError.IsExpansion : CompileError → Prop
  | .expansion _ _ => True
  | _ => False

theorem Bindings.mem {items : List Form} {pairs : List (String × Form)} (h : Bindings items pairs)
    : ∀ pair ∈ pairs, pair.2 ∈ items := by
  induction h with
  | nil => simp
  | cons _ _ ih =>
    rintro pair (_ | ⟨_, hpair⟩)
    . exact List.mem_cons_of_mem _ (List.mem_cons_self ..)
    . exact List.mem_cons_of_mem _ (List.mem_cons_of_mem _ (ih pair hpair))

theorem Lower.mem_caseClauses {rest : List Form} {clauses : List (Form × Form)}
    {fallback : Option Form} (h : caseClauses rest = (clauses, fallback))
    : (∀ clause ∈ clauses, clause.2 ∈ rest) ∧ ∀ form ∈ fallback, form ∈ rest := by
  induction rest using caseClauses.induct generalizing clauses with
  | case1 =>
    cases h
    simp
  | case2 form =>
    cases h
    simp
  | case3 test arm rest more fallback hrest ih =>
    simp only [caseClauses, hrest, Prod.mk.injEq] at h
    obtain ⟨rfl, rfl⟩ := h
    obtain ⟨hclauses, hfallback⟩ := ih hrest
    refine ⟨List.forall_mem_cons.2 ⟨?_, fun clause hclause => ?_⟩, fun form hform => ?_⟩
    . exact List.mem_cons_of_mem _ (List.mem_cons_self ..)
    . exact List.mem_cons_of_mem _ (List.mem_cons_of_mem _ (hclauses clause hclause))
    . exact List.mem_cons_of_mem _ (List.mem_cons_of_mem _ (hfallback form hform))

def Yields {α : Type} (post : α → Prop) : Except CompileError α → Prop
  | .ok a => post a
  | .error error => ¬ error.IsExpansion

theorem Yields.bind {α β : Type} {post : α → Prop} {post' : β → Prop} {x : Except CompileError α}
    {k : α → Except CompileError β} (h : Yields post x) (hk : ∀ a, post a → Yields post' (k a))
    : Yields post' (x >>= k) := by
  cases x with
  | ok a => exact hk a h
  | error error => exact h

namespace TryParts

def ClausesWithin (forms : List Form) (catches : List CatchClause) (last : Option (List Form)) :
    Prop :=
  (∀ clause ∈ catches, ∀ form ∈ clause.body, form.Within forms) ∧
    ∀ body ∈ last, ∀ form ∈ body, form.Within forms

theorem ClausesWithin.mono {forms more : List Form} {catches : List CatchClause}
    {last : Option (List Form)} (h : ClausesWithin forms catches last) (hsub : forms ⊆ more)
    : ClausesWithin more catches last :=
  ⟨fun clause hclause form hform => (h.1 clause hclause form hform).mono hsub,
    fun body hbody form hform => (h.2 body hbody form hform).mono hsub⟩

theorem kind_catch {form : Form} {items : List Form} (h : kind form = .catchClause items)
    : ∃ place span, form = .list (.symbol "catch" place :: items) span := by
  unfold kind at h
  split at h
  . cases h
    exact ⟨_, _, rfl⟩
  . cases h
  . cases h

theorem kind_finally {form : Form} {items : List Form} (h : kind form = .finallyClause items)
    : ∃ place span, form = .list (.symbol "finally" place :: items) span := by
  unfold kind at h
  split at h
  . cases h
  . cases h
    exact ⟨_, _, rfl⟩
  . cases h

theorem yields_catchType (form : Form) : Yields (fun _ => True) (catchType form) := by
  unfold catchType
  split
  . trivial
  . trivial
  . trivial
  . exact id

theorem yields_readCatch (items : List Form) (span : Span)
    : Yields (fun clause => clause.body ⊆ items) (readCatch items span) := by
  unfold readCatch
  split
  . next type name body =>
    refine (yields_catchType type).bind fun type _ => ?_
    split
    . intro form hform
      exact List.mem_cons_of_mem _ (List.mem_cons_of_mem _ hform)
    . exact id
  . exact id

theorem yields_nothingAfterFinally (forms : List Form)
    : Yields (fun _ => True) (nothingAfterFinally forms) := by
  cases forms with
  | nil => trivial
  | cons form rest =>
    unfold nothingAfterFinally
    simp only
    split <;> exact id

theorem yields_clauses (forms : List Form)
    : Yields (fun (catches, last) => ClausesWithin forms catches last) (clauses forms) := by
  induction forms with
  | nil => exact ⟨by simp, by simp⟩
  | cons form rest ih =>
    have hitems : ∀ {head : Form} {items : List Form} {span : Span},
        form = .list (head :: items) span → ∀ inner ∈ items, inner.Within (form :: rest) := by
      rintro head items span rfl inner hinner
      exact .of_inside (.item (List.mem_cons_of_mem _ hinner)) (List.mem_cons_self ..)
    unfold clauses
    cases hkind : kind form with
    | ordinary => exact id
    | finallyClause items =>
      refine (yields_nothingAfterFinally rest).bind fun _ _ => ⟨by simp, ?_⟩
      obtain ⟨place, span, hform⟩ := kind_finally hkind
      rintro _ ⟨⟩ inner hinner
      exact hitems hform inner hinner
    | catchClause items =>
      refine (yields_readCatch items form.span).bind fun clause hclause => ?_
      refine ih.bind fun (more, last) hmore => ?_
      obtain ⟨place, span, hform⟩ := kind_catch hkind
      have hlater := hmore.mono (List.subset_cons_self form rest)
      exact ⟨List.forall_mem_cons.2 ⟨fun inner hinner => hitems hform inner (hclause hinner),
        hlater.1⟩, hlater.2⟩

theorem yields_ofForms (args : List Form)
    : Yields (fun parts => parts.body ⊆ args ∧ ClausesWithin args parts.catches parts.cleanup)
        (ofForms args) := by
  induction args with
  | nil => exact ⟨List.Subset.refl _, by simp, by simp⟩
  | cons form rest ih =>
    have hsub := List.subset_cons_self form rest
    have hclauses : Yields
        (fun parts : TryParts => parts.body ⊆ form :: rest ∧
          ClausesWithin (form :: rest) parts.catches parts.cleanup)
        (clauses (form :: rest) >>= fun (catches, last) =>
          .ok { body := [], catches := catches, cleanup := last }) :=
      (yields_clauses (form :: rest)).bind fun _ hclauses => ⟨List.nil_subset _, hclauses⟩
    unfold ofForms
    cases kind form with
    | ordinary =>
      refine ih.bind fun parts hparts => ⟨?_, hparts.2.mono hsub⟩
      exact List.cons_subset_cons form hparts.1
    | catchClause items => exact hclauses
    | finallyClause items => exact hclauses

end TryParts

namespace Lower

structure Matches {α : Type} (P : CompileError → Prop) (x y : Lower α) : Prop where
  same : x = y
  error {d e : Draft} {error : CompileError} : x d = .error error e → P error

variable {P : CompileError → Prop} {lower lower' : Form → Lower Lowered}

namespace Matches

variable {α β : Type} {x y : Lower α} {j k : α → Lower β}

theorem never (h : ∀ d, ∃ a e, x d = .ok a e) : Matches P x x := by
  refine ⟨rfl, fun {d e error} hx => ?_⟩
  obtain ⟨a, e', hok⟩ := h d
  rw [hok] at hx
  cases hx

theorem pure (a : α) : Matches P (Pure.pure a : Lower α) (Pure.pure a) :=
  never fun _ => ⟨_, _, rfl⟩

theorem throw {error : CompileError} (h : P error)
    : Matches P (MonadExcept.throw error : Lower α) (MonadExcept.throw error) := by
  refine ⟨rfl, fun herror => ?_⟩
  cases herror
  exact h

theorem bindOk (h : Matches P x y) (hk : ∀ a, (∃ d e, x d = .ok a e) → Matches P (j a) (k a))
    : Matches P (x >>= j) (y >>= k) := by
  obtain ⟨rfl, herror⟩ := h
  constructor
  . funext d
    cases hx : x d with
    | ok a e => rw [bind_of_ok hx, bind_of_ok hx, (hk a ⟨d, e, hx⟩).same]
    | error error e => rw [bind_of_error hx, bind_of_error hx]
  . intro d e error hbind
    cases hx : x d with
    | ok a e =>
      rw [bind_of_ok hx] at hbind
      exact (hk a ⟨d, e, hx⟩).error hbind
    | error error e =>
      rw [bind_of_error hx] at hbind
      cases hbind
      exact herror hx

theorem bind (h : Matches P x y) (hk : ∀ a, Matches P (j a) (k a))
    : Matches P (x >>= j) (y >>= k) :=
  h.bindOk fun a _ => hk a

theorem build (f : Builder → α × Builder) : Matches P (Lower.build f) (Lower.build f) :=
  never fun _ => ⟨_, _, rfl⟩

theorem within (enter leave : Scope → Scope) (h : Matches P x y)
    : Matches P (Lower.within enter leave x) (Lower.within enter leave y) := by
  obtain ⟨rfl, herror⟩ := h
  refine ⟨rfl, fun {d e error} hwithin => ?_⟩
  unfold Lower.within at hwithin
  simp only at hwithin
  split at hwithin
  . cases hwithin
  . next hx =>
    cases hwithin
    exact herror hx

theorem scope : Matches P Lower.scope Lower.scope :=
  never fun _ => ⟨_, _, rfl⟩

theorem perform (effect : Effect) (span : Span)
    : Matches P (Lower.perform effect span) (Lower.perform effect span) :=
  build _

theorem leave (transfer : Transfer) (span : Span)
    : Matches P (Lower.leave transfer span) (Lower.leave transfer span) :=
  never fun _ => ⟨_, _, rfl⟩

theorem performValue (effect : Effect) (span : Span)
    : Matches P (Lower.performValue effect span) (Lower.performValue effect span) :=
  never fun _ => ⟨_, _, rfl⟩

theorem enter (block : BlockId) (span : Span)
    : Matches P (Lower.enter block span) (Lower.enter block span) :=
  never fun _ => ⟨_, _, rfl⟩

theorem meetAt (block : BlockId) (span : Span)
    : Matches P (Lower.meetAt block span) (Lower.meetAt block span) :=
  never fun _ => ⟨_, _, rfl⟩

theorem meetIf (live : Bool) (block : BlockId) (span : Span)
    : Matches P (Lower.meetIf live block span) (Lower.meetIf live block span) := by
  cases live with
  | true => exact meetAt block span
  | false => exact pure _

theorem newBlocks (l : List α) : Matches P (Lower.newBlocks l) (Lower.newBlocks l) := by
  induction l with
  | nil => exact pure _
  | cons a l ih => exact bind (build _) fun _ => bind ih fun _ => pure _

theorem performEach (effect : BlockId → Effect) (span : Span) (blocks : List BlockId)
    : Matches P (Lower.performEach effect span blocks) (Lower.performEach effect span blocks) := by
  induction blocks with
  | nil => exact pure _
  | cons block blocks ih => exact bind (perform _ span) fun _ => ih

theorem handOver (lowered : Lowered) (pops : List BlockId) (target : BlockId) (span : Span)
    : Matches P (Lower.handOver lowered pops target span)
        (Lower.handOver lowered pops target span) := by
  cases lowered with
  | terminated => exact pure _
  | value operand =>
    exact bind (performEach _ span pops) fun _ => bind (leave _ span) fun _ => pure _

theorem finishWith (options : CompileOptions) (value : Operand) (span : Span)
    : Matches P (Lower.finishWith options value span) (Lower.finishWith options value span) := by
  unfold Lower.finishWith
  cases options.terminators.returnHandler? with
  | none => exact leave _ span
  | some handler =>
    exact bind (build _) fun resume => bind (leave _ span) fun _ =>
      bind (enter resume span) fun _ => leave _ span

theorem ownResult (operand : Operand) (span : Span)
    : Matches P (Lower.ownResult operand span) (Lower.ownResult operand span) := by
  cases operand with
  | result id =>
    refine bind scope fun scope => ?_
    split
    . exact perform _ span
    . exact pure _
  | _ => exact perform _ span

theorem copyAll (pairs : List (Operand × Form))
    : Matches P (Lower.copyAll pairs) (Lower.copyAll pairs) := by
  induction pairs with
  | nil => exact pure _
  | cons pair pairs ih => exact bind (perform _ _) fun _ => bind ih fun _ => pure _

theorem bindLocals (pairs : List (String × ValueId))
    : Matches P (Lower.bindLocals pairs) (Lower.bindLocals pairs) := by
  induction pairs with
  | nil => exact pure _
  | cons pair pairs ih => exact bind (build _) fun _ => ih

theorem symbolOperand (name : String)
    : Matches P (Lower.symbolOperand name) (Lower.symbolOperand name) := by
  refine bind scope fun scope => ?_
  split <;> exact pure _

theorem withLocals (h : Matches P x y)
    : Matches P (Lower.withLocals x) (Lower.withLocals y) :=
  bind scope fun _ => within _ _ h

theorem withCatch (handler : Option BlockId) (h : Matches P x y)
    : Matches P (Lower.withCatch handler x) (Lower.withCatch handler y) := by
  unfold Lower.withCatch
  cases handler with
  | none => exact h
  | some block => exact within _ _ h

theorem andThen {x y : Lower Lowered} {j k : Operand → Lower Lowered} (h : Matches P x y)
    (hk : ∀ operand, Matches P (j operand) (k operand))
    : Matches P (Lower.andThen x j) (Lower.andThen y k) := by
  refine bind h fun lowered => ?_
  cases lowered with
  | value operand => exact hk operand
  | terminated => exact pure _

end Matches

def MatchOn (P : CompileError → Prop) (lower lower' : Form → Lower Lowered) (forms : List Form) :
    Prop :=
  ∀ form ∈ forms, Matches P (lower form) (lower' form)

theorem MatchOn.mono {forms more : List Form} (h : MatchOn P lower lower' more)
    (hsub : forms ⊆ more)
    : MatchOn P lower lower' forms :=
  fun form hform => h form (hsub hform)

section

variable {forms : List Form} (h : MatchOn P lower lower' forms)

include h

theorem matches_sequence (last : Operand)
    : Matches P (sequence lower last forms) (sequence lower' last forms) := by
  induction forms generalizing last with
  | nil => exact .pure _
  | cons form rest ih =>
    obtain ⟨hform, hrest⟩ := List.forall_mem_cons.1 h
    exact .andThen hform fun operand => ih hrest operand

theorem matches_body : Matches P (body lower forms) (body lower' forms) :=
  matches_sequence h _

theorem matches_operands : Matches P (operands lower forms) (operands lower' forms) := by
  induction forms with
  | nil => exact .pure _
  | cons form rest ih =>
    obtain ⟨hform, hrest⟩ := List.forall_mem_cons.1 h
    refine .bind hform fun lowered => ?_
    cases lowered with
    | terminated => exact .pure _
    | value operand =>
      refine .bind (ih hrest) fun more => ?_
      cases more <;> exact .pure _

theorem matches_withOperands {j k : List Operand → Lower Lowered}
    (hk : ∀ os, Matches P (j os) (k os))
    : Matches P (withOperands lower forms j) (withOperands lower' forms k) := by
  refine .bind (matches_operands h) fun r => ?_
  cases r with
  | some os => exact hk os
  | none => exact .pure _

theorem matches_globalCall (name : String) (span : Span)
    : Matches P (globalCall lower name forms span) (globalCall lower' name forms span) :=
  matches_withOperands h fun _ => .performValue _ span

theorem matches_suspendCall (handler : String) (span : Span)
    : Matches P (suspendCall lower handler forms span) (suspendCall lower' handler forms span) :=
  matches_withOperands h fun _ =>
    .bind (.build _) fun resume => .bind (.leave _ span) fun _ => .meetAt resume span

theorem matches_bindAll {pairs : List (String × Form)}
    (hinits : MatchOn P lower lower' (pairs.map (·.2)))
    : Matches P (bindAll lower forms pairs) (bindAll lower' forms pairs) := by
  induction pairs with
  | nil => exact matches_body h
  | cons pair pairs ih =>
    obtain ⟨hinit, hrest⟩ := List.forall_mem_cons.1 hinits
    exact .andThen hinit fun operand => .bind (.ownResult operand _) fun id =>
      .bind (.build _) fun _ => ih hrest

theorem matches_loopOver {pairs : List (String × Form)}
    (hinits : MatchOn P lower lower' (pairs.map (·.2))) (span : Span)
    : Matches P (loopOver lower pairs forms span) (loopOver lower' pairs forms span) := by
  refine matches_withOperands hinits fun operands => ?_
  refine .bind (.copyAll _) fun carried => .bind (.build _) fun header => ?_
  refine .bind (.leave _ span) fun _ => .bind (.build _) fun _ => .bind .scope fun scope => ?_
  refine .bind (.withLocals (.bind (.bindLocals _) fun _ => .within _ _ (matches_body h)))
    fun lowered => ?_
  cases lowered with
  | terminated => exact .pure _
  | value operand =>
    exact .bind (.build _) fun exit => .bind (.leave _ span) fun _ => .meetAt exit span

theorem matches_finallyForms (block exit : BlockId) (span : Span)
    : Matches P (finallyForms lower block exit forms span)
        (finallyForms lower' block exit forms span) := by
  refine .bind (.enter block span) fun value => .bind (.perform _ span) fun exception => ?_
  refine .bind (.perform _ span) fun _ => .bind (.within _ _ (matches_body h)) fun lowered => ?_
  cases lowered with
  | terminated => exact .pure _
  | value operand => exact .bind (.perform _ span) fun _ => .bind (.leave _ span) fun _ => .pure _

end

theorem matches_callForm {head : Form} {args : List Form}
    (h : MatchOn P lower lower' (head :: args)) (span : Span)
    : Matches P (callForm lower head args span) (callForm lower' head args span) := by
  obtain ⟨hhead, hargs⟩ := List.forall_mem_cons.1 h
  exact .andThen hhead fun _ => matches_withOperands hargs fun _ => .performValue _ span

theorem matches_arms {arms : List (Option Form × BlockId)}
    (h : ∀ entry ∈ arms, MatchOn P lower lower' entry.1.toList) (meet : BlockId) (span : Span)
    : Matches P (Lower.arms lower meet span arms) (Lower.arms lower' meet span arms) := by
  induction arms with
  | nil => exact .pure _
  | cons entry arms ih =>
    obtain ⟨harm, hrest⟩ := List.forall_mem_cons.1 h
    refine .bind (.build _) fun _ => .bind ?_ fun live => .bind (ih hrest) fun more => .pure _
    rw [arm_eq, arm_eq]
    exact .bind (matches_body harm) fun lowered => .handOver lowered [] meet span

theorem matches_choose {test yes : Form} {no : Option Form}
    (h : MatchOn P lower lower' (test :: yes :: no.toList)) (span : Span)
    : Matches P (choose lower test yes no span) (choose lower' test yes no span) := by
  obtain ⟨htest, harms⟩ := List.forall_mem_cons.1 h
  obtain ⟨hyes, hno⟩ := List.forall_mem_cons.1 harms
  refine .andThen htest fun test => .bind (.build _) fun yesBlock => ?_
  refine .bind (.build _) fun noBlock => .bind (.build _) fun meet => ?_
  refine .bind (.leave _ span) fun _ => .bind (matches_arms ?_ meet span) fun live =>
    .meetIf live meet span
  exact List.forall_mem_cons.2 ⟨by simpa [MatchOn] using hyes, List.forall_mem_cons.2 ⟨hno, nofun⟩⟩

theorem matches_catchBodies {clauses : List (CatchClause × BlockId)}
    (h : ∀ entry ∈ clauses, MatchOn P lower lower' entry.1.body) (after : BlockId) (span : Span)
    : Matches P (catchBodies lower after span clauses) (catchBodies lower' after span clauses) := by
  induction clauses with
  | nil => exact .pure _
  | cons entry clauses ih =>
    obtain ⟨hclause, hrest⟩ := List.forall_mem_cons.1 h
    refine .bind (.enter _ span) fun caught => ?_
    refine .bind (.withLocals (.bind (.build _) fun _ => matches_body hclause)) fun lowered => ?_
    exact .bind (.handOver lowered [] after span) fun _ => .bind (ih hrest) fun _ => .pure _

theorem matches_catchPart {catches : List CatchClause}
    (h : ∀ clause ∈ catches, MatchOn P lower lower' clause.body)
    (dispatch finallyBlock : Option BlockId) (after : BlockId) (span : Span)
    : Matches P (catchPart lower dispatch catches finallyBlock after span)
        (catchPart lower' dispatch catches finallyBlock after span) := by
  cases dispatch with
  | none => exact .pure _
  | some dispatch =>
    refine .bind (.newBlocks catches) fun blocks => .bind (.build _) fun _ => ?_
    refine .bind (.perform _ span) fun _ => .bind (.leave _ span) fun _ => .withCatch _ ?_
    exact matches_catchBodies (fun entry hentry => h _ (List.of_mem_zip hentry).1) after span

theorem matches_finallyPart {forms : Option (List Form)}
    (h : ∀ body ∈ forms, MatchOn P lower lower' body) (block : Option BlockId) (exit : BlockId)
    (span : Span)
    : Matches P (finallyPart lower block exit forms span)
        (finallyPart lower' block exit forms span) := by
  cases block with
  | none => exact .pure _
  | some block =>
    cases forms with
    | none => exact .pure _
    | some forms => exact matches_finallyForms (h forms rfl) block exit span

theorem matches_attempt {parts : TryParts} (hbody : MatchOn P lower lower' parts.body)
    (hcatches : ∀ clause ∈ parts.catches, MatchOn P lower lower' clause.body)
    (hcleanup : ∀ body ∈ parts.cleanup, MatchOn P lower lower' body) (span : Span)
    : Matches P (attempt lower parts span) (attempt lower' parts span) := by
  refine .bind (.build _) fun bodyBlock => .bind (.newBlocks _) fun finallys => ?_
  refine .bind (.newBlocks _) fun dispatches => .bind (.build _) fun exit => ?_
  refine .bind (.leave _ span) fun _ => .bind (.build _) fun _ => ?_
  refine .bind (.performEach _ span _) fun _ => ?_
  refine .bind (.withCatch _ (matches_body hbody)) fun lowered => ?_
  refine .bind (.handOver lowered _ _ span) fun bodyLive => ?_
  refine .bind (matches_catchPart hcatches _ _ _ span) fun catchLive => ?_
  refine .bind (matches_finallyPart hcleanup _ exit span) fun finallyLive => ?_
  exact .meetIf ((bodyLive || catchLive) && finallyLive) exit span

section

variable (hP : ∀ error : CompileError, ¬ error.IsExpansion → P error)

include hP

theorem Matches.malformed {α : Type} (form message : String) (span : Span)
    : Matches P (Lower.malformed form message span : Lower α)
        (Lower.malformed form message span) :=
  .throw (hP _ id)

theorem matches_expectSymbol (form : Form) (owner what : String)
    : Matches P (expectSymbol form owner what) (expectSymbol form owner what) := by
  unfold expectSymbol
  cases form.symbol? with
  | some name => exact .pure _
  | none => exact .malformed hP ..

theorem matches_bindingPairs (owner : String) (items : List Form)
    : Matches P (bindingPairs owner items) (bindingPairs owner items) := by
  induction items using bindingPairs.induct with
  | case1 name init rest ih =>
    unfold bindingPairs
    exact .bind (matches_expectSymbol hP name owner _) fun _ => .bind ih fun _ => .pure _
  | case2 items hshort =>
    rcases items with _ | ⟨name, _ | ⟨init, rest⟩⟩
    . exact .pure _
    . exact .pure _
    . exact absurd rfl (hshort name init rest)

theorem matches_bindings (owner : String) (form : Form)
    : Matches P (bindings owner form) (bindings owner form) := by
  unfold bindings
  cases form.vector? with
  | none => exact .malformed hP ..
  | some items =>
    simp only
    split
    . exact .malformed hP ..
    . exact matches_bindingPairs hP owner items

theorem matches_parameterNames (items : List Form)
    : Matches P (parameterNames items) (parameterNames items) := by
  induction items with
  | nil => exact .pure _
  | cons form rest ih =>
    exact .bind (matches_expectSymbol hP form "fn" _) fun _ => .bind ih fun _ => .pure _

theorem matches_makeLambda (options : CompileOptions) (name : Option String) (rest : List Form)
    (span : Span)
    : Matches P (makeLambda options name rest span) (makeLambda options name rest span) := by
  cases rest with
  | nil => exact .malformed hP ..
  | cons params body =>
    unfold makeLambda
    simp only
    cases params.vector? with
    | none => exact .malformed hP ..
    | some items =>
      exact .bind (matches_parameterNames hP items) fun names => .bind .scope fun _ =>
        .performValue _ span

theorem matches_fnForm (options : CompileOptions) (args : List Form) (span : Span)
    : Matches P (fnForm options args span) (fnForm options args span) := by
  unfold fnForm
  split <;> exact matches_makeLambda hP options _ _ span

variable {args : List Form}

theorem matches_ifForm (h : MatchOn P lower lower' args) (span : Span)
    : Matches P (ifForm lower args span) (ifForm lower' args span) := by
  unfold ifForm
  split
  . exact matches_choose h span
  . exact matches_choose h span
  . exact .malformed hP ..

theorem matches_caseForm (h : MatchOn P lower lower' args) (span : Span)
    : Matches P (caseForm lower args span) (caseForm lower' args span) := by
  cases args with
  | nil => exact .malformed hP ..
  | cons value rest =>
    obtain ⟨hvalue, hrest⟩ := List.forall_mem_cons.1 h
    obtain ⟨hclauses, hfallback⟩ := @mem_caseClauses rest _ _ rfl
    refine .andThen hvalue fun operand => .bind (.newBlocks _) fun blocks => ?_
    refine .bind (.newBlocks _) fun fallbacks => .bind (.build _) fun meet => ?_
    refine .bind (.leave _ span) fun _ => .bind (matches_arms ?_ meet span) fun live =>
      .meetIf live meet span
    rintro ⟨form, block⟩ hentry
    rcases List.mem_append.1 hentry with hentry | hentry
    . obtain ⟨clause, hclause, rfl⟩ := List.mem_map.1 (List.of_mem_zip hentry).1
      exact List.forall_mem_singleton.2 (hrest _ (hclauses clause hclause))
    . obtain ⟨form, hform, rfl⟩ := List.mem_map.1 (List.of_mem_zip hentry).1
      exact List.forall_mem_singleton.2 (hrest _ (hfallback form (Option.mem_toList.1 hform)))

theorem matches_recurForm (h : MatchOn P lower lower' args) (span : Span)
    : Matches P (recurForm lower args span) (recurForm lower' args span) := by
  refine .bind .scope fun scope => ?_
  cases scope.loops with
  | nil => exact .throw (hP _ id)
  | cons point outer =>
    simp only
    split
    . exact .throw (hP _ id)
    . split
      . exact .throw (hP _ id)
      . exact matches_withOperands h fun os => .bind (.perform _ span) fun _ =>
          .bind (.leave _ span) fun _ => .pure _

theorem matches_returnForm (options : CompileOptions) (h : MatchOn P lower lower' args)
    (span : Span)
    : Matches P (returnForm options lower args span) (returnForm options lower' args span) := by
  unfold returnForm
  split
  . exact .bind (.finishWith options _ span) fun _ => .pure _
  . exact .andThen (h _ (List.mem_singleton.2 rfl)) fun value =>
      .bind (.finishWith options value span) fun _ => .pure _
  . exact .malformed hP ..

theorem matches_memberForm (accessor : List Char) (h : MatchOn P lower lower' args) (span : Span)
    : Matches P (memberForm lower accessor args span) (memberForm lower' accessor args span) := by
  unfold memberForm
  split
  . exact .malformed hP ..
  . split
    . exact .malformed hP ..
    . exact .andThen (h _ (List.mem_singleton.2 rfl)) fun _ => .performValue _ span
    . exact .malformed hP ..
  . split
    . exact .malformed hP ..
    . obtain ⟨htarget, hrest⟩ := List.forall_mem_cons.1 h
      exact .andThen htarget fun _ => matches_withOperands hrest fun _ => .performValue _ span

def MatchWithin (P : CompileError → Prop) (lower lower' : Form → Lower Lowered)
    (forms : List Form) : Prop :=
  ∀ form : Form, form.Within forms → Matches P (lower form) (lower' form)

omit hP in
theorem MatchWithin.on (h : MatchWithin P lower lower' args) : MatchOn P lower lower' args :=
  fun form hform => h form (.of_mem hform)

omit hP in
theorem MatchWithin.inits {items forms : List Form} {span : Span} {pairs : List (String × Form)}
    (h : MatchWithin P lower lower' (.vector items span :: forms)) (hpairs : Bindings items pairs)
    : MatchOn P lower lower' (pairs.map (·.2)) := by
  intro form hform
  obtain ⟨pair, hpair, rfl⟩ := List.mem_map.1 hform
  exact h _ (.of_inside (.item (hpairs.mem pair hpair)) (List.mem_cons_self ..))

theorem matches_letForm (h : MatchWithin P lower lower' args) (span : Span)
    : Matches P (letForm lower args span) (letForm lower' args span) := by
  cases args with
  | nil => exact .malformed hP ..
  | cons first forms =>
    refine .bindOk (matches_bindings hP "let" first) fun pairs ⟨d, e, hread⟩ => ?_
    obtain ⟨items, place, rfl, hpairs, _⟩ := bindings_ok hread
    exact .withLocals (matches_bindAll (h.on.mono (List.subset_cons_self ..)) (h.inits hpairs))

theorem matches_loopForm (h : MatchWithin P lower lower' args) (span : Span)
    : Matches P (loopForm lower args span) (loopForm lower' args span) := by
  cases args with
  | nil => exact .malformed hP ..
  | cons first forms =>
    refine .bindOk (matches_bindings hP "loop" first) fun pairs ⟨d, e, hread⟩ => ?_
    obtain ⟨items, place, rfl, hpairs, _⟩ := bindings_ok hread
    exact matches_loopOver (h.on.mono (List.subset_cons_self ..)) (h.inits hpairs) span

omit hP in
theorem fieldPlace?_inside {place object : Form} {field : String}
    (h : fieldPlace? place = some (field, object))
    : object.Inside place := by
  unfold fieldPlace? at h
  split at h
  . split at h
    . cases h
      exact .item (List.mem_cons_of_mem _ (List.mem_singleton.2 rfl))
    . cases h
  . cases h

theorem matches_setForm (h : MatchWithin P lower lower' args) (span : Span)
    : Matches P (setForm lower args span) (setForm lower' args span) := by
  unfold setForm
  split
  . next name _ value =>
    have hvalue := h.on value (List.mem_cons_of_mem _ (List.mem_singleton.2 rfl))
    refine .bind .scope fun scope => ?_
    cases scope.find? name <;> exact .andThen hvalue fun _ => .performValue _ span
  . next place value _ =>
    have hvalue := h.on value (List.mem_cons_of_mem _ (List.mem_singleton.2 rfl))
    cases hplace : fieldPlace? place with
    | none => exact .malformed hP ..
    | some entry =>
      have hobject := h entry.2 (.of_inside (fieldPlace?_inside hplace) (List.mem_cons_self ..))
      exact .andThen hobject fun _ => .andThen hvalue fun _ => .performValue _ span
  . exact .malformed hP ..

theorem matches_tryForm (h : MatchWithin P lower lower' args) (span : Span)
    : Matches P (tryForm lower args span) (tryForm lower' args span) := by
  have hread := TryParts.yields_ofForms args
  unfold tryForm
  cases hparts : TryParts.ofForms args with
  | error error =>
    rw [hparts] at hread
    exact .throw (hP error hread)
  | ok parts =>
    rw [hparts] at hread
    obtain ⟨hbody, hcatches, hcleanup⟩ := hread
    refine .bindOk (.pure _) fun read hok => ?_
    obtain ⟨d, e, hok⟩ := hok
    obtain ⟨rfl, _⟩ := pure_ok.1 hok
    exact matches_attempt (h.on.mono hbody)
      (fun clause hclause form hform => h form (hcatches clause hclause form hform))
      (fun body hmem form hform => h form (hcleanup body hmem form hform)) span

theorem matches_named (options : CompileOptions) (name : String)
    (h : MatchWithin P lower lower' args) (span : Span)
    : Matches P (named options lower name args span) (named options lower' name args span) := by
  unfold named
  split
  . split
    . exact .pure _
    . exact .malformed hP ..
  . exact matches_body h.on
  . exact matches_ifForm hP h.on span
  . exact matches_letForm hP h span
  . exact matches_loopForm hP h span
  . exact matches_recurForm hP h.on span
  . exact matches_caseForm hP h.on span
  . exact matches_fnForm hP options args span
  . exact matches_tryForm hP h span
  . exact matches_setForm hP h span
  . exact matches_returnForm hP options h.on span
  . split
    . exact matches_memberForm hP _ h.on span
    . cases options.terminators.handler? name with
      | some handler => exact matches_suspendCall h.on handler span
      | none => exact matches_globalCall h.on name span

theorem matches_coreForm (options : CompileOptions) {core : Form}
    (h : ∀ form : Form, form.Inside core → Matches P (lower form) (lower' form))
    : Matches P (coreForm options lower core) (coreForm options lower' core) := by
  have hwithin : ∀ {bracket : Bracket} {items : List Form} {span : Span},
      core = .group bracket items span → MatchWithin P lower lower' items := by
    rintro bracket items span rfl form hform
    exact h form (hform.inside bracket span)
  unfold coreForm
  split
  . exact .bind (.symbolOperand _) fun _ => .pure _
  . exact .pure _
  . exact .pure _
  . exact .pure _
  . next head args span =>
    have hitems := hwithin rfl
    have hargs : MatchWithin P lower lower' args :=
      fun form hform => hitems form (hform.mono (List.subset_cons_self ..))
    unfold listForm
    split
    . next name place =>
      refine .bind .scope fun scope => ?_
      cases scope.find? name with
      | some _ => exact matches_callForm hitems.on span
      | none => exact matches_named hP options _ hargs span
    . exact matches_callForm hitems.on span
  . exact matches_globalCall (hwithin rfl).on _ _
  . exact matches_globalCall (hwithin rfl).on _ _
  . exact matches_globalCall (hwithin rfl).on _ _

end

end Lower

end Resumable
