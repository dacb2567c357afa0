import Resumable.Proofs.Monad
import Resumable.Proofs.Slots.Plain

/-!
This module contains what plain steps change and what they leave alone. An effect that stops early
has written nothing.
-/

namespace Resumable

def Effect.onState (s : State) : Effect → State
  | .pushHandler block => s.pushHandler block
  | .popHandler block => s.popHandler block
  | .takeException => s.clearException
  | _ => s

namespace Plain

variable {α β : Type}

def Observes (x : PlainExec α) : Prop :=
  ∀ p, ∃ store, (∃ a, x p = .ok a { p with store }) ∨ ∃ stop, x p = .error stop { p with store }

def Changes (g : State → State) (ids : List ValueId) (x : PlainExec Unit) : Prop :=
  ∀ p, (∃ stop store, x p = .error stop { p with store }) ∨
    ∃ store values, x p = .ok () { state := g p.state, store, values } ∧
      ∀ i ∉ ids, values i = p.values i

theorem Observes.bind {x : PlainExec α} {k : α → PlainExec β} (hx : Observes x)
    (hk : ∀ a, Observes (k a))
    : Observes (x >>= k) := by
  intro p
  obtain ⟨store, ⟨a, ha⟩ | ⟨stop, hstop⟩⟩ := hx p
  . rw [bind_of_ok ha]
    exact hk a { p with store }
  . exact ⟨store, .inr ⟨stop, bind_of_error hstop⟩⟩

theorem Observes.changes {g : State → State} {ids : List ValueId} {x : PlainExec α}
    {k : α → PlainExec Unit} (hx : Observes x) (hk : ∀ a, Changes g ids (k a))
    : Changes g ids (x >>= k) := by
  intro p
  obtain ⟨store, ⟨a, ha⟩ | ⟨stop, hstop⟩⟩ := hx p
  . rw [bind_of_ok ha]
    exact hk a { p with store }
  . exact .inl ⟨stop, store, bind_of_error hstop⟩

theorem observes_pure (a : α) : Observes (pure a) :=
  fun p => ⟨p.store, .inl ⟨a, rfl⟩⟩

theorem observes_onStore (action : Action α) : Observes (onStore action) := by
  intro p
  unfold onStore
  cases action p.store with
  | ok a store => exact ⟨store, .inl ⟨a, rfl⟩⟩
  | error stop store => exact ⟨store, .inr ⟨stop, rfl⟩⟩

theorem observes_read (operand : Operand) : Observes (read operand) := by
  cases operand with
  | result id => exact fun p => ⟨p.store, .inl ⟨p.values id, rfl⟩⟩
  | literal value => exact observes_pure value
  | global name => exact observes_onStore _
  | pending => exact fun p => ⟨p.store, .inl ⟨p.state.pending, rfl⟩⟩

theorem observes_readAll (operands : List Operand) : Observes (readAll operands) := by
  induction operands with
  | nil => exact observes_pure []
  | cons operand operands ih =>
    apply (observes_read operand).bind
    intro a
    apply ih.bind
    intro b
    apply observes_pure

theorem changes_write (id : ValueId) (value : Value) : Changes (·) [id] (write id value) := by
  intro p
  refine .inr ⟨p.store, update p.values id value, rfl, ?_⟩
  intro i hi
  exact if_neg (by simpa using hi)

theorem writeAll_ok (pairs : List (ValueId × Value)) (p : Plain)
    : ∃ values, writeAll pairs p = .ok () { p with values } ∧
        ∀ i ∉ pairs.map (·.1), values i = p.values i := by
  induction pairs generalizing p with
  | nil => exact ⟨p.values, rfl, fun _ _ => rfl⟩
  | cons pair pairs ih =>
    obtain ⟨values, heq, hother⟩ := ih { p with values := update p.values pair.1 pair.2 }
    refine ⟨values, heq, ?_⟩
    intro i hi
    rw [List.map_cons, List.mem_cons, not_or] at hi
    rw [hother i hi.2]
    exact if_neg hi.1

theorem changes_writeAll {ids : List ValueId} {pairs : List (ValueId × Value)}
    (h : ∀ i ∈ pairs.map (·.1), i ∈ ids)
    : Changes (·) ids (writeAll pairs) := by
  intro p
  obtain ⟨values, heq, hother⟩ := writeAll_ok pairs p
  exact .inr ⟨p.store, values, heq, fun i hi => hother i fun hmem => hi (h i hmem)⟩

theorem changes_effect (call : Caller) (id : ValueId) (e : Effect)
    : Changes e.onState (e.writes id) (effect call id e) := by
  cases e with
  | const value =>
    apply (observes_read value).changes
    intro v
    apply changes_write
  | call callee args =>
    apply (observes_read callee).changes
    intro callee
    apply (observes_readAll args).changes
    intro args
    apply (observes_onStore _).changes
    intro v
    apply changes_write
  | recur targets args =>
    apply (observes_readAll args).changes
    intro values
    apply changes_writeAll
    intro i hi
    obtain ⟨pair, hpair, rfl⟩ := List.mem_map.1 hi
    exact (List.of_mem_zip hpair).1
  | lambda code captured =>
    simp only [effect]
    cases code.compile with
    | error e => exact fun p => .inl ⟨_, p.store, rfl⟩
    | ok program =>
      apply (observes_readAll captured).changes
      intro values
      apply (observes_onStore _).changes
      intro tag
      apply changes_write
  | field target name args =>
    apply (observes_read target).changes
    intro object
    apply (observes_onStore _).changes
    intro v
    apply changes_write
  | method target name args =>
    apply (observes_read target).changes
    intro object
    apply (observes_readAll args).changes
    intro args
    apply (observes_onStore _).changes
    intro v
    apply changes_write
  | setLocal target value =>
    apply (observes_read value).changes
    intro v
    have hpairs : ∀ i ∈ [(target, v), (id, v)].map (·.1), i ∈ [target, id] := fun _ hi => hi
    exact changes_writeAll hpairs
  | setGlobal name value =>
    apply (observes_read value).changes
    intro v
    apply (observes_onStore _).changes
    intro _
    apply changes_write
  | setField object name value =>
    apply (observes_read value).changes
    intro v
    apply (observes_read object).changes
    intro object
    apply (observes_onStore _).changes
    intro _
    apply changes_write
  | pushHandler block => exact fun p => .inr ⟨p.store, p.values, rfl, fun _ _ => rfl⟩
  | popHandler block => exact fun p => .inr ⟨p.store, p.values, rfl, fun _ _ => rfl⟩
  | takeException =>
    intro p
    refine .inr ⟨p.store, update p.values id p.state.exception, rfl, ?_⟩
    intro i hi
    exact if_neg (by simpa [Effect.writes] using hi)
  | endFinally exception =>
    apply (observes_read exception).changes
    intro v p
    cases v.isNil with
    | true => exact .inr ⟨p.store, p.values, rfl, fun _ _ => rfl⟩
    | false => exact .inl ⟨.thrown v, p.store, rfl⟩

theorem effect_endFinally (call : Caller) (id exception : ValueId) (p : Plain)
    : effect call id (.endFinally (.result exception)) p =
        if (p.values exception).isNil = true then .ok () p
        else .error (.thrown (p.values exception)) p := by
  change (if (p.values exception).isNil = true then (pure () : PlainExec Unit)
    else throw (.thrown (p.values exception))) p = _
  split <;> rfl

inductive Leaving (s : State) : Transfer → Ending → State → Prop where
  | goTo {t : Transfer} {target : BlockId} :
    target ∈ t.references → Leaving s t .next (s.resumeAt target)
  | handOver {operand : Operand} {target : BlockId} {value : Value} :
    Leaving s (.jump (some operand) target) .next ((s.setPending value).resumeAt target)
  | finish {operand : Operand} {value : Value} :
    Leaving s (.finish operand) (.done value) (s.finish value)
  | dispatch {clauses : List (BlockId × CatchType)} {clause : BlockId × CatchType} :
    clause ∈ clauses → Leaving s (.dispatch clauses) .next
      (((s.setPending s.exception).clearException).resumeAt clause.1)
  | suspend {handler : String} {resume : BlockId} {operands : List Operand} {args : List Value} :
    Leaving s (.suspend handler resume operands) (.suspend handler resume args) s

def Leaves (t : Transfer) (x : PlainExec Ending) : Prop :=
  ∀ p, (∃ stop store, x p = .error stop { p with store }) ∨
    ∃ ending state store, x p = .ok ending { p with state, store } ∧ Leaving p.state t ending state

theorem Observes.leaves {t : Transfer} {x : PlainExec α} {k : α → PlainExec Ending}
    (hx : Observes x) (hk : ∀ a, Leaves t (k a))
    : Leaves t (x >>= k) := by
  intro p
  obtain ⟨store, ⟨a, ha⟩ | ⟨stop, hstop⟩⟩ := hx p
  . rw [bind_of_ok ha]
    exact hk a { p with store }
  . exact .inl ⟨stop, store, bind_of_error hstop⟩

theorem leaves_goTo {t : Transfer} {target : BlockId} (h : target ∈ t.references)
    : Leaves t (do onState (·.resumeAt target); return .next) :=
  fun p => .inr ⟨.next, p.state.resumeAt target, p.store, rfl, .goTo h⟩

theorem mem_of_findClause {value : Value} {tests : List (List Value)} {clauses : List BlockId}
    {target : BlockId} (h : Exec.findClause value tests clauses = some target)
    : target ∈ clauses := by
  induction tests generalizing clauses with
  | nil => cases h
  | cons test tests ih =>
    unfold Exec.findClause at h
    split at h
    . exact List.mem_of_mem_head? h
    . exact List.mem_of_mem_tail (ih h)

theorem transfer_dispatch (clauses : List (BlockId × CatchType)) (p : Plain)
    : transfer (.dispatch clauses) p =
        match clauses.find? (Exec.catches p.store.heap p.state.exception ·.2) with
        | some clause => .ok .next { p with
            state := ((p.state.setPending p.state.exception).clearException).resumeAt clause.1 }
        | none => .error (.thrown p.state.exception) p := by
  have hheap : onStore Action.heap p = .ok p.store.heap p := rfl
  simp only [transfer]
  rw [bind_of_ok (get_ok.2 ⟨rfl, rfl⟩), bind_of_ok hheap]
  cases clauses.find? (Exec.catches p.store.heap p.state.exception ·.2) <;> rfl

theorem leaves_transfer (t : Transfer) : Leaves t (transfer t) := by
  cases t with
  | jump value target =>
    cases value with
    | none => exact leaves_goTo (by simp [Transfer.references])
    | some value =>
      apply (observes_read value).leaves
      intro v p
      exact .inr ⟨.next, _, p.store, rfl, .handOver⟩
  | finish value =>
    apply (observes_read value).leaves
    intro v p
    exact .inr ⟨.done v, _, p.store, rfl, .finish⟩
  | branch test yes no =>
    apply (observes_read test).leaves
    intro v
    apply leaves_goTo
    by_cases hv : v.isTruthy = true <;> simp [hv, Transfer.references]
  | case value tests clauses fallback =>
    apply (observes_read value).leaves
    intro v
    cases hclause : (Exec.findClause v tests clauses).or fallback with
    | some target =>
      apply leaves_goTo
      simp only [Transfer.references, List.mem_append, Option.mem_toList]
      rcases Option.or_eq_some_iff.1 hclause with hfound | ⟨_, hfallback⟩
      . exact .inl (mem_of_findClause hfound)
      . exact .inr hfallback
    | none =>
      apply (observes_onStore _).leaves
      intro heap p
      exact .inl ⟨_, p.store, rfl⟩
  | dispatch clauses =>
    intro p
    rw [transfer_dispatch]
    cases hclause : clauses.find? (Exec.catches p.store.heap p.state.exception ·.2) with
    | some clause =>
      exact .inr ⟨.next, _, p.store, rfl, .dispatch (List.mem_of_find?_eq_some hclause)⟩
    | none => exact .inl ⟨_, p.store, rfl⟩
  | suspend handler resume operands =>
    apply (observes_readAll operands).leaves
    intro args p
    exact .inr ⟨_, p.state, p.store, rfl, .suspend⟩

theorem effects_append (call : Caller) (done rest : List Instruction)
    : effects call (done ++ rest) = (do effects call done; effects call rest) := by
  induction done with
  | nil => rfl
  | cons ins done ih =>
    simp only [List.cons_append, effects, ih]
    cases ins.command with
    | effect e => rw [bind_assoc]
    | transfer t => rfl

theorem code_append (call : Caller) {done rest : List Instruction}
    (h : ∀ ins ∈ done, ∃ e, ins.command = .effect e)
    : code call (done ++ rest) = (do effects call done; code call rest) := by
  induction done with
  | nil => rfl
  | cons ins done ih =>
    rw [List.forall_mem_cons] at h
    obtain ⟨⟨e, he⟩, hdone⟩ := h
    simp only [List.cons_append, code, effects, he]
    rw [ih hdone, bind_assoc]

theorem code_error {call : Caller} {instructions : List Instruction} {p p' : Plain} {stop : Stop}
    (h : code call instructions p = .error stop p')
    : ∃ done ins rest q store, instructions = done ++ ins :: rest ∧
        effects call done p = .ok () q ∧ p' = { q with store } := by
  induction instructions generalizing p with
  | nil => cases h
  | cons ins instructions ih =>
    cases hcommand : ins.command with
    | transfer t =>
      simp only [code, hcommand] at h
      rcases leaves_transfer t p with ⟨_, store, hstop⟩ | ⟨_, _, _, hok, _⟩
      . rw [hstop] at h
        cases h
        exact ⟨[], ins, instructions, p, store, rfl, rfl, rfl⟩
      . rw [hok] at h
        cases h
    | effect e =>
      simp only [code, hcommand] at h
      rcases changes_effect call ins.id e p with ⟨_, store, hstop⟩ | ⟨store, values, hok, _⟩
      . rw [bind_of_error hstop] at h
        cases h
        exact ⟨[], ins, instructions, p, store, rfl, rfl, rfl⟩
      . rw [bind_of_ok hok] at h
        obtain ⟨done, failed, rest, q, store', rfl, hdone, hq⟩ := ih h
        refine ⟨ins :: done, failed, rest, q, store', rfl, ?_, hq⟩
        simp only [effects, hcommand]
        rw [bind_of_ok hok]
        exact hdone

inductive Ends (call : Caller) (all : List Instruction) (inv : Nat → Plain → Prop) :
    EStateM.Result Stop Plain Ending → Prop where
  | left {i : Nat} {ins : Instruction} {t : Transfer} {p p' : Plain} {ending : Ending} :
    all[i]? = some ins → ins.command = .transfer t → inv i p → transfer t p = .ok ending p' →
      Ends call all inv (.ok ending p')
  | effectStop {i : Nat} {ins : Instruction} {e : Effect} {p p' : Plain} {stop : Stop} :
    all[i]? = some ins → ins.command = .effect e → inv i p →
      effect call ins.id e p = .error stop p' → Ends call all inv (.error stop p')
  | transferStop {i : Nat} {ins : Instruction} {t : Transfer} {p p' : Plain} {stop : Stop} :
    all[i]? = some ins → ins.command = .transfer t → inv i p → transfer t p = .error stop p' →
      Ends call all inv (.error stop p')
  | through {p : Plain} :
    (∀ ins ∈ all, ins.isTransfer = false) → Ends call all inv (.ok .next p)

theorem code_ends {call : Caller} {all : List Instruction} {inv : Nat → Plain → Prop}
    (hstep : ∀ {i : Nat} {ins : Instruction} {e : Effect} {p p' : Plain}, all[i]? = some ins →
      ins.command = .effect e → inv i p → effect call ins.id e p = .ok () p' → inv (i + 1) p')
    {p : Plain} (h : inv 0 p)
    : Ends call all inv (code call all p) := by
  -- The invariant is carried from instruction to instruction; `done` are those behind.
  have hrest : ∀ (rest done : List Instruction) (p : Plain), all = done ++ rest →
      (∀ ins ∈ done, ins.isTransfer = false) → inv done.length p →
        Ends call all inv (code call rest p) := by
    intro rest
    induction rest with
    | nil =>
      intro done p hall hdone _
      rw [List.append_nil] at hall
      exact .through (hall ▸ hdone)
    | cons ins rest ih =>
      intro done p hall hdone hinv
      have hat : all[done.length]? = some ins := by
        rw [hall, List.getElem?_append_right (Nat.le_refl _), Nat.sub_self]
        rfl
      cases hcommand : ins.command with
      | transfer t =>
        simp only [code, hcommand]
        cases hr : transfer t p with
        | ok ending p' => exact .left hat hcommand hinv hr
        | error stop p' => exact .transferStop hat hcommand hinv hr
      | effect e =>
        simp only [code, hcommand]
        cases hr : effect call ins.id e p with
        | error stop p' =>
          rw [bind_of_error hr]
          exact .effectStop hat hcommand hinv hr
        | ok _ p' =>
          rw [bind_of_ok hr]
          apply ih (done ++ [ins]) p'
          . rw [hall, List.append_assoc]
            rfl
          . intro ins' hins'
            rcases List.mem_append.1 hins' with hins' | hins'
            . exact hdone ins' hins'
            . rw [List.mem_singleton.1 hins']
              simp [Instruction.isTransfer, hcommand]
          . rw [List.length_append]
            exact hstep hat hcommand hinv hr
  exact hrest all [] p rfl (by simp) h

theorem changes_of_effect {call : Caller} {id : ValueId} {e : Effect} {p p' : Plain}
    (hok : effect call id e p = .ok () p')
    : p'.state = e.onState p.state ∧ ∀ i ∉ e.writes id, p'.values i = p.values i := by
  rcases changes_effect call id e p with ⟨_, _, hstop⟩ | ⟨_, _, heq, hother⟩
  . rw [hstop] at hok
    cases hok
  . rw [heq] at hok
    cases hok
    exact ⟨rfl, hother⟩

theorem Ends.transferred {call : Caller} {all : List Instruction} {inv : Nat → Plain → Prop}
    {ending : Ending} {p' : Plain} (h : Ends call all inv (.ok ending p'))
    (hlast : ∃ ins ∈ all, ins.isTransfer = true)
    : ∃ i ins t p state store, all[i]? = some ins ∧ ins.command = .transfer t ∧ inv i p ∧
        transfer t p = .ok ending p' ∧ p' = { p with state, store } ∧
        Leaving p.state t ending state := by
  cases h with
  | @left i ins t p _ _ hi ht hinv hok =>
    rcases leaves_transfer t p with ⟨_, _, hstop⟩ | ⟨_, state, store, hleft, hleaving⟩
    . rw [hstop] at hok
      cases hok
    . rw [hleft] at hok
      cases hok
      exact ⟨i, ins, t, p, state, store, hi, ht, hinv, hleft, rfl, hleaving⟩
  | through hnone =>
    obtain ⟨ins, hmem, htransfer⟩ := hlast
    rw [hnone ins hmem] at htransfer
    cases htransfer

theorem Ends.stopped {call : Caller} {all : List Instruction} {inv : Nat → Plain → Prop}
    {stop : Stop} {p' : Plain} (h : Ends call all inv (.error stop p'))
    : ∃ i ins p store, all[i]? = some ins ∧ inv i p ∧ code call [ins] p = .error stop p' ∧
        p' = { p with store } := by
  cases h with
  | @effectStop i ins e p _ _ hi he hinv hstop =>
    rcases changes_effect call ins.id e p with ⟨_, store, hstop'⟩ | ⟨_, _, hok, _⟩
    . rw [hstop'] at hstop
      cases hstop
      refine ⟨i, ins, p, store, hi, hinv, ?_, rfl⟩
      simp only [code, he]
      exact bind_of_error hstop'
    . rw [hok] at hstop
      cases hstop
  | @transferStop i ins t p _ _ hi ht hinv hstop =>
    rcases leaves_transfer t p with ⟨_, store, hstop'⟩ | ⟨_, _, _, hok, _⟩
    . rw [hstop'] at hstop
      cases hstop
      refine ⟨i, ins, p, store, hi, hinv, ?_, rfl⟩
      simp only [code, ht]
      exact hstop'
    . rw [hok] at hstop
      cases hstop

theorem effects_inv {call : Caller} {all : List Instruction} {inv : Nat → Plain → Prop}
    (hstep : ∀ {i : Nat} {ins : Instruction} {e : Effect} {p p' : Plain}, all[i]? = some ins →
      ins.command = .effect e → inv i p → effect call ins.id e p = .ok () p' → inv (i + 1) p')
    {done rest : List Instruction} (hall : all = done ++ rest)
    (hdone : ∀ ins ∈ done, ∃ e, ins.command = .effect e) {p p' : Plain} (h : inv 0 p)
    (hok : effects call done p = .ok () p')
    : inv done.length p' := by
  have hrun : ∀ (todo before : List Instruction) (p : Plain), all = before ++ (todo ++ rest) →
      (∀ ins ∈ todo, ∃ e, ins.command = .effect e) → inv before.length p →
        effects call todo p = .ok () p' → inv (before.length + todo.length) p' := by
    intro todo
    induction todo with
    | nil =>
      intro before p _ _ hinv hok
      cases hok
      exact hinv
    | cons ins todo ih =>
      intro before p hall htodo hinv hok
      rw [List.forall_mem_cons] at htodo
      obtain ⟨⟨e, he⟩, htodo⟩ := htodo
      have hat : all[before.length]? = some ins := by
        rw [hall, List.getElem?_append_right (Nat.le_refl _), Nat.sub_self]
        rfl
      simp only [effects, he] at hok
      obtain ⟨_, q, hq, hrest⟩ := bind_ok.1 hok
      have hnext := ih (before ++ [ins]) q (by simp [hall]) htodo
        (by simpa using hstep hat he hinv hq) hrest
      rw [List.length_append, List.length_singleton] at hnext
      rwa [List.length_cons, Nat.add_comm todo.length, ← Nat.add_assoc]
  simpa using hrun done [] p hall hdone h hok

end Plain

end Resumable
