import Resumable.Proofs.Lowering.Draft

/-!
This module contains what a successful step of lowering does to a draft, step by step.
-/

namespace Resumable

namespace Draft

def openedBy (d : Draft) : Nat → Draft
  | 0 => d
  | count + 1 => d.opened.openedBy count

def pushAll (d : Draft) : List (Effect × Span) → Draft
  | [] => d
  | (effect, span) :: rest => (d.push (.effect effect) span).pushAll rest

theorem Tidy.openedBy {d : Draft} (h : d.Tidy) (count : Nat) : (d.openedBy count).Tidy := by
  induction count generalizing d with
  | zero => exact h
  | succ count ih => exact ih h.opened

theorem openedBy_code {d : Draft} (h : d.Tidy) (count : Nat) : (d.openedBy count).code = d.code := by
  induction count generalizing d with
  | zero => rfl
  | succ count ih =>
    unfold Draft.openedBy
    rw [ih h.opened, opened_code h]

theorem openedBy_spot {d : Draft} (h : d.Tidy) (count : Nat)
    : (d.openedBy count).spot = d.spot.opened count := by
  induction count generalizing d with
  | zero => rfl
  | succ count ih =>
    unfold Draft.openedBy
    rw [ih h.opened, opened_spot h]
    simp only [Spot.opened, Spot.mk.injEq, true_and]
    lia

theorem openedBy_scope (d : Draft) (count : Nat) : (d.openedBy count).scope = d.scope := by
  induction count generalizing d with
  | zero => rfl
  | succ count ih =>
    unfold Draft.openedBy
    rw [ih, opened_scope]

theorem openedBy_add (d : Draft) (m n : Nat)
    : d.openedBy (m + n) = (d.openedBy m).openedBy n := by
  induction m generalizing d with
  | zero => simp [Draft.openedBy]
  | succ m ih =>
    rw [Nat.add_right_comm]
    simp only [Draft.openedBy]
    exact ih _

theorem Tidy.pushAll {d : Draft} (h : d.Tidy) (hopen : d.Open) (effects : List (Effect × Span))
    : (d.pushAll effects).Tidy := by
  induction effects generalizing d with
  | nil => exact h
  | cons entry effects ih => exact ih (h.push hopen _ _) (push_open h hopen _ _)

theorem pushAll_open {d : Draft} (h : d.Tidy) (hopen : d.Open) (effects : List (Effect × Span))
    : (d.pushAll effects).Open := by
  induction effects generalizing d with
  | nil => exact hopen
  | cons entry effects ih => exact ih (h.push hopen _ _) (push_open h hopen _ _)

theorem pushAll_spot {d : Draft} (h : d.Tidy) (hopen : d.Open) (effects : List (Effect × Span))
    : (d.pushAll effects).spot = d.spot.skip effects.length := by
  induction effects generalizing d with
  | nil => rfl
  | cons entry effects ih =>
    unfold Draft.pushAll
    rw [ih (h.push hopen _ _) (push_open h hopen _ _), push_spot h]
    simp only [Spot.skip, List.length_cons, Spot.mk.injEq, true_and]
    lia

theorem pushAll_scope {d : Draft} (h : d.Tidy) (hopen : d.Open) (effects : List (Effect × Span))
    : (d.pushAll effects).scope = d.scope := by
  induction effects generalizing d with
  | nil => rfl
  | cons entry effects ih =>
    unfold Draft.pushAll
    rw [ih (h.push hopen _ _) (push_open h hopen _ _), push_scope _ _ h]

theorem openedBy_open {d : Draft} (h : d.Tidy) (hopen : d.Open) (count : Nat)
    : (d.openedBy count).Open := by
  unfold Draft.Open
  rw [openedBy_code h, openedBy_spot h]
  exact hopen

end Draft

namespace Lower

variable {d d' : Draft}

theorem scope_ok {scope : Scope} : Lower.scope d = .ok scope d' ↔ scope = d.scope ∧ d' = d := by
  unfold Lower.scope
  simp only [bind_ok, get_ok, pure_ok]
  constructor
  . rintro ⟨_, _, ⟨rfl, rfl⟩, rfl, rfl⟩
    exact ⟨rfl, rfl⟩
  . rintro ⟨rfl, rfl⟩
    exact ⟨_, _, ⟨rfl, rfl⟩, rfl, rfl⟩

theorem newBlock_ok {b : BlockId}
    : Lower.newBlock d = .ok b d' ↔ b = d.spot.fresh ∧ d' = d.opened := by
  change EStateM.Result.ok d.spot.fresh d.opened = _ ↔ _
  simp [eq_comm]

theorem goTo_ok {b : BlockId} {a : Unit} : Lower.goTo b d = .ok a d' ↔ d' = d.goTo b := by
  change EStateM.Result.ok () (d.goTo b) = _ ↔ _
  simp [eq_comm]

theorem bindLocal_ok {name : String} {id : ValueId} {a : Unit}
    : Lower.bindLocal name id d = .ok a d' ↔ d' = d.within (d.scope.bind name id) := by
  change EStateM.Result.ok () (d.within (d.scope.bind name id)) = _ ↔ _
  simp [eq_comm]

theorem build_add_ok (h : d.Tidy) {command : Command} {span : Span} {id : ValueId}
    : Lower.build (·.add command span) d = .ok id d'
        ↔
      id = d.spot.value ∧ d' = d.push command span := by
  change EStateM.Result.ok (d.builder.add command span).1
    { d with builder := (d.builder.add command span).2 } = _ ↔ _
  unfold Draft.push
  rw [Draft.add_eq h]
  simp [eq_comm]

theorem perform_ok (h : d.Tidy) {effect : Effect} {span : Span} {id : ValueId}
    : Lower.perform effect span d = .ok id d'
        ↔
      id = d.spot.value ∧ d' = d.push (.effect effect) span :=
  build_add_ok h

theorem leave_ok (h : d.Tidy) {transfer : Transfer} {span : Span} {a : Unit}
    : Lower.leave transfer span d = .ok a d' ↔ d' = d.push (.transfer transfer) span := by
  unfold Lower.leave
  simp only [bind_ok, build_add_ok h, pure_ok]
  constructor
  . rintro ⟨_, _, ⟨_, rfl⟩, _, rfl⟩
    rfl
  . rintro rfl
    exact ⟨_, _, ⟨rfl, rfl⟩, trivial, rfl⟩

theorem within_ok {α : Type} {enter leave : Scope → Scope} {step : Lower α} {a : α}
    : Lower.within enter leave step d = .ok a d'
        ↔
      ∃ t, step (d.within (enter d.scope)) = .ok a t ∧ d' = t.within (leave t.scope) := by
  cases hstep : step (d.within (enter d.scope)) with
  | ok a t =>
    have hwithin : Lower.within enter leave step d = .ok a (t.within (leave t.scope)) := by
      unfold Draft.within Draft.scope at hstep ⊢
      simp only [Lower.within, hstep]
    rw [hwithin]
    constructor
    . intro h
      cases h
      exact ⟨t, rfl, rfl⟩
    . rintro ⟨_, h, rfl⟩
      cases h
      rfl
  | error e t =>
    unfold Draft.within Draft.scope at hstep
    simp [Lower.within, hstep]

theorem newBlocks_ok {α : Type} (h : d.Tidy) {l : List α} {blocks : List BlockId}
    : Lower.newBlocks l d = .ok blocks d'
        ↔
      blocks = .range' d.spot.fresh l.length ∧ d' = d.openedBy l.length := by
  induction l generalizing d d' blocks with
  | nil => simp [Lower.newBlocks, pure_ok, Draft.openedBy]
  | cons a l ih =>
    unfold Lower.newBlocks
    simp only [bind_ok, newBlock_ok, pure_ok]
    constructor
    . rintro ⟨_, _, ⟨rfl, rfl⟩, _, _, hrest, rfl, rfl⟩
      obtain ⟨rfl, rfl⟩ := (ih h.opened).1 hrest
      rw [Draft.opened_spot h]
      exact ⟨rfl, rfl⟩
    . rintro ⟨rfl, rfl⟩
      refine ⟨_, _, ⟨rfl, rfl⟩, _, _, (ih h.opened).2 ⟨rfl, rfl⟩, ?_, rfl⟩
      rw [Draft.opened_spot h]
      rfl

theorem enter_ok {b : BlockId} {span : Span} {id : ValueId} (h : (d.goTo b).Tidy)
    : Lower.enter b span d = .ok id d'
        ↔
      id = d.spot.value ∧ d' = (d.goTo b).push .receive span := by
  unfold Lower.enter
  simp only [bind_ok, goTo_ok]
  constructor
  . rintro ⟨_, _, rfl, hperform⟩
    exact (perform_ok h).1 hperform
  . intro hperform
    exact ⟨(), _, rfl, (perform_ok h).2 hperform⟩

theorem meetAt_ok {b : BlockId} {span : Span} {lowered : Lowered} (h : (d.goTo b).Tidy)
    : Lower.meetAt b span d = .ok lowered d'
        ↔
      lowered = .value (.result d.spot.value) ∧ d' = (d.goTo b).push .receive span := by
  unfold Lower.meetAt
  simp only [bind_ok, pure_ok, enter_ok h]
  constructor
  . rintro ⟨_, _, ⟨rfl, rfl⟩, rfl, rfl⟩
    exact ⟨rfl, rfl⟩
  . rintro ⟨rfl, rfl⟩
    exact ⟨_, _, ⟨rfl, rfl⟩, rfl, rfl⟩

theorem performEach_ok (h : d.Tidy) (hopen : d.Open) {effect : BlockId → Effect} {span : Span}
    {blocks : List BlockId} {a : Unit}
    : Lower.performEach effect span blocks d = .ok a d'
        ↔
      d' = d.pushAll (blocks.map fun block => (effect block, span)) := by
  induction blocks generalizing d with
  | nil => simp [Lower.performEach, pure_ok, Draft.pushAll]
  | cons block blocks ih =>
    unfold Lower.performEach
    simp only [bind_ok, perform_ok h]
    constructor
    . rintro ⟨_, _, ⟨_, rfl⟩, hrest⟩
      exact (ih (h.push hopen _ _) (Draft.push_open h hopen _ _)).1 hrest
    . intro hrest
      exact ⟨_, _, ⟨rfl, rfl⟩, (ih (h.push hopen _ _) (Draft.push_open h hopen _ _)).2 hrest⟩

theorem copyAll_ok (h : d.Tidy) (hopen : d.Open) {pairs : List (Operand × Form)}
    {ids : List ValueId}
    : Lower.copyAll pairs d = .ok ids d'
        ↔
      ids = .range' d.spot.value pairs.length ∧
        d' = d.pushAll (pairs.map fun pair => (.const pair.1, pair.2.span)) := by
  induction pairs generalizing d ids with
  | nil => simp [Lower.copyAll, pure_ok, Draft.pushAll]
  | cons pair pairs ih =>
    obtain ⟨operand, init⟩ := pair
    unfold Lower.copyAll
    simp only [bind_ok, perform_ok h, pure_ok]
    have htidy := h.push hopen (.effect (.const operand)) init.span
    have hopen' := Draft.push_open h hopen (.const operand) init.span
    constructor
    . rintro ⟨_, _, ⟨rfl, rfl⟩, _, _, hrest, rfl, rfl⟩
      obtain ⟨rfl, rfl⟩ := (ih htidy hopen').1 hrest
      rw [Draft.push_spot h]
      exact ⟨rfl, rfl⟩
    . rintro ⟨rfl, rfl⟩
      refine ⟨_, _, ⟨rfl, rfl⟩, _, _, (ih htidy hopen').2 ⟨rfl, rfl⟩, ?_, rfl⟩
      rw [Draft.push_spot h]
      rfl

theorem bindLocals_ok {pairs : List (String × ValueId)} {a : Unit}
    : Lower.bindLocals pairs d = .ok a d' ↔ d' = d.within (d.scope.bindAll pairs) := by
  induction pairs generalizing d with
  | nil =>
    simp only [Lower.bindLocals, pure_ok, true_and]
    rfl
  | cons pair pairs ih =>
    obtain ⟨name, id⟩ := pair
    unfold Lower.bindLocals
    simp only [bind_ok, bindLocal_ok]
    have hscope : (d.scope.bind name id).bindAll pairs = d.scope.bindAll ((name, id) :: pairs) := by
      simp [Scope.bind, Scope.bindAll]
    constructor
    . rintro ⟨_, _, rfl, hrest⟩
      rw [ih.1 hrest, ← hscope]
      rfl
    . rintro rfl
      refine ⟨(), _, rfl, ih.2 ?_⟩
      rw [← hscope]
      rfl

end Lower

end Resumable
