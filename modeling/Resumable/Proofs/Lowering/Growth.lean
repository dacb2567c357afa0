import Resumable.Proofs.Lowering.Steps

/-!
This module contains how drafts grow. A draft only ever extends the one it came from, and a plan
that covers a draft covers everything that led to it.
-/

namespace Resumable

namespace Draft

structure Extends (touched : BlockId → Prop) (d d' : Draft) : Prop where
  code : ∀ b, d.code b <+: d'.code b
  frame : ∀ b, b < d.spot.fresh → ¬ touched b → d'.code b = d.code b
  value : d.spot.value ≤ d'.spot.value
  fresh : d.spot.fresh ≤ d'.spot.fresh
  added : ∀ {b : BlockId} {i : Nat} {ins : Instruction}, (d'.code b)[i]? = some ins →
    (d.code b)[i]? = some ins ∨ d.spot.value ≤ ins.id
  start : ∀ b, d.builder.start = some b → d'.builder.start = some b
  params : d'.builder.params = d.builder.params

namespace Extends

theorem refl (d : Draft) {touched : BlockId → Prop} : Extends touched d d where
  code _ := List.prefix_refl _
  frame _ _ _ := rfl
  value := Nat.le_refl _
  fresh := Nat.le_refl _
  added h := .inl h
  start _ h := h
  params := rfl

theorem trans {touched touched' : BlockId → Prop} {d e f : Draft} (h : Extends touched d e)
    (h' : Extends touched' e f) (hsub : ∀ b, b < d.spot.fresh → touched' b → touched b)
    : Extends touched d f where
  code b := (h.code b).trans (h'.code b)
  frame b hb htouched := by
    rw [h'.frame b (Nat.lt_of_lt_of_le hb h.fresh) (fun ht => htouched (hsub b hb ht))]
    exact h.frame b hb htouched
  value := Nat.le_trans h.value h'.value
  fresh := Nat.le_trans h.fresh h'.fresh
  added hi := by
    rcases h'.added hi with hold | hnew
    . exact h.added hold
    . exact .inr (Nat.le_trans h.value hnew)
  start b hb := h'.start b (h.start b hb)
  params := h'.params.trans h.params

theorem within {touched : BlockId → Prop} (d : Draft) (scope : Scope)
    : Extends touched d (d.within scope) where
  code _ := List.prefix_refl _
  frame _ _ _ := rfl
  value := Nat.le_refl _
  fresh := Nat.le_refl _
  added h := .inl h
  start _ h := h
  params := rfl

theorem goTo {touched : BlockId → Prop} (d : Draft) (b : BlockId)
    : Extends touched d (d.goTo b) where
  code _ := List.prefix_refl _
  frame _ _ _ := rfl
  value := Nat.le_refl _
  fresh := Nat.le_refl _
  added h := .inl h
  start _ h := h
  params := rfl

theorem opened {touched : BlockId → Prop} {d : Draft} (h : d.Tidy)
    : Extends touched d d.opened where
  code b := opened_code h ▸ List.prefix_refl _
  frame b _ _ := by rw [opened_code h]
  value := by rw [opened_spot h]; exact Nat.le_refl _
  fresh := by rw [opened_spot h]; exact Nat.le_succ _
  added hi := by
    rw [opened_code h] at hi
    exact .inl hi
  start b hb := by
    change d.builder.start.or _ = _
    rw [hb]
    rfl
  params := rfl

theorem openedBy {touched : BlockId → Prop} {d : Draft} (h : d.Tidy) (count : Nat)
    : Extends touched d (d.openedBy count) := by
  induction count generalizing d with
  | zero => exact refl d
  | succ count ih => exact (opened h).trans (ih h.opened) (fun _ _ ht => ht)

theorem push {d : Draft} (h : d.Tidy) (command : Command) (span : Span)
    : Extends (· = d.spot.block) d (d.push command span) where
  code b := by
    rw [push_code h]
    split
    . exact List.prefix_append _ _
    . exact List.prefix_refl _
  frame b _ hb := by rw [push_code h, if_neg (Ne.symm hb)]
  value := by rw [push_spot h]; exact Nat.le_succ _
  fresh := by rw [push_spot h]; exact Nat.le_refl _
  added hi := by
    rcases getElem?_push h hi with hold | ⟨_, _, rfl⟩
    . exact .inl hold
    . exact .inr (Nat.le_refl _)
  start b hb := by
    unfold Draft.push
    rw [add_eq h]
    exact hb
  params := by
    unfold Draft.push
    rw [add_eq h]

theorem pushAll {d : Draft} (h : d.Tidy) (hopen : d.Open) (effects : List (Effect × Span))
    : Extends (· = d.spot.block) d (d.pushAll effects) := by
  induction effects generalizing d with
  | nil => exact refl d
  | cons entry effects ih =>
    refine (push h (.effect entry.1) entry.2).trans (ih (h.push hopen _ _) (push_open h hopen _ _)) ?_
    intro b _ hb
    rw [push_spot h] at hb
    exact hb

theorem weaken {touched touched' : BlockId → Prop} {d d' : Draft} (h : Extends touched d d')
    (hsub : ∀ b, b < d.spot.fresh → touched b → touched' b)
    : Extends touched' d d' :=
  (refl d).trans h hsub

end Extends

end Draft

namespace Plan

structure Covers (plan : Plan) (d : Draft) (label : BlockId → Label) : Prop where
  code : ∀ b, d.code b <+: plan.code b
  label : ∀ b, b < d.spot.fresh → plan.label b = label b

theorem Covers.mono {plan : Plan} {touched : BlockId → Prop} {d d' : Draft}
    {label label' : BlockId → Label} (h : plan.Covers d' label')
    (hext : Draft.Extends touched d d') (hlabel : ∀ b, b < d.spot.fresh → label' b = label b)
    : plan.Covers d label where
  code b := (hext.code b).trans (h.code b)
  label b hb := by
    rw [h.label b (Nat.lt_of_lt_of_le hb hext.fresh)]
    exact hlabel b hb

theorem holds_append {plan : Plan} {s : Spot} {l m : List Command}
    : plan.Holds s (l ++ m) ↔ plan.Holds s l ∧ plan.Holds (s.skip l.length) m := by
  induction l generalizing s with
  | nil => simp [Holds, Spot.skip]
  | cons command l ih =>
    have hskip : (s.skip 1).skip l.length = s.skip (command :: l).length := by
      simp only [Spot.skip, List.length_cons, Spot.mk.injEq, true_and]
      lia
    rw [List.cons_append]
    simp only [Holds, ih, hskip, and_assoc]

theorem Holds.getElem? {plan : Plan} {s : Spot} {commands : List Command} {command : Command}
    (h : plan.Holds s commands) {k : Nat} (hk : commands[k]? = some command)
    : ∃ span, (plan.code s.block)[s.index + k]? = some ⟨s.value + k, command, span⟩ := by
  induction commands generalizing s k with
  | nil => cases hk
  | cons first commands ih =>
    cases k with
    | zero =>
      cases hk
      exact h.1
    | succ k =>
      obtain ⟨span, hspan⟩ := ih h.2 hk
      simp only [Spot.skip, Nat.add_assoc, Nat.add_comm 1] at hspan
      exact ⟨span, hspan⟩

theorem holds_push {plan : Plan} {d : Draft} (h : d.Tidy) {command : Command} {span : Span}
    (hcode : ∀ b, (d.push command span).code b <+: plan.code b)
    : plan.Holds d.spot [command] := by
  refine ⟨⟨span, ?_⟩, trivial⟩
  obtain ⟨rest, hrest⟩ := hcode d.spot.block
  rw [← hrest, Draft.push_code h, if_pos rfl, List.append_assoc]
  have hindex : d.spot.index = (d.code d.spot.block).length := rfl
  rw [hindex, List.getElem?_append_right (Nat.le_refl _)]
  simp

theorem holds_pushAll {plan : Plan} {d : Draft} (h : d.Tidy) (hopen : d.Open)
    {effects : List (Effect × Span)} (hcode : ∀ b, (d.pushAll effects).code b <+: plan.code b)
    : plan.Holds d.spot (effects.map (.effect ·.1)) := by
  induction effects generalizing d with
  | nil => trivial
  | cons entry effects ih =>
    have htidy := h.push hopen (.effect entry.1) entry.2
    have hopen' := Draft.push_open h hopen entry.1 entry.2
    have hrest := ih htidy hopen' hcode
    rw [Draft.push_spot h] at hrest
    have hfirst : ∀ b, (d.push (.effect entry.1) entry.2).code b <+: plan.code b := fun b =>
      ((Draft.Extends.pushAll htidy hopen' effects).code b).trans (hcode b)
    exact ⟨(holds_push h hfirst).1, hrest⟩

end Plan

namespace Draft

structure Grows (touched : BlockId → Prop) (live : Prop) (d d' : Draft)
    (holds : List BlockId → Plan → Prop) : Prop extends Extends touched d d' where
  tidy : d'.Tidy
  isOpen : live → d'.Open
  near : d'.spot.block < d.spot.fresh → touched d'.spot.block
  plan : ∀ (handlers : List BlockId) (label : BlockId → Label),
    ∃ label' : BlockId → Label, (∀ b, b < d.spot.fresh → label' b = label b) ∧
      ∀ plan : Plan, plan.Covers d' label' → holds handlers plan

namespace Grows

variable {touched touched' : BlockId → Prop} {live live' : Prop} {d e f : Draft}
  {holds holds' : List BlockId → Plan → Prop}

theorem refl (h : d.Tidy) : Grows (· = d.spot.block) d.Open d d (fun _ _ => True) where
  toExtends := .refl d
  tidy := h
  isOpen := id
  near _ := rfl
  plan _ label := ⟨label, fun _ _ => rfl, fun _ _ => trivial⟩

theorem trans (h : Grows touched live d e holds) (h' : Grows touched' live' e f holds')
    (hsub : ∀ b, b < d.spot.fresh → touched' b → touched b)
    : Grows touched live' d f (fun handlers plan => holds handlers plan ∧ holds' handlers plan) where
  toExtends := h.toExtends.trans h'.toExtends hsub
  tidy := h'.tidy
  isOpen := h'.isOpen
  near hb := hsub _ hb (h'.near (Nat.lt_of_lt_of_le hb h.fresh))
  plan handlers label := by
    obtain ⟨label₁, hlabel₁, hplan₁⟩ := h.plan handlers label
    obtain ⟨label₂, hlabel₂, hplan₂⟩ := h'.plan handlers label₁
    refine ⟨label₂, ?_, ?_⟩
    . intro b hb
      rw [hlabel₂ b (Nat.lt_of_lt_of_le hb h.fresh), hlabel₁ b hb]
    . intro plan hcovers
      exact ⟨hplan₁ plan (hcovers.mono h'.toExtends hlabel₂), hplan₂ plan hcovers⟩

theorem next (h : Grows touched live d e holds)
    (h' : Grows (· = e.spot.block) live' e f holds')
    : Grows touched live' d f (fun handlers plan => holds handlers plan ∧ holds' handlers plan) := by
  refine h.trans h' ?_
  rintro b hb rfl
  exact h.near hb

theorem map (h : Grows touched live d e holds)
    (hmap : ∀ handlers plan, holds handlers plan → holds' handlers plan)
    : Grows touched live d e holds' where
  toExtends := h.toExtends
  tidy := h.tidy
  isOpen := h.isOpen
  near := h.near
  plan handlers label := by
    obtain ⟨label', hlabel, hplan⟩ := h.plan handlers label
    exact ⟨label', hlabel, fun plan hcovers => hmap handlers plan (hplan plan hcovers)⟩

theorem inside (h : Grows touched live d e holds) (inner : List BlockId → List BlockId)
    : Grows touched live d e (fun handlers plan => holds (inner handlers) plan) where
  toExtends := h.toExtends
  tidy := h.tidy
  isOpen := h.isOpen
  near := h.near
  plan handlers label := h.plan (inner handlers) label

theorem weaken (h : Grows touched live d e holds)
    (hsub : ∀ b, b < d.spot.fresh → touched b → touched' b) (hlive : live' → live)
    : Grows touched' live' d e holds where
  toExtends := h.toExtends.weaken hsub
  tidy := h.tidy
  isOpen hl := h.isOpen (hlive hl)
  near hb := hsub _ hb (h.near hb)
  plan := h.plan

theorem push (h : d.Tidy) (hopen : d.Open) (command : Command) (span : Span)
    : Grows (· = d.spot.block) (∃ effect, command = .effect effect) d (d.push command span)
        (fun _ plan => plan.Holds d.spot [command]) where
  toExtends := .push h command span
  tidy := h.push hopen command span
  isOpen := by
    rintro ⟨effect, rfl⟩
    exact push_open h hopen effect span
  near _ := by rw [push_spot h]; rfl
  plan _ label := ⟨label, fun _ _ => rfl, fun _ hcovers => Plan.holds_push h hcovers.code⟩

theorem pushAll (h : d.Tidy) (hopen : d.Open) (effects : List (Effect × Span))
    : Grows (· = d.spot.block) True d (d.pushAll effects)
        (fun _ plan => plan.Holds d.spot (effects.map (.effect ·.1))) where
  toExtends := .pushAll h hopen effects
  tidy := h.pushAll hopen effects
  isOpen _ := pushAll_open h hopen effects
  near _ := by rw [pushAll_spot h hopen]; rfl
  plan _ label := ⟨label, fun _ _ => rfl, fun _ hcovers => Plan.holds_pushAll h hopen hcovers.code⟩

theorem openedBy (h : d.Tidy) (count : Nat) (inner : BlockId → List BlockId → Label)
    : Grows (· = d.spot.block) d.Open d (d.openedBy count)
        (fun handlers plan => ∀ b, d.spot.fresh ≤ b → b < d.spot.fresh + count →
          plan.label b = inner b handlers) where
  toExtends := .openedBy h count
  tidy := h.openedBy count
  isOpen hopen := openedBy_open h hopen count
  near _ := by rw [openedBy_spot h]; rfl
  plan handlers label := by
    refine ⟨fun b => if b < d.spot.fresh then label b else inner b handlers, ?_, ?_⟩
    . intro b hb
      exact if_pos hb
    . intro plan hcovers b hlow hhigh
      rw [hcovers.label b (by rw [openedBy_spot h]; exact hhigh), if_neg (Nat.not_lt.2 hlow)]

theorem goTo (h : d.Tidy) {b : BlockId} (hb : b < d.spot.fresh) (hempty : d.code b = [])
    : Grows (· = b) True d (d.goTo b) (fun _ _ => True) where
  toExtends := .goTo d b
  tidy := h.goTo hb
  isOpen _ := goTo_open hempty
  near _ := rfl
  plan _ label := ⟨label, fun _ _ => rfl, fun _ _ => trivial⟩

theorem within {inner : Scope} (h : Grows touched live (d.within inner) e holds) (outer : Scope)
    : Grows touched live d (e.within outer) holds where
  toExtends := ((Extends.within d inner).trans h.toExtends (fun _ _ ht => ht)).trans
    (Extends.within e outer) (fun _ _ ht => ht)
  tidy := h.tidy.within outer
  isOpen := h.isOpen
  near := h.near
  plan := by
    intro handlers label
    obtain ⟨label', hlabel, hplan⟩ := h.plan handlers label
    exact ⟨label', hlabel, fun plan hcovers => hplan plan ⟨hcovers.code, hcovers.label⟩⟩

theorem renamed {temporaries : Nat}
    (h : Grows touched live { d with temporaries := temporaries } e holds)
    : Grows touched live d e holds where
  toExtends := ⟨h.code, h.frame, h.value, h.fresh, h.added, h.start, h.params⟩
  tidy := h.tidy
  isOpen := h.isOpen
  near := h.near
  plan := h.plan

theorem row {block : BlockId} {rest : List BlockId} (h : Grows (· = block) live d e holds)
    (h' : Grows (fun b => b = e.spot.block ∨ b ∈ rest) live' e f holds')
    : Grows (fun b => b = d.spot.block ∨ b ∈ block :: rest) live' d f
        (fun handlers plan => holds handlers plan ∧ holds' handlers plan) := by
  have hfirst : Grows (fun b => b = d.spot.block ∨ b ∈ block :: rest) live d e holds := by
    refine h.weaken ?_ id
    rintro b _ rfl
    exact .inr (List.mem_cons_self ..)
  refine hfirst.trans h' ?_
  rintro b hb (rfl | hmem)
  . exact hfirst.near hb
  . exact .inr (List.mem_cons_of_mem _ hmem)

end Grows

def Blank (d : Draft) (blocks : List BlockId) : Prop :=
  ∀ b ∈ blocks, b < d.spot.fresh ∧ d.code b = []

theorem Extends.blank {touched : BlockId → Prop} {d e : Draft} {b : BlockId}
    (hext : Extends touched d e) (h : b < d.spot.fresh ∧ d.code b = []) (htouched : ¬ touched b)
    : b < e.spot.fresh ∧ e.code b = [] := by
  refine ⟨Nat.lt_of_lt_of_le h.1 hext.fresh, ?_⟩
  rw [hext.frame b h.1 htouched, h.2]

theorem Blank.mono {touched : BlockId → Prop} {d e : Draft} {blocks : List BlockId}
    (h : d.Blank blocks) (hext : Extends touched d e) (htouched : ∀ b ∈ blocks, ¬ touched b)
    : e.Blank blocks := by
  intro b hb
  exact hext.blank (h b hb) (htouched b hb)

theorem Blank.openedBy {d : Draft} (h : d.Tidy) (count : Nat)
    : (d.openedBy count).Blank (.range' d.spot.fresh count) := by
  intro b hb
  rw [List.mem_range'_1] at hb
  rw [openedBy_spot h, openedBy_code h]
  exact ⟨hb.2, h.beyond b hb.1⟩

theorem Blank.subset {d : Draft} {blocks blocks' : List BlockId} (h : d.Blank blocks)
    (hsub : blocks' ⊆ blocks)
    : d.Blank blocks' :=
  fun b hb => h b (hsub hb)

def leftTo (d : Draft) (count : Nat) (transfer : Transfer) (span : Span) : Draft :=
  (d.openedBy count).push (.transfer transfer) span

section

variable {d : Draft} (h : d.Tidy) (count : Nat) (transfer : Transfer) (span : Span)

include h

theorem leftTo_spot : (d.leftTo count transfer span).spot = (d.spot.opened count).skip 1 := by
  unfold leftTo
  rw [push_spot (h.openedBy count), openedBy_spot h]

theorem leftTo_scope : (d.leftTo count transfer span).scope = d.scope := by
  unfold leftTo
  rw [push_scope _ _ (h.openedBy count), openedBy_scope]

theorem Grows.leftTo (hopen : d.Open) (inner : BlockId → List BlockId → Label)
    : Grows (· = d.spot.block) False d (d.leftTo count transfer span)
        (fun handlers plan => (∀ b, d.spot.fresh ≤ b → b < d.spot.fresh + count →
          plan.label b = inner b handlers) ∧ plan.Holds d.spot [.transfer transfer]) := by
  have hopened := Grows.openedBy h count inner
  refine ((hopened.next (.push hopened.tidy (hopened.isOpen hopen) (.transfer transfer)
    span)).weaken (fun _ _ ht => ht) False.elim).map ?_
  rintro handlers plan ⟨hlabel, hholds⟩
  rw [openedBy_spot h] at hholds
  exact ⟨hlabel, hholds⟩

theorem Blank.leftTo
    : (d.leftTo count transfer span).Blank (.range' d.spot.fresh count) := by
  refine (Blank.openedBy h count).mono (Extends.push (h.openedBy count) _ _) ?_
  intro b hb
  have hinside := h.inside
  rw [List.mem_range'_1] at hb
  rw [openedBy_spot h]
  simp only [Spot.opened]
  lia

end

end Draft

end Resumable
