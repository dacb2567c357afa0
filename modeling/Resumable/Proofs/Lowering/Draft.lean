import Resumable.Proofs.Lowering.Code
import Resumable.Proofs.Table

/-!
This module contains what the steps of lowering do to the code of the blocks in a draft. A tidy
draft stays tidy: blocks grow at their ends only, and nothing follows a transfer.
-/

namespace Resumable

def Table.code (blocks : Table BlockId Block) (b : BlockId) : List Instruction :=
  ((blocks.get? b).map (·.code)).getD []

structure Orderly (code : BlockId → List Instruction) : Prop where
  last : ∀ {b : BlockId} {i : Nat} {ins : Instruction}, (code b)[i]? = some ins →
    ins.isTransfer = true → (code b).length = i + 1
  unique : ∀ {b b' : BlockId} {i i' : Nat} {ins ins' : Instruction}, (code b)[i]? = some ins →
    (code b')[i']? = some ins' → ins.id = ins'.id → b = b' ∧ i = i'
  ordered : ∀ {b : BlockId} {i j : Nat} {ins ins' : Instruction}, (code b)[i]? = some ins →
    (code b)[j]? = some ins' → i < j → ins.id < ins'.id

namespace Draft

def code (d : Draft) (b : BlockId) : List Instruction :=
  d.builder.blocks.code b

def spot (d : Draft) : Spot :=
  let block := d.builder.current.getD 0
  { block := block
    index := (d.code block).length
    value := d.builder.nextValue
    fresh := d.builder.nextBlock }

def scope (d : Draft) : Scope :=
  d.builder.scope

def within (d : Draft) (scope : Scope) : Draft :=
  { d with builder := { d.builder with scope := scope } }

def opened (d : Draft) : Draft :=
  { d with builder := d.builder.newBlock.2 }

def goTo (d : Draft) (b : BlockId) : Draft :=
  { d with builder := d.builder.goTo b }

def push (d : Draft) (command : Command) (span : Span) : Draft :=
  { d with builder := (d.builder.add command span).2 }

structure Tidy (d : Draft) : Prop extends Orderly d.code where
  current : d.builder.current = some d.spot.block
  inside : d.spot.block < d.spot.fresh
  beyond : ∀ b, d.spot.fresh ≤ b → d.code b = []
  bound : ∀ {b : BlockId} {i : Nat} {ins : Instruction}, (d.code b)[i]? = some ins → ins.id < d.spot.value
  ascending : d.builder.blocks.Ascending

def Open (d : Draft) : Prop :=
  ∀ ins ∈ d.code d.spot.block, ins.isTransfer = false

@[simp]
theorem within_spot (d : Draft) (scope : Scope) : (d.within scope).spot = d.spot := rfl

@[simp]
theorem within_scope (d : Draft) (scope : Scope) : (d.within scope).scope = scope := rfl

theorem Tidy.within {d : Draft} (h : d.Tidy) (scope : Scope) : (d.within scope).Tidy where
  current := h.current
  inside := h.inside
  beyond := h.beyond
  toOrderly := h.toOrderly
  bound := h.bound
  ascending := h.ascending

theorem Tidy.renamed {d : Draft} (h : d.Tidy) (temporaries : Nat)
    : ({ d with temporaries := temporaries } : Draft).Tidy where
  current := h.current
  inside := h.inside
  beyond := h.beyond
  toOrderly := h.toOrderly
  bound := h.bound
  ascending := h.ascending

@[simp]
theorem opened_scope (d : Draft) : d.opened.scope = d.scope := rfl

theorem opened_code {d : Draft} (h : d.Tidy) : d.opened.code = d.code := by
  funext b
  have hcode : d.opened.code b = if d.spot.fresh = b then [] else d.code b := by
    simp only [code, opened, Table.code, Builder.newBlock, Table.get?_insert, spot]
    split <;> simp_all
  rw [hcode]
  split
  . next hb => rw [h.beyond b (Nat.le_of_eq hb)]
  . rfl

@[simp]
theorem opened_spot {d : Draft} (h : d.Tidy) : d.opened.spot = d.spot.opened 1 := by
  unfold spot
  rw [opened_code h]
  rfl

theorem Tidy.opened {d : Draft} (h : d.Tidy) : d.opened.Tidy where
  current := by rw [opened_spot h]; exact h.current
  inside := by
    rw [opened_spot h]
    exact Nat.lt_succ_of_lt h.inside
  beyond := by
    intro b hb
    rw [opened_spot h] at hb
    rw [opened_code h]
    exact h.beyond b (Nat.le_of_succ_le hb)
  toOrderly := by rw [opened_code h]; exact h.toOrderly
  bound := by rw [opened_code h, opened_spot h]; exact h.bound
  ascending := h.ascending.insert _ _

@[simp]
theorem goTo_scope (d : Draft) (b : BlockId) : (d.goTo b).scope = d.scope := rfl

theorem goTo_spot {d : Draft} {b : BlockId} (h : d.code b = []) : (d.goTo b).spot = d.spot.goTo b := by
  have : (d.goTo b).spot = { d.spot with block := b, index := (d.code b).length } := rfl
  rw [this, h]
  rfl

theorem Tidy.goTo {d : Draft} (h : d.Tidy) {b : BlockId} (hb : b < d.spot.fresh)
    : (d.goTo b).Tidy where
  current := rfl
  inside := hb
  beyond := h.beyond
  toOrderly := h.toOrderly
  bound := h.bound
  ascending := h.ascending

theorem goTo_open {d : Draft} {b : BlockId} (h : d.code b = []) : (d.goTo b).Open := by
  intro ins hins
  have : (d.goTo b).code (d.goTo b).spot.block = d.code b := rfl
  rw [this, h] at hins
  simp at hins

theorem add_eq {d : Draft} (h : d.Tidy) (command : Command) (span : Span)
    : d.builder.add command span
        =
      (d.spot.value, { d.builder with
        nextValue := d.spot.value + 1
        blocks := d.builder.blocks.insert d.spot.block
          { (d.builder.blocks.get? d.spot.block).getD {} with
            code := d.code d.spot.block ++ [{ id := d.spot.value, command, span }] } }) := by
  have hcode : ∀ b, ((d.builder.blocks.get? b).getD {}).code = d.code b := by
    intro b
    unfold code Table.code
    cases d.builder.blocks.get? b <;> rfl
  have hcurrent := h.current
  simp only [Builder.add, Builder.freshValue, Builder.currentBlock, hcurrent]
  simp only [hcode]
  rfl

theorem push_code {d : Draft} (h : d.Tidy) (command : Command) (span : Span) (b : BlockId)
    : (d.push command span).code b
        =
      if d.spot.block = b then d.code b ++ [{ id := d.spot.value, command, span }]
      else d.code b := by
  unfold push
  rw [add_eq h]
  simp only [code, Table.code, Table.get?_insert]
  split
  . next hb => simp [hb]
  . rfl

@[simp]
theorem push_scope {d : Draft} (command : Command) (span : Span) (h : d.Tidy)
    : (d.push command span).scope = d.scope := by
  unfold push
  rw [add_eq h]
  rfl

theorem push_spot {d : Draft} (h : d.Tidy) (command : Command) (span : Span)
    : (d.push command span).spot = d.spot.skip 1 := by
  have hcode := push_code h command span d.spot.block
  rw [if_pos rfl] at hcode
  unfold push at hcode ⊢
  rw [add_eq h] at hcode ⊢
  unfold spot at hcode ⊢
  simp only [Spot.skip]
  dsimp only at hcode ⊢
  rw [hcode, List.length_append]
  rfl

theorem getElem?_push {d : Draft} (h : d.Tidy) {command : Command} {span : Span} {b : BlockId}
    {i : Nat} {ins : Instruction} (hi : ((d.push command span).code b)[i]? = some ins)
    : (d.code b)[i]? = some ins ∨
        b = d.spot.block ∧ i = d.spot.index ∧ ins = { id := d.spot.value, command, span } := by
  rw [push_code h] at hi
  split at hi
  . next hb =>
    rw [List.getElem?_append] at hi
    split at hi
    . exact .inl hi
    . next hlt =>
      right
      have hzero : i - (d.code b).length = 0 := by
        have := (List.getElem?_eq_some_iff.1 hi).1
        simp only [List.length_singleton] at this
        omega
      have hindex : d.spot.index = (d.code b).length := by rw [← hb]; rfl
      rw [hzero] at hi
      simp only [List.getElem?_cons_zero, Option.some.injEq] at hi
      exact ⟨hb.symm, by omega, hi.symm⟩
  . exact .inl hi

theorem Tidy.push_orderly {d : Draft} (h : d.Tidy) (hopen : d.Open) (command : Command)
    (span : Span)
    : Orderly (d.push command span).code := by
  constructor
  . intro b i ins hi htransfer
    rw [push_code h]
    rcases getElem?_push h hi with hold | ⟨rfl, rfl, rfl⟩
    . split
      . next hb =>
        subst hb
        have := hopen ins (List.mem_of_getElem? hold)
        simp [htransfer] at this
      . exact h.last hold htransfer
    . rw [if_pos rfl, List.length_append]
      rfl
  . intro b b' i i' ins ins' hi hi' hid
    rcases getElem?_push h hi with hold | ⟨rfl, rfl, rfl⟩
    . rcases getElem?_push h hi' with hold' | ⟨rfl, rfl, rfl⟩
      . exact h.unique hold hold' hid
      . have := h.bound hold
        simp only at hid
        lia
    . rcases getElem?_push h hi' with hold' | ⟨rfl, rfl, rfl⟩
      . have := h.bound hold'
        simp only at hid
        lia
      . exact ⟨rfl, rfl⟩
  . intro b i j ins ins' hi hj hij
    rcases getElem?_push h hj with hold' | ⟨rfl, rfl, rfl⟩
    . rcases getElem?_push h hi with hold | ⟨rfl, rfl, rfl⟩
      . exact h.ordered hold hold' hij
      . have := (List.getElem?_eq_some_iff.1 hold').1
        have hindex : d.spot.index = (d.code d.spot.block).length := rfl
        omega
    . rcases getElem?_push h hi with hold | ⟨_, rfl, _⟩
      . exact h.bound hold
      . omega

theorem Tidy.push {d : Draft} (h : d.Tidy) (hopen : d.Open) (command : Command) (span : Span)
    : (d.push command span).Tidy := by
  have hspot := push_spot h command span
  refine ⟨h.push_orderly hopen command span, ?_, ?_, ?_, ?_, ?_⟩
  . rw [hspot]
    unfold Draft.push
    rw [add_eq h]
    exact h.current
  . rw [hspot]
    exact h.inside
  . intro b hb
    rw [hspot] at hb
    rw [push_code h, if_neg]
    . exact h.beyond b hb
    . have := h.inside
      simp only [Spot.skip] at hb
      lia
  . intro b i ins hi
    rw [hspot]
    rcases getElem?_push h hi with hold | ⟨rfl, rfl, rfl⟩
    . exact Nat.lt_succ_of_lt (h.bound hold)
    . exact Nat.lt_succ_self _
  . unfold Draft.push
    rw [add_eq h]
    exact h.ascending.insert _ _

theorem push_open {d : Draft} (h : d.Tidy) (hopen : d.Open) (effect : Effect) (span : Span)
    : (d.push (.effect effect) span).Open := by
  intro ins hins
  have hblock : (d.push (.effect effect) span).spot.block = d.spot.block := by
    rw [push_spot h]
    rfl
  rw [hblock, push_code h, if_pos rfl] at hins
  rcases List.mem_append.1 hins with hold | hnew
  . exact hopen ins hold
  . rw [List.mem_singleton.1 hnew]
    rfl

end Draft

end Resumable
