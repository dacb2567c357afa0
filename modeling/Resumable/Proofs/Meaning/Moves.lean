import Mathlib.Data.List.Forall2
import Resumable.Proofs.Lowering.Code
import Resumable.Proofs.Meaning.Native
import Resumable.Proofs.Slots.Assignment

/-!
This module contains how control moves through the code of a plan, instruction by instruction, when
no handlers are in force. Values are given out and taken in on the way.
-/

namespace Resumable

open Direct (World Report)

structure Config where
  block : BlockId
  index : Nat
  values : ValueId → Value
  pending : Value
  world : World

namespace Config

def Reads (c : Config) : Operand → Value → Prop
  | .result id, value => c.values id = value
  | .literal literal, value => literal = value
  | .global name, value => c.world.store.globals.get? name = some value
  | .pending, value => c.pending = value

def Finds (c : Config) (plan : Plan) (id : ValueId) (command : Command) : Prop :=
  ∃ span, (plan.code c.block)[c.index]? = some ⟨id, command, span⟩

def write (c : Config) (values : ValueId → Value) : Config :=
  { c with index := c.index + 1, values := values }

def enter (c : Config) (block : BlockId) : Config :=
  { c with block := block, index := 0 }

def enterWith (c : Config) (block : BlockId) (value : Value) : Config :=
  { c.enter block with pending := value }

def exchange (c : Config) (block : BlockId) (input : Value) (rest : List Value) (output : Value) :
    Config :=
  ⟨block, 0, c.values, input, ⟨c.world.store, rest, c.world.outputs ++ [output]⟩⟩

end Config

inductive Plan.Does (plan : Plan) (host : HostFunctions) (c : Config) : Config → Prop where
  | const {id : ValueId} {operand : Operand} {value : Value} :
    c.Finds plan id (.effect (.const operand)) → c.Reads operand value →
      plan.Does host c (c.write (update c.values id value))
  | call {id : ValueId} {callee : Operand} {args : List Operand} {f value : Value}
      {values : List Value} {store : Store} :
    c.Finds plan id (.effect (.call callee args)) → c.Reads callee f →
      List.Forall₂ c.Reads args values → f.Native →
      Direct.call host f values c.world.store = .ok value store →
        plan.Does host c
          { c.write (update c.values id value) with world := { c.world with store } }
  | recur {id : ValueId} {targets : List ValueId} {args : List Operand} {values : List Value} :
    c.Finds plan id (.effect (.recur targets args)) → List.Forall₂ c.Reads args values →
      plan.Does host c (c.write (updateAll c.values (targets.zip values)))

/--
The ways from one block to another.
-/
inductive Plan.Jumps (plan : Plan) (c : Config) : Config → Prop where
  | jump {id : ValueId} {target : BlockId} :
    c.Finds plan id (.transfer (.jump none target)) → plan.Jumps c (c.enter target)
  | handOver {id : ValueId} {operand : Operand} {target : BlockId} {value : Value} :
    c.Finds plan id (.handOver operand target) → c.Reads operand value →
      plan.Jumps c (c.enterWith target value)
  | branch {id : ValueId} {operand : Operand} {yes no : BlockId} {value : Value} :
    c.Finds plan id (.transfer (.branch operand yes no)) → c.Reads operand value →
      plan.Jumps c (c.enter (if value.isTruthy then yes else no))
  | case {id : ValueId} {operand : Operand} {tests : List (List Value)} {clauses : List BlockId}
      {fallback : Option BlockId} {target : BlockId} {value : Value} :
    c.Finds plan id (.transfer (.case operand tests clauses fallback)) → c.Reads operand value →
      (Exec.findClause value tests clauses).or fallback = some target →
        plan.Jumps c (c.enter target)

inductive Plan.Yields (plan : Plan) (c : Config) : Config → Prop where
  | yield {id : ValueId} {resume : BlockId} {args : List Operand} {values rest : List Value}
      {input : Value} :
    c.Finds plan id (.transfer (.suspend "yield" resume args)) →
      List.Forall₂ c.Reads args values → c.world.inputs = input :: rest →
        plan.Yields c (c.exchange resume input rest (values.headD .nil))

inductive Plan.Ends (plan : Plan) (host : HostFunctions) (c : Config) : Report → Prop where
  | done {id : ValueId} {operand : Operand} {value : Value} :
    c.Finds plan id (.transfer (.finish operand)) → c.Reads operand value →
      plan.Ends host c ⟨.done value, c.world⟩
  | call {id : ValueId} {callee : Operand} {args : List Operand} {f thrown : Value}
      {values : List Value} {store : Store} :
    c.Finds plan id (.effect (.call callee args)) → c.Reads callee f →
      List.Forall₂ c.Reads args values → f.Native →
      Direct.call host f values c.world.store = .error (.thrown thrown) store →
        plan.Ends host c ⟨.fault thrown, { c.world with store }⟩
  | case {id : ValueId} {operand : Operand} {tests : List (List Value)} {clauses : List BlockId}
      {fallback : Option BlockId} {value : Value} :
    c.Finds plan id (.transfer (.case operand tests clauses fallback)) → c.Reads operand value →
      (Exec.findClause value tests clauses).or fallback = none →
        plan.Ends host c
          ⟨.fault (Fault.noClause (c.world.store.heap.write value)).toValue, c.world⟩
  | waiting {id : ValueId} {resume : BlockId} {args : List Operand} {values : List Value} :
    c.Finds plan id (.transfer (.suspend "yield" resume args)) →
      List.Forall₂ c.Reads args values → c.world.inputs = [] →
        plan.Ends host c ⟨.waiting,
          { c.world with outputs := c.world.outputs ++ [values.headD .nil] }⟩

inductive Plan.Moves (plan : Plan) (host : HostFunctions) :
    Config → Nat → Config → Prop where
  | refl {c : Config} : plan.Moves host c 0 c
  | does {c c' c'' : Config} {m : Nat} :
    plan.Does host c c' → plan.Moves host c' m c'' → plan.Moves host c m c''
  | jumps {c c' c'' : Config} {m : Nat} :
    plan.Jumps c c' → plan.Moves host c' m c'' → plan.Moves host c (m + 1) c''
  | yields {c c' c'' : Config} {m : Nat} :
    plan.Yields c c' → plan.Moves host c' m c'' → plan.Moves host c (m + 1) c''

namespace Plan

variable {plan : Plan} {host : HostFunctions} {c c' c'' : Config} {m k n : Nat}

theorem Moves.trans (h : plan.Moves host c m c') (h' : plan.Moves host c' k c'')
    : plan.Moves host c (m + k) c'' := by
  induction h with
  | refl => simpa using h'
  | does hdoes _ ih => exact .does hdoes (ih h')
  | jumps hjumps _ ih =>
    rw [Nat.add_right_comm]
    exact .jumps hjumps (ih h')
  | yields hyields _ ih =>
    rw [Nat.add_right_comm]
    exact .yields hyields (ih h')

def Long (plan : Plan) (host : HostFunctions) (c : Config) (n : Nat) : Prop :=
  ∃ c' m, n ≤ m ∧ plan.Moves host c m c'

theorem Moves.long (h : plan.Moves host c m c') (hlong : plan.Long host c' n)
    : plan.Long host c (m + n) := by
  obtain ⟨c'', k, hle, hmoves⟩ := hlong
  exact ⟨c'', m + k, Nat.add_le_add_left hle m, h.trans hmoves⟩

theorem Long.mono (h : plan.Long host c n) (hle : k ≤ n)
    : plan.Long host c k := by
  obtain ⟨c', m, hm, hmoves⟩ := h
  exact ⟨c', m, Nat.le_trans hle hm, hmoves⟩

theorem long_zero (c : Config) : plan.Long host c 0 :=
  ⟨c, 0, Nat.le_refl _, .refl⟩

end Plan

end Resumable
