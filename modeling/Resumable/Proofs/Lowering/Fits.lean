import Resumable.Proofs.Lowering.Graph

/-!
This module contains what every single instruction and every single block of lowered code has to
fulfil: results are read after they have been given, handlers are pushed and popped in order, and
transfers lead to blocks that belong where the transfer is.
-/

namespace Resumable

def Command.stack (handlers : List BlockId) : Command → List BlockId
  | .effect (.pushHandler block) => block :: handlers
  | .effect (.popHandler block) => if handlers.head? = some block then handlers.tail else handlers
  | _ => handlers

def Effect.isPlain : Effect → Bool
  | .const _ | .call _ _ | .lambda _ _ | .field _ _ _ | .method _ _ _ | .setGlobal _ _
  | .setField _ _ _ => true
  | _ => false

def Effect.isNameable : Effect → Bool
  | .setLocal _ _ => true
  | e => e.isPlain

def Label.enter (label : Label) (b : BlockId) : List BlockId :=
  match label.role with
  | .plain => label.under
  | .dispatch | .cleanup => b :: label.under

namespace Plan

def stackAt (plan : Plan) (b : BlockId) (i : Nat) : List BlockId :=
  ((plan.code b).take i).foldl (fun handlers ins => ins.command.stack handlers)
    ((plan.label b).enter b)

def Gives (plan : Plan) (id : ValueId) : Prop :=
  ∃ (b : BlockId) (i : Nat) (effect : Effect) (span : Span),
    (plan.code b)[i]? = some { id, command := .effect effect, span } ∧ effect.isNameable = true

def Leads (plan : Plan) (handlers inside : List BlockId) (target : BlockId) : Prop :=
  plan.label target = { under := handlers, role := .plain, inside } ∨
    ∃ under, plan.label target = { under, role := .cleanup, inside := target :: inside } ∧
      (handlers = under ∨ handlers = target :: under)

def Guards (plan : Plan) (handlers inside : List BlockId) (target : BlockId) : Prop :=
  plan.label target = { under := handlers, role := .dispatch, inside } ∨
    plan.label target = { under := handlers, role := .cleanup, inside := target :: inside }

def Ready (plan : Plan) (params : Nat) (reader id : ValueId) : Prop :=
  id < reader ∧ (id < params ∨ plan.Gives id)

def AllReady (plan : Plan) (params : Nat) (reader : ValueId) (operands : List Operand) : Prop :=
  ∀ id, .result id ∈ operands → plan.Ready params reader id

def Takes (plan : Plan) (block : BlockId) (exception : ValueId) : Prop :=
  ∃ span, (plan.code block)[1]? = some { id := exception, command := .effect .takeException, span }

inductive Fits (plan : Plan) (params : Nat) (b : BlockId) (i : Nat) (id : ValueId) :
    Command → Prop where
  | plain {e : Effect} :
    e.isPlain = true → plan.AllReady params id e.operands → plan.Fits params b i id (.effect e)
  | setLocal {target : ValueId} {value : Operand} :
    plan.Ready params id target → plan.AllReady params id [value] →
      plan.Fits params b i id (.effect (.setLocal target value))
  | recur {targets : List ValueId} {args : List Operand} :
    targets.Nodup → targets.length = args.length → (∀ target ∈ targets, plan.Ready params id target) →
      plan.AllReady params id args → plan.Fits params b i id (.effect (.recur targets args))
  | push {block : BlockId} :
    plan.Guards (plan.stackAt b i) (plan.label b).inside block →
      plan.Fits params b i id (.effect (.pushHandler block))
  | pop {block : BlockId} {rest : List BlockId} :
    plan.stackAt b i = block :: rest → plan.Guards rest (plan.label b).inside block →
      plan.Fits params b i id (.effect (.popHandler block))
  | popOwn :
    (plan.label b).role ≠ .plain → plan.stackAt b i = b :: (plan.label b).under →
      plan.Fits params b i id (.effect (.popHandler b))
  | take :
    (plan.label b).role = .cleanup → i = 1 → plan.Fits params b i id (.effect .takeException)
  | endFinally {block : BlockId} {outer : List BlockId} {exception : ValueId} :
    plan.Takes block exception → exception < id → (plan.label b).inside = block :: outer →
      plan.stackAt b i = (plan.label block).under →
        plan.Fits params b i id (.effect (.endFinally (.result exception)))
  | finish {value : Operand} :
    plan.AllReady params id [value] → plan.Fits params b i id (.transfer (.finish value))
  | leave {t : Transfer} :
    plan.AllReady params id t.operands →
      (∀ target ∈ t.references, plan.Leads (plan.stackAt b i) (plan.label b).inside target) →
      (∀ clauses, t = .dispatch clauses → (plan.label b).role = .dispatch) →
        plan.Fits params b i id (.transfer t)
  | leaveFinally {block : BlockId} {outer : List BlockId} {value : Operand} {exit : BlockId}
      {exception : ValueId} {j : Nat} {before : Instruction} :
    plan.Takes block exception → i = j + 1 → (plan.code b)[j]? = some before →
      before.command = .effect (.endFinally (.result exception)) →
      plan.AllReady params id [value] → (plan.label b).inside = block :: outer →
      plan.label exit = { under := plan.stackAt b i, role := .plain, inside := outer } →
        plan.Fits params b i id (.handOver value exit)

structure BlockFits (options : CompileOptions) (plan : Plan) (b : BlockId) : Prop where
  under : ∀ h ∈ (plan.label b).under, h < b
  inside : ∀ g ∈ (plan.label b).inside, g ≤ b
  dispatch : (plan.label b).role = .dispatch →
    ∃ handlers scope s blocks catches live t,
      Code options plan handlers scope s (.catching blocks catches live) none t ∧
        blocks.dispatch = some b ∧ plan.label b =
          { under := blocks.cleanup.toList ++ handlers, role := .dispatch, inside := scope.finallys }
  cleanup : (plan.label b).role = .cleanup →
    ∃ handlers scope s blocks forms live t,
      Code options plan handlers scope s (.cleanup blocks (some forms) live) none t ∧
        blocks.cleanup = some b ∧ (∀ g ∈ scope.finallys, g < b) ∧ plan.label b =
          { under := handlers, role := .cleanup, inside := b :: scope.finallys }

theorem stackAt_zero (plan : Plan) (b : BlockId) : plan.stackAt b 0 = (plan.label b).enter b := rfl

theorem stackAt_succ {plan : Plan} {b : BlockId} {i : Nat} {ins : Instruction}
    (h : (plan.code b)[i]? = some ins)
    : plan.stackAt b (i + 1) = ins.command.stack (plan.stackAt b i) := by
  unfold stackAt
  rw [List.take_add_one, h, List.foldl_append]
  rfl

end Plan

end Resumable
