import Resumable.Proofs.Monad
import Resumable.Run.Step

/-!
This module contains the proof that fuel decides only whether a run comes to its end, and never how
it ends.
-/

namespace Resumable

def Approximates {σ α : Type} (x y : EStateM Stop σ α) : Prop :=
  ∀ s, (∃ s', x s = .error .outOfFuel s') ∨ x s = y s

namespace Approximates

variable {σ α β : Type}

theorem refl (x : EStateM Stop σ α) : Approximates x x :=
  fun _ => .inr rfl

theorem bind {x y : EStateM Stop σ α} {j k : α → EStateM Stop σ β} (hx : Approximates x y)
    (hk : ∀ a, Approximates (j a) (k a))
    : Approximates (x >>= j) (y >>= k) := by
  intro s
  rcases hx s with ⟨s', hout⟩ | heq
  . exact .inl ⟨s', bind_of_error hout⟩
  . cases hok : x s with
    | ok a t =>
      rw [bind_of_ok hok, bind_of_ok (heq.symm.trans hok)]
      exact hk a t
    | error stop t =>
      rw [bind_of_error hok, bind_of_error (heq.symm.trans hok)]
      exact .inr rfl

end Approximates

namespace Exec

variable {α : Type} {c d : Caller}

theorem approximates_onStore {a b : Action α} (h : Approximates a b)
    : Approximates (onStore a) (onStore b) := by
  intro frame
  unfold onStore
  rcases h frame.store with ⟨store, hout⟩ | heq
  . rw [hout]
    exact .inl ⟨_, rfl⟩
  . rw [heq]
    exact .inr rfl

theorem approximates_callMethod (h : ∀ callee args, Approximates (c callee args) (d callee args))
    (object : Value) (name : String) (args : List Value)
    : Approximates (callMethod c object name args) (callMethod d object name args) := by
  cases object with
  | record ref =>
    apply Approximates.bind (.refl _)
    intro heap
    dsimp only
    split
    . exact h _ _
    . exact .refl _
  | _ => exact .refl _

theorem approximates_op (h : ∀ callee args, Approximates (c callee args) (d callee args)) (o : Op)
    : Approximates (op c o) (op d o) := by
  cases o with
  | call target callee args =>
    apply Approximates.bind (.refl _)
    intro callee
    apply Approximates.bind (.refl _)
    intro args
    exact .bind (approximates_onStore (h callee args)) fun _ => .refl _
  | method target object name args =>
    apply Approximates.bind (.refl _)
    intro object
    apply Approximates.bind (.refl _)
    intro args
    exact .bind (approximates_onStore (approximates_callMethod h object name args)) fun _ => .refl _
  | _ => exact .refl _

theorem approximates_ops (h : ∀ callee args, Approximates (c callee args) (d callee args))
    (list : List Op)
    : Approximates (ops c list) (ops d list) := by
  induction list with
  | nil => exact .refl _
  | cons o list ih => exact .bind (approximates_op h o) fun _ => ih

theorem approximates_block (h : ∀ callee args, Approximates (c callee args) (d callee args))
    (code : BlockProgram)
    : Approximates (block c code) (block d code) := by
  apply Approximates.bind (.refl _)
  intro _
  exact .bind (approximates_ops h code.ops) fun _ => .refl _

end Exec

namespace Run

def Runner.Approximates (run more : Runner) : Prop :=
  ∀ program, Resumable.Approximates (α := Step) (run program) (more program)

variable {run more : Runner}

theorem approximates_callClosure (h : run.Approximates more) (self : Value) (code : Lambda)
    (captured args : List Value)
    : Approximates (callClosure run self code captured args)
        (callClosure more self code captured args) := by
  apply Approximates.bind (.refl _)
  intro _
  split
  . exact .refl _
  . next program _ =>
    apply Approximates.bind (.refl _)
    intro state store
    rcases h program ⟨state, store⟩ with ⟨p, hout⟩ | heq
    . exact .inl ⟨p.store, by simp only [hout]⟩
    . exact .inr (by simp only [heq])

theorem approximates_call (h : run.Approximates more) (machines : Machines) (callee : Value)
    (args : List Value)
    : Approximates (call machines run callee args) (call machines more callee args) := by
  unfold call
  split
  case h_2 => exact approximates_callClosure h _ _ _ _
  all_goals exact .refl _

def Turn.Approximates (turn more : Turn) : Prop :=
  (∃ p, turn = .ended (.error .outOfFuel p)) ∨ turn = more

theorem approximates_answer (h : run.Approximates more) (machines : Machines) (reply : Reply)
    (store : Store)
    : (answer machines run reply store).Approximates (answer machines more reply store) := by
  cases reply with
  | control | fault => exact .inr rfl
  | drive state decide =>
    simp only [answer]
    split
    . exact .inr rfl
    . next program _ =>
      rcases h program ⟨state, store⟩ with ⟨p, hout⟩ | heq
      . exact .inl ⟨p, by simp only [hout]⟩
      . exact .inr (by simp only [heq])

theorem approximates_turn (h : run.Approximates more) (machines : Machines)
    (program : Program) (block : BlockId) (p : Process)
    : (turn machines run program block p).Approximates (turn machines more program block p) := by
  unfold turn
  cases program.blocks.get? block with
  | none => exact .inr rfl
  | some code =>
    rcases Exec.approximates_block (approximates_call h machines) code { toProcess := p }
      with ⟨frame, hout⟩ | heq
    . exact .inl ⟨frame.toProcess, by simp only [hout]⟩
    . simp only [← heq]
      split
      . exact .inr rfl
      . exact .inr rfl
      . exact approximates_answer h machines _ _
      . exact .inr rfl
      . exact .inr rfl

end Run

namespace Program

variable {machines : Machines}

def Ends (machines : Machines) (program : Program) (fuel : Nat) (p : Process) : Prop :=
  ∀ r, Program.run machines fuel program p ≠ .error .outOfFuel r

section

variable {program : Program} {p p' : Process} {b : BlockId} {first : Nat}

theorem run_again (hstatus : p.state.status? = some (.running b))
    (hturn : Run.turn machines (Program.run machines first) program b p = .again p')
    : Program.run machines (first + 1) program p = Program.run machines first program p' := by
  rw [Program.run, hstatus]
  simp only [hturn]

theorem run_ended {outcome : Outcome} (hstatus : p.state.status? = some (.running b))
    (hturn : Run.turn machines (Program.run machines first) program b p = .ended outcome)
    : Program.run machines (first + 1) program p = outcome := by
  rw [Program.run, hstatus]
  simp only [hturn]

end

theorem run_approximates (fuel : Nat)
    : Run.Runner.Approximates (Program.run machines fuel) (Program.run machines (fuel + 1)) := by
  induction fuel with
  | zero => exact fun _ p => .inl ⟨p, rfl⟩
  | succ fuel ih =>
    intro program p
    change (∃ q, Program.run machines (fuel + 1) program p = .error .outOfFuel q)
      ∨ Program.run machines (fuel + 1) program p = Program.run machines (fuel + 2) program p
    rw [Program.run, Program.run]
    split
    . exact .inr rfl
    . exact .inr rfl
    . next block _ =>
      rcases Run.approximates_turn ih machines program block p with ⟨q, hout⟩ | heq
      . exact .inl ⟨q, by simp only [hout]⟩
      . rw [← heq]
        split
        . exact ih program _
        . exact .inr rfl

theorem run_mono {fuel more : Nat} (hle : fuel ≤ more)
    : Run.Runner.Approximates (Program.run machines fuel) (Program.run machines more) := by
  induction hle with
  | refl => exact fun _ => .refl _
  | @step more _ ih =>
    intro program p
    rcases ih program p with hout | heq
    . exact .inl hout
    . rcases run_approximates more program p with ⟨q, hout⟩ | heq'
      . exact .inl ⟨q, heq.trans hout⟩
      . exact .inr (heq.trans heq')

theorem run_eq_of_le {fuel more : Nat} (hle : fuel ≤ more) {program : Program} {p : Process}
    (hends : program.Ends machines fuel p)
    : Program.run machines more program p = Program.run machines fuel program p := by
  rcases run_mono hle program p with ⟨q, hout⟩ | heq
  . exact absurd hout (hends q)
  . exact heq.symm

end Program

end Resumable
