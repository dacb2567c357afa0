import Resumable.Primitive.Call
import Resumable.Proofs.Number.Word

/-!
This module contains what arithmetic on integer values gives: the exact integer, or an error that
says why there is none. A primitive that takes any number of operands gives the exact result for all
of them if all its partial results are in range, and otherwise the error of the first one that is
not.
-/

namespace Resumable

structure Exact where
  name : String
  value : Int → Int → Int
  refuses : Int → Prop

/--
Whether a result is an integer.
-/
def GivesInteger (n : Int) (result : Except Fault Value) : Prop :=
  ∃ c : Int64, result = .ok (.int c) ∧ c.toInt = n

/--
Whether a result is a fault that throws an error value.
-/
def ThrowsError (error : Value) (result : Except Fault Value) : Prop :=
  ∃ fault, result = .error fault ∧ fault.toValue = error

def zeroError (name : String) : Value :=
  .error "division-by-zero" (name ++ ": division by zero") .nil

def overflowError (name : String) : Value :=
  .error "arithmetic-error" (name ++ ": integer overflow") .nil

theorem throwsError_error_iff {error : Value} {fault : Fault}
    : ThrowsError error (.error fault) ↔ fault.toValue = error := by
  simp [ThrowsError]

theorem not_throwsError_ok {error value : Value} : ¬ ThrowsError error (.ok value) := by
  simp [ThrowsError]

theorem overflowError_ne_zeroError (name name' : String)
    : overflowError name ≠ zeroError name' := by
  intro h
  exact absurd (Value.error.inj h).1 (by decide)

namespace Exact

def add : Exact :=
  { name := "+", value := fun a b => a + b, refuses := fun _ => False }

def sub : Exact :=
  { name := "-", value := fun a b => a - b, refuses := fun _ => False }

def mul : Exact :=
  { name := "*", value := fun a b => a * b, refuses := fun _ => False }

def div : Exact :=
  { name := "/", value := fun a b => Number.truncate (a / b), refuses := fun b => b = 0 }

inductive Fails (meaning : Exact) (a b : Int) : Value → Prop where
  | zero : meaning.refuses b → Fails meaning a b (zeroError meaning.name)
  | overflow : ¬ meaning.refuses b → ¬ Number.Fits (meaning.value a b) →
    Fails meaning a b (overflowError meaning.name)

/--
What the operation gives for two operands.
-/
inductive Answers (meaning : Exact) (a b : Int) : Except Fault Value → Prop where
  | value {c : Int64} : ¬ meaning.refuses b → c.toInt = meaning.value a b →
    Answers meaning a b (.ok (.int c))
  | fault {fault : Fault} : meaning.Fails a b fault.toValue → Answers meaning a b (.error fault)

/--
Whether the operation can be used for one operand after the other, with all partial results in
range.
-/
def Passes (meaning : Exact) (start : Int) (operands : List Int) : Prop :=
  ∀ before b after, operands = before ++ b :: after →
    ¬ meaning.refuses b ∧ Number.Fits (meaning.value (before.foldl meaning.value start) b)

inductive Folds (meaning : Exact) (start : Int) (operands : List Int)
    : Except Fault Value → Prop where
  | value {c : Int64} :
    meaning.Passes start operands → c.toInt = operands.foldl meaning.value start →
      Folds meaning start operands (.ok (.int c))
  | fault {before after : List Int} {b : Int} {fault : Fault} :
    operands = before ++ b :: after → meaning.Passes start before →
      meaning.Fails (before.foldl meaning.value start) b fault.toValue →
        Folds meaning start operands (.error fault)

def Calls (meaning : Exact) (p : Primitive) (args : List Int64) (start : Int)
    (operands : List Int64) : Prop :=
  ∃ result, p.call (args.map .int) = Action.ofExcept result ∧
    meaning.Folds start (operands.map Int64.toInt) result

section

variable {meaning : Exact} {a b start : Int} {operands : List Int} {result : Except Fault Value}

theorem Passes.nil : meaning.Passes start [] := by
  intro before b after h
  cases before <;> cases h

theorem Passes.cons (hb : ¬ meaning.refuses b) (hfits : Number.Fits (meaning.value start b))
    (h : meaning.Passes (meaning.value start b) operands)
    : meaning.Passes start (b :: operands) := by
  intro before d after heq
  cases before with
  | nil =>
    cases heq
    exact ⟨hb, hfits⟩
  | cons _ before =>
    cases heq
    exact h before d after rfl

theorem Folds.cons (hb : ¬ meaning.refuses b) (hfits : Number.Fits (meaning.value start b))
    (h : meaning.Folds (meaning.value start b) operands result)
    : meaning.Folds start (b :: operands) result := by
  cases h with
  | value hpasses hc => exact .value (.cons hb hfits hpasses) hc
  | @fault before after d _ heq hpasses hfails =>
    have hsplit : b :: operands = (b :: before) ++ d :: after := congrArg (b :: ·) heq
    exact .fault hsplit (.cons hb hfits hpasses) hfails

theorem Folds.fails {fault : Fault} (h : meaning.Fails start b fault.toValue)
    : meaning.Folds start (b :: operands) (.error fault) :=
  .fault (List.nil_append _).symm .nil h

theorem Answers.folds (h : meaning.Answers a b result) : meaning.Folds a [b] result := by
  cases h with
  | @value c hb hc =>
    exact .cons hb (hc ▸ Number.fits_toInt c) (.value .nil hc)
  | fault hfails => exact .fails hfails

theorem Fails.eq_zeroError_iff {error : Value} (h : meaning.Fails a b error)
    : error = zeroError meaning.name ↔ meaning.refuses b := by
  cases h with
  | zero hb => exact iff_of_true rfl hb
  | overflow hb => exact iff_of_false (overflowError_ne_zeroError _ _) hb

theorem Answers.throwsError_zero_iff (h : meaning.Answers a b result)
    : ThrowsError (zeroError meaning.name) result ↔ meaning.refuses b := by
  cases h with
  | value hb => exact iff_of_false not_throwsError_ok hb
  | fault hfails => rw [throwsError_error_iff, hfails.eq_zeroError_iff]

theorem answers_elim {word : Option Int64} (hb : ¬ meaning.refuses b)
    (hword : ∀ c, word = some c ↔ c.toInt = meaning.value a b)
    : meaning.Answers a b (word.elim (.error (.overflow meaning.name)) (.ok ∘ .int)) := by
  cases hc : word with
  | some c => exact .value hb ((hword c).1 hc)
  | none =>
    refine .fault (.overflow hb fun hfits => ?_)
    obtain ⟨c, hexact⟩ := Number.exists_toInt_eq hfits
    cases hc.symm.trans ((hword c).2 hexact)

end

end Exact

namespace Operation

structure Computes (operation : Operation) (meaning : Exact) : Prop where
  name : operation.name = meaning.name
  refuses : ∀ b : Int64, operation.refusesZero = true ∧ b.toInt = 0 ↔ meaning.refuses b.toInt
  value : ∀ {a b c : Int64}, ¬ meaning.refuses b.toInt →
    (operation.onInts a b = some c ↔ c.toInt = meaning.value a.toInt b.toInt)

theorem computes_add : Computes add .add :=
  { name := rfl
    refuses := by simp [add, Exact.add]
    value := fun _ => Number.add?_eq_some_iff }

theorem computes_sub : Computes sub .sub :=
  { name := rfl
    refuses := by simp [sub, Exact.sub]
    value := fun _ => Number.sub?_eq_some_iff }

theorem computes_mul : Computes mul .mul :=
  { name := rfl
    refuses := by simp [mul, Exact.mul]
    value := fun _ => Number.mul?_eq_some_iff }

theorem computes_div : Computes div .div :=
  { name := rfl
    refuses := by simp [div, Exact.div]
    value := fun hb => Number.div?_eq_some_iff hb }

theorem apply_int (operation : Operation) (a b : Int64)
    : operation.apply (.int a) (.int b)
        =
      if operation.refusesZero = true ∧ b.toInt = 0 then .error (.divisionByZero operation.name)
      else (operation.onInts a b).elim (.error (.overflow operation.name)) (.ok ∘ .int) := by
  have hzero : (operation.refusesZero && isZero (.int b)) = true ↔
      operation.refusesZero = true ∧ b.toInt = 0 := by
    simp [isZero]
  unfold apply
  by_cases h : operation.refusesZero = true ∧ b.toInt = 0
  . rw [if_pos (hzero.2 h), if_pos h]
  . rw [if_neg (mt hzero.1 h), if_neg h]
    dsimp only
    cases operation.onInts a b <;> rfl

namespace Computes

variable {operation : Operation} {meaning : Exact} (h : operation.Computes meaning)

include h

theorem answers (a b : Int64)
    : meaning.Answers a.toInt b.toInt (operation.apply (.int a) (.int b)) := by
  rw [apply_int, h.name]
  split
  . next hzero => exact .fault (.zero ((h.refuses b).1 hzero))
  . next hzero =>
    have hb := mt (h.refuses b).2 hzero
    exact Exact.answers_elim hb fun _ => h.value hb

theorem folds (start : Int64) (operands : List Int64)
    : meaning.Folds start.toInt (operands.map Int64.toInt)
        (operation.fold (.int start) (operands.map .int)) := by
  -- for every start, since the first partial result is where the other operands start from
  induction operands generalizing start with
  | nil => exact .value .nil rfl
  | cons b operands ih =>
    have hanswers := h.answers start b
    rw [fold, List.map_cons, List.map_cons, List.foldlM_cons]
    generalize operation.apply (.int start) (.int b) = result at hanswers
    cases hanswers with
    | @value c hb hc => exact .cons hb (hc ▸ Number.fits_toInt c) (hc ▸ ih c)
    | fault hfails => exact .fails hfails

end Computes

section

variable {a b : Int64}

theorem mod_throwsError_zero_iff
    : ThrowsError (zeroError "mod") (mod.apply (.int a) (.int b)) ↔ b.toInt = 0 := by
  rw [apply_int]
  by_cases hb : b.toInt = 0
  . rw [if_pos ⟨rfl, hb⟩]
    exact iff_of_true ⟨_, rfl, rfl⟩ hb
  . rw [if_neg fun h => hb h.2]
    refine iff_of_false ?_ hb
    cases mod.onInts a b with
    | some c => exact not_throwsError_ok
    | none => exact fun h => overflowError_ne_zeroError _ _ (throwsError_error_iff.1 h)

theorem mod_cases (hb : b.toInt ≠ 0) {r : Int} (hr : Number.IsModulus a.toInt b.toInt r)
    : GivesInteger r (mod.apply (.int a) (.int b)) ∧ ¬ Number.LeastByMinusOne a.toInt b.toInt ∨
        ThrowsError (overflowError "mod") (mod.apply (.int a) (.int b)) ∧
          Number.LeastByMinusOne a.toInt b.toInt := by
  rw [apply_int, if_neg (fun h => hb h.2)]
  by_cases hleast : Number.LeastByMinusOne a.toInt b.toInt
  . refine .inr ⟨⟨.overflow "mod", ?_, rfl⟩, hleast⟩
    have hnone : mod.onInts a b = none := Option.eq_none_iff_forall_ne_some.2 fun c hc =>
      ((Number.mod?_eq_some_iff hb).1 hc).1 hleast
    rw [hnone]
    rfl
  . obtain ⟨c, rfl⟩ := Number.exists_toInt_eq (hr.fits (Number.fits_toInt b))
    have hc : mod.onInts a b = some c := (Number.mod?_eq_some_iff hb).2 ⟨hleast, hr⟩
    rw [hc]
    exact .inl ⟨⟨c, rfl, rfl⟩, hleast⟩

end

end Operation

theorem Value.negate_answers (n : Int64) : Exact.sub.Answers 0 n.toInt (Value.negate (.int n)) := by
  have hnegate : Value.negate (.int n)
      = (Number.neg? n).elim (.error (.overflow "-")) (.ok ∘ .int) := by
    dsimp only [negate]
    cases Number.neg? n <;> rfl
  rw [hnegate]
  exact Exact.answers_elim id fun _ => Number.neg?_eq_some_iff

namespace Exact

theorem calls_add (operands : List Int64) : add.Calls .add operands 0 operands :=
  ⟨_, rfl, Operation.computes_add.folds 0 operands⟩

example (store : Store)
    : Primitive.add.call [.int Int64.maxValue, .int 1, .int (-1)] store
        = .error (.thrown (overflowError "+")) store := by
  rfl

theorem calls_mul (operands : List Int64) : mul.Calls .mul operands 1 operands :=
  ⟨_, rfl, Operation.computes_mul.folds 1 operands⟩

theorem calls_sub (a b : Int64) (operands : List Int64)
    : sub.Calls .sub (a :: b :: operands) a.toInt (b :: operands) :=
  ⟨_, rfl, Operation.computes_sub.folds a (b :: operands)⟩

theorem calls_div (a b : Int64) (operands : List Int64)
    : div.Calls .div (a :: b :: operands) a.toInt (b :: operands) :=
  ⟨_, rfl, Operation.computes_div.folds a (b :: operands)⟩

theorem calls_sub_singleton (a : Int64) : sub.Calls .sub [a] 0 [a] :=
  ⟨_, rfl, (Value.negate_answers a).folds⟩

theorem calls_div_singleton (a : Int64) : div.Calls .div [a] 1 [a] :=
  ⟨_, rfl, (Operation.computes_div.answers 1 a).folds⟩

end Exact

/--
Addition, subtraction, multiplication and division of two integers give the exact result if it is in
range and throw an arithmetic error if it is not; dividing by zero is an error of its own. The
modulus is always in range, and it is given unless the least integer is taken modulo minus one,
where an arithmetic error is thrown although the modulus is zero. The primitives for any number
of operands fold them from the left, from zero or one if there is nothing else to begin with.
-/
theorem integers_exact (a b : Int64) (operands : List Int64)
    : (Exact.add.Answers a.toInt b.toInt (Operation.add.apply (.int a) (.int b)) ∧
        Exact.sub.Answers a.toInt b.toInt (Operation.sub.apply (.int a) (.int b)) ∧
        Exact.mul.Answers a.toInt b.toInt (Operation.mul.apply (.int a) (.int b)) ∧
        Exact.div.Answers a.toInt b.toInt (Operation.div.apply (.int a) (.int b))) ∧
      (ThrowsError (zeroError "/") (Operation.div.apply (.int a) (.int b)) ↔ b.toInt = 0) ∧
      (ThrowsError (zeroError "mod") (Operation.mod.apply (.int a) (.int b)) ↔ b.toInt = 0) ∧
      (b.toInt ≠ 0 →
        ∃ r, Number.IsModulus a.toInt b.toInt r ∧
          (∀ s, Number.IsModulus a.toInt b.toInt s → s = r) ∧ Number.Fits r ∧
          (GivesInteger r (Operation.mod.apply (.int a) (.int b)) ∧
              ¬ Number.LeastByMinusOne a.toInt b.toInt ∨
            ThrowsError (overflowError "mod") (Operation.mod.apply (.int a) (.int b)) ∧
              Number.LeastByMinusOne a.toInt b.toInt)) ∧
      (Exact.add.Calls .add operands 0 operands ∧ Exact.mul.Calls .mul operands 1 operands) ∧
      (Exact.sub.Calls .sub (a :: b :: operands) a.toInt (b :: operands) ∧
        Exact.div.Calls .div (a :: b :: operands) a.toInt (b :: operands)) ∧
      Exact.sub.Calls .sub [a] 0 [a] ∧ Exact.div.Calls .div [a] 1 [a] := by
  have hdiv := Operation.computes_div.answers a b
  refine ⟨⟨?_, ?_, ?_, hdiv⟩, hdiv.throwsError_zero_iff, Operation.mod_throwsError_zero_iff,
    fun hb => ?_, ⟨?_, ?_⟩, ⟨?_, ?_⟩, ?_, ?_⟩
  . exact Operation.computes_add.answers a b
  . exact Operation.computes_sub.answers a b
  . exact Operation.computes_mul.answers a b
  . obtain ⟨r, hr⟩ := Number.exists_isModulus a.toInt hb
    exact ⟨r, hr, fun s hs => hs.unique hr, hr.fits (Number.fits_toInt b),
      Operation.mod_cases hb hr⟩
  . exact Exact.calls_add operands
  . exact Exact.calls_mul operands
  . exact Exact.calls_sub a b operands
  . exact Exact.calls_div a b operands
  . exact Exact.calls_sub_singleton a
  . exact Exact.calls_div_singleton a

theorem integers_exact_leastInteger
    : (-1 : Int64).toInt ≠ 0 ∧ Number.IsModulus Int64.minValue.toInt (-1 : Int64).toInt 0 ∧
        ThrowsError (overflowError "mod") (Operation.mod.apply (.int Int64.minValue) (.int (-1))) ∧
        (3 : Int64).toInt ≠ 0 ∧
        GivesInteger 1 (Operation.mod.apply (.int Int64.minValue) (.int 3)) := by
  have hminus : (-1 : Int64).toInt ≠ 0 := by decide
  have hthree : (3 : Int64).toInt ≠ 0 := by decide
  refine ⟨hminus, ⟨by decide, by decide⟩, ?_, hthree, ?_⟩
  . obtain ⟨r, -, -, -, ⟨-, hleast⟩ | ⟨hthrows, -⟩⟩ :=
      (integers_exact Int64.minValue (-1) []).2.2.2.1 hminus
    . exact absurd ⟨by decide, by decide⟩ hleast
    . exact hthrows
  . obtain ⟨r, -, hunique, -, ⟨hgives, -⟩ | ⟨-, hleast⟩⟩ :=
      (integers_exact Int64.minValue 3 []).2.2.2.1 hthree
    . have hr : 1 = r := hunique 1 ⟨by decide, by decide⟩
      rwa [hr]
    . exact absurd hleast.2 (by decide)

end Resumable
