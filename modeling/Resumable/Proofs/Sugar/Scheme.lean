import Resumable.Proofs.Sugar.Steps
import Resumable.Value.Basic

/-!
This module contains what conditionals and connectives are to do with their forms: which one is
evaluated next, depending on the values of those before, and which value comes out in the end.
-/

namespace Resumable.Sugar

/--
What is to be done with forms.
-/
inductive Scheme where
  | known (value : Value)
  | last (form : Form)
  | next (form : Form) (rest : Scheme)
  | choose (test : Form) (yes no : Scheme)
  | settle (form : Form) (decisive : Bool) (rest : Scheme)

namespace Scheme

def body : List Form → Scheme
  | [] => .known .nil
  | [form] => .last form
  | form :: second :: rest => .next form (body (second :: rest))

def connected (conjunction : Bool) : List Form → Scheme
  | [] => .known (if conjunction then .bool true else .nil)
  | [only] => .last only
  | first :: second :: rest => .settle first (!conjunction) (connected conjunction (second :: rest))

def conditions : List Form → Scheme
  | test :: branch :: rest => .choose test (.last branch) (conditions rest)
  | _ => .known .nil

def of? (name : String) (args : List Form) : Option Scheme :=
  match name, args with
  | "when", test :: forms => some (.choose test (.body forms) (.known .nil))
  | "when-not", test :: forms => some (.choose test (.known .nil) (.body forms))
  | "if-not", [test, a] => some (.choose test (.known .nil) (.last a))
  | "if-not", [test, a, b] => some (.choose test (.last b) (.last a))
  | "cond", args => some (.conditions args)
  | "and", args => some (.connected true args)
  | "or", args => some (.connected false args)
  | _, _ => none

inductive Gives : Scheme → List (Form × Value) → Value → Prop where
  | known {value : Value} : Gives (.known value) [] value
  | last {form : Form} {value : Value} : Gives (.last form) [(form, value)] value
  | next {form : Form} {rest : Scheme} {value result : Value} {trace : List (Form × Value)} :
    Gives rest trace result → Gives (.next form rest) ((form, value) :: trace) result
  | choose {test : Form} {yes no : Scheme} {value result : Value} {trace : List (Form × Value)} :
    Gives (if value.isTruthy then yes else no) trace result →
      Gives (.choose test yes no) ((test, value) :: trace) result
  | settled {form : Form} {decisive : Bool} {rest : Scheme} {value : Value} :
    value.isTruthy = decisive → Gives (.settle form decisive rest) [(form, value)] value
  | unsettled {form : Form} {decisive : Bool} {rest : Scheme} {value result : Value}
      {trace : List (Form × Value)} :
    value.isTruthy = (!decisive) → Gives rest trace result →
      Gives (.settle form decisive rest) ((form, value) :: trace) result

/--
Whether operands are evaluated from left to right until a value decides, or there are no more.
-/
def ShortCircuits (conjunction : Bool) (forms : List Form) (trace : List (Form × Value))
    (result : Value) : Prop :=
  ∃ before form after, forms = before.map (·.1) ++ form :: after ∧
    trace = before ++ [(form, result)] ∧ (∀ pair ∈ before, pair.2.isTruthy = conjunction) ∧
    (result.isTruthy = (!conjunction) ∨ after = [])

theorem gives_connected_iff {conjunction : Bool} {forms : List Form} (h : forms ≠ [])
    {trace : List (Form × Value)} {result : Value}
    : (connected conjunction forms).Gives trace result ↔
        ShortCircuits conjunction forms trace result := by
  induction forms generalizing trace with
  | nil => exact absurd rfl h
  | cons first rest ih =>
    cases rest with
    | nil =>
      constructor
      . intro hgives
        cases hgives
        exact ⟨[], first, [], rfl, rfl, by simp, .inr rfl⟩
      . rintro ⟨before, form, after, hforms, rfl, _, _⟩
        cases before with
        | nil =>
          cases hforms
          exact .last
        | cons => simp at hforms
    | cons second rest =>
      have hrest : second :: rest ≠ [] := List.cons_ne_nil second rest
      constructor
      . intro hgives
        cases hgives with
        | settled hdecides =>
          exact ⟨[], first, second :: rest, rfl, rfl, by simp, .inl hdecides⟩
        | @unsettled _ _ _ value _ trace hdecides hgives =>
          obtain ⟨before, form, after, hforms, rfl, hbefore, hended⟩ := (ih hrest).1 hgives
          refine ⟨(first, value) :: before, form, after, ?_, rfl, ?_, hended⟩
          . rw [hforms, List.map_cons, List.cons_append]
          . rw [List.forall_mem_cons]
            exact ⟨by simpa using hdecides, hbefore⟩
      . rintro ⟨before, form, after, hforms, rfl, hbefore, hended⟩
        cases before with
        | nil =>
          cases hforms
          exact .settled (hended.resolve_right hrest)
        | cons pair before =>
          rw [List.map_cons, List.cons_append, List.cons.injEq] at hforms
          obtain ⟨rfl, hforms⟩ := hforms
          rw [List.forall_mem_cons] at hbefore
          refine .unsettled (by simpa using hbefore.1) ((ih hrest).2 ?_)
          exact ⟨before, form, after, hforms, rfl, hbefore.2, hended⟩

section

variable {forms : List Form} {trace : List (Form × Value)} {result : Value}

theorem Gives.known_sublist {value : Value} (h : (Scheme.known value).Gives trace result)
    : (trace.map (·.1)).Sublist forms := by
  cases h
  exact List.nil_sublist forms

theorem Gives.last_sublist {form : Form} (h : (Scheme.last form).Gives trace result)
    (hmem : form ∈ forms)
    : (trace.map (·.1)).Sublist forms := by
  cases h
  exact List.singleton_sublist.2 hmem

theorem Gives.body_eq (h : (body forms).Gives trace result) : trace.map (·.1) = forms := by
  induction forms generalizing trace with
  | nil =>
    cases h
    rfl
  | cons first rest ih =>
    cases rest with
    | nil =>
      cases h
      rfl
    | cons second rest =>
      cases h with
      | next hrest => rw [List.map_cons, ih hrest]

theorem Gives.choose_sublist {test : Form} {yes no : Scheme}
    (h : (Scheme.choose test yes no).Gives trace result)
    (hyes : ∀ {trace}, yes.Gives trace result → (trace.map (·.1)).Sublist forms)
    (hno : ∀ {trace}, no.Gives trace result → (trace.map (·.1)).Sublist forms)
    : (trace.map (·.1)).Sublist (test :: forms) := by
  cases h with
  | @choose _ _ _ value _ _ h =>
    cases hvalue : value.isTruthy with
    | true =>
      rw [hvalue] at h
      exact (hyes h).cons_cons test
    | false =>
      rw [hvalue] at h
      exact (hno h).cons_cons test

theorem Gives.connected_sublist {conjunction : Bool}
    (h : (connected conjunction forms).Gives trace result)
    : (trace.map (·.1)).Sublist forms := by
  by_cases hforms : forms = []
  . subst hforms
    exact h.known_sublist
  . obtain ⟨before, form, after, rfl, rfl, _, _⟩ := (gives_connected_iff hforms).1 h
    simp

theorem Gives.conditions_sublist (h : (conditions forms).Gives trace result)
    : (trace.map (·.1)).Sublist forms := by
  induction forms using conditions.induct generalizing trace with
  | case1 test branch rest ih =>
    refine h.choose_sublist (fun h => ?_) (fun h => (ih h).cons branch)
    exact h.last_sublist List.mem_cons_self
  | case2 forms hforms =>
    unfold conditions at h
    split at h
    . next test branch rest => exact (hforms test branch rest rfl).elim
    . exact h.known_sublist

theorem Gives.sublist {name : String} {scheme : Scheme} (hscheme : of? name forms = some scheme)
    (h : scheme.Gives trace result)
    : (trace.map (·.1)).Sublist forms := by
  unfold of? at hscheme
  split at hscheme
  . cases hscheme
    exact h.choose_sublist (fun h => h.body_eq ▸ List.Sublist.refl _) fun h => h.known_sublist
  . cases hscheme
    exact h.choose_sublist (fun h => h.known_sublist) fun h => h.body_eq ▸ List.Sublist.refl _
  . cases hscheme
    exact h.choose_sublist (fun h => h.known_sublist) fun h => h.last_sublist (by simp)
  . cases hscheme
    exact h.choose_sublist (fun h => h.last_sublist (by simp)) fun h => h.last_sublist (by simp)
  . cases hscheme
    exact h.conditions_sublist
  . cases hscheme
    exact h.connected_sublist
  . cases hscheme
    exact h.connected_sublist
  . cases hscheme

end

end Scheme

def words (name : String) (args : List Form) : List String :=
  match name, args with
  | "when", _ | "when-not", _ => ["if", "do"]
  | "if-not", _ | "cond", _ :: _ => ["if"]
  | "and", _ :: _ :: _ | "or", _ :: _ :: _ => ["let", "if"]
  | _, _ => []

theorem words_connective (conjunction : Bool) {args : List Form} (h : 2 ≤ args.length)
    : words (connective conjunction) args = ["let", "if"] := by
  rcases args with _ | ⟨first, _ | ⟨second, rest⟩⟩
  . cases h
  . simp at h
  . cases conjunction <;> rfl

theorem words_cond {args : List Form} (h : args ≠ []) : words "cond" args = ["if"] := by
  cases args with
  | nil => exact absurd rfl h
  | cons first rest => rfl

end Resumable.Sugar
