import Resumable.Proofs.Lowering.Checked
import Resumable.Proofs.Meaning.Direct
import Resumable.Proofs.Slots.Refinement

/-!
This module contains the proof that a core form is read in the same way when it is evaluated
directly and when it is lowered.
-/

namespace Resumable

def CompileOptions.bare (name : String) : CompileOptions :=
  { CompileOptions.yielding with name := name }

def Scope.names (scope : Scope) : List String :=
  scope.locals.map (·.1)

namespace Direct

inductive View.Matches (scope : Scope) : View → Shape → Prop where
  | value {value : Value} : Matches scope (.value value) (.value (.literal value))
  | variable {name : String} {id : ValueId} :
    scope.find? name = some id → Matches scope (.variable name) (.value (.result id))
  | global {name : String} : Matches scope (.global name) (.value (.global name))
  | apply {head : Form} {args : List Form} :
    Matches scope (.apply head args) (.perform .apply (head :: args))
  | call {name : String} {args : List Form} :
    Matches scope (.call name args) (.perform (.call name) args)
  | body {forms : List Form} : Matches scope (.body forms) (.body forms)
  | choose {test yes : Form} {no : Option Form} :
    Matches scope (.choose test yes no) (.select .test test [some yes, no])
  | case {subject : Form} {clauses : List (List Value × Form)} {fallback : Option Form} :
    Matches scope (.case subject clauses fallback)
      (.select (.cases (clauses.map (·.1))) subject
        (clauses.map (some ·.2) ++ fallback.toList.map some))
  | bind {pairs : List (String × Form)} {forms : List Form} :
    Matches scope (.bind pairs forms) (.bind pairs forms)
  | loop {pairs : List (String × Form)} {forms : List Form} :
    Matches scope (.loop pairs forms) (.loop pairs forms)
  | recur {point : LoopPoint} {args : List Form} :
    Matches scope (.recur args) (.recur point args)
  | yield {args : List Form} : Matches scope (.yield args) (.suspend "yield" args)
  | foreign {shape : Shape} : Matches scope .foreign shape

theorem pairs?_of_bindings {items : List Form} {pairs : List (String × Form)}
    (h : Bindings items pairs)
    : pairs? items = some pairs := by
  induction h with
  | nil => rfl
  | @cons form init name rest pairs hname _ ih =>
    have hform : ∃ span, form = .symbol name span := by
      unfold Form.symbol? at hname
      split at hname <;> cases hname
      exact ⟨_, rfl⟩
    obtain ⟨span, rfl⟩ := hform
    simp [pairs?, ih]

theorem constants_eq (form : Form) : constants form = Lower.caseTests form := by
  unfold constants Lower.caseTests
  rfl

theorem clauses_eq (forms : List Form)
    : clauses forms = ((Lower.caseClauses forms).1.map fun clause =>
        (Lower.caseTests clause.1, clause.2), (Lower.caseClauses forms).2) := by
  induction forms using clauses.induct with
  | case1 => rfl
  | case2 => rfl
  | case3 test arm rest ih => simp [clauses, Lower.caseClauses, ih, constants_eq]

theorem handler?_bare (name site : String)
    : (CompileOptions.bare name).terminators.handler? site
        = if site = "yield" then some "yield" else none := by
  simp only [CompileOptions.bare, CompileOptions.yielding, Terminators.handler?,
    Terminators.ofList, Table.get?_ofList, List.reverse_singleton, Table.get?.go, eq_comm]

theorem named_call {name : String} {args : List Form} (hspecial : name ∉ specialNames)
    (haccess : ¬ isAccess name) (hyield : name ≠ "yield")
    : View.named name args = .call name args := by
  simp only [specialNames, List.mem_cons, List.not_mem_nil, or_false, not_or] at hspecial
  unfold View.named
  split
  case h_19 =>
    split
    . next c rest heq => exact absurd ⟨c, rest, heq⟩ haccess
    . rfl
  all_goals simp_all

theorem named_access {name : String} {args : List Form} (haccess : isAccess name)
    : View.named name args = .foreign := by
  obtain ⟨c, rest, hname⟩ := haccess
  unfold View.named
  split
  case h_19 => simp only [hname]
  all_goals first
    | rfl
    | simp at hname

def target? (value : Value) (clauses : List (List Value × Form)) (fallback : Option Form)
    (first : BlockId) : Option BlockId :=
  (Exec.findClause value (clauses.map (·.1)) (.range' first clauses.length)).or
    (List.range' (first + clauses.length) fallback.toList.length).head?

theorem target?_pick (value : Value) (clauses : List (List Value × Form)) (fallback : Option Form)
    (first : BlockId)
    : (pick value clauses fallback = none ∧ target? value clauses fallback first = none) ∨
        ∃ arm target, pick value clauses fallback = some arm ∧
          target? value clauses fallback first = some target ∧
          (some arm, target) ∈ (clauses.map (some ·.2) ++ fallback.toList.map some).zip
            (.range' first (clauses.length + fallback.toList.length)) := by
  induction clauses generalizing first with
  | nil =>
    cases fallback with
    | none => exact .inl ⟨rfl, rfl⟩
    | some arm => exact .inr ⟨arm, first, rfl, rfl, by simp⟩
  | cons clause clauses ih =>
    have hlength : (clause :: clauses).length + fallback.toList.length
        = (clauses.length + fallback.toList.length) + 1 := by
      rw [List.length_cons]
      lia
    by_cases hmember : Value.isMember clause.1 value = true
    . refine .inr ⟨clause.2, first, ?_, ?_, ?_⟩
      . simp [pick, hmember]
      . simp [target?, Exec.findClause, hmember, List.range'_succ]
      . rw [hlength, List.range'_succ]
        simp
    . have hpick : pick value (clause :: clauses) fallback = pick value clauses fallback := by
        simp [pick, hmember]
      have htarget : target? value (clause :: clauses) fallback first
          = target? value clauses fallback (first + 1) := by
        simp only [target?, List.map_cons, Exec.findClause, hmember, List.length_cons,
          List.range'_succ, List.tail_cons]
        rw [Nat.add_right_comm, Nat.add_assoc]
        rfl
      rw [hpick, htarget, hlength]
      rcases ih (first + 1) with hnone | ⟨arm, target, harm, htarget, hmem⟩
      . exact .inl hnone
      . refine .inr ⟨arm, target, harm, htarget, ?_⟩
        simp only [List.map_cons, List.cons_append, List.range'_succ, List.zip_cons_cons]
        exact List.mem_cons_of_mem _ hmem

end Direct

open Direct

theorem Lower.expand_bare {name : String} {surface core : Form} {d d' : Draft}
    (h : expand (CompileOptions.bare name).expander surface d = .ok core d')
    : core = surface := by
  cases h
  rfl

variable {name : String} {scope : Scope}

theorem Named.matches {head : String} {args : List Form} {span : Span} {shape : Shape}
    (h : Named (.bare name) scope head args span shape)
    : (View.named head args).Matches scope shape := by
  cases h with
  | quote => exact .value
  | body => exact .body
  | @choose test yes no =>
    cases no with
    | none => exact .choose
    | some no => exact .choose
  | bind hbindings =>
    simp only [View.named, pairs?_of_bindings hbindings]
    exact .bind
  | loop hbindings =>
    simp only [View.named, pairs?_of_bindings hbindings]
    exact .loop
  | recur => exact .recur
  | @case value rest clauses fallback _ hclauses =>
    have heq := clauses_eq rest
    rw [hclauses] at heq
    have hmatches := @View.Matches.case scope value (Direct.clauses rest).1 (Direct.clauses rest).2
    simpa [View.named, heq, List.map_map, Function.comp_def] using hmatches
  | closure | attempt | setLocal | setGlobal | setField => exact .foreign
  | finish => exact .foreign
  | field hname =>
    rw [named_access ⟨_, _, hname⟩]
    exact .foreign
  | method hname =>
    rw [named_access ⟨_, _, hname⟩]
    exact .foreign
  | suspend hspecial haccess hhandler =>
    rw [handler?_bare] at hhandler
    split at hhandler <;> cases hhandler
    next hyield =>
    cases hyield
    exact .yield
  | call hspecial haccess hhandler =>
    rw [handler?_bare] at hhandler
    split at hhandler
    . cases hhandler
    . next hyield =>
      rw [named_call hspecial haccess hyield]
      exact .call

theorem Scope.mem_names_iff {site : String} : site ∈ scope.names ↔ scope.find? site ≠ none := by
  unfold names find?
  simp [List.lookup_eq_none_iff, List.mem_map]

theorem Reads.matches {form : Form} {shape : Shape} (h : Reads (.bare name) scope form shape)
    : (view scope.names form).Matches scope shape := by
  cases h with
  | @«local» site id _ hfind =>
    have hmem : site ∈ scope.names := Scope.mem_names_iff.2 (by simp [hfind])
    simp only [view, hmem, if_true]
    exact .variable hfind
  | @global site _ hfind =>
    have hmem : site ∉ scope.names := by simp [Scope.mem_names_iff, hfind]
    simp only [view, hmem, if_false]
    exact .global
  | atom hatom =>
    rw [view]
    . exact .value
    . exact hatom
  | quote | empty => exact .value
  | vector | map | set => exact .call
  | @apply head args _ hhead =>
    by_cases hsymbol : ∃ site span, head = .symbol site span
    . obtain ⟨site, span, rfl⟩ := hsymbol
      have hmem : site ∈ scope.names := Scope.mem_names_iff.2 (hhead site rfl)
      simp only [view, hmem, if_true]
      exact .apply
    . rw [view]
      . exact .apply
      . exact fun site span heq => hsymbol ⟨site, span, heq⟩
  | @named site args span span' shape hfind hnamed =>
    have hmem : site ∉ scope.names := by simp [Scope.mem_names_iff, hfind]
    simp only [view, hmem, if_false]
    exact hnamed.matches

end Resumable
