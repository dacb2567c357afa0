import Resumable.Proofs.Running.Connected
import Resumable.Proofs.Sugar.Code
import Resumable.Proofs.Sugar.Scheme

/-!
This module contains the proof that sugar is hygienic: a program evaluates the forms inside of
conditionals and connectives where the sugar itself stands, in the order and under the conditions
that the sugar calls for, and goes on with the value that it calls for.
-/

namespace Resumable

namespace Sugar

def IsTemporary (name : String) : Prop :=
  ∃ conjunction count, name = temporary (connective conjunction) count

theorem not_isTemporary {name : String} (h : '_' ∉ name.toList) : ¬ IsTemporary name := by
  rintro ⟨conjunction, count, rfl⟩
  exact h (by simp [temporary, toString])

end Sugar

structure Scope.Like (scope scope' : Scope) : Prop where
  find? : ∀ name, ¬ Sugar.IsTemporary name → scope'.find? name = scope.find? name
  loops : scope'.loops = scope.loops
  catches : scope'.catches = scope.catches
  finallys : scope'.finallys = scope.finallys

namespace Scope.Like

variable {scope scope' scope'' : Scope}

theorem refl (scope : Scope) : scope.Like scope :=
  ⟨fun _ _ => rfl, rfl, rfl, rfl⟩

theorem trans (h : scope.Like scope') (h' : scope'.Like scope'') : scope.Like scope'' where
  find? name hname := (h'.find? name hname).trans (h.find? name hname)
  loops := h'.loops.trans h.loops
  catches := h'.catches.trans h.catches
  finallys := h'.finallys.trans h.finallys

theorem bind {name : String} (h : Sugar.IsTemporary name) (scope : Scope) (id : ValueId)
    : scope.Like (scope.bind name id) where
  find? other hother := by
    have hne : other ≠ name := by
      rintro rfl
      exact hother h
    simp [Scope.find?, Scope.bind, List.lookup_cons, beq_eq_false_iff_ne.2 hne]
  loops := rfl
  catches := rfl
  finallys := rfl

theorem stands (h : scope.Like scope') {options : CompileOptions} {word : String}
    (hword : '_' ∉ word.toList) (hstands : Sugar.Stands options scope word)
    : Sugar.Stands options scope' word where
  visible := (h.find? word (Sugar.not_isTemporary hword)).trans hstands.visible
  resolves := hstands.resolves

end Scope.Like

namespace Sugar

/--
A program that has been compiled with the stock sugar.
-/
structure Compilation where
  options : CompileOptions
  source : Form
  graph : Graph
  plan : Plan
  table : Table String Handler
  name : String
  program : Program
  stock : options.expander = .stock
  coded : graph.Coded options source plan
  small : graph.IsSmall
  made : Program.ofGraph graph table name = .ok program

namespace Compilation

def Connects (c : Compilation) (s : Spot) (P : Plain → Value → Prop) (t : Spot)
    (Q : Plain → Value → Prop) : Prop :=
  c.plan.Connects c.graph.layout c.program s P t Q

def Evaluates (c : Compilation) (handlers : List BlockId) (scope : Scope) (s : Spot)
    (P : Plain → Value → Prop) (form : Form) (K : Spot → Operand → Prop) : Prop :=
  ∃ scope' u r v, scope.Like scope' ∧ c.Connects s P u (fun _ _ => True) ∧
    Code c.options c.plan handlers scope' u (.form form) r v ∧
    ∀ operand, r = some [operand] → K v operand

def Ends (c : Compilation) (r : Option (List Operand)) (t s : Spot) (P : Plain → Value → Prop) :
    Prop :=
  ∃ operand, r = some [operand] ∧ c.Connects s P t operand.Means

/--
Whether the program does what a scheme calls for from a place on, up to an end.
-/
def Realizes (c : Compilation) (handlers : List BlockId) (scope : Scope)
    (r : Option (List Operand)) (t : Spot) : Scheme → Spot → (Plain → Value → Prop) → Prop
  | .known value, s, P => ∃ operand, r = some [operand] ∧
      c.Connects s P t (fun q _ => operand.Means q value)
  | .last form, s, P => c.Evaluates handlers scope s P form fun u operand =>
      c.Ends r t u operand.Means
  | .next form rest, s, P => c.Evaluates handlers scope s P form fun u _ =>
      c.Realizes handlers scope r t rest u (fun _ _ => True)
  | .choose test yes no, s, P => c.Evaluates handlers scope s P test fun u operand =>
      c.Realizes handlers scope r t yes u (operand.Decides true) ∧
        c.Realizes handlers scope r t no u (operand.Decides false)
  | .settle form decisive rest, s, P => c.Evaluates handlers scope s P form fun u operand =>
      c.Ends r t u (operand.Decides decisive) ∧
        c.Realizes handlers scope r t rest u (operand.Decides !decisive)

/--
Whether the program evaluates forms one after the other, provided that they have certain values, and
then goes on at an end with a result.
-/
def Pursues (c : Compilation) (handlers : List BlockId) (scope : Scope)
    (r : Option (List Operand)) (t : Spot) (result : Value) :
    List (Form × Value) → Spot → (Plain → Value → Prop) → Prop
  | [], s, P => ∃ operand, r = some [operand] ∧
      c.Connects s P t (fun q _ => operand.Means q result)
  | (form, value) :: rest, s, P => c.Evaluates handlers scope s P form fun u operand =>
      c.Pursues handlers scope r t result rest u (fun q _ => operand.Means q value)

variable {c : Compilation} {handlers : List BlockId} {scope scope' : Scope}
  {r r' : Option (List Operand)} {s s' t t' : Spot} {P P' : Plain → Value → Prop}
  {form : Form} {K K' : Spot → Operand → Prop}

theorem Evaluates.imp (h : c.Evaluates handlers scope s P form K) (hK : ∀ v o, K v o → K' v o)
    : c.Evaluates handlers scope s P form K' := by
  obtain ⟨scope', u, r, v, hlike, hconnects, hcode, hnext⟩ := h
  exact ⟨scope', u, r, v, hlike, hconnects, hcode, fun o hr => hK v o (hnext o hr)⟩

theorem Evaluates.after (h : c.Evaluates handlers scope s' P' form K)
    (hconnects : c.Connects s P s' P')
    : c.Evaluates handlers scope s P form K := by
  obtain ⟨scope', u, r, v, hlike, hconnects', hcode, hnext⟩ := h
  exact ⟨scope', u, r, v, hlike, hconnects.trans hconnects', hcode, hnext⟩

theorem Evaluates.at (h : c.Evaluates handlers scope s P form K) (value : Value)
    : c.Evaluates handlers scope s (fun q _ => P q value) form K := by
  obtain ⟨scope', u, r, v, hlike, hconnects, hcode, hnext⟩ := h
  exact ⟨scope', u, r, v, hlike, hconnects.at value, hcode, hnext⟩

theorem Evaluates.inside (h : c.Evaluates handlers scope' s P form K) (hlike : scope.Like scope')
    : c.Evaluates handlers scope s P form K := by
  obtain ⟨scope'', u, r, v, hlike', hconnects, hcode, hnext⟩ := h
  exact ⟨scope'', u, r, v, hlike.trans hlike', hconnects, hcode, hnext⟩

theorem Ends.after (h : c.Ends r t s' P') (hconnects : c.Connects s P s' P')
    : c.Ends r t s P := by
  obtain ⟨operand, hr, hconnects'⟩ := h
  exact ⟨operand, hr, hconnects.trans hconnects'⟩

theorem Ends.extend (h : c.Ends r t s P)
    (hends : ∀ operand, r = some [operand] → c.Ends r' t' t operand.Means)
    : c.Ends r' t' s P := by
  obtain ⟨operand, hr, hconnects⟩ := h
  exact (hends operand hr).after hconnects

namespace Realizes

variable {scheme : Scheme}

theorem after (h : c.Realizes handlers scope r t scheme s' P') (hconnects : c.Connects s P s' P')
    : c.Realizes handlers scope r t scheme s P := by
  cases scheme with
  | known value =>
    obtain ⟨operand, hr, hconnects'⟩ := h
    exact ⟨operand, hr, hconnects.trans hconnects'⟩
  | last | next | choose | settle => exact Evaluates.after h hconnects

theorem «at» (h : c.Realizes handlers scope r t scheme s P) (value : Value)
    : c.Realizes handlers scope r t scheme s (fun q _ => P q value) := by
  cases scheme with
  | known value' =>
    obtain ⟨operand, hr, hconnects⟩ := h
    exact ⟨operand, hr, hconnects.at value⟩
  | last | next | choose | settle => exact Evaluates.at h value

theorem extend (h : c.Realizes handlers scope r t scheme s P)
    (hends : ∀ operand, r = some [operand] → c.Ends r' t' t operand.Means)
    : c.Realizes handlers scope r' t' scheme s P := by
  induction scheme generalizing s P with
  | known value =>
    obtain ⟨operand, hr, hconnects⟩ := h
    obtain ⟨operand', hr', hconnects'⟩ := hends operand hr
    exact ⟨operand', hr', hconnects.trans (hconnects'.at value)⟩
  | last form => exact Evaluates.imp h fun _ _ hends' => hends'.extend hends
  | next form rest ih => exact Evaluates.imp h fun _ _ hrest => ih hrest
  | choose test yes no ihYes ihNo =>
    exact Evaluates.imp h fun _ _ harms => ⟨ihYes harms.1, ihNo harms.2⟩
  | settle form decisive rest ih =>
    exact Evaluates.imp h fun _ _ hnext => ⟨hnext.1.extend hends, ih hnext.2⟩

theorem inside (h : c.Realizes handlers scope' r t scheme s P) (hlike : scope.Like scope')
    : c.Realizes handlers scope r t scheme s P := by
  induction scheme generalizing s P with
  | known value => exact h
  | last form => exact Evaluates.inside h hlike
  | next form rest ih => exact (Evaluates.inside h hlike).imp fun _ _ hrest => ih hrest
  | choose test yes no ihYes ihNo =>
    exact (Evaluates.inside h hlike).imp fun _ _ harms => ⟨ihYes harms.1, ihNo harms.2⟩
  | settle form decisive rest ih =>
    exact (Evaluates.inside h hlike).imp fun _ _ hnext => ⟨hnext.1, ih hnext.2⟩

theorem pursues (h : c.Realizes handlers scope r t scheme s P) {trace : List (Form × Value)}
    {result : Value} (hgives : scheme.Gives trace result)
    : c.Pursues handlers scope r t result trace s P := by
  have hdecided : ∀ {holds : Bool} {operand : Operand} {value : Value} (u : Spot),
      value.isTruthy = holds →
        c.Connects u (fun q _ => operand.Means q value) u
          (fun q _ => operand.Decides holds q value) :=
    fun _ hholds => .refl fun _ _ hmeans => ⟨hmeans, hholds⟩
  induction hgives generalizing s P with
  | known => exact h
  | @last form value =>
    refine Evaluates.imp h fun u operand hends => ?_
    obtain ⟨operand', hr, hconnects⟩ := hends
    exact ⟨operand', hr, hconnects.at value⟩
  | next _ ih =>
    exact Evaluates.imp h fun _ _ hrest => ih (hrest.after (.refl fun _ _ _ => trivial))
  | @choose test yes no value _ _ _ ih =>
    refine Evaluates.imp h fun u operand harms => ih ?_
    cases hvalue : value.isTruthy with
    | true => exact (harms.1.at value).after (hdecided u hvalue)
    | false => exact (harms.2.at value).after (hdecided u hvalue)
  | @settled form decisive rest value hdecides =>
    refine Evaluates.imp h fun u operand hnext => ?_
    obtain ⟨operand', hr, hconnects⟩ := hnext.1
    exact ⟨operand', hr, (hdecided u hdecides).trans (hconnects.at value)⟩
  | @unsettled form decisive rest value _ _ hdecides _ ih =>
    refine Evaluates.imp h fun u operand hnext => ih ?_
    exact (hnext.2.at value).after (hdecided u hdecides)

end Realizes

theorem realizes_last (h : Code c.options c.plan handlers scope s (.form form) r t)
    : c.Realizes handlers scope r t (.last form) s P :=
  ⟨scope, s, r, t, .refl scope, .refl fun _ _ _ => trivial, h,
    fun operand hr => ⟨operand, hr, .refl fun _ _ hmeans => hmeans⟩⟩

theorem realizes_atom {value : Atom} {span : Span} (hvalue : ∀ name, value ≠ .symbol name)
    (h : Code c.options c.plan handlers scope s (.form (.atom value span)) r t)
    : c.Realizes handlers scope r t (.known value.toValue) s P := by
  obtain ⟨rfl, rfl⟩ := h.of_atom c.stock hvalue
  exact ⟨_, rfl, .refl fun _ _ _ => rfl⟩

theorem realizes_body {last : Operand} {first : Form} {rest : List Form}
    (h : Code c.options c.plan handlers scope s (.body last (first :: rest)) r t)
    : c.Realizes handlers scope r t (.body (first :: rest)) s P := by
  induction rest generalizing s last first P with
  | nil => exact realizes_last h.of_single
  | cons second rest ih =>
    have hhere : c.Connects s P s (fun _ _ => True) := .refl fun _ _ _ => trivial
    cases h with
    | bodyCons hform hrest =>
      exact ⟨scope, s, _, _, .refl scope, hhere, hform, fun _ _ => ih hrest⟩
    | bodyStop hform => exact ⟨scope, s, _, _, .refl scope, hhere, hform, nofun⟩

theorem picks {yes no : Form} {operand : Operand} {u : Spot} {live : Bool}
    (hholds : c.plan.Holds s [.transfer (.branch operand s.fresh (s.fresh + 1))])
    (harms : Code c.options c.plan handlers scope ((s.opened 3).skip 1)
      (.arms (s.fresh + 2) [(some yes, s.fresh), (some no, s.fresh + 1)] live) none u)
    (holds : Bool)
    : ∃ t r v, c.Connects s (operand.Decides holds) t
          (fun q value => ∀ id, operand = .result id → (Operand.result id).Means q value) ∧
        Code c.options c.plan handlers scope t (.form (if holds then yes else no)) r v ∧
        v.value ≤ u.value ∧ ∀ operand', r = some [operand'] →
          live = true ∧ c.plan.Holds v [.handOver operand' (s.fresh + 2)] := by
  have hmem : (some (if holds then yes else no), if holds then s.fresh else s.fresh + 1) ∈
      [(some yes, s.fresh), (some no, s.fresh + 1)] := by
    cases holds <;> simp
  obtain ⟨t, r, v, ht, hv, hform, hover⟩ := harms.arm hmem
  refine ⟨_, r, v, ?_, hform, hv, hover⟩
  exact c.coded.connects_branch c.small c.made hholds rfl rfl (Nat.le_of_succ_le ht)

theorem choice {test yes no : Form}
    (h : Code c.options c.plan handlers scope s
      (.shape (.select .test test [some yes, some no])) r t)
    : ∃ r₁ v, Code c.options c.plan handlers scope s (.form test) r₁ v ∧
        ∀ operand, r₁ = some [operand] → ∀ holds, ∃ u r₂ w,
          c.Connects v (operand.Decides holds) u
            (fun q value => ∀ id, operand = .result id → (Operand.result id).Means q value) ∧
          Code c.options c.plan handlers scope u (.form (if holds then yes else no)) r₂ w ∧
          ∀ operand', r₂ = some [operand'] → c.Ends r t w operand'.Means := by
  cases h with
  | select htest _ hholds harms hreceive =>
    refine ⟨_, _, htest, ?_⟩
    rintro _ ⟨⟩ holds
    obtain ⟨u, r₂, w, hconnects, hform, hle, hover⟩ := picks hholds harms holds
    refine ⟨u, r₂, w, hconnects, hform, fun operand' hr₂ => ⟨_, rfl, ?_⟩⟩
    exact c.coded.connects_handOver c.small c.made (hover operand' hr₂).2 rfl hreceive hle
  | selectDead htest _ hholds harms =>
    refine ⟨_, _, htest, ?_⟩
    rintro _ ⟨⟩ holds
    obtain ⟨u, r₂, w, hconnects, hform, _, hover⟩ := picks hholds harms holds
    refine ⟨u, r₂, w, hconnects, hform, fun operand' hr₂ => ?_⟩
    cases (hover operand' hr₂).1
  | selectStop htest => exact ⟨none, _, htest, nofun⟩

theorem binding {name : String} {init body : Form}
    (h : Code c.options c.plan handlers scope s (.shape (.bind [(name, init)] [body])) r t)
    : ∃ r₁ v, Code c.options c.plan handlers scope s (.form init) r₁ v ∧
        ∀ operand, r₁ = some [operand] → ∃ id w,
          c.Connects v operand.Means w (Operand.result id).Means ∧
          Code c.options c.plan handlers (scope.bind name id) w (.form body) r t := by
  cases h with
  | bind hbindings =>
    cases hbindings with
    | bindingsCopy hinit hholds hrest =>
      refine ⟨_, _, hinit, ?_⟩
      rintro _ ⟨⟩
      cases hrest with
      | bindingsNil hbody => exact ⟨_, _, Graph.Coded.connects_copy hholds, hbody.of_single⟩
    | bindingsKeep hinit _ hrest =>
      refine ⟨_, _, hinit, ?_⟩
      rintro _ ⟨⟩
      cases hrest with
      | bindingsNil hbody => exact ⟨_, _, .refl fun _ _ hmeans => hmeans, hbody.of_single⟩
    | bindingsStop hinit => exact ⟨none, _, hinit, nofun⟩

section

variable {test yes no first second : Form} {rest args : List Form} {place span : Span}

theorem realizes_choose (hstands : Stands c.options scope "if") {ifYes ifNo : Scheme}
    (h : Code c.options c.plan handlers scope s (.form (call "if" [test, yes, no] span)) r t)
    (hyes : ∀ {u r t}, Code c.options c.plan handlers scope u (.form yes) r t →
      c.Realizes handlers scope r t ifYes u fun _ _ => True)
    (hno : ∀ {u r t}, Code c.options c.plan handlers scope u (.form no) r t →
      c.Realizes handlers scope r t ifNo u fun _ _ => True)
    : c.Realizes handlers scope r t (.choose test ifYes ifNo) s P := by
  obtain ⟨shape, hnamed, hshape⟩ := h.of_word c.stock (by decide) hstands
  rw [hnamed.if_shape] at hshape
  obtain ⟨r₁, v, htest, hchoice⟩ := choice hshape
  refine ⟨scope, s, r₁, v, .refl scope, .refl fun _ _ _ => trivial, htest, fun operand hr₁ => ?_⟩
  constructor
  . obtain ⟨u, r₂, w, hconnects, harm, hends⟩ := hchoice operand hr₁ true
    exact ((hyes harm).extend hends).after (hconnects.weaken fun _ _ _ => trivial)
  . obtain ⟨u, r₂, w, hconnects, harm, hends⟩ := hchoice operand hr₁ false
    exact ((hno harm).extend hends).after (hconnects.weaken fun _ _ _ => trivial)

theorem realizes_settle (hlet : Stands c.options scope "let") (hif : Stands c.options scope "if")
    (conjunction : Bool) {n : Nat}
    (h : Code c.options c.plan handlers scope s
      (.form (shortCircuit conjunction n (first :: second :: rest) span).1) r t)
    {others : Scheme}
    (hothers : ∀ {scope' u r t}, scope.Like scope' →
      Code c.options c.plan handlers scope' u
        (.form (call (connective conjunction) (second :: rest) span)) r t →
        c.Realizes handlers scope' r t others u fun _ _ => True)
    : c.Realizes handlers scope r t (.settle first (!conjunction) others) s P := by
  obtain ⟨shape, hnamed, hshape⟩ := h.of_word c.stock (by decide) hlet
  rw [hnamed.let_shape] at hshape
  obtain ⟨r₁, v, hfirst, hbinding⟩ := binding hshape
  refine ⟨scope, s, r₁, v, .refl scope, .refl fun _ _ _ => trivial, hfirst, fun operand hr₁ => ?_⟩
  obtain ⟨id, w, hcopy, hbody⟩ := hbinding operand hr₁
  have hlike : scope.Like (scope.bind (temporary (connective conjunction) n) id) :=
    .bind ⟨conjunction, n, rfl⟩ scope id
  -- The temporary is the test and one of the arms, which arm depends on the connective.
  have hbody : Code c.options c.plan handlers
      (scope.bind (temporary (connective conjunction) n) id) w
      (.form (call "if" [.symbol (temporary (connective conjunction) n) span,
        if conjunction then call (connective conjunction) (second :: rest) span
          else .symbol (temporary (connective conjunction) n) span,
        if conjunction then .symbol (temporary (connective conjunction) n) span
          else call (connective conjunction) (second :: rest) span] span)) r t := by
    cases conjunction <;> exact hbody
  have hfind : (scope.bind (temporary (connective conjunction) n) id).find?
      (temporary (connective conjunction) n) = some id := by
    simp [Scope.find?, Scope.bind]
  obtain ⟨shape, hnamed, hshape⟩ :=
    hbody.of_word c.stock (by decide) (hlike.stands (by decide) hif)
  rw [hnamed.if_shape] at hshape
  obtain ⟨r₂, w', htest, hchoice⟩ := choice hshape
  obtain ⟨rfl, rfl⟩ := htest.of_variable c.stock hfind
  have hhere : ∀ {holds u}, c.Connects w' ((Operand.result id).Decides holds) u
      (fun q value => ∀ id', Operand.result id = .result id' →
        (Operand.result id').Means q value) →
      c.Connects v (operand.Decides holds) u (Operand.result id).Means := by
    intro holds u hconnects
    exact (hcopy.and (·.isTruthy = holds)).trans (hconnects.weaken fun _ _ hmeans => hmeans id rfl)
  constructor
  . obtain ⟨u, r₂, x, hconnects, harm, hends⟩ := hchoice (.result id) rfl (!conjunction)
    have harm : Code c.options c.plan handlers
        (scope.bind (temporary (connective conjunction) n) id) u
        (.form (.symbol (temporary (connective conjunction) n) span)) r₂ x := by
      cases conjunction <;> exact harm
    obtain ⟨rfl, rfl⟩ := harm.of_variable c.stock hfind
    exact (hends _ rfl).after (hhere hconnects)
  . rw [Bool.not_not]
    obtain ⟨u, r₂, x, hconnects, harm, hends⟩ := hchoice (.result id) rfl conjunction
    have harm : Code c.options c.plan handlers
        (scope.bind (temporary (connective conjunction) n) id) u
        (.form (call (connective conjunction) (second :: rest) span)) r₂ x := by
      cases conjunction <;> exact harm
    refine (((hothers hlike harm).inside hlike).extend hends).after ?_
    exact (hhere hconnects).weaken fun _ _ _ => trivial

theorem realizes_connected {conjunction : Bool}
    (hwords : 2 ≤ args.length → Stands c.options scope "let" ∧ Stands c.options scope "if")
    (h : Code c.options c.plan handlers scope s
      (.form (.list (.symbol (connective conjunction) place :: args) span)) r t)
    : c.Realizes handlers scope r t (.connected conjunction args) s P := by
  -- The scope changes on the way: every operand but the last one comes with a temporary.
  induction args generalizing scope s r t P place with
  | nil =>
    obtain ⟨n, next, m, hexpand, hnext⟩ := h.of_sugar c.stock (connective_mem conjunction)
    rw [expand_connective] at hexpand
    cases hexpand
    cases conjunction <;> exact realizes_atom (by simp) hnext
  | cons first rest ih =>
    obtain ⟨n, next, m, hexpand, hnext⟩ := h.of_sugar c.stock (connective_mem conjunction)
    rw [expand_connective] at hexpand
    cases rest with
    | nil =>
      cases hexpand
      exact realizes_last hnext
    | cons second rest =>
      cases hexpand
      obtain ⟨hlet, hif⟩ := hwords (Nat.le_add_left 2 rest.length)
      refine realizes_settle hlet hif conjunction hnext fun hlike hothers => ?_
      refine ih (fun _ => ?_) hothers
      exact ⟨hlike.stands (by decide) hlet, hlike.stands (by decide) hif⟩

theorem realizes_conditions (hword : args ≠ [] → Stands c.options scope "if")
    (h : Code c.options c.plan handlers scope s
      (.form (.list (.symbol "cond" place :: args) span)) r t)
    : c.Realizes handlers scope r t (.conditions args) s P := by
  induction args using Scheme.conditions.induct generalizing s r t P place with
  | case1 test branch rest ih =>
    obtain ⟨n, next, m, hexpand, hnext⟩ := h.of_sugar c.stock (by decide)
    have hcond : cond (test :: branch :: rest) span = .ok next := keep_ok hexpand
    have hif := hword (List.cons_ne_nil test (branch :: rest))
    unfold cond at hcond
    split at hcond
    . cases hcond
    . cases hcond
      exact realizes_choose hif hnext realizes_last fun hrest => ih (fun _ => hif) hrest
  | case2 args hargs =>
    obtain ⟨n, next, m, hexpand, hnext⟩ := h.of_sugar c.stock (by decide)
    have hcond : cond args span = .ok next := keep_ok hexpand
    rcases args with _ | ⟨test, _ | ⟨branch, rest⟩⟩
    . cases hcond
      exact realizes_atom (by simp) hnext
    . cases hcond
    . exact (hargs test branch rest rfl).elim

theorem realizes_do (hstands : Stands c.options scope "do")
    (h : Code c.options c.plan handlers scope s (.form (call "do" args span)) r t)
    : c.Realizes handlers scope r t (.body args) s P := by
  obtain ⟨shape, hnamed, hshape⟩ := h.of_word c.stock (by decide) hstands
  rw [hnamed.do_shape] at hshape
  cases hshape with
  | body hbody =>
    cases args with
    | nil =>
      cases hbody
      exact ⟨_, rfl, .refl fun _ _ _ => rfl⟩
    | cons first rest => exact realizes_body hbody

theorem realizes_nil (h : Code c.options c.plan handlers scope s (.form (nilForm span)) r t)
    : c.Realizes handlers scope r t (.known .nil) s P :=
  realizes_atom (by simp) h

theorem realizes {name : String} {scheme : Scheme} (hscheme : Scheme.of? name args = some scheme)
    (hwords : ∀ word ∈ words name args, Stands c.options scope word)
    (h : Code c.options c.plan handlers scope s
      (.form (.list (.symbol name place :: args) span)) r t)
    : c.Realizes handlers scope r t scheme s P := by
  have hconnective : ∀ conjunction,
      (∀ word ∈ words (connective conjunction) args, Stands c.options scope word) →
        2 ≤ args.length → Stands c.options scope "let" ∧ Stands c.options scope "if" := by
    intro conjunction hwords hargs
    rw [words_connective conjunction hargs] at hwords
    exact ⟨hwords "let" (by simp), hwords "if" (by simp)⟩
  unfold Scheme.of? at hscheme
  split at hscheme
  . next test forms =>
    cases hscheme
    obtain ⟨n, next, m, hexpand, hnext⟩ := h.of_sugar c.stock (by decide)
    cases hexpand
    refine realizes_choose (hwords "if" (by simp [words])) hnext ?_ realizes_nil
    exact realizes_do (hwords "do" (by simp [words]))
  . next test forms =>
    cases hscheme
    obtain ⟨n, next, m, hexpand, hnext⟩ := h.of_sugar c.stock (by decide)
    cases hexpand
    refine realizes_choose (hwords "if" (by simp [words])) hnext realizes_nil ?_
    exact realizes_do (hwords "do" (by simp [words]))
  . next test a =>
    cases hscheme
    obtain ⟨n, next, m, hexpand, hnext⟩ := h.of_sugar c.stock (by decide)
    cases hexpand
    exact realizes_choose (hwords "if" (by simp [words])) hnext realizes_nil realizes_last
  . next test a b =>
    cases hscheme
    obtain ⟨n, next, m, hexpand, hnext⟩ := h.of_sugar c.stock (by decide)
    cases hexpand
    exact realizes_choose (hwords "if" (by simp [words])) hnext realizes_last realizes_last
  . cases hscheme
    refine realizes_conditions (fun hargs => hwords "if" ?_) h
    simp [words_cond hargs]
  . cases hscheme
    exact @realizes_connected c handlers scope r s t P args place span true
      (hconnective true hwords) h
  . cases hscheme
    exact @realizes_connected c handlers scope r s t P args place span false
      (hconnective false hwords) h
  . cases hscheme

end

theorem source_code (c : Compilation)
    : ∃ r t, Code c.options c.plan [] (.ofParams c.options.params) (.start c.options.params)
        (.form c.source) r t := by
  obtain ⟨t, hmain, _⟩ := c.coded.main
  cases hmain with
  | finish hbody | finishBy hbody | finishStop hbody => exact ⟨_, _, hbody.of_single⟩

end Compilation

/--
Conditionals and connectives are hygienic wherever the core forms that they are expanded to go by
their names. From the place where the sugar stands, a program evaluates the forms inside of it in
the scope of the sugar, if names of temporaries are left out of account; nothing but the value of
the form before decides which one is next, and nothing happens in between; in the end the program
goes on with the value that the scheme of the sugar calls for. So whatever values the forms turn out
to have, those that the scheme takes are evaluated from left to right, each of them at most once,
and the program goes on with what the scheme gives, which is the first value that decides, or else
the last one, if the sugar is a connective.
-/
theorem hygienic (c : Compilation) {name : String} {args : List Form} {scheme : Scheme}
    (hscheme : Scheme.of? name args = some scheme) {handlers : List BlockId} {scope : Scope}
    (hwords : ∀ word ∈ words name args, Stands c.options scope word) {place span : Span}
    {s t : Spot} {r : Option (List Operand)}
    (hcode : Code c.options c.plan handlers scope s
      (.form (.list (.symbol name place :: args) span)) r t)
    : c.Realizes handlers scope r t scheme s (fun _ _ => True) ∧
        (∀ trace result, scheme.Gives trace result →
          c.Pursues handlers scope r t result trace s (fun _ _ => True) ∧
            (trace.map (·.1)).Sublist args) ∧
        ∀ conjunction, name = connective conjunction → args ≠ [] → ∀ trace result,
          scheme.Gives trace result ↔ Scheme.ShortCircuits conjunction args trace result := by
  have hrealizes : c.Realizes handlers scope r t scheme s (fun _ _ => True) :=
    Compilation.realizes hscheme hwords hcode
  refine ⟨hrealizes, fun _ _ h => ⟨hrealizes.pursues h, h.sublist hscheme⟩, ?_⟩
  rintro conjunction rfl hargs trace result
  have hconnected : scheme = .connected conjunction args := by
    cases conjunction <;> exact (Option.some.inj hscheme).symm
  rw [hconnected]
  exact Scheme.gives_connected_iff hargs

end Sugar

def Form.alternatives : List Form :=
  [.list [.symbol "f" .synthetic] .synthetic,
    .list [.symbol "and" .synthetic, .atom (.int 1) .synthetic, .symbol "x" .synthetic] .synthetic]

theorem Sugar.hygienic_alternatives
    : ∃ (c : Compilation) (r : Option (List Operand)) (t : Spot),
        c.options = { expander := .stock, params := ["f", "x"] } ∧
        c.source = .list (.symbol "or" .synthetic :: Form.alternatives) .synthetic ∧
        Code c.options c.plan [] (.ofParams ["f", "x"]) (.start ["f", "x"]) (.form c.source) r t ∧
        c.Realizes [] (.ofParams ["f", "x"]) r t (.connected false Form.alternatives)
          (.start ["f", "x"]) (fun _ _ => True) := by
  obtain ⟨graph, program, hgraph, hprogram, hcheck⟩ := Graph.exists_of_check
    { expander := .stock, params := ["f", "x"] }
    (.list (.symbol "or" .synthetic :: Form.alternatives) .synthetic) {} "main"
    (fun graph _ => decide graph.IsSmall) (by decide +kernel)
  obtain ⟨plan, hcoded⟩ := Graph.ofForm_coded hgraph
  have hvisible : ∀ word ∈ words "or" Form.alternatives,
      (Scope.ofParams ["f", "x"]).find? word = none := by decide
  have hresolves : ∀ word ∈ words "or" Form.alternatives,
      ({} : Aliases).resolve word = word := by decide
  let c : Compilation :=
    { options := { expander := .stock, params := ["f", "x"] }
      source := .list (.symbol "or" .synthetic :: Form.alternatives) .synthetic
      graph := graph
      plan := plan
      table := {}
      name := "main"
      program := program
      stock := rfl
      coded := hcoded
      small := of_decide_eq_true hcheck
      made := hprogram }
  obtain ⟨r, t, hcode⟩ := c.source_code
  exact ⟨c, r, t, rfl, rfl, hcode, (Sugar.hygienic c rfl
    (fun word hword => ⟨hvisible word hword, hresolves word hword⟩) hcode).1⟩

def Form.ifLocal : Form :=
  .list [.symbol "let" .synthetic,
    .vector [.symbol "if" .synthetic, .symbol "vector" .synthetic] .synthetic,
    .list [.symbol "when" .synthetic, .atom (.int 1) .synthetic, .atom (.int 2) .synthetic]
      .synthetic] .synthetic

def Program.returnsAll (program : Program) (store : Store) : Bool :=
  match Program.run {} 9 program ⟨.initial .nil program.start [] program.size, store⟩ with
  | .ok (.done (.vector [.int a, .int b, .nil])) _ => a == 1 && b == 2
  | _ => false

theorem Program.calls_ifLocal
    : ∃ graph program p, Graph.ofForm { expander := .stock } .ifLocal = .ok graph ∧
        Program.ofGraph graph {} "main" = .ok program ∧
        Program.run {} 9 program ⟨.initial .nil program.start [] program.size,
            { globals := .ofList [("vector", .native 0 (.builtIn .vector))] }⟩
          = .ok (.done (.vector [.int 1, .int 2, .nil])) p := by
  obtain ⟨graph, program, hgraph, hprogram, hcheck⟩ := Graph.exists_of_check { expander := .stock }
    .ifLocal {} "main"
    (fun _ program => program.returnsAll
      { globals := .ofList [("vector", .native 0 (.builtIn .vector))] })
    (by decide +kernel)
  unfold Program.returnsAll at hcheck
  split at hcheck
  . next a b p hrun =>
    rw [Bool.and_eq_true, beq_iff_eq, beq_iff_eq] at hcheck
    obtain ⟨rfl, rfl⟩ := hcheck
    exact ⟨graph, program, p, hgraph, hprogram, hrun⟩
  . cases hcheck

end Resumable
