import Mathlib.Data.List.Forall2
import Mathlib.Data.List.Induction
import Resumable.Proofs.Lowering.Inside

/-!
This module contains the grammar of `try` forms: a body of ordinary forms, then catch clauses, then
a `finally` clause or none. A `try` form is split into these parts if it keeps to the grammar, and
otherwise the first form that does not is refused, for a reason that depends on that form and on the
parts before it.
-/

namespace Resumable

theorem foldlM_append_of_ok {ε σ α : Type} {step : σ → α → Except ε σ} {s t : σ} {before : List α}
    (h : before.foldlM step s = .ok t) (after : List α)
    : (before ++ after).foldlM step s = after.foldlM step t := by
  rw [List.foldlM_append, h]
  rfl

theorem foldlM_error_iff {ε σ α : Type} {step : σ → α → Except ε σ} {s : σ} {l : List α} {e : ε}
    : l.foldlM step s = .error e ↔
        ∃ before a after t, l = before ++ a :: after ∧ before.foldlM step s = .ok t ∧
          step t a = .error e := by
  induction l generalizing s with
  | nil =>
    refine iff_of_false (fun h => by cases h) ?_
    rintro ⟨before, a, after, t, h, -⟩
    cases before <;> cases h
  | cons first l ih =>
    rw [List.foldlM_cons]
    constructor
    . intro h
      cases hfirst : step s first with
      | error e' =>
        rw [hfirst] at h
        cases h
        exact ⟨[], first, l, s, rfl, rfl, hfirst⟩
      | ok t =>
        rw [hfirst] at h
        obtain ⟨before, a, after, u, rfl, hbefore, ha⟩ := ih.1 h
        refine ⟨first :: before, a, after, u, rfl, ?_, ha⟩
        rw [List.foldlM_cons, hfirst]
        exact hbefore
    . rintro ⟨before, a, after, u, h, hbefore, ha⟩
      cases before with
      | nil =>
        cases h
        cases hbefore
        rw [ha]
        rfl
      | cons _ before =>
        cases h
        rw [List.foldlM_cons] at hbefore
        cases hfirst : step s first with
        | error e' =>
          rw [hfirst] at hbefore
          cases hbefore
        | ok t =>
          rw [hfirst] at hbefore
          exact ih.2 ⟨before, a, after, u, rfl, hbefore, ha⟩

namespace TryParts

inductive Names : Form → CatchType → Prop where
  | all {span : Span} : Names (.atom (.keyword "default") span) .any
  | keyword {name : String} {span : Span} :
    name ≠ "default" → Names (.atom (.keyword name) span) (.named name)
  | symbol {name : String} {span : Span} : Names (.symbol name span) (.named name)

inductive Catches : Form → CatchClause → Prop where
  | mk {type : Form} {clause : CatchClause} {place binding span : Span} :
    Names type clause.type →
      Catches
        (.list (.symbol "catch" place :: type :: .symbol clause.name binding :: clause.body) span)
        clause

inductive Cleans : Form → List Form → Prop where
  | mk {body : List Form} {place span : Span} :
    Cleans (.list (.symbol "finally" place :: body) span) body

def IsOrdinary (form : Form) : Prop :=
  form.head? ≠ some "catch" ∧ form.head? ≠ some "finally"

inductive Written : List Form → TryParts → Prop where
  | mk {parts : TryParts} {forms catches cleanup : List Form} :
    forms = parts.body ++ catches ++ cleanup → (∀ form ∈ parts.body, IsOrdinary form) →
      List.Forall₂ Catches catches parts.catches →
        List.Forall₂ Cleans cleanup parts.cleanup.toList → Written forms parts

/--
Whether a form cannot follow some parts of a `try` form, and why.
-/
inductive Offends (parts : TryParts) : Form → CompileError → Prop where
  | catchAfterFinally {form : Form} :
    parts.cleanup ≠ none → form.head? = some "catch" →
      parts.Offends form (.catchAfterFinally form.span)
  | finallyNotLast {form : Form} :
    parts.cleanup ≠ none → form.head? ≠ some "catch" →
      parts.Offends form (.finallyNotLast form.span)
  | bodyAfterCatch {form : Form} :
    parts.cleanup = none → parts.catches ≠ [] → IsOrdinary form →
      parts.Offends form (.malformed "try" "body forms must precede catch clauses" form.span)
  | shortCatch {items : List Form} {place span : Span} :
    parts.cleanup = none → items.length < 2 →
      parts.Offends (.list (.symbol "catch" place :: items) span)
        (.malformed "catch" "expects (catch type name body...)" span)
  | catchType {type name : Form} {body : List Form} {place span : Span} :
    parts.cleanup = none → (∀ t, ¬ Names type t) →
      parts.Offends (.list (.symbol "catch" place :: type :: name :: body) span)
        (.malformed "catch" "exception type must be a symbol or keyword" type.span)
  | catchBinding {type name : Form} {body : List Form} {place span : Span} {t : CatchType} :
    parts.cleanup = none → Names type t → name.symbol? = none →
      parts.Offends (.list (.symbol "catch" place :: type :: name :: body) span)
        (.malformed "catch" "exception binding must be a symbol" name.span)

inductive Extends (parts : TryParts) : Form → TryParts → Prop where
  | body {form : Form} :
    parts.cleanup = none → parts.catches = [] → IsOrdinary form →
      parts.Extends form { parts with body := parts.body ++ [form] }
  | clause {form : Form} {clause : CatchClause} :
    parts.cleanup = none → Catches form clause →
      parts.Extends form { parts with catches := parts.catches ++ [clause] }
  | cleanup {form : Form} {body : List Form} :
    parts.cleanup = none → Cleans form body → parts.Extends form { parts with cleanup := some body }

def add (parts : TryParts) (form : Form) : Except CompileError TryParts :=
  match kind form with
  | .ordinary =>
    if parts.cleanup.isSome then .error (.finallyNotLast form.span)
    else if parts.catches.isEmpty then .ok { parts with body := parts.body ++ [form] }
    else .error (.malformed "try" "body forms must precede catch clauses" form.span)
  | .catchClause items =>
    if parts.cleanup.isSome then .error (.catchAfterFinally form.span)
    else do
      let clause ← readCatch items form.span
      return { parts with catches := parts.catches ++ [clause] }
  | .finallyClause items =>
    if parts.cleanup.isSome then .error (.finallyNotLast form.span)
    else .ok { parts with cleanup := some items }

section

variable {parts parts' : TryParts} {form : Form} {error : CompileError}

theorem symbol?_iff {name : String}
    : form.symbol? = some name ↔ ∃ span, form = .symbol name span := by
  constructor
  . unfold Form.symbol?
    split
    . rintro ⟨⟩
      exact ⟨_, rfl⟩
    . rintro ⟨⟩
  . rintro ⟨span, rfl⟩
    rfl

theorem head?_iff {name : String}
    : form.head? = some name ↔
        ∃ place items span, form = .list (.symbol name place :: items) span := by
  constructor
  . unfold Form.head?
    split
    . intro h
      obtain ⟨place, rfl⟩ := symbol?_iff.1 h
      exact ⟨place, _, _, rfl⟩
    . rintro ⟨⟩
  . rintro ⟨place, items, span, rfl⟩
    rfl

theorem kind_ordinary_iff : kind form = .ordinary ↔ IsOrdinary form := by
  constructor
  . intro h
    constructor
    all_goals
      intro hhead
      obtain ⟨place, items, span, rfl⟩ := head?_iff.1 hhead
      cases h
  . rintro ⟨hcatch, hfinally⟩
    cases h : kind form with
    | ordinary => rfl
    | catchClause items =>
      obtain ⟨place, span, rfl⟩ := kind_catch h
      exact absurd rfl hcatch
    | finallyClause items =>
      obtain ⟨place, span, rfl⟩ := kind_finally h
      exact absurd rfl hfinally

theorem catchType_ok_iff {type : CatchType} : catchType form = .ok type ↔ Names form type := by
  constructor
  . unfold catchType
    split
    . rintro ⟨⟩
      exact .all
    . next hname =>
      rintro ⟨⟩
      exact .keyword fun h => hname (h ▸ rfl)
    . rintro ⟨⟩
      exact .symbol
    . rintro ⟨⟩
  . rintro (_ | hname | _)
    . rfl
    . unfold catchType
      split <;> simp_all
    . rfl

theorem catchType_error_iff
    : catchType form = .error error ↔ (∀ type, ¬ Names form type) ∧
        error = .malformed "catch" "exception type must be a symbol or keyword" form.span := by
  cases h : catchType form with
  | ok type =>
    exact iff_of_false nofun fun hnames => hnames.1 type (catchType_ok_iff.1 h)
  | error error' =>
    have hnames : ∀ type, ¬ Names form type := fun type hnames => by
      rw [catchType_ok_iff.2 hnames] at h
      cases h
    have herror : error'
        = .malformed "catch" "exception type must be a symbol or keyword" form.span := by
      unfold catchType at h
      split at h <;> cases h
      rfl
    simp [hnames, herror, eq_comm]

theorem readCatch_cons (type name : Form) (body : List Form) (span : Span)
    : readCatch (type :: name :: body) span
        =
      match catchType type, name.symbol? with
      | .error error, _ => .error error
      | .ok t, some symbol => .ok { type := t, name := symbol, body := body }
      | .ok _, none =>
        .error (.malformed "catch" "exception binding must be a symbol" name.span) := by
  rw [readCatch]
  cases catchType type with
  | error error => rfl
  | ok t => cases name.symbol? <;> rfl

theorem readCatch_ok_iff {items : List Form} {clause : CatchClause} {place span : Span}
    : readCatch items span = .ok clause ↔
        Catches (.list (.symbol "catch" place :: items) span) clause := by
  constructor
  . intro h
    match items with
    | [] | [_] => cases h
    | type :: name :: body =>
      rw [readCatch_cons] at h
      split at h
      . cases h
      . next t symbol htype hname =>
        cases h
        obtain ⟨binding, rfl⟩ := symbol?_iff.1 hname
        exact @Catches.mk type ⟨t, symbol, body⟩ place binding span (catchType_ok_iff.1 htype)
      . cases h
  . rintro ⟨hnames⟩
    rw [readCatch_cons, catchType_ok_iff.2 hnames]
    rfl

theorem readCatch_error_iff {items : List Form} {place span : Span} (hopen : parts.cleanup = none)
    : readCatch items span = .error error ↔
        parts.Offends (.list (.symbol "catch" place :: items) span) error := by
  constructor
  . intro h
    match items with
    | [] =>
      cases h
      exact .shortCatch hopen Nat.two_pos
    | [_] =>
      cases h
      exact .shortCatch hopen Nat.one_lt_two
    | type :: name :: body =>
      rw [readCatch_cons] at h
      split at h
      . next htype =>
        cases h
        obtain ⟨hnames, rfl⟩ := catchType_error_iff.1 htype
        exact .catchType hopen hnames
      . cases h
      . next htype hname =>
        cases h
        exact .catchBinding hopen (catchType_ok_iff.1 htype) hname
  . intro h
    cases h with
    | catchAfterFinally hcleanup => exact absurd hopen hcleanup
    | finallyNotLast hcleanup => exact absurd hopen hcleanup
    | bodyAfterCatch _ _ hordinary => exact absurd rfl hordinary.1
    | shortCatch _ hlength =>
      match items with
      | [] | [_] => rfl
      | _ :: _ :: _ => exact absurd hlength (Nat.not_lt.2 (Nat.le_add_left 2 _))
    | catchType _ hnames => rw [readCatch_cons, catchType_error_iff.2 ⟨hnames, rfl⟩]
    | catchBinding _ hnames hname => rw [readCatch_cons, catchType_ok_iff.2 hnames, hname]

theorem add_catch (hopen : parts.cleanup = none) (items : List Form) (place span : Span)
    : parts.add (.list (.symbol "catch" place :: items) span)
        =
      (readCatch items span).map fun clause =>
        { parts with catches := parts.catches ++ [clause] } := by
  simp only [add, kind, hopen]
  rw [if_neg nofun]
  rfl

theorem add_of_closed (hclosed : parts.cleanup ≠ none)
    : parts.add form
        =
      .error (if form.head? = some "catch" then .catchAfterFinally form.span
        else .finallyNotLast form.span) := by
  have hsome : parts.cleanup.isSome = true := Option.isSome_iff_ne_none.2 hclosed
  unfold add
  cases hkind : kind form with
  | ordinary => rw [if_neg (kind_ordinary_iff.1 hkind).1, hsome]; rfl
  | catchClause items =>
    obtain ⟨place, span, rfl⟩ := kind_catch hkind
    rw [hsome]
    rfl
  | finallyClause items =>
    obtain ⟨place, span, rfl⟩ := kind_finally hkind
    rw [hsome]
    rfl

theorem add_ordinary (hopen : parts.cleanup = none) (hordinary : IsOrdinary form)
    : parts.add form
        =
      if parts.catches = [] then .ok { parts with body := parts.body ++ [form] }
      else .error (.malformed "try" "body forms must precede catch clauses" form.span) := by
  simp [add, kind_ordinary_iff.2 hordinary, hopen]

theorem add_finally (hopen : parts.cleanup = none) (items : List Form) (place span : Span)
    : parts.add (.list (.symbol "finally" place :: items) span)
        =
      .ok { parts with cleanup := some items } := by
  simp [add, kind, hopen]

theorem head?_cases (form : Form)
    : IsOrdinary form ∨ (∃ place items span, form = .list (.symbol "catch" place :: items) span) ∨
        ∃ place items span, form = .list (.symbol "finally" place :: items) span := by
  rw [← head?_iff, ← head?_iff]
  unfold IsOrdinary
  tauto

theorem add_ok_iff : parts.add form = .ok parts' ↔ parts.Extends form parts' := by
  constructor
  . intro h
    have hopen : parts.cleanup = none := by
      by_contra hclosed
      rw [add_of_closed hclosed] at h
      cases h
    rcases head?_cases form with hordinary | ⟨place, items, span, rfl⟩ | ⟨place, items, span, rfl⟩
    . rw [add_ordinary hopen hordinary] at h
      split at h
      . next hcatches =>
        cases h
        exact .body hopen hcatches hordinary
      . cases h
    . rw [add_catch hopen] at h
      cases hclause : readCatch items span with
      | error => rw [hclause] at h; cases h
      | ok clause =>
        rw [hclause] at h
        cases h
        exact .clause hopen (readCatch_ok_iff.1 hclause)
    . rw [add_finally hopen] at h
      cases h
      exact .cleanup hopen .mk
  . rintro (⟨hopen, hcatches, hordinary⟩ | ⟨hopen, hclause⟩ | ⟨hopen, ⟨⟩⟩)
    . rw [add_ordinary hopen hordinary, if_pos hcatches]
    . obtain ⟨hnames⟩ := id hclause
      rw [add_catch hopen, readCatch_ok_iff.2 hclause]
      rfl
    . rw [add_finally hopen]

theorem add_error_iff : parts.add form = .error error ↔ parts.Offends form error := by
  constructor
  . intro h
    by_cases hopen : parts.cleanup = none
    . rcases head?_cases form with hordinary | ⟨place, items, span, rfl⟩ | ⟨place, items, span, rfl⟩
      . rw [add_ordinary hopen hordinary] at h
        split at h
        . cases h
        . next hcatches =>
          cases h
          exact .bodyAfterCatch hopen hcatches hordinary
      . rw [add_catch hopen] at h
        cases hclause : readCatch items span with
        | error =>
          rw [hclause] at h
          cases h
          exact (readCatch_error_iff hopen).1 hclause
        | ok clause => rw [hclause] at h; cases h
      . rw [add_finally hopen] at h
        cases h
    . rw [add_of_closed hopen] at h
      split at h
      . next hcatch =>
        cases h
        exact .catchAfterFinally hopen hcatch
      . next hcatch =>
        cases h
        exact .finallyNotLast hopen hcatch
  . intro h
    have hcatch : ∀ {items : List Form} {place span : Span}, parts.cleanup = none →
        parts.Offends (.list (.symbol "catch" place :: items) span) error →
          parts.add (.list (.symbol "catch" place :: items) span) = .error error := by
      intro items place span hopen h
      rw [add_catch hopen, (readCatch_error_iff hopen).2 h]
      rfl
    cases id h with
    | catchAfterFinally hclosed hhead => rw [add_of_closed hclosed, if_pos hhead]
    | finallyNotLast hclosed hhead => rw [add_of_closed hclosed, if_neg hhead]
    | bodyAfterCatch hopen hcatches hordinary => rw [add_ordinary hopen hordinary, if_neg hcatches]
    | shortCatch hopen | catchType hopen | catchBinding hopen => exact hcatch hopen h

theorem foldlM_add_closed {items : List Form} (forms : List Form)
    : forms.foldlM add { parts with cleanup := some items }
        =
      (nothingAfterFinally forms).map fun _ => { parts with cleanup := some items } := by
  cases forms with
  | nil => rfl
  | cons form forms =>
    rw [List.foldlM_cons, add_of_closed (Option.some_ne_none items), nothingAfterFinally]
    rcases head?_cases form with hordinary | ⟨_, _, _, rfl⟩ | ⟨_, _, _, rfl⟩
    . rw [if_neg hordinary.1, kind_ordinary_iff.2 hordinary]
      rfl
    . rfl
    . rfl

theorem foldlM_add_clauses {forms : List Form} (hopen : parts.cleanup = none)
    (hclause : parts.catches = [] → ∀ form ∈ forms.head?, ¬ IsOrdinary form)
    : forms.foldlM add parts
        =
      (clauses forms).map fun (catches, last) =>
        { parts with catches := parts.catches ++ catches, cleanup := last } := by
  induction forms generalizing parts with
  | nil =>
    obtain ⟨body, catches, cleanup⟩ := parts
    obtain rfl : cleanup = none := hopen
    simp [clauses, Except.map]
    rfl
  | cons form forms ih =>
    rw [List.foldlM_cons, clauses]
    rcases head?_cases form with hordinary | ⟨place, items, span, rfl⟩ | ⟨place, items, span, rfl⟩
    . rw [add_ordinary hopen hordinary, if_neg fun h => hclause h form rfl hordinary,
        kind_ordinary_iff.2 hordinary]
      rfl
    . rw [add_catch hopen]
      simp only [kind]
      show _ = Except.map _ (readCatch items span >>= _)
      cases readCatch items span with
      | error error => rfl
      | ok clause =>
        have hrest := @ih { parts with catches := parts.catches ++ [clause] } hopen
          fun h => absurd h (List.concat_ne_nil _ _)
        refine hrest.trans ?_
        show _ = Except.map _ (clauses forms >>= _)
        cases clauses forms with
        | error error => rfl
        | ok more =>
          simp [Except.map, bind, Except.bind, pure, Except.pure]
    . rw [add_finally hopen]
      refine (foldlM_add_closed forms).trans ?_
      simp only [kind]
      cases nothingAfterFinally forms with
      | error error => rfl
      | ok => simp [Except.map, bind, Except.bind, pure, Except.pure]

theorem foldlM_add {forms : List Form} (hopen : parts.cleanup = none)
    (hcatches : parts.catches = [])
    : forms.foldlM add parts
        =
      (ofForms forms).map fun more => { more with body := parts.body ++ more.body } := by
  induction forms generalizing parts with
  | nil =>
    obtain ⟨body, catches, cleanup⟩ := parts
    obtain rfl : cleanup = none := hopen
    obtain rfl : catches = [] := hcatches
    simp [ofForms, Except.map]
    rfl
  | cons form forms ih =>
    by_cases hordinary : IsOrdinary form
    . rw [List.foldlM_cons, ofForms, add_ordinary hopen hordinary, if_pos hcatches,
        kind_ordinary_iff.2 hordinary]
      have hrest := @ih { parts with body := parts.body ++ [form] } hopen hcatches
      refine hrest.trans ?_
      simp only
      cases ofForms forms with
      | error error => rfl
      | ok more => simp [Except.map, bind, Except.bind, pure, Except.pure]
    . rw [foldlM_add_clauses hopen fun _ form' h => by cases h; exact hordinary]
      have hkind : kind form ≠ .ordinary := fun h => hordinary (kind_ordinary_iff.1 h)
      rw [ofForms]
      split
      . contradiction
      . cases clauses (form :: forms) with
        | error error => rfl
        | ok more => simp [Except.map, bind, Except.bind, pure, Except.pure, hcatches]

def empty : TryParts :=
  { body := [], catches := [], cleanup := none }

theorem ofForms_eq (forms : List Form) : ofForms forms = forms.foldlM add empty := by
  rw [foldlM_add rfl rfl]
  cases ofForms forms <;> rfl

theorem Written.concat {forms : List Form} (h : Written forms parts)
    (hform : parts.Extends form parts')
    : Written (forms ++ [form]) parts' := by
  have hopen : parts.cleanup = none := by cases hform <;> assumption
  obtain ⟨rfl, hbody, hcatches, hcleanup⟩ := h
  obtain ⟨body, catches, cleanup⟩ := parts
  obtain rfl : cleanup = none := hopen
  obtain rfl := List.forall₂_nil_right_iff.1 hcleanup
  cases hform with
  | body _ hnocatch hordinary =>
    obtain rfl : catches = [] := hnocatch
    obtain rfl := List.forall₂_nil_right_iff.1 hcatches
    have hbody' := List.forall_mem_append.2 ⟨hbody, List.forall_mem_singleton.2 hordinary⟩
    exact .mk (by simp) hbody' .nil .nil
  | clause _ hclause =>
    exact .mk (by simp) hbody (List.rel_append hcatches (.cons hclause .nil)) .nil
  | cleanup _ hcleans => exact .mk (by simp) hbody hcatches (.cons hcleans .nil)

theorem written_of_foldlM {forms : List Form} (h : forms.foldlM add empty = .ok parts)
    : Written forms parts := by
  induction forms using List.reverseRecOn generalizing parts with
  | nil =>
    cases h
    exact .mk rfl (List.forall_mem_nil _) .nil .nil
  | append_singleton forms form ih =>
    cases hforms : forms.foldlM add empty with
    | error error =>
      rw [List.foldlM_append, hforms] at h
      cases h
    | ok parts' =>
      rw [foldlM_append_of_ok hforms, List.foldlM_cons] at h
      cases hform : parts'.add form with
      | error error =>
        rw [hform] at h
        cases h
      | ok parts'' =>
        rw [hform] at h
        cases h
        exact (ih hforms).concat (add_ok_iff.1 hform)

theorem foldlM_add_body {forms : List Form} (h : ∀ form ∈ forms, IsOrdinary form)
    (hopen : parts.cleanup = none) (hcatches : parts.catches = [])
    : forms.foldlM add parts = .ok { parts with body := parts.body ++ forms } := by
  induction forms generalizing parts with
  | nil => simp; rfl
  | cons form forms ih =>
    obtain ⟨hform, hforms⟩ := List.forall_mem_cons.1 h
    rw [List.foldlM_cons, add_ok_iff.2 (.body hopen hcatches hform)]
    refine (ih hforms ?_ ?_).trans ?_
    . exact hopen
    . exact hcatches
    . simp

theorem foldlM_add_catches {forms : List Form} {catches : List CatchClause}
    (h : List.Forall₂ Catches forms catches) (hopen : parts.cleanup = none)
    : forms.foldlM add parts = .ok { parts with catches := parts.catches ++ catches } := by
  induction h generalizing parts with
  | nil => simp; rfl
  | cons hform _ ih =>
    rw [List.foldlM_cons, add_ok_iff.2 (.clause hopen hform)]
    refine (ih ?_).trans ?_
    . exact hopen
    . simp

theorem written_iff {forms : List Form}
    : Written forms parts ↔ forms.foldlM add empty = .ok parts := by
  refine ⟨?_, written_of_foldlM⟩
  rintro ⟨rfl, hbody, hcatches, hcleanup⟩
  obtain ⟨body, catches, cleanup⟩ := parts
  rw [List.append_assoc, foldlM_append_of_ok (foldlM_add_body hbody rfl rfl),
    foldlM_append_of_ok (foldlM_add_catches hcatches rfl)]
  cases cleanup with
  | none =>
    obtain rfl := List.forall₂_nil_right_iff.1 hcleanup
    rfl
  | some items =>
    obtain ⟨form, rest, hcleans, hrest, rfl⟩ := List.forall₂_cons_right_iff.1 hcleanup
    obtain rfl := List.forall₂_nil_right_iff.1 hrest
    rw [List.foldlM_cons, add_ok_iff.2 (.cleanup rfl hcleans)]
    rfl

end

/--
The forms of a `try` are split into parts exactly if they are written as these parts. They are
refused exactly for the first form that cannot follow the forms before it, which are written as
parts of a `try`.
-/
theorem ofForms_grammar (forms : List Form)
    : (∀ parts, ofForms forms = .ok parts ↔ Written forms parts) ∧
      ∀ error, ofForms forms = .error error ↔
        ∃ before form after parts, forms = before ++ form :: after ∧ Written before parts ∧
          parts.Offends form error := by
  simp only [ofForms_eq, foldlM_error_iff, written_iff, add_error_iff, implies_true, and_self]

end TryParts

end Resumable
