import Resumable.Proofs.Lowering.Inside
import Resumable.Proofs.Sugar.Steps

/-!
This module contains the proof that lowering forms with the stock sugar ends. The weight of a form
falls with every expansion and from a form to its parts, so it bounds how many forms lie inside one
another on the way; and a form that names few sugars is never expanded too often.
-/

namespace Resumable

namespace Sugar

theorem weight_pos (form : Form) : 0 < weight form := by
  cases form with
  | group bracket =>
    cases bracket <;> simp only [weight] <;> omega
  | _ =>
    simp only [weight]
    omega

theorem weight_le_of_mem {form : Form} {forms : List Form} (h : form ∈ forms)
    : weight form ≤ weights forms := by
  induction forms with
  | nil => cases h
  | cons first rest ih =>
    rw [weights]
    rcases List.mem_cons.1 h with rfl | h
    . exact Nat.le_add_right ..
    . exact Nat.le_trans (ih h) (Nat.le_add_left ..)

theorem mentions_le_of_mem {form : Form} {forms : List Form} (h : form ∈ forms)
    : mentions form ≤ mentionsAll forms := by
  induction forms with
  | nil => cases h
  | cons first rest ih =>
    rw [mentionsAll]
    rcases List.mem_cons.1 h with rfl | h
    . exact Nat.le_add_right ..
    . exact Nat.le_trans (ih h) (Nat.le_add_left ..)

theorem weight_lt_of_inside {form outer : Form} (h : form.Inside outer)
    : weight form < weight outer := by
  induction h with
  | @item _ bracket _ _ hmem =>
    have hle := weight_le_of_mem hmem
    cases bracket <;> simp only [weight] <;> omega
  | quoted =>
    simp only [weight]
    omega
  | trans _ _ h h' => exact Nat.lt_trans h h'

theorem mentions_le_of_inside {form outer : Form} (h : form.Inside outer)
    : mentions form ≤ mentions outer := by
  induction h with
  | item hmem => exact mentions_le_of_mem hmem
  | quoted => exact Nat.le_refl _
  | trans _ _ h h' => exact Nat.le_trans h h'

section

variable {complaint : String}

theorem complain_colon {α : Type} {span : Span} {message : String}
    (h : (complain span message : Except String α) = .error complaint)
    : ':' ∈ complaint.toList := by
  cases h
  simp [toString]

theorem map_colon {α β : Type} {x : Except String α} {f : α → β}
    (hx : x = .error complaint → ':' ∈ complaint.toList) (h : x.map f = .error complaint)
    : ':' ∈ complaint.toList := by
  cases x with
  | error e =>
    cases h
    exact hx rfl
  | ok a => cases h

theorem thread_colon {last : Bool} {args : List Form} {span : Span}
    (h : thread last args span = .error complaint)
    : ':' ∈ complaint.toList := by
  unfold thread at h
  simp only at h
  split at h
  . exact complain_colon h
  . split at h
    . cases h
    . exact complain_colon h

theorem expand_colon {n : Nat} {form : Form} (h : expand n form = .error complaint)
    : ':' ∈ complaint.toList := by
  have hwhen : ∀ {name : String} {negated : Bool} {args : List Form} {span : Span},
      whenForm name negated args span = .error complaint → ':' ∈ complaint.toList := by
    intro name negated args span h
    unfold whenForm at h
    split at h
    . exact complain_colon h
    . cases negated <;> cases h
  unfold expand at h
  split at h
  . split at h
    . exact map_colon hwhen h
    . exact map_colon hwhen h
    . refine map_colon (fun h => ?_) h
      unfold ifNot at h
      split at h
      . cases h
      . cases h
      . exact complain_colon h
    . refine map_colon (fun h => ?_) h
      unfold cond at h
      split at h
      . exact complain_colon h
      . split at h <;> cases h
    . cases h
    . cases h
    . exact map_colon thread_colon h
    . exact map_colon thread_colon h
    . cases h
  . cases h

end

end Sugar

namespace Lower

open Sugar (weight mentions)

theorem expand.go_succ (expander : Expander) (form : Form) (rounds : Nat) (current : Form)
    (d : Draft)
    : expand.go expander form (rounds + 1) current d
        =
      match expander.expand d.temporaries current with
      | .error complaint => .error (.expansion complaint current.span) d
      | .ok none => .ok current d
      | .ok (some (next, temporaries)) =>
        expand.go expander form rounds next { d with temporaries := temporaries } := by
  rw [expand.go, bind_of_ok (get_ok.2 ⟨rfl, rfl⟩)]
  cases expander.expand d.temporaries current with
  | error complaint => rfl
  | ok result => cases result <;> rfl

theorem expand_light {form core : Form} {d e : Draft} (h : expand .stock form d = .ok core e)
    : weight core ≤ weight form ∧ mentions core ≤ mentions form := by
  have hgo : ∀ rounds current {d : Draft}, expand.go .stock form rounds current d = .ok core e →
      weight core ≤ weight current ∧ mentions core ≤ mentions current := by
    intro rounds
    induction rounds with
    | zero => exact fun _ _ h => (throw_ok.1 h).elim
    | succ rounds ih =>
      intro current d h
      rw [expand.go_succ] at h
      split at h
      . cases h
      . cases h
        exact ⟨Nat.le_refl _, Nat.le_refl _⟩
      . next hexpand =>
        have hstep := Sugar.step_of_expand hexpand
        obtain ⟨hweight, hmentions⟩ := ih _ h
        exact ⟨Nat.le_trans hweight (Nat.le_of_lt hstep.weight_lt),
          Nat.le_trans hmentions hstep.mentions_le⟩
  exact hgo _ _ h

def IsSettled (error : CompileError) : Prop :=
  ∀ span, error ≠ .expansion "expansion did not terminate" span

theorem isSettled_of_not_expansion {error : CompileError} (h : ¬ error.IsExpansion)
    : IsSettled error := by
  rintro span rfl
  exact h trivial

theorem expand_settled {form : Form} (hmentions : mentions form < maxExpansions)
    {d e : Draft} {error : CompileError} (h : expand .stock form d = .error error e)
    : IsSettled error := by
  have hgo : ∀ rounds current {d : Draft}, mentions current < rounds →
      expand.go .stock form rounds current d = .error error e → IsSettled error := by
    intro rounds
    induction rounds with
    | zero => exact fun _ _ hlt => absurd hlt (Nat.not_lt_zero _)
    | succ rounds ih =>
      intro current d hlt h
      rw [expand.go_succ] at h
      split at h
      . next complaint hexpand =>
        cases h
        rintro span ⟨⟩
        exact absurd (Sugar.expand_colon hexpand) (by decide)
      . cases h
      . next next m hexpand =>
        have hstep := Sugar.step_of_expand hexpand
        rcases hstep.mentions_lt with hless | ⟨hle, hends⟩
        . exact ih next (by omega) h
        -- The next round finds that the form is a core form.
        . obtain ⟨last, rfl⟩ : ∃ last, rounds = last + 1 :=
            Nat.exists_eq_add_one.2 (by have := hstep.mentions_pos; omega)
          have hnone : Expander.stock.expand m next = .ok none := hends m
          rw [expand.go_succ, hnone] at h
          cases h
  exact hgo _ _ hmentions h

def formFrom (bottom : Form → Lower Lowered) (options : CompileOptions) :
    Nat → Form → Lower Lowered
  | 0, form => bottom form
  | depth + 1, surface => do
    let core ← expand options.expander surface
    coreForm options (formFrom bottom options depth) core

theorem form_eq_formFrom (options : CompileOptions) (depth : Nat)
    : form options depth
        = formFrom (fun form => throw (.expansion "expansion did not terminate" form.span))
            options depth := by
  induction depth with
  | zero => rfl
  | succ depth ih =>
    funext surface
    rw [form, formFrom, ih]

def whole (options : CompileOptions) (surface : Form) : Lower Lowered :=
  form options (options.expander.depth surface) surface

/--
Whether lowering a core form depends on how a form is lowered.
-/
def Consults (options : CompileOptions) (core form : Form) : Prop :=
  ∃ lower lower' : Form → Lower Lowered, (∀ other, other ≠ form → lower other = lower' other) ∧
    coreForm options lower core ≠ coreForm options lower' core

theorem Matches.refl {α : Type} (x : Lower α) : Matches (fun _ => True) x x :=
  ⟨rfl, fun _ => trivial⟩

theorem coreForm_congr (options : CompileOptions) {lower lower' : Form → Lower Lowered}
    {core : Form} (h : ∀ form : Form, form.Inside core → lower form = lower' form)
    : coreForm options lower core = coreForm options lower' core := by
  refine (matches_coreForm (P := fun _ => True) (fun _ _ => trivial) options ?_).same
  intro form hform
  rw [h form hform]
  exact .refl _

theorem Consults.inside {options : CompileOptions} {core form : Form}
    (h : Consults options core form)
    : form.Inside core := by
  obtain ⟨lower, lower', hsame, hdiffer⟩ := h
  by_contra hnot
  refine hdiffer (coreForm_congr options fun other hother => hsame other ?_)
  rintro rfl
  exact hnot hother

section

variable {options : CompileOptions} (hstock : options.expander = .stock)

include hstock

theorem formFrom_eq (bottom bottom' : Form → Lower Lowered) {depth depth' : Nat} {surface : Form}
    (h : weight surface ≤ depth) (h' : weight surface ≤ depth')
    : formFrom bottom options depth surface = formFrom bottom' options depth' surface := by
  induction depth generalizing depth' surface with
  | zero => exact absurd h (Nat.not_le.2 (Sugar.weight_pos surface))
  | succ depth ih =>
    obtain ⟨depth', rfl⟩ : ∃ n, depth' = n + 1 :=
      Nat.exists_eq_add_one.2 (Nat.lt_of_lt_of_le (Sugar.weight_pos surface) h')
    rw [formFrom, formFrom, hstock]
    refine ((Matches.refl _).bindOk (P := fun _ => True) fun core ⟨d, e, hexpand⟩ => ?_).same
    rw [coreForm_congr options fun form hform => ?_]
    . exact .refl _
    . have hlt := Sugar.weight_lt_of_inside hform
      have hle := (expand_light hexpand).1
      exact ih (by omega) (by omega)

theorem formFrom_whole (bottom : Form → Lower Lowered) {depth : Nat} {surface : Form}
    (h : weight surface ≤ depth)
    : formFrom bottom options depth surface = whole options surface := by
  rw [whole, form_eq_formFrom, hstock]
  exact formFrom_eq hstock _ _ h (Nat.le_refl _)

theorem whole_eq (surface : Form)
    : whole options surface
        = expand options.expander surface >>= coreForm options (whole options) := by
  rw [← formFrom_whole hstock (whole options) (Nat.le_succ (weight surface)), formFrom, hstock]
  refine ((Matches.refl _).bindOk (P := fun _ => True) fun core ⟨d, e, hexpand⟩ => ?_).same
  rw [coreForm_congr options fun form hform => ?_]
  . exact .refl _
  . have hlt := Sugar.weight_lt_of_inside hform
    have hle := (expand_light hexpand).1
    exact formFrom_whole hstock _ (by omega)

theorem form_settled {depth : Nat} {surface : Form} (hdepth : weight surface ≤ depth)
    (hmentions : mentions surface < maxExpansions)
    : Matches IsSettled (form options depth surface) (form options depth surface) := by
  induction depth generalizing surface with
  | zero => exact absurd hdepth (Nat.not_le.2 (Sugar.weight_pos surface))
  | succ depth ih =>
    rw [form, hstock]
    refine .bindOk ⟨rfl, expand_settled hmentions⟩ fun core ⟨d, e, hexpand⟩ => ?_
    refine matches_coreForm (fun _ => isSettled_of_not_expansion) options fun form hform => ?_
    have hlt := Sugar.weight_lt_of_inside hform
    have hle := Sugar.mentions_le_of_inside hform
    obtain ⟨hweight, hfew⟩ := expand_light hexpand
    exact ih (by omega) (by omega)

theorem program_settled {source : Form} (hmentions : mentions source < maxExpansions)
    : Matches IsSettled (program options source) (program options source) := by
  have hparams : ∀ params, Matches IsSettled (addParams params) (addParams params) := by
    intro params
    induction params with
    | nil => exact .pure _
    | cons name rest ih => exact .bind (.build _) fun _ => ih
  have hsource : Matches IsSettled (form options (options.expander.depth source) source)
      (form options (options.expander.depth source) source) := by
    rw [hstock]
    exact form_settled hstock (Nat.le_refl _) hmentions
  refine .bind (hparams _) fun _ => .bind (.build _) fun _ => .bind (.build _) fun _ => ?_
  refine .bind hsource fun lowered => ?_
  cases lowered with
  | value operand => exact .finishWith options operand source.span
  | terminated => exact .pure _

end

end Lower

theorem Sugar.mentions_lt_of_nodes {form : Form} {n : Nat} (h : form.nodes ≤ n) (hn : 1 < n)
    : mentions form < n := by
  cases hsymbol : form.symbol? with
  | none => exact Nat.lt_of_lt_of_le (mentions_lt_nodes hsymbol) h
  | some name =>
    have hle := mentions_le_nodes form
    have hone : form.nodes = 1 := by
      cases form with
      | atom => rfl
      | group | quote => cases hsymbol
    omega

theorem Sugar.length_lt_nodes {form : Form} {chain : List Form}
    (h : (form :: chain).IsChain Expands)
    : chain.length ≤ form.nodes - 1 := by
  cases hsymbol : form.symbol? with
  | none =>
    have := length_le_mentions h
    have := mentions_lt_nodes hsymbol
    omega
  | some name =>
    -- A symbol is not expanded.
    cases chain with
    | nil => exact Nat.zero_le _
    | cons next chain =>
      obtain ⟨⟨n, m, hexpand⟩, _⟩ := List.isChain_cons_cons.1 h
      obtain ⟨_, _, _, _, _, rfl⟩ := (step_of_expand hexpand).head
      cases hsymbol

theorem Graph.ofForm_settled {options : CompileOptions} (hstock : options.expander = .stock)
    {source : Form} (hmentions : Sugar.mentions source < Lower.maxExpansions) {error : CompileError}
    (h : Graph.ofForm options source = .error error)
    : Lower.IsSettled error := by
  unfold Graph.ofForm at h
  split at h
  . next hprogram =>
    cases h
    exact (Lower.program_settled hstock hmentions).error hprogram
  . rintro span rfl
    unfold Builder.finish at h
    simp only at h
    split at h
    . cases h
    . split at h <;> cases h

/--
Lowering with the stock sugar ends. The weight of a form falls with every expansion, and from a form
that is not expanded any more to every form that its lowering consults, so that it does not matter
what would be done deeper down than the weight. A form is expanded fewer times in a row than it has
parts, and if it has no more than 1024, it is not refused for being expanded too often.
-/
theorem Lower.terminates (options : CompileOptions) (hstock : options.expander = .stock)
    : (∀ {form next : Form}, Sugar.Expands form next → Sugar.weight next < Sugar.weight form) ∧
        (∀ {core form : Form}, Consults options core form →
          Sugar.weight form < Sugar.weight core) ∧
        (∀ (bottom : Form → Lower Lowered) (form : Form) (depth : Nat),
          Sugar.weight form ≤ depth → formFrom bottom options depth form = whole options form) ∧
        (∀ form, whole options form
          = expand options.expander form >>= coreForm options (whole options)) ∧
        (∀ {form : Form} {chain : List Form}, (form :: chain).IsChain Sugar.Expands →
          chain.length ≤ form.nodes - 1) ∧
        ∀ form : Form, form.nodes ≤ 1024 →
          (∀ d e span, whole options form d
            ≠ .error (.expansion "expansion did not terminate" span) e) ∧
          ∀ span, Graph.ofForm options form
            ≠ .error (.expansion "expansion did not terminate" span) := by
  refine ⟨?_, ?_, ?_, whole_eq hstock, Sugar.length_lt_nodes, ?_⟩
  . rintro form next ⟨n, m, hexpand⟩
    exact (Sugar.step_of_expand hexpand).weight_lt
  . intro core form hconsults
    exact Sugar.weight_lt_of_inside hconsults.inside
  . intro bottom form depth hdepth
    exact formFrom_whole hstock bottom hdepth
  . intro form hnodes
    have hmentions := Sugar.mentions_lt_of_nodes hnodes (by decide)
    refine ⟨fun d e span hwhole => ?_, fun span hgraph => ?_⟩
    . rw [whole, hstock] at hwhole
      exact (form_settled hstock (Nat.le_refl _) hmentions).error hwhole span rfl
    . exact Graph.ofForm_settled hstock hmentions hgraph span rfl

def Form.threadIntoSugar : Form :=
  .list [.symbol "->" .synthetic, .symbol "a" .synthetic, .symbol "and" .synthetic,
    .symbol "when" .synthetic] .synthetic

def Form.threadIntoSugarSteps : List Form :=
  let test := Sugar.call "and" [.symbol "a" .synthetic] .synthetic
  [.list [.symbol "when" .synthetic, test] .synthetic,
    Sugar.call "if" [test, Sugar.call "do" [] .synthetic, Sugar.nilForm .synthetic] .synthetic]

theorem Lower.terminates_threadIntoSugar
    : (Form.threadIntoSugar :: Form.threadIntoSugarSteps).IsChain Sugar.Expands ∧
        Form.threadIntoSugarSteps.length ≤ Form.threadIntoSugar.nodes - 1 ∧
        ∀ span, Graph.ofForm { expander := .stock } .threadIntoSugar
          ≠ .error (.expansion "expansion did not terminate" span) := by
  obtain ⟨_, _, _, _, hchain, hsmall⟩ := Lower.terminates { expander := .stock } rfl
  have hsteps : (Form.threadIntoSugar :: Form.threadIntoSugarSteps).IsChain Sugar.Expands :=
    .cons_cons ⟨0, 0, rfl⟩ (.cons_cons ⟨0, 0, rfl⟩ (.singleton _))
  exact ⟨hsteps, hchain hsteps, (hsmall _ (by decide)).2⟩

end Resumable
