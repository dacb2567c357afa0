import Mathlib.Data.List.Chain
import Resumable.Sugar.Stock

/-!
This module contains what one step of the stock sugar does to a form, and what falls with every
step: the weight of a form, and, unless the next step is the last one, the number of symbols in the
form that name a sugar.
-/

namespace Resumable

namespace Sugar

def connective (conjunction : Bool) : String :=
  if conjunction then "and" else "or"

def arrow (last : Bool) : String :=
  if last then "->>" else "->"

def names : List String :=
  ["when", "when-not", "if-not", "cond", "and", "or", "->", "->>"]

inductive Step : Nat → Form → Form → Nat → Prop where
  | when {n : Nat} {place span : Span} {test : Form} {body : List Form} :
    Step n (.list (.symbol "when" place :: test :: body) span)
      (call "if" [test, call "do" body span, nilForm span] span) n
  | whenNot {n : Nat} {place span : Span} {test : Form} {body : List Form} :
    Step n (.list (.symbol "when-not" place :: test :: body) span)
      (call "if" [test, nilForm span, call "do" body span] span) n
  | ifNot {n : Nat} {place span : Span} {test a : Form} :
    Step n (.list [.symbol "if-not" place, test, a] span) (call "if" [test, nilForm span, a] span) n
  | ifNotElse {n : Nat} {place span : Span} {test a b : Form} :
    Step n (.list [.symbol "if-not" place, test, a, b] span) (call "if" [test, b, a] span) n
  | condNone {n : Nat} {place span : Span} :
    Step n (.list [.symbol "cond" place] span) (nilForm span) n
  | cond {n : Nat} {place span : Span} {test branch : Form} {rest : List Form} :
    rest.length % 2 = 0 →
      Step n (.list (.symbol "cond" place :: test :: branch :: rest) span)
        (call "if" [test, branch, call "cond" rest span] span) n
  | noOperand {n : Nat} {place span : Span} (conjunction : Bool) :
    Step n (.list [.symbol (connective conjunction) place] span)
      (if conjunction then .atom (.bool true) span else nilForm span) n
  | oneOperand {n : Nat} {place span : Span} {only : Form} (conjunction : Bool) :
    Step n (.list [.symbol (connective conjunction) place, only] span) only n
  | operands {n : Nat} {place span : Span} {first second : Form} {rest : List Form}
      (conjunction : Bool) :
    Step n (.list (.symbol (connective conjunction) place :: first :: second :: rest) span)
      (shortCircuit conjunction n (first :: second :: rest) span).1 (n + 1)
  | thread {n : Nat} {place span : Span} {value next : Form} {steps : List Form} (last : Bool) :
    steps.foldlM (threadStep last span) value = some next →
      Step n (.list (.symbol (arrow last) place :: value :: steps) span) next n

theorem whenForm_ok {name : String} {negated : Bool} {args : List Form} {span : Span} {next : Form}
    (h : whenForm name negated args span = .ok next)
    : ∃ test body, args = test :: body ∧
        next = if negated then call "if" [test, nilForm span, call "do" body span] span
          else call "if" [test, call "do" body span, nilForm span] span := by
  cases args with
  | nil => cases h
  | cons test body =>
    refine ⟨test, body, rfl, ?_⟩
    cases negated <;> exact (Except.ok.inj h).symm

theorem step_of_keep {n m : Nat} {form next : Form} {x : Except String Form}
    (h : (x.map fun form => some (form, n)) = .ok (some (next, m)))
    (hstep : ∀ {next : Form}, x = .ok next → Step n form next n)
    : Step n form next m := by
  cases x with
  | error complaint => cases h
  | ok result =>
    cases h
    exact hstep rfl

theorem step_of_shortCircuit (conjunction : Bool) {n m : Nat} {place span : Span}
    {args : List Form} {next : Form} (h : shortCircuit conjunction n args span = (next, m))
    : Step n (.list (.symbol (connective conjunction) place :: args) span) next m := by
  unfold shortCircuit at h
  split at h
  . cases h
    exact .noOperand conjunction
  . cases h
    exact .oneOperand conjunction
  . next first rest hmany =>
    cases rest with
    | nil => exact absurd rfl hmany
    | cons second rest =>
      cases h
      exact .operands conjunction

theorem step_of_thread (last : Bool) {n : Nat} {place span : Span} {args : List Form} {next : Form}
    (h : thread last args span = .ok next)
    : Step n (.list (.symbol (arrow last) place :: args) span) next n := by
  cases args with
  | nil => cases h
  | cons value steps =>
    unfold thread at h
    simp only at h
    split at h
    . next hfold =>
      cases h
      exact .thread last hfold
    . cases h

theorem step_of_cond {n : Nat} {place span : Span} {args : List Form} {next : Form}
    (h : cond args span = .ok next)
    : Step n (.list (.symbol "cond" place :: args) span) next n := by
  unfold cond at h
  split at h
  . cases h
  . next heven =>
    split at h
    . cases h
      refine .cond ?_
      simp only [List.length_cons] at heven
      omega
    . next hshort =>
      cases h
      rcases args with _ | ⟨test, _ | ⟨branch, rest⟩⟩
      . exact .condNone
      . exact absurd (show [test].length % 2 ≠ 0 by simp) heven
      . exact absurd rfl (hshort test branch rest)

theorem step_of_ifNot {n : Nat} {place span : Span} {args : List Form} {next : Form}
    (h : ifNot args span = .ok next)
    : Step n (.list (.symbol "if-not" place :: args) span) next n := by
  unfold ifNot at h
  split at h
  . cases h
    exact .ifNot
  . cases h
    exact .ifNotElse
  . cases h

theorem step_of_expand {n m : Nat} {form next : Form}
    (h : expand n form = .ok (some (next, m)))
    : Step n form next m := by
  unfold expand at h
  split at h
  . split at h
    . refine step_of_keep h fun hwhen => ?_
      obtain ⟨test, body, rfl, rfl⟩ := whenForm_ok hwhen
      exact .when
    . refine step_of_keep h fun hwhen => ?_
      obtain ⟨test, body, rfl, rfl⟩ := whenForm_ok hwhen
      exact .whenNot
    . exact step_of_keep h step_of_ifNot
    . exact step_of_keep h step_of_cond
    . exact step_of_shortCircuit true (Option.some.inj (Except.ok.inj h))
    . exact step_of_shortCircuit false (Option.some.inj (Except.ok.inj h))
    . exact step_of_keep h (step_of_thread false)
    . exact step_of_keep h (step_of_thread true)
    . cases h
  . cases h

theorem expand_core {n : Nat} {form : Form} (h : ∀ name ∈ form.head?, name ∉ names)
    : expand n form = .ok none := by
  unfold expand
  split
  . next name _ _ _ =>
    have hname : name ∉ names := h name rfl
    simp only [names, List.mem_cons, List.not_mem_nil, or_false, not_or] at hname
    obtain ⟨hwhen, hwhenNot, hifNot, hcond, hand, hor, hfirst, hlast⟩ := hname
    split <;> first | contradiction | rfl
  . rfl

mutual

def mentions : Form → Nat
  | .symbol name _ => if name ∈ names then 1 else 0
  | .atom _ _ => 0
  | .group _ items _ => mentionsAll items
  | .quote inner _ => mentions inner

def mentionsAll : List Form → Nat
  | [] => 0
  | form :: rest => mentions form + mentionsAll rest

end

theorem weights_append (forms forms' : List Form)
    : weights (forms ++ forms') = weights forms + weights forms' := by
  induction forms with
  | nil => simp [weights]
  | cons form rest ih => simp [weights, ih, Nat.add_assoc]

theorem mentionsAll_append (forms forms' : List Form)
    : mentionsAll (forms ++ forms') = mentionsAll forms + mentionsAll forms' := by
  induction forms with
  | nil => simp [mentionsAll]
  | cons form rest ih => simp [mentionsAll, ih, Nat.add_assoc]

theorem toll_more (head : Form) {args more : List Form} (h : more.length = args.length + 1)
    : toll (head :: more) ≤ toll (head :: args) + 22 := by
  unfold toll
  cases head with
  | group | quote => simp
  | atom value span =>
    cases value with
    | symbol name =>
      simp only [h]
      split
      . omega
      . split <;> omega
    | _ => simp

theorem toll_le (head arg : Form) : toll [head, arg] ≤ 20 := by
  unfold toll
  split
  . next hlist =>
    obtain ⟨-, rfl⟩ := List.cons.inj hlist
    split
    . simp
    . split <;> simp
  . simp

section

variable {last : Bool} {span : Span} {value step next : Form}

theorem threadStep_weight (h : threadStep last span value step = some next)
    : weight next ≤ weight value + weight step + 22 := by
  unfold threadStep at h
  split at h
  . next head args _ =>
    cases h
    cases last with
    | true =>
      have htoll : toll (head :: (args ++ [value])) ≤ toll (head :: args) + 22 :=
        toll_more head (by simp)
      simp only [weight, weights, weights_append, if_true] at htoll ⊢
      omega
    | false =>
      have htoll : toll (head :: value :: args) ≤ toll (head :: args) + 22 :=
        toll_more head (by simp)
      simp only [weight, weights, Bool.false_eq_true, if_false] at htoll ⊢
      omega
  . next name place =>
    cases h
    have htoll := toll_le (.atom (.symbol name) place) value
    simp only [weight, weights]
    omega
  . cases h

theorem threadStep_mentions (h : threadStep last span value step = some next)
    : mentions next = mentions value + mentions step := by
  unfold threadStep at h
  split at h
  . cases h
    cases last with
    | true =>
      simp only [mentions, mentionsAll, mentionsAll_append, if_true]
      omega
    | false =>
      simp only [mentions, mentionsAll, Bool.false_eq_true, if_false]
      omega
  . cases h
    simp only [mentions, mentionsAll]
    omega
  . cases h

variable {steps : List Form}

theorem foldlM_weight (h : steps.foldlM (threadStep last span) value = some next)
    : weight next ≤ weight value + weights steps + 22 * steps.length := by
  induction steps generalizing value with
  | nil =>
    cases h
    simp [weights]
  | cons step steps ih =>
    obtain ⟨between, hstep, hrest⟩ := Option.bind_eq_some_iff.1 h
    have hfirst := threadStep_weight hstep
    have hlater := ih hrest
    simp only [weights, List.length_cons]
    omega

theorem foldlM_mentions (h : steps.foldlM (threadStep last span) value = some next)
    : mentions next = mentions value + mentionsAll steps := by
  induction steps generalizing value with
  | nil =>
    cases h
    simp [mentionsAll]
  | cons step steps ih =>
    obtain ⟨between, hstep, hrest⟩ := Option.bind_eq_some_iff.1 h
    rw [ih hrest, threadStep_mentions hstep, mentionsAll]
    omega

end

theorem temporary_not_mem (name : String) (count : Nat) : temporary name count ∉ names := by
  have hline : '_' ∈ (temporary name count).toList := by simp [temporary, toString]
  intro hmem
  have hnone : ∀ name ∈ names, '_' ∉ name.toList := by decide
  exact hnone _ hmem hline

section

variable {n m : Nat} {form next : Form}

theorem Step.weight_lt (h : Step n form next m) : weight next < weight form := by
  cases h with
  | noOperand conjunction =>
    cases conjunction <;>
      simp only [weight, weights, nilForm, if_true, Bool.false_eq_true, if_false] <;> omega
  | oneOperand conjunction => simp only [weight, weights]; omega
  | operands conjunction =>
    cases conjunction <;>
      simp [shortCircuit, connective, call, weight, weights, toll] <;> omega
  | thread last hfold =>
    have hweight := foldlM_weight hfold
    cases last <;> simp [arrow, weight, weights, toll] <;> omega
  | _ => simp [call, nilForm, weight, weights, toll] <;> omega

theorem Step.mentions_lt (h : Step n form next m)
    : mentions next < mentions form ∨
        mentions next ≤ mentions form ∧ ∀ k, expand k next = .ok none := by
  cases h with
  | noOperand conjunction =>
    cases conjunction <;> simp [connective, nilForm, mentions, mentionsAll, names]
  | oneOperand conjunction =>
    cases conjunction <;> simp [connective, mentions, mentionsAll, names]
  | operands conjunction =>
    refine .inr ⟨?_, fun k => expand_core ?_⟩
    . have hlet : "let" ∉ names := by decide
      have hif : "if" ∉ names := by decide
      cases conjunction <;>
        simp [shortCircuit, connective, call, mentions, mentionsAll, temporary_not_mem, hlet,
          hif] <;>
        omega
    . simp [shortCircuit, call, Form.head?, Form.symbol?, names]
  | thread last hfold =>
    have hmentions := foldlM_mentions hfold
    cases last <;> simp [arrow, mentions, mentionsAll, hmentions, names]
  | _ =>
    refine .inr ⟨?_, fun k => expand_core ?_⟩
    . simp [call, nilForm, mentions, mentionsAll, names] <;> omega
    . simp [call, nilForm, Form.head?, Form.symbol?, names]

theorem Step.mentions_le (h : Step n form next m) : mentions next ≤ mentions form :=
  h.mentions_lt.elim Nat.le_of_lt And.left

theorem Step.head (h : Step n form next m)
    : ∃ name place args span, name ∈ names ∧ form = .list (.symbol name place :: args) span := by
  cases h with
  | noOperand conjunction | oneOperand conjunction | operands conjunction =>
    exact ⟨_, _, _, _, by cases conjunction <;> decide, rfl⟩
  | thread last => exact ⟨_, _, _, _, by cases last <;> decide, rfl⟩
  | _ => exact ⟨_, _, _, _, by decide, rfl⟩

theorem Step.mentions_pos (h : Step n form next m) : 0 < mentions form := by
  obtain ⟨name, place, args, span, hname, rfl⟩ := h.head
  simp only [mentions, mentionsAll, if_pos hname]
  omega

end

/--
Whether one form is the other one expanded once.
-/
def Expands (form next : Form) : Prop :=
  ∃ n m, expand n form = .ok (some (next, m))

theorem length_le_mentions {form : Form} {chain : List Form}
    (h : (form :: chain).IsChain Expands)
    : chain.length ≤ mentions form := by
  induction chain generalizing form with
  | nil => exact Nat.zero_le _
  | cons next chain ih =>
    obtain ⟨⟨n, m, hexpand⟩, hchain⟩ := List.isChain_cons_cons.1 h
    have hstep := step_of_expand hexpand
    rcases hstep.mentions_lt with hlt | ⟨_, hends⟩
    . exact Nat.lt_of_le_of_lt (ih hchain) hlt
    -- The form behind the step is not expanded again.
    . cases chain with
      | nil => exact hstep.mentions_pos
      | cons more chain =>
        obtain ⟨⟨k, l, hexpand⟩, _⟩ := List.isChain_cons_cons.1 hchain
        rw [hends k] at hexpand
        cases hexpand

end Sugar

mutual

def Form.nodes : Form → Nat
  | .atom _ _ => 1
  | .group _ items _ => 1 + nodesAll items
  | .quote inner _ => 1 + inner.nodes

def nodesAll : List Form → Nat
  | [] => 0
  | form :: rest => form.nodes + nodesAll rest

end

namespace Sugar

mutual

theorem mentions_le_nodes (form : Form) : mentions form ≤ form.nodes := by
  cases form with
  | atom value span =>
    cases value with
    | symbol name =>
      simp only [mentions, Form.nodes]
      split <;> omega
    | _ => simp [mentions, Form.nodes]
  | group bracket items span =>
    simp only [mentions, Form.nodes]
    exact Nat.le_trans (mentionsAll_le_nodes items) (Nat.le_add_left _ _)
  | quote inner span =>
    simp only [mentions, Form.nodes]
    exact Nat.le_trans (mentions_le_nodes inner) (Nat.le_add_left _ _)

theorem mentionsAll_le_nodes (forms : List Form) : mentionsAll forms ≤ nodesAll forms := by
  cases forms with
  | nil => exact Nat.le_refl _
  | cons form rest =>
    simp only [mentionsAll, nodesAll]
    exact Nat.add_le_add (mentions_le_nodes form) (mentionsAll_le_nodes rest)

end

theorem mentions_lt_nodes {form : Form} (h : form.symbol? = none)
    : mentions form < form.nodes := by
  cases form with
  | atom value span =>
    cases value with
    | symbol name => cases h
    | _ => simp [mentions, Form.nodes]
  | group bracket items span =>
    have hitems := mentionsAll_le_nodes items
    simp only [mentions, Form.nodes]
    omega
  | quote inner span =>
    have hinner := mentions_le_nodes inner
    simp only [mentions, Form.nodes]
    omega

end Sugar

end Resumable
