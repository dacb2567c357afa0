import Resumable.Proofs.Lowering.Locals
import Resumable.Proofs.Lowering.Sorted

/-!
This module contains what the code of a sugar is: that of the form which it is expanded to. The
expansions are made of `do`, `if` and `let`, and they are understood as such provided that the names
stand for nothing else.
-/

namespace Resumable

namespace Sugar

theorem expand_ne_none {name : String} (h : name ∈ names) (n : Nat) (place span : Span)
    (args : List Form)
    : expand n (.list (.symbol name place :: args) span) ≠ .ok none := by
  have hmap : ∀ x : Except String Form, (x.map fun form => some (form, n)) ≠ .ok none := by
    intro x hx
    cases x <;> cases hx
  intro hnone
  simp only [names, List.mem_cons, List.not_mem_nil, or_false] at h
  rcases h with rfl | rfl | rfl | rfl | rfl | rfl | rfl | rfl <;>
    first | exact hmap _ hnone | cases hnone

theorem connective_mem (conjunction : Bool) : connective conjunction ∈ names := by
  cases conjunction <;> decide

theorem expand_connective (conjunction : Bool) (n : Nat) (place span : Span) (args : List Form)
    : expand n (.list (.symbol (connective conjunction) place :: args) span)
        = .ok (some (shortCircuit conjunction n args span)) := by
  cases conjunction <;> rfl

theorem keep_ok {n m : Nat} {x : Except String Form} {next : Form}
    (h : (x.map fun form => some (form, n)) = .ok (some (next, m)))
    : x = .ok next := by
  cases x with
  | error complaint => cases h
  | ok form =>
    cases h
    rfl

structure Stands (options : CompileOptions) (scope : Scope) (word : String) : Prop where
  visible : scope.find? word = none
  resolves : options.aliases.resolve word = word

end Sugar

namespace Lower

theorem expand.go_more {expander : Expander} {form form' core : Form} {rounds : Nat}
    {current : Form} {d e : Draft} (h : go expander form rounds current d = .ok core e)
    : go expander form' (rounds + 1) current d = .ok core e := by
  induction rounds generalizing current d with
  | zero => exact (throw_ok.1 h).elim
  | succ rounds ih =>
    rw [go_succ] at h ⊢
    split at h
    . cases h
    . exact h
    . exact ih h

end Lower

section

variable {options : CompileOptions} {scope : Scope}

theorem Reads.word {word : String} {place span : Span} {args : List Form} {shape : Shape}
    (h : Reads options scope (.list (.symbol word place :: args) span) shape)
    (hstands : Sugar.Stands options scope word)
    : Named options scope word args span shape := by
  cases h with
  | apply hlocal => exact absurd hstands.visible (hlocal word rfl)
  | named _ hnamed => rwa [hstands.resolves] at hnamed

theorem Named.of_word {word : String} {args : List Form} {span : Span} {shape : Shape}
    (h : Named options scope word args span shape) (hword : word ∈ ["do", "if", "let"])
    : word = "do" ∧ shape = .body args ∨
        (word = "if" ∧ ∃ test yes no, args = test :: yes :: Option.toList no ∧
          shape = .select .test test [some yes, no]) ∨
        (word = "let" ∧ ∃ items span' forms pairs, args = .vector items span' :: forms ∧
          Bindings items pairs ∧ shape = .bind pairs forms) := by
  have hspecial : ∀ word ∈ ["do", "if", "let"], word ∈ specialNames := by decide
  cases h with
  | body => exact .inl ⟨rfl, rfl⟩
  | choose => exact .inr (.inl ⟨rfl, _, _, _, rfl, rfl⟩)
  | bind hbindings => exact .inr (.inr ⟨rfl, _, _, _, _, rfl, hbindings, rfl⟩)
  | field haccess | method haccess =>
    simp only [List.mem_cons, List.not_mem_nil, or_false] at hword
    rcases hword with rfl | rfl | rfl <;> cases haccess
  | suspend hother | call hother => exact absurd (hspecial _ hword) hother
  | _ => exact absurd hword (by decide)

theorem Named.do_shape {args : List Form} {span : Span} {shape : Shape}
    (h : Named options scope "do" args span shape)
    : shape = .body args := by
  rcases h.of_word (by decide) with ⟨_, hshape⟩ | ⟨hname, _⟩ | ⟨hname, _⟩
  . exact hshape
  . exact absurd hname (by decide)
  . exact absurd hname (by decide)

theorem Named.if_shape {test yes no : Form} {span : Span} {shape : Shape}
    (h : Named options scope "if" [test, yes, no] span shape)
    : shape = .select .test test [some yes, some no] := by
  rcases h.of_word (by decide) with ⟨hname, _⟩ | ⟨_, _, _, other, hargs, hshape⟩ | ⟨hname, _⟩
  . exact absurd hname (by decide)
  . cases other <;> cases hargs
    exact hshape
  . exact absurd hname (by decide)

theorem Named.let_shape {name : String} {place span span' : Span} {init : Form} {forms : List Form}
    {shape : Shape}
    (h : Named options scope "let" (.vector [.symbol name place, init] span' :: forms) span shape)
    : shape = .bind [(name, init)] forms := by
  rcases h.of_word (by decide) with ⟨hname, _⟩ | ⟨hname, _⟩ |
    ⟨_, _, _, _, _, hargs, hbindings, hshape⟩
  . exact absurd hname (by decide)
  . exact absurd hname (by decide)
  . cases hargs
    cases hbindings with
    | cons hsymbol hrest =>
      cases hsymbol
      cases hrest
      exact hshape

end

namespace Code

variable {options : CompileOptions} {plan : Plan} {handlers : List BlockId} {scope : Scope}
  {s t : Spot} {r : Option (List Operand)} {place span : Span} {args : List Form}

theorem of_sugar (hstock : options.expander = .stock) {name : String} (hname : name ∈ Sugar.names)
    (h : Code options plan handlers scope s (.form (.list (.symbol name place :: args) span)) r t)
    : ∃ n next m, Sugar.expand n (.list (.symbol name place :: args) span) = .ok (some (next, m)) ∧
        Code options plan handlers scope s (.form next) r t := by
  cases h with
  | @form _ _ _ _ _ _ core _ hexpand hreads hshape =>
    obtain ⟨d, e, hexpand⟩ := hexpand
    rw [hstock, Lower.expand, show Lower.maxExpansions = 1023 + 1 from rfl,
      Lower.expand.go_succ] at hexpand
    split at hexpand
    . cases hexpand
    . next hnone => exact (Sugar.expand_ne_none hname _ place span args hnone).elim
    . next next m hstep =>
      have hnext : Lower.expand options.expander next { d with temporaries := m }
          = .ok core e := by
        rw [hstock]
        exact Lower.expand.go_more hexpand
      exact ⟨_, next, m, hstep, .form ⟨_, e, hnext⟩ hreads hshape⟩

theorem of_word (hstock : options.expander = .stock) {word : String} (hword : word ∉ Sugar.names)
    (hstands : Sugar.Stands options scope word)
    (h : Code options plan handlers scope s (.form (Sugar.call word args span)) r t)
    : ∃ shape, Named options scope word args span shape ∧
        Code options plan handlers scope s (.shape shape) r t := by
  obtain ⟨shape, hreads, hshape⟩ := h.of_core hstock (by
    rintro _ ⟨⟩
    exact hword)
  exact ⟨shape, hreads.word hstands, hshape⟩

theorem of_single {last : Operand} {form : Form}
    (h : Code options plan handlers scope s (.body last [form]) r t)
    : Code options plan handlers scope s (.form form) r t := by
  cases h with
  | bodyCons hform hnil =>
    cases hnil
    exact hform
  | bodyStop hform => exact hform

theorem of_atom (hstock : options.expander = .stock) {value : Atom}
    (hvalue : ∀ name, value ≠ .symbol name)
    (h : Code options plan handlers scope s (.form (.atom value span)) r t)
    : t = s ∧ r = some [.literal value.toValue] := by
  obtain ⟨shape, hreads, hshape⟩ := h.of_core hstock (by
    intro name hname
    cases value <;> simp [Form.head?] at hname)
  cases hreads with
  | «local» | global => exact absurd rfl (hvalue _)
  | atom =>
    cases hshape
    exact ⟨rfl, rfl⟩

theorem arm {meet : BlockId} {arms : List (Option Form × BlockId)} {live : Bool}
    (h : Code options plan handlers scope s (.arms meet arms live) none t) {form : Form}
    {block : BlockId} (hmem : (some form, block) ∈ arms)
    : ∃ (u : Spot) (r : Option (List Operand)) (v : Spot), s.value ≤ u.value ∧ v.value ≤ t.value ∧
        Code options plan handlers scope (u.goTo block) (.form form) r v ∧
        ∀ operand, r = some [operand] →
          live = true ∧ plan.Holds v [.handOver operand meet] := by
  -- Control has to get past the arm for its value to be handed over, and then past some arm.
  induction arms generalizing s live with
  | nil => cases hmem
  | cons first rest ih =>
    cases h with
    | @armsLive _ _ _ t₁ _ _ _ _ _ _ _ _ hfirst hholds hrest =>
      have hle := hrest.value_le
      have hle' := hfirst.value_le
      rcases List.mem_cons.1 hmem with heq | hmem
      . cases heq
        refine ⟨s, _, t₁, Nat.le_refl _, Nat.le_of_succ_le hle, hfirst.of_single, ?_⟩
        rintro operand heq
        cases heq
        exact ⟨rfl, hholds⟩
      . obtain ⟨u, r, v, hu, hv, hform, hover⟩ := ih hrest hmem
        refine ⟨u, r, v, Nat.le_trans hle' (Nat.le_of_succ_le hu), hv, hform, ?_⟩
        exact fun operand hr => ⟨rfl, (hover operand hr).2⟩
    | @armsDead _ _ _ t₁ _ _ _ _ _ _ _ hfirst hrest =>
      have hle := hrest.value_le
      have hle' := hfirst.value_le
      rcases List.mem_cons.1 hmem with heq | hmem
      . cases heq
        exact ⟨s, none, t₁, Nat.le_refl _, hle, hfirst.of_single, by simp⟩
      . obtain ⟨u, r, v, hu, hv, hform, hover⟩ := ih hrest hmem
        exact ⟨u, r, v, Nat.le_trans hle' hu, hv, hform, hover⟩

end Code

end Resumable
