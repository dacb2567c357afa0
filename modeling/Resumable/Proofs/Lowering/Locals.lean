import Resumable.Proofs.Closures.Lowered
import Resumable.Proofs.Lowering.Depth

/-!
This module contains the proof that a local variable at the head of a list makes it an ordinary
call, whatever else the name means, unless the stock sugar expands lists with the name.
-/

namespace Resumable

namespace Lower

theorem expand_none {expander : Expander} {form : Form} {d : Draft}
    (h : expander.expand d.temporaries form = .ok none)
    : expand expander form d = .ok form d := by
  rw [expand, show maxExpansions = 1023 + 1 from rfl, expand.go_succ, h]

theorem expand_stock {form : Form} (h : ∀ name ∈ form.head?, name ∉ Sugar.names) (d : Draft)
    : expand .stock form d = .ok form d := by
  have hnone : Expander.stock.expand d.temporaries form = .ok none := Sugar.expand_core h
  exact expand_none hnone

theorem symbolOperand_local {name : String} {id : ValueId} {d : Draft}
    (hfind : d.scope.find? name = some id)
    : symbolOperand name d = .ok (.result id) d := by
  refine (bind_of_ok (scope_ok.2 ⟨rfl, rfl⟩)).trans ?_
  rw [hfind]
  rfl

section

variable {options : CompileOptions} (hstock : options.expander = .stock) {name : String}
  {id : ValueId} {place span : Span} {args : List Form} {d : Draft}

include hstock

theorem whole_symbol (hfind : d.scope.find? name = some id)
    : whole options (.symbol name place) d = .ok (.value (.result id)) d := by
  have hexpand : expand options.expander (.symbol name place) d = .ok (.symbol name place) d := by
    rw [hstock]
    exact expand_stock (by simp [Form.head?]) d
  rw [whole_eq hstock, bind_of_ok hexpand]
  exact bind_of_ok (symbolOperand_local hfind)

theorem whole_local (hname : name ∉ Sugar.names) (hfind : d.scope.find? name = some id)
    : whole options (.list (.symbol name place :: args) span) d
        = withOperands (whole options) args
            (fun operands => performValue (.call (.result id) operands) span) d := by
  have hexpand : expand options.expander (.list (.symbol name place :: args) span) d
      = .ok (.list (.symbol name place :: args) span) d := by
    rw [hstock]
    refine expand_stock (fun head hhead => ?_) d
    cases hhead
    exact hname
  rw [whole_eq hstock, bind_of_ok hexpand]
  have hlist : coreForm options (whole options) (.list (.symbol name place :: args) span) d
      = callForm (whole options) (.symbol name place) args span d := by
    refine (bind_of_ok (scope_ok.2 ⟨rfl, rfl⟩)).trans ?_
    rw [hfind]
  rw [hlist]
  exact bind_of_ok (whole_symbol hstock hfind)

theorem whole_local_eq (hname : name ∉ Sugar.names) (hfind : d.scope.find? name = some id)
    : whole options (.list (.symbol name place :: args) span) d
        = match operands (whole options) args d with
          | .ok (some operands) e =>
            .ok (.value (.result e.spot.value))
              (e.push (.effect (.call (.result id) operands)) span)
          | .ok none e => .ok .terminated e
          | .error error e => .error error e := by
  rw [whole_local hstock hname hfind, withOperands]
  cases hargs : operands (whole options) args d with
  | ok r e =>
    rw [bind_of_ok hargs]
    cases r <;> rfl
  | error error e => rw [bind_of_error hargs]

end

end Lower

namespace Code

variable {options : CompileOptions} {plan : Plan} {handlers : List BlockId} {scope : Scope}
  {s t : Spot} {r : Option (List Operand)} {name : String} {id : ValueId} {place span : Span}
  {args : List Form}

theorem of_core (hstock : options.expander = .stock) {form : Form}
    (hcore : ∀ name ∈ form.head?, name ∉ Sugar.names)
    (h : Code options plan handlers scope s (.form form) r t)
    : ∃ shape, Reads options scope form shape ∧
        Code options plan handlers scope s (.shape shape) r t := by
  cases h with
  | form hexpand hreads hshape =>
    obtain ⟨d, e, hexpand⟩ := hexpand
    rw [hstock] at hexpand
    cases Lower.expand_core (fun _ => Sugar.expand_core hcore) hexpand
    exact ⟨_, hreads, hshape⟩

theorem of_variable (hstock : options.expander = .stock) (hfind : scope.find? name = some id)
    (h : Code options plan handlers scope s (.form (.symbol name place)) r t)
    : t = s ∧ r = some [.result id] := by
  have hsymbol : ∀ n, options.expander.expand n (.symbol name place) = .ok none := by
    intro n
    rw [hstock]
    exact @Sugar.expand_core n (.symbol name place) (by simp [Form.head?])
  obtain ⟨rfl, id', hid', rfl⟩ := h.symbol hsymbol (by simp [hfind])
  rw [hfind] at hid'
  cases hid'
  exact ⟨rfl, rfl⟩

theorem of_local (hstock : options.expander = .stock) (hname : name ∉ Sugar.names)
    (hfind : scope.find? name = some id)
    (h : Code options plan handlers scope s (.form (.list (.symbol name place :: args) span)) r t)
    : (∃ operands u, Code options plan handlers scope s (.operands args) (some operands) u ∧
        plan.Holds u [.effect (.call (.result id) operands)] ∧ r = some [.result u.value] ∧
          t = u.skip 1) ∨
        (Code options plan handlers scope s (.operands args) none t ∧ r = none) := by
  have hcore : ∀ head ∈ (Form.list (.symbol name place :: args) span).head?,
      head ∉ Sugar.names := by
    rintro _ ⟨⟩
    exact hname
  obtain ⟨shape, hreads, hshape⟩ := h.of_core hstock hcore
  cases hreads with
  | named hnone _ =>
    rw [hfind] at hnone
    cases hnone
  | apply _ =>
    cases hshape with
    | perform hoperands hholds =>
      cases hoperands with
      | operandsCons hcallee hargs =>
        obtain ⟨rfl, heq⟩ := hcallee.of_variable hstock hfind
        cases heq
        exact .inl ⟨_, _, hargs, hholds, rfl, rfl⟩
    | performStop hoperands =>
      cases hoperands with
      | operandsStop hcallee => cases (hcallee.of_variable hstock hfind).2
      | operandsStopLater hcallee hargs =>
        obtain ⟨rfl, _⟩ := hcallee.of_variable hstock hfind
        exact .inr ⟨hargs, rfl⟩

end Code

/--
A local variable at the head of a list makes it an ordinary call, whatever else the name means,
unless it is the name of a sugar. From any draft in which the name stands for a result, and at any
depth at which the form can be lowered, the operands are lowered from left to right, and the call of
that result is appended, unless control never gets past one of the operands. The same is true of the
code of such a list wherever it stands in a graph.
-/
theorem Lower.local_called {options : CompileOptions} (hstock : options.expander = .stock)
    {name : String} (hname : name ∉ Sugar.names) (id : ValueId) (args : List Form)
    (place span : Span)
    : (∀ (d : Draft) (depth : Nat), d.scope.find? name = some id →
        Sugar.weight (.list (.symbol name place :: args) span) ≤ depth →
          form options depth (.list (.symbol name place :: args) span) d
            = match operands (whole options) args d with
              | .ok (some operands) e =>
                .ok (.value (.result e.spot.value))
                  (e.push (.effect (.call (.result id) operands)) span)
              | .ok none e => .ok .terminated e
              | .error error e => .error error e) ∧
        ∀ {plan : Plan} {handlers : List BlockId} {scope : Scope} {s t : Spot}
          {r : Option (List Operand)}, scope.find? name = some id →
          Code options plan handlers scope s (.form (.list (.symbol name place :: args) span)) r t →
            (∃ operands u,
              Code options plan handlers scope s (.operands args) (some operands) u ∧
                plan.Holds u [.effect (.call (.result id) operands)] ∧
                r = some [.result u.value] ∧ t = u.skip 1) ∨
              (Code options plan handlers scope s (.operands args) none t ∧ r = none) := by
  refine ⟨fun d depth hfind hdepth => ?_, fun hfind hcode => hcode.of_local hstock hname hfind⟩
  rw [form_eq_formFrom, formFrom_whole hstock _ hdepth]
  exact whole_local_eq hstock hname hfind

def Draft.ifLocal : Draft :=
  ({} : Draft).within { locals := [("if", 7)] }

theorem Lower.local_called_ifLocal
    : Draft.ifLocal.scope.find? "if" = some 7 ∧ "if" ∉ Sugar.names ∧
        form { expander := .stock } 100
            (.list [.symbol "if" .synthetic, .atom (.int 1) .synthetic] .synthetic) Draft.ifLocal
          = .ok (.value (.result 0))
              (Draft.ifLocal.push (.effect (.call (.result 7) [.literal (.int 1)])) .synthetic) := by
  have hname : "if" ∉ Sugar.names := by decide
  refine ⟨rfl, hname, ?_⟩
  exact (@Lower.local_called { expander := .stock } rfl "if" hname 7
    [.atom (.int 1) .synthetic] .synthetic .synthetic).1 Draft.ifLocal 100 rfl (by decide)

def Form.whenLocal : Form :=
  .list [.symbol "let" .synthetic,
    .vector [.symbol "when" .synthetic, .symbol "vector" .synthetic] .synthetic,
    .list [.symbol "when" .synthetic, .atom (.int 1) .synthetic, .atom (.int 2) .synthetic]
      .synthetic] .synthetic

def Instruction.isCall (ins : Instruction) : Bool :=
  match ins.command with
  | .effect (.call _ _) => true
  | _ => false

theorem Graph.sugar_notCalled_whenLocal
    : ∃ graph, Graph.ofForm { expander := .stock } .whenLocal = .ok graph ∧
        ∀ entry ∈ graph.blocks.entries, ∀ ins ∈ entry.2.code, ins.isCall = false := by
  have hcheck : (Graph.ofForm { expander := .stock } .whenLocal).toOption.any (fun graph =>
      graph.blocks.entries.all fun entry => entry.2.code.all fun ins => !ins.isCall) = true := by
    decide +kernel
  obtain ⟨graph, hgraph, hall⟩ := (Option.any_eq_true _ _).1 hcheck
  refine ⟨graph, Except.eq_ok_of_toOption hgraph, fun entry hentry ins hins => ?_⟩
  have hnone := List.all_eq_true.1 (List.all_eq_true.1 hall entry hentry) ins hins
  simpa using hnone

end Resumable
