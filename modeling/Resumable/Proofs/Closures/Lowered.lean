import Resumable.Program.Compile
import Resumable.Proofs.Closures.Environment
import Resumable.Sugar.Stock

/-!
This module contains what functions are lowered to. An `fn` form captures what is in scope, and the
body of a function becomes a loop over its parameters, provided that the name of that form stands
for nothing else in the body.
-/

namespace Resumable

namespace Lambda

def bodyStart (lambda : Lambda) : Spot :=
  { block := 1
    index := 0
    value := lambda.machineParams.length + (lambda.params.length + 1)
    fresh := 2 }

/--
Whether the loop that a function becomes is understood as one: no variable has the name of the form,
no alias leads it elsewhere, and it is a core form.
-/
structure LoopStands (lambda : Lambda) : Prop where
  visible : "loop" ∉ lambda.machineParams
  resolves : lambda.aliases.resolve "loop" = "loop"
  core : ∀ n, lambda.expander.expand n lambda.loop = .ok none
  symbols : ∀ n, ∀ name ∈ lambda.params,
    lambda.expander.expand n (.symbol name lambda.span) = .ok none

structure Compiled (plan : Plan) (lambda : Lambda) (inputs : List ValueId) (result : Option Operand)
    (t : Spot) : Prop where
  reads : lambda.params.map (Scope.ofParams lambda.machineParams).find? = inputs.map some
  copies : plan.Holds (.start lambda.machineParams)
    (inputs.map (fun id => .effect (.const (.result id))) ++
      [.transfer (.jump none lambda.point.header)])
  label : plan.label lambda.point.header = .plain [] (.ofParams lambda.machineParams)
  body : Code lambda.options plan [] lambda.bodyScope lambda.bodyStart
    (.body (.literal .nil) lambda.body) (result.map ([·])) t
  leaves : ∀ operand ∈ result, plan.Holds t [.handOver operand t.fresh] ∧
    plan.Holds (((t.opened 1).skip 1).goTo t.fresh)
      [.receive, .transfer (.finish (.result (t.value + 1)))]

end Lambda

theorem Lambda.Made.fnForm_eq {options : CompileOptions} {forms : List Form} {span : Span}
    {lambda : Lambda} {ids : List ValueId} {d : Draft}
    (h : lambda.Made options d.scope forms span ids)
    : Lower.fnForm options forms span d
        = Lower.performValue (.lambda lambda (ids.map .result)) span d := by
  obtain ⟨⟨own, items, span', rfl, hown, hitems⟩, hcaptures, rfl, haliases, hexpander, hspan⟩ := h
  have hmake : Lower.makeLambda options lambda.name (.vector items span' :: lambda.body) span d
      = Lower.performValue (.lambda lambda
          (((d.scope.unhidden lambda.ownNames).map (·.2)).map .result)) span d := by
    have hlambda : lambda =
        { name := lambda.name
          params := lambda.params
          captures := (d.scope.unhidden lambda.ownNames).map (·.1)
          body := lambda.body
          aliases := options.aliases
          expander := options.expander
          span := span } := by rw [← hcaptures, ← haliases, ← hexpander, ← hspan]
    have hnames : Lower.parameterNames items d = .ok lambda.params d :=
      Lower.parameterNames_ok.2 ⟨hitems, rfl⟩
    unfold Lower.makeLambda
    simp only [Form.vector?]
    rw [bind_of_ok hnames, bind_of_ok (Lower.scope_ok.2 ⟨rfl, rfl⟩), List.map_map]
    exact congrArg (fun code => Lower.performValue (.lambda code _) span d) hlambda.symm
  rw [← hmake]
  cases hname : lambda.name with
  | none =>
    rw [hname] at hown
    rw [List.map_eq_nil_iff.1 hown]
    rfl
  | some name =>
    rw [hname] at hown
    obtain ⟨form, rfl, hform⟩ := List.map_eq_singleton_iff.1 hown
    unfold Form.symbol? at hform
    split at hform
    . cases hform
      rfl
    . cases hform

theorem Lower.expand_core {expander : Expander} {form core : Form} {d d' : Draft}
    (hcore : ∀ n, expander.expand n form = .ok none)
    (h : expand expander form d = .ok core d')
    : core = form := by
  unfold expand maxExpansions expand.go at h
  obtain ⟨draft, _, hget, h⟩ := bind_ok.1 h
  rw [hcore] at h
  exact (pure_ok.1 h).1

section

variable {options : CompileOptions} {plan : Plan} {handlers : List BlockId} {scope : Scope}
  {s t : Spot} {r : Option (List Operand)} {span : Span}

theorem Code.symbol {name : String}
    (hcore : ∀ n, options.expander.expand n (.symbol name span) = .ok none)
    (hscope : scope.find? name ≠ none)
    (h : Code options plan handlers scope s (.form (.symbol name span)) r t)
    : t = s ∧ ∃ id, scope.find? name = some id ∧ r = some [.result id] := by
  cases h with
  | form hexpand hreads hcode =>
    obtain ⟨_, _, hexpand⟩ := hexpand
    cases Lower.expand_core hcore hexpand
    cases hreads with
    | «local» hfind =>
      cases hcode
      exact ⟨rfl, _, hfind, rfl⟩
    | global hnone => exact absurd hnone hscope
    | atom hother => exact absurd rfl (hother name)

theorem Code.symbols {names : List String}
    (hcore : ∀ n, ∀ name ∈ names, options.expander.expand n (.symbol name span) = .ok none)
    (hscope : ∀ name ∈ names, scope.find? name ≠ none)
    (h : Code options plan handlers scope s (.operands (names.map (.symbol · span))) r t)
    : t = s ∧ ∃ ids : List ValueId, names.map scope.find? = ids.map some ∧
        r = some (ids.map .result) := by
  induction names generalizing s r with
  | nil =>
    cases h
    exact ⟨rfl, [], rfl, rfl⟩
  | cons name names ih =>
    simp only [List.forall_mem_cons] at hcore hscope
    cases h with
    | operandsCons hform hrest =>
      obtain ⟨rfl, id, hfind, hid⟩ := hform.symbol (fun n => (hcore n).1) hscope.1
      obtain ⟨rfl, ids, hfinds, hids⟩ := ih (fun n => (hcore n).2) hscope.2 hrest
      cases hid
      cases hids
      exact ⟨rfl, id :: ids, by rw [List.map_cons, List.map_cons, hfind, hfinds], rfl⟩
    | operandsStop hform =>
      obtain ⟨_, _, _, hid⟩ := hform.symbol (fun n => (hcore n).1) hscope.1
      cases hid
    | operandsStopLater hform hrest =>
      obtain ⟨rfl, _, _, _⟩ := hform.symbol (fun n => (hcore n).1) hscope.1
      obtain ⟨_, _, _, hids⟩ := ih (fun n => (hcore n).2) hscope.2 hrest
      cases hids

end

theorem Bindings.symbols {names : List String} {span : Span} {pairs : List (String × Form)}
    (h : Bindings (names.flatMap fun name => [Form.symbol name span, .symbol name span]) pairs)
    : pairs = names.map fun name => (name, .symbol name span) := by
  induction names generalizing pairs with
  | nil =>
    cases h
    rfl
  | cons name names ih =>
    cases h with
    | cons hname hrest =>
      cases hname
      rw [ih hrest, List.map_cons]

theorem Named.loop_shape {options : CompileOptions} {scope : Scope} {items forms : List Form}
    {span span' : Span} {shape : Shape}
    (h : Named options scope "loop" (.vector items span' :: forms) span shape)
    : ∃ pairs, Bindings items pairs ∧ shape = .loop pairs forms := by
  generalize hname : "loop" = name at h
  generalize hargs : Form.vector items span' :: forms = args at h
  cases h with
  | loop hbindings =>
    cases hargs
    exact ⟨_, hbindings, rfl⟩
  | field haccess | method haccess =>
    subst hname
    cases haccess
  | suspend hspecial | call hspecial =>
    subst hname
    exact absurd (by decide) hspecial
  | _ => exact absurd hname (by decide)

theorem Lambda.LoopStands.ofStock {lambda : Lambda} (hexpander : lambda.expander = .stock)
    (hvisible : "loop" ∉ lambda.machineParams) (hresolves : lambda.aliases.resolve "loop" = "loop")
    : lambda.LoopStands where
  visible := hvisible
  resolves := hresolves
  core _ := by
    rw [hexpander]
    rfl
  symbols _ _ _ := by
    rw [hexpander]
    rfl

theorem Lambda.LoopStands.reads {lambda : Lambda} {scope : Scope} {shape : Shape}
    (h : lambda.LoopStands) (hscope : scope.find? "loop" = none)
    (hreads : Reads lambda.options scope lambda.loop shape)
    : shape = .loop (lambda.params.map fun name => (name, .symbol name lambda.span))
        lambda.body := by
  unfold loop at hreads
  cases hreads with
  | apply hlocal => exact absurd hscope (hlocal "loop" rfl)
  | named _ hnamed =>
    have hresolves : lambda.options.aliases.resolve "loop" = "loop" := h.resolves
    rw [hresolves] at hnamed
    obtain ⟨pairs, hbindings, rfl⟩ := hnamed.loop_shape
    rw [hbindings.symbols]

theorem Graph.Coded.compiled {lambda : Lambda} {graph : Graph} {plan : Plan}
    (h : graph.Coded lambda.options lambda.loop plan) (hstands : lambda.LoopStands)
    : ∃ inputs result t, lambda.Compiled plan inputs result t := by
  have hhidden : (Scope.ofParams lambda.machineParams).find? "loop" = none :=
    Scope.find?_ofParams.2 hstands.visible
  have hfound : ∀ name ∈ lambda.params,
      (Scope.ofParams lambda.machineParams).find? name ≠ none := by
    intro name hname hnone
    exact Scope.find?_ofParams.1 hnone (List.mem_append_right _ hname)
  -- The whole is one form, which is the loop.
  have hloop : ∀ {r t}, Code lambda.options plan [] (.ofParams lambda.machineParams)
      (.start lambda.machineParams) (.form lambda.loop) r t →
        Code lambda.options plan [] (.ofParams lambda.machineParams) (.start lambda.machineParams)
          (.shape (.loop (lambda.params.map fun name => (name, .symbol name lambda.span))
            lambda.body)) r t := by
    intro r t hcode
    cases hcode with
    | form hexpand hreads hcode =>
      obtain ⟨_, _, hexpand⟩ := hexpand
      cases Lower.expand_core hstands.core hexpand
      rwa [hstands.reads hhidden hreads] at hcode
  -- Its variables start with the parameters, which need no instructions.
  have hinits : ∀ {r t}, Code lambda.options plan [] (.ofParams lambda.machineParams)
      (.start lambda.machineParams) (.operands ((lambda.params.map fun name =>
        (name, Form.symbol name lambda.span)).map (·.2))) r t →
      t = .start lambda.machineParams ∧ ∃ inputs : List ValueId,
        inputs.length = lambda.params.length ∧
        lambda.params.map (Scope.ofParams lambda.machineParams).find? = inputs.map some ∧
        r = some (inputs.map .result) := by
    intro r t hcode
    rw [List.map_map] at hcode
    obtain ⟨ht, inputs, hfinds, hr⟩ := hcode.symbols hstands.symbols hfound
    exact ⟨ht, inputs, by simpa using (congrArg List.length hfinds).symm, hfinds, hr⟩
  have hnames : (lambda.params.map fun name => (name, Form.symbol name lambda.span)).map (·.1)
      = lambda.params := by simp [Function.comp_def]
  obtain ⟨_, hmain, _⟩ := h.main
  cases hmain with
  | finish hbody _ hfinish =>
    cases hbody with
    | bodyCons hform hnil =>
      cases hnil
      cases hloop hform with
      | @loop _ _ _ t u _ _ _ operand _ hcopies hlabel hholds hpoint hbody _ hover hexit =>
        obtain ⟨rfl, inputs, hlength, hfinds, hoperands⟩ := hinits hcopies
        cases hoperands
        rw [List.length_map, hlength] at hpoint hbody
        subst hpoint
        rw [hnames] at hbody
        rw [List.map_map] at hholds
        refine ⟨inputs, some operand, u, hfinds, hholds, hlabel, hbody, ?_⟩
        rintro _ ⟨⟩
        exact ⟨hover, hexit.1, hfinish⟩
  | finishBy _ hreturn => cases hreturn
  | finishStop hbody =>
    cases hbody with
    | bodyCons _ hnil => cases hnil
    | bodyStop hform =>
      cases hloop hform with
      | loopDead hcopies hlabel hholds hpoint hbody =>
        obtain ⟨rfl, inputs, hlength, hfinds, hoperands⟩ := hinits hcopies
        cases hoperands
        rw [List.length_map, hlength] at hpoint hbody
        subst hpoint
        rw [hnames] at hbody
        rw [List.map_map] at hholds
        exact ⟨inputs, none, _, hfinds, hholds, hlabel, hbody, by simp⟩
      | loopStop hcopies =>
        obtain ⟨_, _, _, _, hoperands⟩ := hinits hcopies
        cases hoperands

end Resumable
