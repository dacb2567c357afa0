import Resumable.Proofs.Meaning.Follows

/-!
This module contains the proof that the code of core forms follows their evaluation: by induction
over the code, with one case for every way in which a form can be evaluated.
-/

namespace Resumable

open Direct

def Plan.Simulates {α : Type} (plan : Plan) (host : HostFunctions) (globals : Table String Value)
    (scope : Scope) (high : ValueId) (depth : Nat) (post : Config → α → Prop) (c : Config)
    (x : Nat → Env → Eval α) : Prop :=
  ∀ ⦃n : Nat⦄ ⦃env : Env⦄, c.Ready globals scope env →
    plan.Follows host scope.loops high post c (n - depth) (x n env c.world)

namespace Plan.Simulates

variable {α β : Type} {plan : Plan} {host : HostFunctions} {globals : Table String Value}
  {scope : Scope}
  {high high' : ValueId} {depth depth' m : Nat} {post : Config → α → Prop}
  {post' : Config → β → Prop} {c c' : Config} {x : Nat → Env → Eval α}

theorem after (h : plan.Simulates host globals scope high' depth post c' x)
    (hmoves : plan.Moves host c m c') (hsorted : scope.Sorted high) (hkeeps : c.Keeps high c')
    (hworld : c'.world = c.world) (hhigh : high ≤ high')
    : plan.Simulates host globals scope high depth post c x := by
  intro n env hready
  have hready' : c'.Ready globals scope env :=
    hready.next (fun id hid => hkeeps.values id (hsorted.locals id hid))
      (hworld ▸ hready.world) hkeeps.globals
  rw [← hworld]
  exact Follows.after (h hready') hmoves hkeeps hhigh (by lia)

theorem mono (h : plan.Simulates host globals scope high' depth post c x) (hhigh : high ≤ high')
    (hdepth : depth ≤ depth')
    : plan.Simulates host globals scope high depth' post c x :=
  fun _ _ hready => (h hready).mono hhigh (by lia)

theorem pure {a : α} (h : post c a)
    : plan.Simulates host globals scope high depth post c fun _ _ => Pure.pure a :=
  fun _ _ _ => .pure h

theorem bind {kind : α → Prop} {k : Nat → Env → α → Eval β} (hsorted : scope.Sorted high)
    (hx : plan.Simulates host globals scope high depth post c x)
    (htame : ∀ n env, NativeEnv env → Tame kind (x n env))
    (hk : ∀ c' a, c.Keeps high c' → post c' a → kind a →
      plan.Simulates host globals scope high depth' post' c' fun n env => k n env a)
    : plan.Simulates host globals scope high (depth + depth') post' c fun n env =>
        x n env >>= k n env := by
  intro n env hready
  refine Follows.bind ((hx hready).mono (Nat.le_refl _) (by lia)) ?_
  intro c' a hok hkeeps hpost
  obtain ⟨ha, hready'⟩ := hready.past hsorted (htame n env hready.native) hok hkeeps
  exact (hk c' a hkeeps hpost ha hready').mono (Nat.le_refl _) (by lia)

theorem andThen {post' : Config → α → Prop}
    (hx : plan.Simulates host globals scope high depth post c x)
    (hk : ∀ c' a long, post c' a →
      plan.Follows host scope.loops high post' c' long (.ok a c'.world))
    : plan.Simulates host globals scope high depth post' c x :=
  fun _ _ hready => (hx hready).andThen fun c' a _ hpost => hk c' a _ hpost

theorem bound {name : String} {id : ValueId} {value : Value}
    (h : plan.Simulates host globals (scope.bind name id) high depth post c x)
    (hid : c.values id = value) (hvalue : value.Native)
    : plan.Simulates host globals scope high depth post c fun n env => x n ((name, value) :: env) :=
  fun _ _ hready => h (hready.bind name hid hvalue)

theorem stop {t : Spot} {values : α → List Value} {k : Nat → Env → α → Eval β}
    (hx : plan.Simulates host globals scope high depth (fun c' a => c'.Gives t none (values a)) c x)
    : plan.Simulates host globals scope high depth post' c fun n env => x n env >>= k n env :=
  fun _ _ hready => (hx hready).stop

end Plan.Simulates

namespace Direct

/--
Whether a global variable exists.
-/
def Defined (globals : Table String Value) (name : String) : Prop :=
  globals.get? name ≠ none

theorem onStore_global {w : World} {name : String} {value : Value}
    (h : w.store.globals.get? name = some value)
    : onStore (.global name) w = .ok value w := by
  simp [onStore, Action.global_ok h]

theorem exchange_nil {w : World} {value : Value} (h : w.inputs = [])
    : exchange value w = .error .waiting { w with outputs := w.outputs ++ [value] } := by
  simp [exchange, h]

theorem exchange_cons {w : World} {value input : Value} {rest : List Value}
    (h : w.inputs = input :: rest)
    : exchange value w = .ok input ⟨w.store, rest, w.outputs ++ [value]⟩ := by
  simp [exchange, h]

theorem evalView_apply (ev : Env → Form → Eval Value) (rounds : Nat) (env : Env) (head : Form)
    (args : List Form)
    : evalView host ev rounds env (.apply head args) = (do
        let values ← evalAll (ev env) (head :: args)
        onStore (call host (values.headD .nil) values.tail)) := by
  simp [evalView, evalAll]

theorem evalView_call (ev : Env → Form → Eval Value) (rounds : Nat) (env : Env) {name : String}
    (args : List Form) {w : World} {f : Value} (h : w.store.globals.get? name = some f)
    : evalView host ev rounds env (.call name args) w = (do
        let values ← evalAll (ev env) args
        onStore (call host f values) : Eval Value) w := by
  rw [evalView]
  exact bind_of_ok (onStore_global h)

def evalArms (ev : Env → Form → Eval Value) (env : Env) (view : View) (value : Value) :
    Eval Value :=
  match view with
  | .choose _ yes no => evalBody (ev env) .nil (if value.isTruthy then [yes] else no.toList)
  | .case _ clauses fallback =>
    match pick value clauses fallback with
    | some arm => ev env arm
    | none => onStore do .raise (.noClause ((← Action.heap).write value))
  | _ => throw .stuck

namespace View.Matches

variable {scope : Scope} {view : View} {choice : Choice} {subject : Form}
  {arms : List (Option Form)} {known : String → Prop}

theorem evalView_select (h : view.Matches scope (.select choice subject arms))
    (hallowed : view.Allowed known) (ev : Env → Form → Eval Value) (rounds : Nat) (env : Env)
    : evalView host ev rounds env view = ev env subject >>= evalArms ev env view := by
  cases h with
  | choose | case => rfl
  | foreign => exact hallowed.elim

theorem core_select (h : view.Matches scope (.select choice subject arms))
    (hallowed : view.Allowed known)
    (hparts : ∀ part ∈ view.parts scope.names, Core known part.1 part.2)
    : Core known scope.names subject ∧ ∀ arm ∈ arms, ∀ form ∈ arm, Core known scope.names form := by
  have hcore : ∀ form, (scope.names, form) ∈ view.parts scope.names → Core known scope.names form :=
    fun form hmem => hparts _ hmem
  cases h with
  | @choose _ yes no =>
    refine ⟨hcore _ (by simp [parts]), ?_⟩
    rintro arm harm form rfl
    have harm : form = yes ∨ some form = no := by simpa using harm
    apply hcore
    rcases harm with rfl | rfl <;> simp [parts]
  | @case _ clauses fallback =>
    refine ⟨hcore _ (by simp [parts]), ?_⟩
    rintro arm harm form rfl
    have harm : (∃ tests, (tests, form) ∈ clauses) ∨ fallback = some form := by simpa using harm
    apply hcore
    simp [parts, harm]
  | foreign => exact hallowed.elim

theorem switch (h : view.Matches scope (.select choice subject arms))
    (hallowed : view.Allowed known) {plan : Plan} {c : Config} {s : Spot} {operand : Operand}
    {first : BlockId} {value : Value}
    (hholds : plan.Holds s [.transfer (choice.transfer operand (.range' first arms.length))])
    (hplace : c.At s) (hreads : c.Reads operand value)
    : (∃ arm target, (arm, target) ∈ arms.zip (.range' first arms.length) ∧
        plan.Jumps c (c.enter target) ∧
        ∀ ev env, evalArms ev env view value = evalBody (ev env) .nil arm.toList) ∨
      ∃ thrown, plan.Ends host c ⟨.fault thrown, c.world⟩ ∧
        ∀ ev env, evalArms ev env view value c.world = .error (.fault thrown) c.world := by
  have hfinds := hholds.finds hplace
  cases h with
  | @choose _ yes no =>
    have hjumps : plan.Jumps c (c.enter (if value.isTruthy then first else first + 1)) :=
      .branch hfinds hreads
    left
    by_cases htruthy : value.isTruthy = true
    . rw [if_pos htruthy] at hjumps
      exact ⟨some yes, first, by simp [List.range'], hjumps, by simp [evalArms, htruthy]⟩
    . rw [if_neg htruthy] at hjumps
      exact ⟨no, first + 1, by simp [List.range'], hjumps, by simp [evalArms, htruthy]⟩
  | @case _ clauses fallback =>
    have hlength : (clauses.map (some ·.2) ++ fallback.toList.map some).length
        = clauses.length + fallback.toList.length := by simp
    rw [hlength] at hfinds ⊢
    simp only [Choice.transfer, List.length_map, ← List.range'_append_1, List.take_left',
      List.drop_left', List.length_range'] at hfinds
    rcases target?_pick value clauses fallback first with
      ⟨hpick, htarget⟩ | ⟨arm, target, hpick, htarget, hmem⟩
    . right
      refine ⟨_, .case hfinds hreads htarget, ?_⟩
      intro ev env
      simp only [evalArms, hpick]
      rfl
    . left
      refine ⟨some arm, target, hmem, .case hfinds hreads htarget, ?_⟩
      intro ev env
      simp [evalArms, hpick, evalBody]
  | foreign => exact hallowed.elim

end View.Matches

end Direct

def Part.Simulated (plan : Plan) (host : HostFunctions) (globals : Table String Value)
    (scope : Scope) (s : Spot) (r : Option (List Operand)) (t : Spot) : Part → Prop
  | .form source =>
    Core (Defined globals) scope.names source → ∃ depth, ∀ c : Config, c.At s →
      plan.Simulates host globals scope s.value depth (fun c' value => c'.Gives t r [value]) c
        fun n env => eval host n env source
  | .shape whole =>
    ∀ view : View, view.Matches scope whole → view.Allowed (Defined globals) →
      (∀ part ∈ view.parts scope.names, Core (Defined globals) part.1 part.2) →
        ∃ depth, ∀ c : Config, c.At s →
          plan.Simulates host globals scope s.value depth (fun c' value => c'.Gives t r [value]) c
            fun n env => evalView host (eval host n) n env view
  | .operands forms =>
    (∀ form ∈ forms, Core (Defined globals) scope.names form) → ∃ depth, ∀ c : Config, c.At s →
      plan.Simulates host globals scope s.value depth (fun c' values => c'.Gives t r values) c
        fun n env => evalAll (eval host n env) forms
  | .body last forms =>
    (∀ form ∈ forms, Core (Defined globals) scope.names form) →
      ∃ depth, ∀ (c : Config) (value : Value), c.At s → c.Reads last value →
        plan.Simulates host globals scope s.value depth (fun c' value => c'.Gives t r [value]) c
          fun n env => evalBody (eval host n env) value forms
  | .bindings pairs forms =>
    (∀ part ∈ View.bindParts forms scope.names pairs, Core (Defined globals) part.1 part.2) →
      ∃ depth, ∀ c : Config, c.At s →
        plan.Simulates host globals scope s.value depth (fun c' value => c'.Gives t r [value]) c
          fun n env => evalBind (eval host n) forms env pairs
  | .arms meet entries live =>
    (∀ arm ∈ entries, ∀ form ∈ arm.1, Core (Defined globals) scope.names form) →
      ∃ depth, ∀ c : Config, ∀ arm ∈ entries, c.At (s.goTo arm.2) →
        plan.Simulates host globals scope s.value depth
          (fun c' value => live = true ∧ c'.At (s.goTo meet) ∧ c'.pending = value) c
          fun n env => evalBody (eval host n env) .nil arm.1.toList
  | _ => True

structure Config.StartsRound (globals : Table String Value) (scope : Scope) (env : Env)
    (point : LoopPoint) (values : List Value) (c : Config) : Prop where
  block : c.block = point.header
  index : c.index = 0
  ready : c.Ready globals scope env
  carried : point.carried.map c.values = values
  native : ∀ value ∈ values, value.Native

namespace Part.Simulated

open Plan (Simulates)

variable {name : String} {plan : Plan} {host : HostFunctions} {globals : Table String Value}
  {handlers : List BlockId}
  {scope : Scope} {s t u : Spot} {r : Option (List Operand)}

theorem form {form : Form} {shape : Shape} (hreads : Reads (.bare name) scope form shape)
    (h : (Part.shape shape).Simulated plan host globals scope s r t)
    : (Part.form form).Simulated plan host globals scope s r t := by
  rintro ⟨hallowed, hparts⟩
  obtain ⟨depth, hshape⟩ := h _ hreads.matches hallowed hparts
  refine ⟨depth + 1, fun c hplace n env hready => ?_⟩
  cases n with
  | zero => exact .long ((Plan.long_zero c).mono (by lia))
  | succ n =>
    have hnames : env.map (·.1) = scope.names := by
      rw [hready.values, Scope.names_env]
    simp only [eval, hnames]
    exact (hshape c hplace hready).mono (Nat.le_refl _) (by lia)

theorem value {operand : Operand}
    : (Part.shape (.value operand)).Simulated plan host globals scope s (some [operand]) s := by
  intro view hmatches hallowed _
  refine ⟨0, fun c hplace n env hready => ?_⟩
  cases hmatches with
  | value => exact .pure (.one hplace rfl)
  | «variable» hfind =>
    simp only [evalView, hready.values, Scope.lookup_env hfind, Option.getD_some]
    exact .pure (.one hplace rfl)
  | @global name =>
    obtain ⟨value, hvalue⟩ := Option.ne_none_iff_exists'.1 hallowed
    rw [← hready.globals] at hvalue
    simp only [evalView, onStore_global hvalue]
    exact .pure (.one hplace hvalue)
  | foreign => exact hallowed.elim

section operands

variable {form : Form} {rest : List Form}

theorem operandsNil : (Part.operands []).Simulated plan host globals scope s (some []) s := by
  intro _
  exact ⟨0, fun c hplace => Simulates.pure ⟨hplace, [], rfl, .nil⟩⟩

theorem operandsCons (hhost : host.Native) {options : CompileOptions} {operand : Operand}
    (hsorted : scope.Sorted s.value)
    (hform : Code options plan handlers scope s (.form form) (some [operand]) t)
    (ih : (Part.form form).Simulated plan host globals scope s (some [operand]) t)
    (ihRest : (Part.operands rest).Simulated plan host globals scope t r u)
    : (Part.operands (form :: rest)).Simulated plan host globals scope s
        (r.map (operand :: ·)) u := by
  intro hcore
  rw [List.forall_mem_cons] at hcore
  obtain ⟨depth, hfirst⟩ := ih hcore.1
  obtain ⟨depth', hothers⟩ := ihRest hcore.2
  have hbelow := hform.operands_below hsorted trivial operand (List.mem_singleton.2 rfl)
  refine ⟨depth + (depth' + 0), fun c hplace => ?_⟩
  refine Simulates.bind hsorted (hfirst c hplace) (fun n env henv => .eval hhost n henv form) ?_
  intro c₁ value _ hgives _
  -- The first operand has to keep its value while the others are evaluated.
  refine Simulates.mono (Simulates.bind (hsorted.mono hform.value_le) (hothers c₁ hgives.1)
    (fun n env henv => .evalAll (.eval hhost n henv) rest) ?_) hform.value_le (Nat.le_refl _)
  rintro c₂ values hkeeps ⟨hplace', operands, rfl, hreads⟩ _
  exact Simulates.pure ⟨hplace', _, rfl, .cons (hkeeps.reads hbelow hgives.read) hreads⟩

theorem operandsStop (ih : (Part.form form).Simulated plan host globals scope s none t)
    : (Part.operands (form :: rest)).Simulated plan host globals scope s none t := by
  intro hcore
  obtain ⟨depth, hfirst⟩ := ih (hcore form (List.mem_cons_self ..))
  exact ⟨depth, fun c hplace => Simulates.stop (hfirst c hplace)⟩

end operands

section body

variable {form : Form} {rest : List Form} {last operand : Operand}

theorem bodyNil : (Part.body last []).Simulated plan host globals scope s (some [last]) s := by
  intro _
  exact ⟨0, fun c value hplace hlast => Simulates.pure (.one hplace hlast)⟩

theorem bodyCons (hhost : host.Native) (hsorted : scope.Sorted s.value) (hle : s.value ≤ t.value)
    (ih : (Part.form form).Simulated plan host globals scope s (some [operand]) t)
    (ihRest : (Part.body operand rest).Simulated plan host globals scope t r u)
    : (Part.body last (form :: rest)).Simulated plan host globals scope s r u := by
  intro hcore
  rw [List.forall_mem_cons] at hcore
  obtain ⟨depth, hfirst⟩ := ih hcore.1
  obtain ⟨depth', hothers⟩ := ihRest hcore.2
  refine ⟨depth + depth', fun c _ hplace _ => ?_⟩
  refine Simulates.bind hsorted (hfirst c hplace) (fun n env henv => .eval hhost n henv form) ?_
  intro c₁ value _ hgives _
  exact (hothers c₁ value hgives.1 hgives.read).mono hle (Nat.le_refl _)

theorem bodyStop (ih : (Part.form form).Simulated plan host globals scope s none t)
    : (Part.body last (form :: rest)).Simulated plan host globals scope s none t := by
  intro hcore
  obtain ⟨depth, hfirst⟩ := ih (hcore form (List.mem_cons_self ..))
  exact ⟨depth, fun c _ hplace _ => Simulates.stop (hfirst c hplace)⟩

theorem body {forms : List Form}
    (ih : (Part.body (.literal .nil) forms).Simulated plan host globals scope s r t)
    : (Part.shape (.body forms)).Simulated plan host globals scope s r t := by
  intro view hmatches hallowed hparts
  cases hmatches with
  | body =>
    obtain ⟨depth, hforms⟩ := ih fun form hform => hparts _ (List.mem_map_of_mem hform)
    exact ⟨depth, fun c hplace => hforms c .nil hplace rfl⟩
  | foreign => exact hallowed.elim

end body

section bindings

variable {site : String} {init : Form} {pairs : List (String × Form)} {forms : List Form}

theorem bindingsNil (ih : (Part.body (.literal .nil) forms).Simulated plan host globals scope s r t)
    : (Part.bindings [] forms).Simulated plan host globals scope s r t := by
  intro hcore
  obtain ⟨depth, hforms⟩ := ih fun form hform => hcore _ (List.mem_map_of_mem hform)
  exact ⟨depth, fun c hplace => hforms c .nil hplace rfl⟩

theorem bindingsCopy (hhost : host.Native) {operand : Operand} (hsorted : scope.Sorted s.value)
    (hle : s.value ≤ t.value) (hholds : plan.Holds t [.effect (.const operand)])
    (ih : (Part.form init).Simulated plan host globals scope s (some [operand]) t)
    (ihRest : (Part.bindings pairs forms).Simulated plan host globals (scope.bind site t.value)
      (t.skip 1) r u)
    : (Part.bindings ((site, init) :: pairs) forms).Simulated plan host globals scope s r u := by
  intro hcore
  rw [View.bindParts, List.forall_mem_cons] at hcore
  obtain ⟨depth, hinit⟩ := ih hcore.1
  obtain ⟨depth', hothers⟩ := ihRest hcore.2
  refine ⟨depth + depth', fun c hplace => ?_⟩
  refine Simulates.bind hsorted (hinit c hplace) (fun n env henv => .eval hhost n henv init) ?_
  intro c₁ value _ hgives hvalue
  have hcopied := (hothers _ (hgives.1.write (update c₁.values t.value value))).bound
    (if_pos rfl) hvalue
  exact hcopied.after (.does (.const (hholds.finds hgives.1) hgives.read) .refl) hsorted
    (.write hle value) rfl (Nat.le_succ_of_le hle)

theorem bindingsKeep (hhost : host.Native) {id : ValueId} (hsorted : scope.Sorted s.value)
    (hle : s.value ≤ t.value)
    (ih : (Part.form init).Simulated plan host globals scope s (some [.result id]) t)
    (ihRest : (Part.bindings pairs forms).Simulated plan host globals (scope.bind site id) t r u)
    : (Part.bindings ((site, init) :: pairs) forms).Simulated plan host globals scope s r u := by
  intro hcore
  rw [View.bindParts, List.forall_mem_cons] at hcore
  obtain ⟨depth, hinit⟩ := ih hcore.1
  obtain ⟨depth', hothers⟩ := ihRest hcore.2
  refine ⟨depth + depth', fun c hplace => ?_⟩
  refine Simulates.bind hsorted (hinit c hplace) (fun n env henv => .eval hhost n henv init) ?_
  intro c₁ value _ hgives hvalue
  exact ((hothers c₁ hgives.1).bound hgives.read hvalue).mono hle (Nat.le_refl _)

theorem bindingsStop (ih : (Part.form init).Simulated plan host globals scope s none t)
    : (Part.bindings ((site, init) :: pairs) forms).Simulated plan host globals scope s none t := by
  intro hcore
  rw [View.bindParts, List.forall_mem_cons] at hcore
  obtain ⟨depth, hinit⟩ := ih hcore.1
  exact ⟨depth, fun c hplace => Simulates.stop (hinit c hplace)⟩

theorem bind (ih : (Part.bindings pairs forms).Simulated plan host globals scope s r t)
    : (Part.shape (.bind pairs forms)).Simulated plan host globals scope s r t := by
  intro view hmatches hallowed hparts
  cases hmatches with
  | bind => exact ih hparts
  | foreign => exact hallowed.elim

end bindings

section arms

variable {meet block : BlockId} {arm : Option Form} {rest : List (Option Form × BlockId)}
  {live : Bool}

theorem armsNil : (Part.arms meet [] false).Simulated plan host globals scope s none s := by
  intro _
  exact ⟨0, fun c arm harm => (List.not_mem_nil harm).elim⟩

theorem armsCons {live' : Bool} (hle : s.value ≤ t.value) (hlive : live = true → live' = true)
    (harm : (∀ form ∈ arm, Core (Defined globals) scope.names form) →
      ∃ depth, ∀ c : Config, c.At (s.goTo block) →
        plan.Simulates host globals scope s.value depth
          (fun c' value => live' = true ∧ c'.At (s.goTo meet) ∧ c'.pending = value) c
          fun n env => evalBody (eval host n env) .nil arm.toList)
    (ihRest : (Part.arms meet rest live).Simulated plan host globals scope t none u)
    : (Part.arms meet ((arm, block) :: rest) live').Simulated plan host globals scope s none u := by
  intro hcore
  rw [List.forall_mem_cons] at hcore
  obtain ⟨depth, hfirst⟩ := harm hcore.1
  obtain ⟨depth', hothers⟩ := ihRest hcore.2
  refine ⟨depth + depth', fun c => List.forall_mem_cons.2 ⟨?_, ?_⟩⟩
  . intro hplace
    exact (hfirst c hplace).mono (Nat.le_refl _) (by lia)
  . intro entry hentry hplace
    refine Simulates.andThen ((hothers c entry hentry hplace).mono hle (by lia)) ?_
    rintro c' value long ⟨hlive', hmeet, hpending⟩
    exact .pure ⟨hlive hlive', hmeet, hpending⟩

theorem armsLive {operand : Operand} (hle : s.value ≤ t.value)
    (hholds : plan.Holds t [.handOver operand meet])
    (ih : (Part.body (.literal .nil) arm.toList).Simulated plan host globals scope (s.goTo block)
      (some [operand]) t)
    (ihRest : (Part.arms meet rest live).Simulated plan host globals scope (t.skip 1) none u)
    : (Part.arms meet ((arm, block) :: rest) true).Simulated plan host globals scope s none u := by
  refine armsCons (Nat.le_succ_of_le hle) (fun _ => rfl) ?_ ihRest
  intro hcore
  obtain ⟨depth, harm⟩ := ih fun form hform => hcore form (Option.mem_toList.1 hform)
  refine ⟨depth, fun c hplace => Simulates.andThen (harm c .nil hplace rfl) ?_⟩
  intro c' value long hgives
  exact (Plan.Follows.handOver hholds hgives.1 hgives.read).imp fun _ _ h => ⟨rfl, h⟩

theorem armsDead (hle : s.value ≤ t.value)
    (ih : (Part.body (.literal .nil) arm.toList).Simulated plan host globals scope (s.goTo block)
      none t)
    (ihRest : (Part.arms meet rest live).Simulated plan host globals scope t none u)
    : (Part.arms meet ((arm, block) :: rest) live).Simulated plan host globals scope s none u := by
  refine armsCons hle id ?_ ihRest
  intro hcore
  obtain ⟨depth, harm⟩ := ih fun form hform => hcore form (Option.mem_toList.1 hform)
  refine ⟨depth, fun c hplace => Simulates.andThen (harm c .nil hplace rfl) ?_⟩
  exact fun _ _ _ hgives => hgives.elim.elim

end arms

section select

variable {choice : Choice} {subject : Form} {arms : List (Option Form)} {operand : Operand}
  {live : Bool}

theorem picked (hhost : host.Native) {view : View} (hsorted : scope.Sorted s.value)
    (hle : s.value ≤ t.value)
    (hholds : plan.Holds t [.transfer (choice.transfer operand (.range' t.fresh arms.length))])
    (ih : (Part.form subject).Simulated plan host globals scope s (some [operand]) t)
    (ihArms : (Part.arms (t.fresh + arms.length) (arms.zip (.range' t.fresh arms.length))
      live).Simulated plan host globals scope ((t.opened (arms.length + 1)).skip 1) none u)
    (hmatches : view.Matches scope (.select choice subject arms))
    (hallowed : view.Allowed (Defined globals))
    (hparts : ∀ part ∈ view.parts scope.names, Core (Defined globals) part.1 part.2)
    : ∃ depth, ∀ c : Config, c.At s → plan.Simulates host globals scope s.value depth
        (fun c' value =>
          live = true ∧ c'.At (u.goTo (t.fresh + arms.length)) ∧ c'.pending = value) c
        fun n env => evalView host (eval host n) n env view := by
  obtain ⟨hsubject, harms⟩ := hmatches.core_select hallowed hparts
  obtain ⟨depth, hvalue⟩ := ih hsubject
  obtain ⟨depth', hpicked⟩ := ihArms fun arm harm => harms arm.1 (List.of_mem_zip harm).1
  refine ⟨depth + depth', fun c hplace => ?_⟩
  simp only [hmatches.evalView_select hallowed]
  refine Simulates.bind hsorted (hvalue c hplace) (fun n env henv => .eval hhost n henv subject) ?_
  intro c₁ value _ hgives _
  rcases hmatches.switch hallowed hholds hgives.1 hgives.read with
    ⟨arm, target, hmem, hjumps, heval⟩ | ⟨thrown, hends, heval⟩
  . simp only [heval]
    exact (hpicked (c₁.enter target) (arm, target) hmem ⟨rfl, rfl⟩).after (.jumps hjumps .refl)
      hsorted ⟨fun _ _ => rfl, rfl⟩ rfl (Nat.le_succ_of_le hle)
  . intro n env _
    simp only [heval]
    exact .fault .refl hends

theorem select (hhost : host.Native) (hsorted : scope.Sorted s.value) (hle : s.value ≤ t.value)
    (hle' : t.value ≤ u.value)
    (hholds : plan.Holds t [.transfer (choice.transfer operand (.range' t.fresh arms.length))])
    (hmeet : plan.Holds (u.goTo (t.fresh + arms.length)) [.receive])
    (ih : (Part.form subject).Simulated plan host globals scope s (some [operand]) t)
    (ihArms : (Part.arms (t.fresh + arms.length) (arms.zip (.range' t.fresh arms.length))
      live).Simulated plan host globals scope ((t.opened (arms.length + 1)).skip 1) none u)
    : (Part.shape (.select choice subject arms)).Simulated plan host globals scope s
        (some [.result u.value]) ((u.goTo (t.fresh + arms.length)).skip 1) := by
  intro view hmatches hallowed hparts
  obtain ⟨depth, hpicked⟩ := picked hhost hsorted hle hholds ih ihArms hmatches hallowed hparts
  refine ⟨depth, fun c hplace => Simulates.andThen (hpicked c hplace) ?_⟩
  rintro c' value long ⟨_, hplace', rfl⟩
  exact .receive hmeet hplace' (Nat.le_trans hle hle')

theorem selectDead (hhost : host.Native) (hsorted : scope.Sorted s.value) (hle : s.value ≤ t.value)
    (hholds : plan.Holds t [.transfer (choice.transfer operand (.range' t.fresh arms.length))])
    (ih : (Part.form subject).Simulated plan host globals scope s (some [operand]) t)
    (ihArms : (Part.arms (t.fresh + arms.length) (arms.zip (.range' t.fresh arms.length))
      false).Simulated plan host globals scope ((t.opened (arms.length + 1)).skip 1) none u)
    : (Part.shape (.select choice subject arms)).Simulated plan host globals scope s none u := by
  intro view hmatches hallowed hparts
  obtain ⟨depth, hpicked⟩ := picked hhost hsorted hle hholds ih ihArms hmatches hallowed hparts
  refine ⟨depth, fun c hplace => Simulates.andThen (hpicked c hplace) ?_⟩
  rintro c' value long ⟨hlive, _⟩
  cases hlive

theorem selectStop (ih : (Part.form subject).Simulated plan host globals scope s none t)
    : (Part.shape (.select choice subject arms)).Simulated plan host globals scope s none t := by
  intro view hmatches hallowed hparts
  obtain ⟨depth, hvalue⟩ := ih (hmatches.core_select hallowed hparts).1
  refine ⟨depth, fun c hplace => ?_⟩
  simp only [hmatches.evalView_select hallowed]
  exact Simulates.stop (hvalue c hplace)

end select

section perform

variable {job : Job} {items : List Form}

theorem perform (hhost : host.Native) {options : CompileOptions} {operands : List Operand}
    (hsorted : scope.Sorted s.value)
    (hcode : Code options plan handlers scope s (.operands items) (some operands) t)
    (hholds : plan.Holds t [.effect (job.effect operands)])
    (ih : (Part.operands items).Simulated plan host globals scope s (some operands) t)
    : (Part.shape (.perform job items)).Simulated plan host globals scope s (some [.result t.value])
        (t.skip 1) := by
  intro view hmatches hallowed hparts
  cases hmatches with
  | @apply head args =>
    obtain ⟨depth, hitems⟩ := ih fun form hform => hparts _ (List.mem_map_of_mem hform)
    refine ⟨depth + 0, fun c hplace => ?_⟩
    simp only [evalView_apply]
    refine Simulates.bind hsorted (hitems c hplace)
      (fun n env henv => .evalAll (.eval hhost n henv) (head :: args)) ?_
    intro c₁ values _ hgives hvalues n env hready
    have hreads := hgives.reads
    cases hreads with
    | nil => cases hcode.length_operands
    | cons hcallee hargs =>
      rw [List.forall_mem_cons] at hvalues
      exact (Plan.Follows.call hhost hholds hgives.1 hcallee hargs hvalues.1 hvalues.2
        hready.world.store).mono hcode.value_le (Nat.le_refl _)
  | @call name args =>
    obtain ⟨depth, hitems⟩ := ih fun form hform => hparts _ (List.mem_map_of_mem hform)
    obtain ⟨f, hf⟩ := Option.ne_none_iff_exists'.1 hallowed
    refine ⟨depth + 0, fun c hplace n env hready => ?_⟩
    rw [← hready.globals] at hf
    have hcalled : plan.Simulates host globals scope s.value (depth + 0)
        (fun c' value => c'.Gives (t.skip 1) (some [.result t.value]) [value]) c
        fun n env =>
          evalAll (eval host n env) items >>= fun values => onStore (call host f values) := by
      refine Simulates.bind hsorted (hitems c hplace)
        (fun n env henv => .evalAll (.eval hhost n henv) items) ?_
      intro c₁ values hkeeps hgives hvalues n env hready
      have hcallee : c₁.Reads (.global name) f := by
        rw [Config.Reads, hkeeps.globals]
        exact hf
      exact (Plan.Follows.call hhost hholds hgives.1 hcallee hgives.reads
        (hready.world.store.globals name f hcallee) hvalues hready.world.store).mono
        hcode.value_le (Nat.le_refl _)
    simp only [evalView_call (eval host n) n env items hf]
    exact hcalled hready
  | foreign => exact hallowed.elim

theorem performStop (ih : (Part.operands items).Simulated plan host globals scope s none t)
    : (Part.shape (.perform job items)).Simulated plan host globals scope s none t := by
  intro view hmatches hallowed hparts
  cases hmatches with
  | apply =>
    obtain ⟨depth, hitems⟩ := ih fun form hform => hparts _ (List.mem_map_of_mem hform)
    refine ⟨depth, fun c hplace => ?_⟩
    simp only [evalView_apply]
    exact Simulates.stop (hitems c hplace)
  | call =>
    obtain ⟨depth, hitems⟩ := ih fun form hform => hparts _ (List.mem_map_of_mem hform)
    obtain ⟨f, hf⟩ := Option.ne_none_iff_exists'.1 hallowed
    refine ⟨depth, fun c hplace n env hready => ?_⟩
    rw [← hready.globals] at hf
    simp only [evalView_call (eval host n) n env items hf]
    exact Plan.Follows.stop (hitems c hplace hready)
  | foreign => exact hallowed.elim

end perform

section suspend

variable {handler : String} {args : List Form}

theorem suspend (hhost : host.Native) {operands : List Operand} (hsorted : scope.Sorted s.value)
    (hle : s.value ≤ t.value)
    (hholds : plan.Holds t [.transfer (.suspend handler t.fresh operands)])
    (hresume : plan.Holds (((t.opened 1).skip 1).goTo t.fresh) [.receive])
    (ih : (Part.operands args).Simulated plan host globals scope s (some operands) t)
    : (Part.shape (.suspend handler args)).Simulated plan host globals scope s
        (some [.result (t.value + 1)]) ((((t.opened 1).skip 1).goTo t.fresh).skip 1) := by
  intro view hmatches hallowed hparts
  cases hmatches with
  | yield =>
    obtain ⟨depth, hargs⟩ := ih fun form hform => hparts _ (List.mem_map_of_mem hform)
    refine ⟨depth + 0, fun c hplace => ?_⟩
    refine Simulates.bind hsorted (hargs c hplace)
      (fun n env henv => .evalAll (.eval hhost n henv) args) ?_
    intro c₁ values _ hgives _ n env _
    have hfinds := hholds.finds hgives.1
    cases hinputs : c₁.world.inputs with
    | nil =>
      simp only [exchange_nil hinputs]
      exact .waiting .refl (.waiting hfinds hgives.reads hinputs)
    | cons input rest =>
      simp only [exchange_cons hinputs]
      have hresumed : plan.Follows host scope.loops s.value _
          (c₁.exchange t.fresh input rest (values.headD .nil)) (n - 0) _ :=
        .receive hresume ⟨rfl, rfl⟩ (Nat.le_succ_of_le hle)
      exact hresumed.after (.yields (.yield hfinds hgives.reads hinputs) .refl)
        ⟨fun _ _ => rfl, rfl⟩ (Nat.le_refl _) (by lia)
  | foreign => exact hallowed.elim

theorem suspendStop (ih : (Part.operands args).Simulated plan host globals scope s none t)
    : (Part.shape (.suspend handler args)).Simulated plan host globals scope s none t := by
  intro view hmatches hallowed hparts
  cases hmatches with
  | yield =>
    obtain ⟨depth, hargs⟩ := ih fun form hform => hparts _ (List.mem_map_of_mem hform)
    exact ⟨depth, fun c hplace => Simulates.stop (hargs c hplace)⟩
  | foreign => exact hallowed.elim

end suspend

section recur

variable {point : LoopPoint} {args : List Form}

theorem recur (hhost : host.Native) {outer : List LoopPoint} {operands : List Operand}
    (hsorted : scope.Sorted s.value)
    (hloops : scope.loops = point :: outer) (hdistinct : point.carried.Nodup)
    (hlength : point.carried.length = operands.length)
    (hholds : plan.Holds t [.effect (.recur point.carried operands),
      .transfer (.jump none point.header)])
    (ih : (Part.operands args).Simulated plan host globals scope s (some operands) t)
    : (Part.shape (.recur point args)).Simulated plan host globals scope s none (t.skip 2) := by
  intro view hmatches hallowed hparts
  cases hmatches with
  | recur =>
    obtain ⟨depth, hargs⟩ := ih fun form hform => hparts _ (List.mem_map_of_mem hform)
    refine ⟨depth + 0, fun c hplace => ?_⟩
    refine Simulates.bind hsorted (hargs c hplace)
      (fun n env henv => .evalAll (.eval hhost n henv) args) ?_
    intro c₁ values _ hgives _ n env _
    have hreads := hgives.reads
    have hlength' := hlength.trans hreads.length_eq
    have hkeys : (point.carried.zip values).map (·.1) = point.carried :=
      List.map_fst_zip (Nat.le_of_eq hlength')
    have hplace' := hgives.1.write (updateAll c₁.values (point.carried.zip values))
    refine .recur hloops (.does (.recur (hholds.finds hgives.1) hreads)
      (.jumps (.jump (hholds.2.finds hplace')) .refl)) (Nat.zero_lt_one) rfl rfl ?_ ?_ rfl
    . intro id _ hid
      exact updateAll_of_not_mem (by rwa [hkeys])
    . exact map_updateAll hdistinct hlength'
  | foreign => exact hallowed.elim

theorem recurStop (ih : (Part.operands args).Simulated plan host globals scope s none t)
    : (Part.shape (.recur point args)).Simulated plan host globals scope s none t := by
  intro view hmatches hallowed hparts
  cases hmatches with
  | recur =>
    obtain ⟨depth, hargs⟩ := ih fun form hform => hparts _ (List.mem_map_of_mem hform)
    exact ⟨depth, fun c hplace => Simulates.stop (hargs c hplace)⟩
  | foreign => exact hallowed.elim

end recur

section loop

variable {pairs : List (String × Form)} {forms : List Form} {operands : List Operand}
  {point : LoopPoint}

theorem rounds (hhost : host.Native) {names : List String} {low high : ValueId} {depth n : Nat}
    {env : Env} {post : Config → Value → Prop} {c : Config} {values : List Value}
    (hsorted : scope.Sorted low)
    (hhigh : low ≤ high) (hcarried : ∀ id ∈ point.carried, low ≤ id)
    (hbody : ∀ c : Config, c.block = point.header → c.index = 0 →
      plan.Simulates host globals ((scope.bindAll (names.zip point.carried)).inLoop point) high
        depth post c fun n env => evalBody (eval host n env) .nil forms)
    (hstart : c.StartsRound globals scope env point values)
    : plan.Follows host scope.loops low post c (n - depth)
        (again (fun values => evalBody (eval host n (bindAll env names values)) .nil forms) n values
          c.world) := by
  have hround : ∀ values c, Config.StartsRound globals scope env point values c →
      plan.Follows host (point :: scope.loops) high post c (n - depth)
        (evalBody (eval host n (bindAll env names values)) .nil forms c.world) := by
    intro values c hstart
    exact hbody c hstart.block hstart.index
      (hstart.ready.inLoop names hstart.carried hstart.native)
  have hlong : n - depth ≤ min n (n - depth) := by lia
  refine Plan.Follows.mono (Plan.Follows.again hround ?_ hcarried hhigh n hstart) (Nat.le_refl _)
    hlong
  intro values c c' hstart hrecur hblock hindex hrest
  have henv := hstart.ready.native.bindAll names hstart.native
  obtain ⟨hnative, hglobals, hready⟩ := hstart.ready.round
    (.evalBody (.eval hhost n henv) .nil forms) hrecur fun id hid => by
      have hlow := hsorted.locals id hid
      exact hrest id (by lia) fun hmem => by
        have := hcarried id hmem
        lia
  exact ⟨hglobals, hblock, hindex, hready, rfl, hnative⟩

theorem loop (hhost : host.Native) {options : CompileOptions} (hsorted : scope.Sorted s.value)
    (hcode : Code options plan handlers scope s (.operands (pairs.map (·.2))) (some operands) t)
    (hholds : plan.Holds t (operands.map (fun operand => .effect (.const operand)) ++
      [.transfer (.jump none t.fresh)]))
    (hpoint : point = ⟨t.fresh, scope.tryDepth, .range' t.value operands.length⟩)
    (ih : (Part.operands (pairs.map (·.2))).Simulated plan host globals scope s (some operands) t)
    (ihBody : (Part.body (.literal .nil) forms).Simulated plan host globals
      ((scope.bindAll ((pairs.map (·.1)).zip point.carried)).inLoop point)
      (((t.opened 1).skip (operands.length + 1)).goTo t.fresh) r u)
    : (Part.shape (.loop pairs forms)).Simulated plan host globals scope s r u := by
  intro view hmatches hallowed hparts
  cases hmatches with
  | loop =>
    have hle := hcode.value_le
    have hheader : point.header = t.fresh := by rw [hpoint]
    have hcarried : point.carried = .range' t.value operands.length := by rw [hpoint]
    have hlength : (pairs.map (·.1)).length = point.carried.length := by
      rw [hcarried, List.length_range', hcode.length_operands, List.length_map, List.length_map]
    simp only [View.parts, List.forall_mem_append, List.forall_mem_map] at hparts
    obtain ⟨depth, hinits⟩ := ih (List.forall_mem_map.2 hparts.1)
    obtain ⟨depth', hbody⟩ := ihBody fun form hform => by
      rw [Scope.names_inLoop hlength]
      exact hparts.2 form hform
    have hbelow := hcode.operands_below hsorted trivial
    rw [Plan.holds_append] at hholds
    refine ⟨depth + depth', fun c hplace => ?_⟩
    refine Simulates.bind hsorted (hinits c hplace)
      (fun n env henv => .evalAll (.eval hhost n henv) (pairs.map (·.2))) ?_
    intro c₁ values _ hgives hvalues n env hready
    obtain ⟨c₂, hmoves, hplace₂, hkeeps, hcopied, hworld⟩ :=
      hholds.1.copies hgives.1 (Nat.le_refl _) hbelow hgives.reads
    have hjumps : plan.Jumps c₂ (c₂.enter t.fresh) := by
      have hplace₃ : c₂.At (t.skip (operands.map fun operand =>
          Command.effect (.const operand)).length) := by rwa [List.length_map]
      exact .jump (hholds.2.finds hplace₃)
    have hstart : (c₂.enter t.fresh).StartsRound globals scope env point values := by
      refine ⟨hheader.symm, rfl, ?_, by rw [hcarried]; exact hcopied, hvalues⟩
      exact hready.next (fun id hid => hkeeps.values id ((hsorted.mono hle).locals id hid))
        (hworld ▸ hready.world) hkeeps.globals
    have hlow : ∀ id ∈ point.carried, t.value ≤ id := by
      intro id hid
      rw [hcarried, List.mem_range'_1] at hid
      exact hid.1
    have hrounds := rounds hhost (hsorted.mono hle)
      (Nat.le_add_right t.value (operands.length + 1)) hlow
      (fun c hblock hindex => hbody c .nil ⟨hblock.trans hheader, hindex⟩ rfl) hstart (n := n)
    rw [← hworld]
    exact hrounds.after (hmoves.trans (.jumps hjumps .refl))
      ⟨(hkeeps.mono hle).values, hkeeps.globals⟩ hle (by lia)
  | foreign => exact hallowed.elim

theorem loopExit {operand : Operand} (hle : s.value ≤ t.value)
    (hholds : plan.Holds t [.handOver operand t.fresh])
    (hexit : plan.Holds (((t.opened 1).skip 1).goTo t.fresh) [.receive])
    (h : (Part.shape (.loop pairs forms)).Simulated plan host globals scope s (some [operand]) t)
    : (Part.shape (.loop pairs forms)).Simulated plan host globals scope s
        (some [.result (t.value + 1)]) ((((t.opened 1).skip 1).goTo t.fresh).skip 1) := by
  intro view hmatches hallowed hparts
  obtain ⟨depth, hloop⟩ := h view hmatches hallowed hparts
  refine ⟨depth, fun c hplace => Simulates.andThen (hloop c hplace) ?_⟩
  intro c₁ value long hgives
  have hover : plan.Follows host scope.loops s.value _ c₁ long _ :=
    .handOver hholds hgives.1 hgives.read
  refine Plan.Follows.andThen (x := Pure.pure value) hover ?_
  rintro c₂ _ hok ⟨hplace, rfl⟩
  exact .receive hexit hplace (Nat.le_succ_of_le hle)

theorem loopStop (ih : (Part.operands (pairs.map (·.2))).Simulated plan host globals scope s none t)
    : (Part.shape (.loop pairs forms)).Simulated plan host globals scope s none t := by
  intro view hmatches hallowed hparts
  cases hmatches with
  | loop =>
    simp only [View.parts, List.forall_mem_append, List.forall_mem_map] at hparts
    obtain ⟨depth, hinits⟩ := ih (List.forall_mem_map.2 hparts.1)
    exact ⟨depth, fun c hplace => Simulates.stop (hinits c hplace)⟩
  | foreign => exact hallowed.elim

end loop

theorem foreign {shape : Shape} (h : ∀ view : View, view.Matches scope shape → view = .foreign)
    : (Part.shape shape).Simulated plan host globals scope s r t := by
  intro view hmatches hallowed _
  cases h view hmatches
  exact hallowed.elim

end Part.Simulated

def Scope.Distinct (scope : Scope) : Prop :=
  ∀ point ∈ scope.loops, point.carried.Nodup

theorem Scope.Distinct.looped {scope : Scope} (h : scope.Distinct) {point : LoopPoint}
    (hpoint : point.carried.Nodup) {pairs : List (String × ValueId)}
    : ((scope.bindAll pairs).inLoop point).Distinct :=
  List.forall_mem_cons.2 ⟨hpoint, h⟩

theorem Code.simulated {host : HostFunctions} (hhost : host.Native) {name : String} {plan : Plan}
    (globals : Table String Value) {handlers : List BlockId} {scope : Scope} {s t : Spot}
    {r : Option (List Operand)} {part : Part}
    (h : Code (.bare name) plan handlers scope s part r t) (hsorted : scope.Sorted s.value)
    (hdistinct : scope.Distinct)
    : part.Simulated plan host globals scope s r t := by
  induction h with
  | form hexpand hreads _ ih =>
    obtain ⟨d, d', hexpand⟩ := hexpand
    cases Lower.expand_bare hexpand
    exact .form hreads (ih hsorted hdistinct)
  | value => exact .value
  | perform hcode hholds ih => exact .perform hhost hsorted hcode hholds (ih hsorted hdistinct)
  | performStop _ ih => exact .performStop (ih hsorted hdistinct)
  | body _ ih => exact .body (ih hsorted hdistinct)
  | select hvalue _ hholds harms hmeet ih ihArms =>
    have hle := hvalue.value_le
    exact .select hhost hsorted hle (Nat.le_of_succ_le harms.value_le) hholds hmeet
      (ih hsorted hdistinct)
      (ihArms (hsorted.mono (Nat.le_succ_of_le hle)) hdistinct)
  | selectDead hvalue _ hholds _ ih ihArms =>
    have hle := hvalue.value_le
    exact .selectDead hhost hsorted hle hholds (ih hsorted hdistinct)
      (ihArms (hsorted.mono (Nat.le_succ_of_le hle)) hdistinct)
  | selectStop _ ih => exact .selectStop (ih hsorted hdistinct)
  | bind _ ih => exact .bind (ih hsorted hdistinct)
  | loop hcode _ hholds hpoint hbody _ hover hexit ih ihBody =>
    have hle := Nat.le_trans hcode.value_le (Nat.le_trans (Nat.le_add_right _ _) hbody.value_le)
    refine .loopExit hle hover hexit
      (.loop hhost hsorted hcode hholds hpoint (ih hsorted hdistinct) ?_)
    exact ihBody ((hsorted.mono hcode.value_le).looped hcode.length_operands (by rw [hpoint]))
      (hdistinct.looped (by rw [hpoint]; exact List.nodup_range'))
  | loopDead hcode _ hholds hpoint _ ih ihBody =>
    refine .loop hhost hsorted hcode hholds hpoint (ih hsorted hdistinct) ?_
    exact ihBody ((hsorted.mono hcode.value_le).looped hcode.length_operands (by rw [hpoint]))
      (hdistinct.looped (by rw [hpoint]; exact List.nodup_range'))
  | loopStop _ ih => exact .loopStop (ih hsorted hdistinct)
  | recur hloops _ _ hlength hholds ih =>
    exact .recur hhost hsorted hloops (hdistinct _ (by simp [hloops])) hlength hholds
      (ih hsorted hdistinct)
  | recurStop _ ih => exact .recurStop (ih hsorted hdistinct)
  | suspend hcode _ hholds hresume ih =>
    exact .suspend hhost hsorted hcode.value_le hholds hresume (ih hsorted hdistinct)
  | suspendStop _ ih => exact .suspendStop (ih hsorted hdistinct)
  | finish | finishBy | finishStop | attempt | attemptDead =>
    exact .foreign fun view hmatches => by cases hmatches; rfl
  | operandsNil => exact .operandsNil
  | operandsCons hform _ ih ihRest =>
    exact .operandsCons hhost hsorted hform (ih hsorted hdistinct)
      (ihRest (hsorted.mono hform.value_le) hdistinct)
  | operandsStop _ ih => exact .operandsStop (ih hsorted hdistinct)
  | operandsStopLater hform _ ih ihRest =>
    exact .operandsCons hhost hsorted hform (ih hsorted hdistinct)
      (ihRest (hsorted.mono hform.value_le) hdistinct)
  | bodyNil => exact .bodyNil
  | bodyCons hform _ ih ihRest =>
    have hle := hform.value_le
    exact .bodyCons hhost hsorted hle (ih hsorted hdistinct) (ihRest (hsorted.mono hle) hdistinct)
  | bodyStop _ ih => exact .bodyStop (ih hsorted hdistinct)
  | bindingsNil _ ih => exact .bindingsNil (ih hsorted hdistinct)
  | bindingsCopy hform hholds _ ih ihRest =>
    have hle := hform.value_le
    exact .bindingsCopy hhost hsorted hle hholds (ih hsorted hdistinct)
      (ihRest ((hsorted.mono (Nat.le_succ_of_le hle)).bind _ (Nat.lt_succ_self _)) hdistinct)
  | bindingsKeep hform _ _ ih ihRest =>
    have hle := hform.value_le
    have hid := hform.operands_below hsorted trivial _ (List.mem_singleton.2 rfl)
    exact .bindingsKeep hhost hsorted hle (ih hsorted hdistinct)
      (ihRest ((hsorted.mono hle).bind _ hid) hdistinct)
  | bindingsStop _ ih => exact .bindingsStop (ih hsorted hdistinct)
  | armsNil => exact .armsNil
  | armsLive _ harm hholds _ ih ihRest =>
    have hle := harm.value_le
    exact .armsLive hle hholds (ih hsorted hdistinct)
      (ihRest (hsorted.mono (Nat.le_succ_of_le hle)) hdistinct)
  | armsDead _ harm _ ih ihRest =>
    exact .armsDead harm.value_le (ih hsorted hdistinct)
      (ihRest (hsorted.mono harm.value_le) hdistinct)
  | guardedLive | guardedDead | catchingNone | catching | clausesNil | clausesLive | clausesDead
  | cleanupNone | cleanupLive | cleanupDead => trivial

end Resumable
