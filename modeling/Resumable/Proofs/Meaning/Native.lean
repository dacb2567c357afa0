import Resumable.Proofs.Meaning.Direct
import Resumable.Proofs.Values.Primitives

/-!
This module contains values that no closure is part of. What is called on such values gives such
values, and leaves the global variables as they are.
-/

namespace Resumable

mutual

/--
Whether no closure is part of a value.
-/
def Value.Native : Value → Prop
  | .list items | .vector items | .set items => NativeAll items
  | .map entries => NativeEntries entries
  | .error _ _ data => data.Native
  | .closure _ _ _ => False
  | _ => True

def NativeAll : List Value → Prop
  | [] => True
  | value :: rest => value.Native ∧ NativeAll rest

def NativeEntries : List (Value × Value) → Prop
  | [] => True
  | (key, value) :: rest => (key.Native ∧ value.Native) ∧ NativeEntries rest

end

theorem nativeAll_iff {values : List Value}
    : NativeAll values ↔ ∀ value ∈ values, value.Native := by
  induction values with
  | nil => simp [NativeAll]
  | cons value values ih => simp [NativeAll, ih]

theorem nativeEntries_iff {entries : List (Value × Value)}
    : NativeEntries entries ↔ ∀ entry ∈ entries, entry.1.Native ∧ entry.2.Native := by
  induction entries with
  | nil => simp [NativeEntries]
  | cons entry entries ih => simp [NativeEntries, ih]

namespace Value

theorem native_iff {value : Value}
    : value.Native ↔ (∀ tag code captured, value ≠ .closure tag code captured) ∧
        ∀ part ∈ value.parts, part.Native := by
  cases value with
  | list items | vector items | set items => simp [Native, parts, nativeAll_iff]
  | map entries =>
    rw [forall_parts_map]
    simp [Native, nativeEntries_iff]
  | _ => simp [Native, parts]

theorem native_iff_throughout {value : Value}
    : value.Native ↔
        value.Throughout fun inner => ∀ tag code captured, inner ≠ .closure tag code captured := by
  induction value using induction with
  | step value ih =>
    rw [native_iff, throughout_iff]
    exact and_congr_right fun _ => forall₂_congr ih

theorem inherited_native : Inherited Native := by
  rw [show Native = Throughout _ from funext fun _ => propext native_iff_throughout]
  refine inherited_throughout ?_ nofun nofun nofun nofun nofun
  rintro value h tag code captured rfl
  exact h

theorem Native.nil : nil.Native := trivial

end Value

/--
Whether no closure is part of anything that can be read from a store.
-/
structure Store.Native (store : Store) : Prop where
  fields : ∀ record ∈ store.heap.records, ∀ field ∈ record.fields, field.2.Native
  globals : ∀ name value, store.globals.get? name = some value → value.Native

/--
Whether no closure comes out of functions that a host brings along if none goes in, and they leave
the global variables as they are.
-/
def HostFunctions.Native (host : HostFunctions) : Prop :=
  ∀ number args, (∀ arg ∈ args, arg.Native) →
    Action.Passes Value.Native Value.Native (host number args)

def HostFunctions.fixed (f : Nat → List Value → Except Value Value) : HostFunctions :=
  fun number args =>
    match f number args with
    | .ok value => return value
    | .error thrown => .throwValue thrown

theorem HostFunctions.native_fixed {f : Nat → List Value → Except Value Value}
    (hok : ∀ number args value, (∀ arg ∈ args, arg.Native) → f number args = .ok value →
      value.Native)
    (herror : ∀ number args thrown, (∀ arg ∈ args, arg.Native) → f number args = .error thrown →
      thrown.Native)
    : (fixed f).Native := by
  intro number args hargs
  unfold fixed
  cases hf : f number args with
  | ok value => exact .pure (hok number args value hargs hf)
  | error thrown => exact .throwValue (herror number args thrown hargs hf)

theorem HostFunction.passes_call {machines : Machines} (hhost : machines.functions.Native)
    (function : HostFunction) {args : List Value} (hargs : ∀ arg ∈ args, arg.Native)
    : Action.Passes Value.Native Value.Native (function.call machines args) := by
  have hP := Value.inherited_native
  cases function with
  | builtIn primitive => exact primitive.passes_call hP hargs
  | foreign name arity number =>
    exact .bind (.ofExcept hP fun _ _ => trivial) fun _ _ => hhost number args hargs

theorem Run.passes_call {machines : Machines} (hhost : machines.functions.Native)
    (run : Runner) {callee : Value} {args : List Value} (hcallee : callee.Native)
    (hargs : ∀ arg ∈ args, arg.Native)
    : Action.Passes Value.Native Value.Native (call machines run callee args) := by
  have hP := Value.inherited_native
  unfold call
  split
  . exact HostFunction.passes_call hhost _ hargs
  . exact hcallee.elim
  . exact .withHeap fun _ hs => .pure (hs.get hP (hargs _ (by simp)) hcallee)
  . exact .raise hP _
  . exact .withHeap fun _ hs => .pure (hs.get hP hcallee (hargs _ (by simp)))
  . exact .raise hP _
  . exact .raise hP _

theorem Run.call_eq (machines : Machines) (run : Runner) {callee : Value}
    (hcallee : callee.Native) (args : List Value)
    : call machines run callee args = Direct.call machines.functions callee args := by
  cases callee with
  | closure => exact hcallee.elim
  | keyword | map => rcases args with _ | ⟨_, _ | _⟩ <;> rfl
  | _ => rfl

namespace Direct

/--
Whether no closure is part of the store or comes in.
-/
structure World.Native (w : World) : Prop where
  store : w.store.Native
  inputs : ∀ value ∈ w.inputs, value.Native

def Tame {α : Type} (post : α → Prop) (x : Eval α) : Prop :=
  ∀ w : World, w.Native → match x w with
    | .ok a w' => post a ∧ w'.Native ∧ w'.store.globals = w.store.globals
    | .error (.recur values) w' =>
      (∀ value ∈ values, value.Native) ∧ w'.Native ∧ w'.store.globals = w.store.globals
    | .error _ _ => True

def NativeEnv (env : Env) : Prop :=
  ∀ entry ∈ env, entry.2.Native

namespace Tame

variable {α β : Type} {post : α → Prop} {post' : β → Prop}

theorem pure {a : α} (h : post a) : Tame post (Pure.pure a) :=
  fun _ hw => ⟨h, hw, rfl⟩

theorem bind {x : Eval α} {k : α → Eval β} (hx : Tame post x)
    (hk : ∀ a, post a → Tame post' (k a))
    : Tame post' (x >>= k) := by
  intro w hw
  have hxw := hx w hw
  cases hr : x w with
  | ok a w₁ =>
    rw [bind_of_ok hr]
    rw [hr] at hxw
    obtain ⟨ha, hw₁, hglobals⟩ := hxw
    have hkw := hk a ha w₁ hw₁
    rwa [hglobals] at hkw
  | error signal w₁ =>
    rw [bind_of_error hr]
    rw [hr] at hxw
    cases signal with
    | recur values => exact hxw
    | fault | waiting | outOfFuel | stuck => trivial

theorem onStore {action : Action α} (h : Action.Passes Value.Native post action)
    : Tame post (Direct.onStore action) := by
  intro w hw
  have haction := h w.store ⟨hw.store.fields, hw.store.globals⟩
  unfold Direct.onStore
  cases hr : action w.store with
  | ok a store =>
    rw [hr] at haction
    obtain ⟨ha, hstore, hglobals⟩ := haction
    exact ⟨ha, ⟨⟨hstore.fields, hstore.globals⟩, hw.inputs⟩, hglobals⟩
  | error stop store => cases stop <;> trivial

theorem exchange (value : Value) : Tame Value.Native (Direct.exchange value) := by
  intro w hw
  unfold Direct.exchange
  cases hinputs : w.inputs with
  | nil => trivial
  | cons input rest =>
    have hnative := hw.inputs
    rw [hinputs, List.forall_mem_cons] at hnative
    exact ⟨hnative.1, ⟨hw.store, hnative.2⟩, rfl⟩

theorem global (name : String) : Tame Value.Native (Direct.onStore (.global name)) := by
  refine onStore fun s hs => ?_
  cases hvalue : s.globals.get? name with
  | none =>
    rw [Action.global_undefined hvalue]
    exact ⟨⟨_, rfl, Value.inherited_native.fault _⟩, hs⟩
  | some value =>
    rw [Action.global_ok hvalue]
    exact ⟨hs.globals name value hvalue, hs, rfl⟩

variable {ev : Form → Eval Value}

theorem evalAll (hev : ∀ form, Tame Value.Native (ev form)) (forms : List Form)
    : Tame (∀ value ∈ ·, Value.Native value) (Direct.evalAll ev forms) := by
  induction forms with
  | nil => exact pure (by simp)
  | cons form forms ih =>
    exact bind (hev form) fun value hvalue => bind ih fun values hvalues =>
      pure (List.forall_mem_cons.2 ⟨hvalue, hvalues⟩)

theorem evalBody (hev : ∀ form, Tame Value.Native (ev form)) {last : Value} (hlast : last.Native)
    (forms : List Form)
    : Tame Value.Native (Direct.evalBody ev last forms) := by
  induction forms generalizing last with
  | nil => exact pure hlast
  | cons form forms ih => exact bind (hev form) fun value hvalue => ih hvalue

theorem again {body : List Value → Eval Value}
    (hbody : ∀ values, (∀ value ∈ values, value.Native) → Tame Value.Native (body values)) (n : Nat)
    {values : List Value} (hvalues : ∀ value ∈ values, value.Native)
    : Tame Value.Native (Direct.again body n values) := by
  induction n generalizing values with
  | zero => exact fun _ _ => trivial
  | succ n ih =>
    intro w hw
    have hround := hbody values hvalues w hw
    unfold Direct.again
    cases hr : body values w with
    | ok value w₁ =>
      rw [hr] at hround
      exact hround
    | error signal w₁ =>
      rw [hr] at hround
      cases signal with
      | recur values' =>
        obtain ⟨hvalues', hw₁, hglobals⟩ := hround
        have hrest := ih hvalues' w₁ hw₁
        rwa [hglobals] at hrest
      | fault | waiting | outOfFuel | stuck => trivial

end Tame

theorem native_view {locals : List String} {form : Form} {value : Value}
    (h : view locals form = .value value)
    : value.Native := by
  have hnamed : ∀ {name args}, View.named name args = .value value → value.Native := by
    intro name args h
    unfold View.named at h
    split at h
    case h_1 form =>
      cases h
      exact form.inherited_toValue Value.inherited_native
    case h_7 items _ _ | h_9 items _ _ =>
      cases hpairs : pairs? items <;> simp [hpairs] at h
    case h_19 => split at h <;> cases h
    all_goals cases h
  unfold view at h
  split at h
  case h_1 => split at h <;> cases h
  case h_2 atom _ _ =>
    cases h
    exact atom.inherited_toValue Value.inherited_native
  case h_3 inner _ =>
    cases h
    exact inner.inherited_toValue Value.inherited_native
  case h_7 =>
    cases h
    trivial
  case h_8 =>
    split at h
    . cases h
    . exact hnamed h
  all_goals cases h

theorem NativeEnv.lookup {env : Env} (h : NativeEnv env) (name : String)
    : ((env.lookup name).getD .nil).Native := by
  refine Value.inherited_native.getD ?_
  intro value hvalue
  obtain ⟨before, after, rfl, _⟩ := List.lookup_eq_some_iff.1 hvalue
  exact h (name, value) (by simp)

theorem NativeEnv.bindAll {env : Env} (h : NativeEnv env) (names : List String)
    {values : List Value} (hvalues : ∀ value ∈ values, value.Native)
    : NativeEnv (bindAll env names values) := by
  intro entry hentry
  rcases List.mem_append.1 hentry with hentry | hentry
  . exact hvalues _ (List.of_mem_zip (List.mem_reverse.1 hentry)).2
  . exact h entry hentry

theorem Tame.evalBind {ev : Env → Form → Eval Value}
    (hev : ∀ env form, NativeEnv env → Tame Value.Native (ev env form)) {env : Env}
    (henv : NativeEnv env) (forms : List Form) (pairs : List (String × Form))
    : Tame Value.Native (Direct.evalBind ev forms env pairs) := by
  induction pairs generalizing env with
  | nil => exact evalBody (hev env · henv) .nil forms
  | cons pair pairs ih =>
    exact bind (hev env pair.2 henv) fun value hvalue =>
      ih (List.forall_mem_cons.2 ⟨hvalue, henv⟩)

theorem Tame.eval {host : HostFunctions} (hhost : host.Native) (n : Nat) {env : Env}
    (henv : NativeEnv env) (form : Form)
    : Tame Value.Native (Direct.eval host n env form) := by
  induction n generalizing env form with
  | zero => exact fun _ _ => trivial
  | succ n ih =>
    have hall := fun forms => Tame.evalAll (fun form => ih henv form) forms
    unfold Direct.eval
    cases hview : view (env.map (·.1)) form with
    | value value => exact .pure (native_view hview)
    | «variable» name => exact .pure (henv.lookup name)
    | global name => exact .global name
    | apply head args =>
      exact .bind (ih henv head) fun _ hcallee => .bind (hall args) fun _ hargs =>
        .onStore (Run.passes_call hhost _ hcallee hargs)
    | call name args =>
      exact .bind (.global name) fun _ hcallee => .bind (hall args) fun _ hargs =>
        .onStore (Run.passes_call hhost _ hcallee hargs)
    | body forms => exact .evalBody (ih henv) .nil forms
    | choose test yes no =>
      exact .bind (ih henv test) fun _ _ => .evalBody (ih henv) .nil _
    | case subject clauses fallback =>
      refine .bind (ih henv subject) fun value _ => ?_
      cases pick value clauses fallback with
      | some arm => exact ih henv arm
      | none => exact .onStore (.withHeap fun _ _ => .raise Value.inherited_native _)
    | bind pairs forms => exact .evalBind (fun _ form henv => ih henv form) henv forms pairs
    | loop pairs forms =>
      refine .bind (hall _) fun values hvalues => .again ?_ n hvalues
      intro values hvalues
      exact .evalBody (ih (henv.bindAll _ hvalues)) .nil forms
    | recur args =>
      refine .bind (hall args) fun values hvalues => ?_
      exact fun w hw => ⟨hvalues, hw, rfl⟩
    | yield args => exact .bind (hall args) fun _ _ => .exchange _
    | foreign | malformed => exact fun _ _ => trivial

end Direct

end Resumable
