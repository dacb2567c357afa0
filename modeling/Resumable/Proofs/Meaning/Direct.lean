import Resumable.Run.Step

/-!
This module contains what core forms mean without any machine: they are evaluated directly, in an
environment of named values. A call of `yield` gives a value out and takes the next one in.
-/

namespace Resumable.Direct

inductive View where
  | value (value : Value)
  | variable (name : String)
  | global (name : String)
  | apply (head : Form) (args : List Form)
  | call (name : String) (args : List Form)
  | body (forms : List Form)
  | choose (test yes : Form) (no : Option Form)
  | case (subject : Form) (clauses : List (List Value × Form)) (fallback : Option Form)
  | bind (pairs : List (String × Form)) (forms : List Form)
  | loop (pairs : List (String × Form)) (forms : List Form)
  | recur (args : List Form)
  | yield (args : List Form)
  | foreign
  | malformed

def pairs? : List Form → Option (List (String × Form))
  | [] => some []
  | .symbol name _ :: init :: rest => (pairs? rest).map ((name, init) :: ·)
  | _ => none

def constants : Form → List Value
  | .list items _ => items.map Form.toValue
  | form => [form.toValue]

def clauses : List Form → List (List Value × Form) × Option Form
  | [] => ([], none)
  | [fallback] => ([], some fallback)
  | test :: arm :: rest => ((constants test, arm) :: (clauses rest).1, (clauses rest).2)

def View.named (name : String) (args : List Form) : View :=
  match name, args with
  | "quote", [form] => .value form.toValue
  | "quote", _ => .malformed
  | "do", forms => .body forms
  | "if", [test, yes] => .choose test yes none
  | "if", [test, yes, no] => .choose test yes (some no)
  | "if", _ => .malformed
  | "let", .vector items _ :: forms => ((pairs? items).map (.bind · forms)).getD .malformed
  | "let", _ => .malformed
  | "loop", .vector items _ :: forms => ((pairs? items).map (.loop · forms)).getD .malformed
  | "loop", _ => .malformed
  | "recur", args => .recur args
  | "case", subject :: rest => .case subject (clauses rest).1 (clauses rest).2
  | "case", [] => .malformed
  | "yield", args => .yield args
  | "set!", _ | "fn", _ | "try", _ | "return", _ => .foreign
  | name, args =>
    match name.toList with
    | '.' :: _ :: _ => .foreign
    | _ => .call name args

def view (locals : List String) : Form → View
  | .symbol name _ => if name ∈ locals then .variable name else .global name
  | .atom value _ => .value value.toValue
  | .quote inner _ => .value inner.toValue
  | .vector items _ => .call "vector" items
  | .group .map items _ => .call "hash-map" items
  | .group .set items _ => .call "hash-set" items
  | .list [] _ => .value (.list [])
  | .list (.symbol name span :: args) _ =>
    if name ∈ locals then .apply (.symbol name span) args else .named name args
  | .list (head :: args) _ => .apply head args

namespace View

def bindParts (forms : List Form) : List String → List (String × Form) → List (List String × Form)
  | locals, [] => forms.map (locals, ·)
  | locals, (name, init) :: rest => (locals, init) :: bindParts forms (name :: locals) rest

def parts (locals : List String) : View → List (List String × Form)
  | .apply head args => (head :: args).map (locals, ·)
  | .call _ args | .body args | .recur args | .yield args => args.map (locals, ·)
  | .choose test yes no => (test :: yes :: no.toList).map (locals, ·)
  | .case subject clauses fallback =>
    (subject :: clauses.map (·.2) ++ fallback.toList).map (locals, ·)
  | .bind pairs forms => bindParts forms locals pairs
  | .loop pairs forms =>
    pairs.map (fun pair => (locals, pair.2)) ++
      forms.map ((pairs.map (·.1)).reverse ++ locals, ·)
  | .value _ | .variable _ | .global _ | .foreign | .malformed => []

def Allowed (known : String → Prop) : View → Prop
  | .global name | .call name _ => known name
  | .foreign => False
  | _ => True

end View

/--
Whether a form is made of core forms only, with certain global variables and no others.
-/
inductive Core (known : String → Prop) : List String → Form → Prop where
  | intro {locals : List String} {form : Form} :
    (view locals form).Allowed known →
      (∀ part ∈ (view locals form).parts locals, Core known part.1 part.2) → Core known locals form

/--
What evaluation works on: the store, the values still to come in, and the values given out.
-/
structure World where
  store : Store
  inputs : List Value
  outputs : List Value := []

inductive Signal where
  | recur (values : List Value)
  | fault (value : Value)
  | waiting
  | outOfFuel
  | stuck

abbrev Eval := EStateM Signal World

abbrev Env := List (String × Value)

def call (host : HostFunctions) : Caller :=
  Run.call { functions := host } fun _ p => .error .outOfFuel p

def onStore {α : Type} (action : Action α) : Eval α := fun w =>
  match action w.store with
  | .ok a store => .ok a { w with store := store }
  | .error (.thrown value) store => .error (.fault value) { w with store := store }
  | .error .outOfFuel store => .error .outOfFuel { w with store := store }

def exchange (value : Value) : Eval Value := fun w =>
  match w.inputs with
  | [] => .error .waiting { w with outputs := w.outputs ++ [value] }
  | input :: rest => .ok input { w with inputs := rest, outputs := w.outputs ++ [value] }

def evalAll (ev : Form → Eval Value) : List Form → Eval (List Value)
  | [] => return []
  | form :: rest => do
    let value ← ev form
    return value :: (← evalAll ev rest)

def evalBody (ev : Form → Eval Value) (last : Value) : List Form → Eval Value
  | [] => return last
  | form :: rest => do evalBody ev (← ev form) rest

def evalBind (ev : Env → Form → Eval Value) (forms : List Form) :
    Env → List (String × Form) → Eval Value
  | env, [] => evalBody (ev env) .nil forms
  | env, (name, init) :: rest => do
    let value ← ev env init
    evalBind ev forms ((name, value) :: env) rest

def bindAll (env : Env) (names : List String) (values : List Value) : Env :=
  (names.zip values).reverse ++ env

def again (body : List Value → Eval Value) : Nat → List Value → Eval Value
  | 0, _ => throw .outOfFuel
  | n + 1, values => fun w =>
    match body values w with
    | .error (.recur values) w => again body n values w
    | result => result

def pick (value : Value) (clauses : List (List Value × Form)) (fallback : Option Form) :
    Option Form :=
  ((clauses.find? fun clause => Value.isMember clause.1 value).map (·.2)).or fallback

def evalView (host : HostFunctions) (ev : Env → Form → Eval Value) (rounds : Nat) (env : Env) :
    View → Eval Value
  | .value value => return value
  | .variable name => return (env.lookup name).getD .nil
  | .global name => onStore (.global name)
  | .apply head args => do
    let callee ← ev env head
    let args ← evalAll (ev env) args
    onStore (call host callee args)
  | .call name args => do
    let callee ← onStore (.global name)
    let args ← evalAll (ev env) args
    onStore (call host callee args)
  | .body forms => evalBody (ev env) .nil forms
  | .choose test yes no => do
    let test ← ev env test
    evalBody (ev env) .nil (if test.isTruthy then [yes] else no.toList)
  | .case subject clauses fallback => do
    let value ← ev env subject
    match pick value clauses fallback with
    | some arm => ev env arm
    | none => onStore do .raise (.noClause ((← Action.heap).write value))
  | .bind pairs forms => evalBind ev forms env pairs
  | .loop pairs forms => do
    let values ← evalAll (ev env) (pairs.map (·.2))
    again (fun values => evalBody (ev (bindAll env (pairs.map (·.1)) values)) .nil forms) rounds
      values
  | .recur args => do throw (.recur (← evalAll (ev env) args))
  | .yield args => do exchange ((← evalAll (ev env) args).headD .nil)
  | .foreign | .malformed => throw .stuck

def eval (host : HostFunctions) : Nat → Env → Form → Eval Value
  | 0, _, _ => throw .outOfFuel
  | n + 1, env, form =>
    evalView host (eval host n) n env (view (env.map (·.1)) form)

inductive Ending where
  | done (value : Value)
  | fault (value : Value)
  | waiting

structure Report where
  ending : Ending
  world : World

def report? (host : HostFunctions) (n : Nat) (source : Form) (w : World) : Option Report :=
  match eval host n [] source w with
  | .ok value w => some ⟨.done value, w⟩
  | .error (.fault value) w => some ⟨.fault value, w⟩
  | .error .waiting w => some ⟨.waiting, w⟩
  | .error _ _ => none

end Resumable.Direct
