import Resumable.Lowering.Form
import Resumable.Proofs.Monad

/-!
This module contains the shapes that core forms come in. Forms are told apart by how control flows
through them only: whatever works on the values of its parts and goes on is one shape, and so is
whatever picks one of several arms.
-/

namespace Resumable

inductive Job where
  | apply
  | call (name : String)
  | closure (code : Lambda) (captured : List ValueId)
  | field (name : String)
  | method (name : String)
  | setLocal (id : ValueId)
  | setGlobal (name : String)
  | setField (name : String)

def Job.effect : Job → List Operand → Effect
  | .apply, callee :: args => .call callee args
  | .call name, args => .call (.global name) args
  | .closure code captured, _ => .lambda code (captured.map .result)
  | .field name, [target] => .field target name []
  | .method name, target :: args => .method target name args
  | .setLocal id, [value] => .setLocal id value
  | .setGlobal name, [value] => .setGlobal name value
  | .setField name, [object, value] => .setField object name value
  | _, _ => .const (.literal .nil)

inductive Choice where
  | test
  | cases (tests : List (List Value))

def Choice.transfer : Choice → Operand → List BlockId → Transfer
  | .test, value, blocks => .branch value (blocks.headD 0) (blocks.tail.headD 0)
  | .cases tests, value, blocks =>
    .case value tests (blocks.take tests.length) (blocks.drop tests.length).head?

inductive Shape where
  | value (operand : Operand)
  | perform (job : Job) (items : List Form)
  | body (forms : List Form)
  | select (choice : Choice) (value : Form) (arms : List (Option Form))
  | bind (pairs : List (String × Form)) (forms : List Form)
  | loop (pairs : List (String × Form)) (forms : List Form)
  | recur (point : LoopPoint) (args : List Form)
  | suspend (handler : String) (args : List Form)
  | finish (forms : List Form)
  | attempt (parts : TryParts)

inductive Bindings : List Form → List (String × Form) → Prop where
  | nil : Bindings [] []
  | cons {form init : Form} {name : String} {rest : List Form} {pairs : List (String × Form)} :
    form.symbol? = some name → Bindings rest pairs →
      Bindings (form :: init :: rest) ((name, init) :: pairs)

def specialNames : List String :=
  ["quote", "do", "if", "let", "loop", "recur", "case", "fn", "try", "set!", "return"]

def isAccess (name : String) : Prop :=
  ∃ c rest, name.toList = '.' :: c :: rest

inductive Named (options : CompileOptions) (scope : Scope) :
    String → List Form → Span → Shape → Prop where
  | quote {form : Form} {span : Span} :
    Named options scope "quote" [form] span (.value (.literal form.toValue))
  | body {args : List Form} {span : Span} : Named options scope "do" args span (.body args)
  | choose {test yes : Form} {no : Option Form} {span : Span} :
    Named options scope "if" (test :: yes :: no.toList) span (.select .test test [some yes, no])
  | bind {items forms : List Form} {pairs : List (String × Form)} {span span' : Span} :
    Bindings items pairs →
      Named options scope "let" (.vector items span' :: forms) span (.bind pairs forms)
  | loop {items forms : List Form} {pairs : List (String × Form)} {span span' : Span} :
    Bindings items pairs →
      Named options scope "loop" (.vector items span' :: forms) span (.loop pairs forms)
  | recur {point : LoopPoint} {outer : List LoopPoint} {args : List Form} {span : Span} :
    scope.loops = point :: outer → point.tryDepth = scope.tryDepth →
      point.carried.length = args.length → Named options scope "recur" args span (.recur point args)
  | case {value : Form} {rest : List Form} {clauses : List (Form × Form)}
      {fallback : Option Form} {span : Span} :
    Lower.caseClauses rest = (clauses, fallback) →
      Named options scope "case" (value :: rest) span
        (.select (.cases (clauses.map (Lower.caseTests ·.1))) value
          (clauses.map (some ·.2) ++ fallback.toList.map some))
  | closure {args body : List Form} {name : Option String} {names : List String}
      {captured : List (String × ValueId)} {span : Span} :
    captured = scope.visible.filter (fun entry => !(name.toList ++ names).contains entry.1) →
      Named options scope "fn" args span
        (.perform (.closure
          { name := name, params := names, captures := captured.map (·.1), body := body,
            aliases := options.aliases, expander := options.expander, span := span }
          (captured.map (·.2))) [])
  | attempt {args : List Form} {parts : TryParts} {span : Span} :
    TryParts.ofForms args = .ok parts → Named options scope "try" args span (.attempt parts)
  | setLocal {name : String} {id : ValueId} {value : Form} {span span' : Span} :
    scope.find? name = some id →
      Named options scope "set!" [.symbol name span', value] span
        (.perform (.setLocal id) [value])
  | setGlobal {name : String} {value : Form} {span span' : Span} :
    scope.find? name = none →
      Named options scope "set!" [.symbol name span', value] span
        (.perform (.setGlobal name) [value])
  | setField {place object value : Form} {field : String} {span : Span} :
    Lower.fieldPlace? place = some (field, object) →
      Named options scope "set!" [place, value] span (.perform (.setField field) [object, value])
  | finish {value : Option Form} {span : Span} :
    Named options scope "return" value.toList span (.finish value.toList)
  | field {name : String} {c : Char} {rest : List Char} {target : Form} {span : Span} :
    name.toList = '.' :: '-' :: c :: rest →
      Named options scope name [target] span (.perform (.field (String.ofList (c :: rest))) [target])
  | method {name : String} {c : Char} {rest : List Char} {target : Form} {args : List Form}
      {span : Span} :
    name.toList = '.' :: c :: rest → c ≠ '-' →
      Named options scope name (target :: args) span
        (.perform (.method (String.ofList (c :: rest))) (target :: args))
  | suspend {name handler : String} {args : List Form} {span : Span} :
    name ∉ specialNames → ¬ isAccess name → options.terminators.handler? name = some handler →
      Named options scope name args span (.suspend handler args)
  | call {name : String} {args : List Form} {span : Span} :
    name ∉ specialNames → ¬ isAccess name → options.terminators.handler? name = none →
      Named options scope name args span (.perform (.call name) args)

inductive Reads (options : CompileOptions) (scope : Scope) : Form → Shape → Prop where
  | local {name : String} {id : ValueId} {span : Span} :
    scope.find? name = some id → Reads options scope (.symbol name span) (.value (.result id))
  | global {name : String} {span : Span} :
    scope.find? name = none → Reads options scope (.symbol name span) (.value (.global name))
  | atom {value : Atom} {span : Span} :
    (∀ name, value ≠ .symbol name) →
      Reads options scope (.atom value span) (.value (.literal value.toValue))
  | quote {inner : Form} {span : Span} :
    Reads options scope (.quote inner span) (.value (.literal inner.toValue))
  | empty {span : Span} : Reads options scope (.list [] span) (.value (.literal (.list [])))
  | vector {items : List Form} {span : Span} :
    Reads options scope (.vector items span) (.perform (.call "vector") items)
  | map {items : List Form} {span : Span} :
    Reads options scope (.group .map items span) (.perform (.call "hash-map") items)
  | set {items : List Form} {span : Span} :
    Reads options scope (.group .set items span) (.perform (.call "hash-set") items)
  | apply {head : Form} {args : List Form} {span : Span} :
    (∀ name, head.symbol? = some name → scope.find? name ≠ none) →
      Reads options scope (.list (head :: args) span) (.perform .apply (head :: args))
  | named {name : String} {args : List Form} {span span' : Span} {shape : Shape} :
    scope.find? name = none →
      Named options scope (options.aliases.resolve name) args span shape →
        Reads options scope (.list (.symbol name span' :: args) span) shape

end Resumable
