import Resumable.Proofs.Lowering.Shape

/-!
This module contains the code of forms: a relation that says which instructions a form comes to,
where they stand in the blocks of a graph, and which handlers are in force there.
-/

namespace Resumable

/--
A place where an instruction goes next, with the first numbers of results and blocks that are free
there.
-/
structure Spot where
  block : BlockId
  index : Nat
  value : ValueId
  fresh : BlockId
  deriving DecidableEq

namespace Spot

def skip (s : Spot) (count : Nat) : Spot :=
  { s with index := s.index + count, value := s.value + count }

def opened (s : Spot) (count : Nat) : Spot :=
  { s with fresh := s.fresh + count }

def goTo (s : Spot) (block : BlockId) : Spot :=
  { s with block := block, index := 0 }

end Spot

inductive Role where
  | plain
  | dispatch
  | cleanup
  deriving DecidableEq

structure Label where
  under : List BlockId
  role : Role
  inside : List BlockId

def Label.plain (handlers : List BlockId) (scope : Scope) : Label :=
  { under := handlers, role := .plain, inside := scope.finallys }

/--
The code of the blocks of a graph, and where each block belongs.
-/
structure Plan where
  code : BlockId → List Instruction
  label : BlockId → Label

/--
Whether commands stand one after the other from a place on.
-/
def Plan.Holds (plan : Plan) : Spot → List Command → Prop
  | _, [] => True
  | s, command :: rest =>
    (∃ span, (plan.code s.block)[s.index]? = some { id := s.value, command, span }) ∧
      plan.Holds (s.skip 1) rest

/--
The blocks of a `try` form: the protected body starts at `entry`, and what is done goes on at
`exit`.
-/
structure TryBlocks where
  entry : BlockId
  exit : BlockId
  dispatch : Option BlockId
  cleanup : Option BlockId

namespace TryBlocks

def number (first : BlockId) (parts : TryParts) : TryBlocks :=
  let afterCleanup := first + 1 + parts.cleanup.toList.length
  { entry := first
    cleanup := parts.cleanup.map fun _ => first + 1
    dispatch := parts.catches.head?.map fun _ => afterCleanup
    exit := afterCleanup + (parts.catches.take 1).length }

def handlers (blocks : TryBlocks) : List BlockId :=
  blocks.dispatch.toList ++ blocks.cleanup.toList

def after (blocks : TryBlocks) : BlockId :=
  blocks.cleanup.getD blocks.exit

end TryBlocks

namespace Scope

def bindAll (scope : Scope) (pairs : List (String × ValueId)) : Scope :=
  { scope with locals := pairs.reverse ++ scope.locals }

def inLoop (scope : Scope) (point : LoopPoint) : Scope :=
  { scope with loops := point :: scope.loops }

def guarded (scope : Scope) (handler : Option BlockId) : Scope :=
  { scope with catches := handler.toList ++ scope.catches }

def inFinally (scope : Scope) (block : BlockId) : Scope :=
  { scope with finallys := block :: scope.finallys }

end Scope

inductive Part where
  | form (form : Form)
  | shape (shape : Shape)
  | operands (forms : List Form)
  | body (last : Operand) (forms : List Form)
  | bindings (pairs : List (String × Form)) (forms : List Form)
  | arms (meet : BlockId) (arms : List (Option Form × BlockId)) (live : Bool)
  | guarded (blocks : TryBlocks) (forms : List Form) (live : Bool)
  | catching (blocks : TryBlocks) (catches : List CatchClause) (live : Bool)
  | clauses (after : BlockId) (clauses : List (CatchClause × BlockId)) (live : Bool)
  | cleanup (blocks : TryBlocks) (forms : Option (List Form)) (live : Bool)

def Command.receive : Command :=
  .effect (.const .pending)

def Command.handOver (value : Operand) (target : BlockId) : Command :=
  .transfer (.jump (some value) target)

/--
The code of a part, from one place to another, under the handlers in force and in a scope. The
result is the operands with the values of the part, or nothing if control never gets past it.
-/
inductive Code (options : CompileOptions) (plan : Plan) :
    List BlockId → Scope → Spot → Part → Option (List Operand) → Spot → Prop where
  | form {handlers scope s r t} {surface core : Form} {shape : Shape} :
    (∃ d d', Lower.expand options.expander surface d = .ok core d') →
      Reads options scope core shape → Code options plan handlers scope s (.shape shape) r t →
        Code options plan handlers scope s (.form surface) r t
  | value {handlers scope s} {operand : Operand} :
    Code options plan handlers scope s (.shape (.value operand)) (some [operand]) s
  | perform {handlers scope s t} {job : Job} {items : List Form} {operands : List Operand} :
    Code options plan handlers scope s (.operands items) (some operands) t →
      plan.Holds t [.effect (job.effect operands)] →
        Code options plan handlers scope s (.shape (.perform job items))
          (some [.result t.value]) (t.skip 1)
  | performStop {handlers scope s t} {job : Job} {items : List Form} :
    Code options plan handlers scope s (.operands items) none t →
      Code options plan handlers scope s (.shape (.perform job items)) none t
  | body {handlers scope s r t} {forms : List Form} :
    Code options plan handlers scope s (.body (.literal .nil) forms) r t →
      Code options plan handlers scope s (.shape (.body forms)) r t
  | select {handlers scope s t u} {choice : Choice} {value : Form} {arms : List (Option Form)}
      {operand : Operand} :
    Code options plan handlers scope s (.form value) (some [operand]) t →
      plan.label (t.fresh + arms.length) = .plain handlers scope →
      plan.Holds t [.transfer (choice.transfer operand (.range' t.fresh arms.length))] →
      Code options plan handlers scope ((t.opened (arms.length + 1)).skip 1)
        (.arms (t.fresh + arms.length) (arms.zip (.range' t.fresh arms.length)) true) none u →
      plan.Holds (u.goTo (t.fresh + arms.length)) [.receive] →
        Code options plan handlers scope s (.shape (.select choice value arms))
          (some [.result u.value]) ((u.goTo (t.fresh + arms.length)).skip 1)
  | selectDead {handlers scope s t u} {choice : Choice} {value : Form} {arms : List (Option Form)}
      {operand : Operand} :
    Code options plan handlers scope s (.form value) (some [operand]) t →
      plan.label (t.fresh + arms.length) = .plain handlers scope →
      plan.Holds t [.transfer (choice.transfer operand (.range' t.fresh arms.length))] →
      Code options plan handlers scope ((t.opened (arms.length + 1)).skip 1)
        (.arms (t.fresh + arms.length) (arms.zip (.range' t.fresh arms.length)) false) none u →
        Code options plan handlers scope s (.shape (.select choice value arms)) none u
  | selectStop {handlers scope s t} {choice : Choice} {value : Form} {arms : List (Option Form)} :
    Code options plan handlers scope s (.form value) none t →
      Code options plan handlers scope s (.shape (.select choice value arms)) none t
  | bind {handlers scope s r t} {pairs : List (String × Form)} {forms : List Form} :
    Code options plan handlers scope s (.bindings pairs forms) r t →
      Code options plan handlers scope s (.shape (.bind pairs forms)) r t
  | loop {handlers scope s t u} {pairs : List (String × Form)} {forms : List Form}
      {operands : List Operand} {operand : Operand} {point : LoopPoint} :
    Code options plan handlers scope s (.operands (pairs.map (·.2))) (some operands) t →
      plan.label t.fresh = .plain handlers scope →
      plan.Holds t (operands.map (fun operand => .effect (.const operand)) ++
        [.transfer (.jump none t.fresh)]) →
      point = ⟨t.fresh, scope.tryDepth, .range' t.value operands.length⟩ →
      Code options plan handlers
        ((scope.bindAll ((pairs.map (·.1)).zip point.carried)).inLoop point)
        (((t.opened 1).skip (operands.length + 1)).goTo t.fresh)
        (.body (.literal .nil) forms) (some [operand]) u →
      plan.label u.fresh = .plain handlers scope →
      plan.Holds u [.handOver operand u.fresh] →
      plan.Holds (((u.opened 1).skip 1).goTo u.fresh) [.receive] →
        Code options plan handlers scope s (.shape (.loop pairs forms))
          (some [.result (u.value + 1)]) ((((u.opened 1).skip 1).goTo u.fresh).skip 1)
  | loopDead {handlers scope s t u} {pairs : List (String × Form)} {forms : List Form}
      {operands : List Operand} {point : LoopPoint} :
    Code options plan handlers scope s (.operands (pairs.map (·.2))) (some operands) t →
      plan.label t.fresh = .plain handlers scope →
      plan.Holds t (operands.map (fun operand => .effect (.const operand)) ++
        [.transfer (.jump none t.fresh)]) →
      point = ⟨t.fresh, scope.tryDepth, .range' t.value operands.length⟩ →
      Code options plan handlers
        ((scope.bindAll ((pairs.map (·.1)).zip point.carried)).inLoop point)
        (((t.opened 1).skip (operands.length + 1)).goTo t.fresh)
        (.body (.literal .nil) forms) none u →
        Code options plan handlers scope s (.shape (.loop pairs forms)) none u
  | loopStop {handlers scope s t} {pairs : List (String × Form)} {forms : List Form} :
    Code options plan handlers scope s (.operands (pairs.map (·.2))) none t →
      Code options plan handlers scope s (.shape (.loop pairs forms)) none t
  | recur {handlers scope s t} {point : LoopPoint} {outer : List LoopPoint} {args : List Form}
      {operands : List Operand} :
    scope.loops = point :: outer → point.tryDepth = scope.tryDepth →
      Code options plan handlers scope s (.operands args) (some operands) t →
      point.carried.length = operands.length →
      plan.Holds t [.effect (.recur point.carried operands),
        .transfer (.jump none point.header)] →
        Code options plan handlers scope s (.shape (.recur point args)) none (t.skip 2)
  | recurStop {handlers scope s t} {point : LoopPoint} {args : List Form} :
    Code options plan handlers scope s (.operands args) none t →
      Code options plan handlers scope s (.shape (.recur point args)) none t
  | suspend {handlers scope s t} {handler : String} {args : List Form} {operands : List Operand} :
    Code options plan handlers scope s (.operands args) (some operands) t →
      plan.label t.fresh = .plain handlers scope →
      plan.Holds t [.transfer (.suspend handler t.fresh operands)] →
      plan.Holds (((t.opened 1).skip 1).goTo t.fresh) [.receive] →
        Code options plan handlers scope s (.shape (.suspend handler args))
          (some [.result (t.value + 1)]) ((((t.opened 1).skip 1).goTo t.fresh).skip 1)
  | suspendStop {handlers scope s t} {handler : String} {args : List Form} :
    Code options plan handlers scope s (.operands args) none t →
      Code options plan handlers scope s (.shape (.suspend handler args)) none t
  | finish {handlers scope s t} {forms : List Form} {operand : Operand} :
    Code options plan handlers scope s (.body (.literal .nil) forms) (some [operand]) t →
      options.terminators.returnHandler? = none →
      plan.Holds t [.transfer (.finish operand)] →
        Code options plan handlers scope s (.shape (.finish forms)) none (t.skip 1)
  | finishBy {handlers scope s t} {forms : List Form} {operand : Operand} {handler : String} :
    Code options plan handlers scope s (.body (.literal .nil) forms) (some [operand]) t →
      options.terminators.returnHandler? = some handler →
      plan.label t.fresh = .plain handlers scope →
      plan.Holds t [.transfer (.suspend handler t.fresh [operand])] →
      plan.Holds (((t.opened 1).skip 1).goTo t.fresh)
        [.receive, .transfer (.finish (.result (t.value + 1)))] →
        Code options plan handlers scope s (.shape (.finish forms)) none
          ((((t.opened 1).skip 1).goTo t.fresh).skip 2)
  | finishStop {handlers scope s t} {forms : List Form} :
    Code options plan handlers scope s (.body (.literal .nil) forms) none t →
      Code options plan handlers scope s (.shape (.finish forms)) none t
  | attempt {handlers scope s t₁ t₂ t₃} {parts : TryParts} {blocks : TryBlocks}
      {live₁ live₂ live₃ : Bool} :
    blocks = .number s.fresh parts →
      plan.label blocks.entry = .plain handlers scope →
      plan.label blocks.exit = .plain handlers scope →
      (∀ block ∈ blocks.cleanup,
        plan.label block = ⟨handlers, .cleanup, block :: scope.finallys⟩) →
      (∀ block ∈ blocks.dispatch,
        plan.label block = ⟨blocks.cleanup.toList ++ handlers, .dispatch, scope.finallys⟩) →
      plan.Holds s [.transfer (.jump none blocks.entry)] →
      Code options plan handlers scope { s.skip 1 with fresh := blocks.exit + 1 }
        (.guarded blocks parts.body live₁) none t₁ →
      Code options plan handlers scope t₁ (.catching blocks parts.catches live₂) none t₂ →
      Code options plan handlers scope t₂ (.cleanup blocks parts.cleanup live₃) none t₃ →
      ((live₁ || live₂) && live₃) = true →
      plan.Holds (t₃.goTo blocks.exit) [.receive] →
        Code options plan handlers scope s (.shape (.attempt parts)) (some [.result t₃.value])
          ((t₃.goTo blocks.exit).skip 1)
  | attemptDead {handlers scope s t₁ t₂ t₃} {parts : TryParts} {blocks : TryBlocks}
      {live₁ live₂ live₃ : Bool} :
    blocks = .number s.fresh parts →
      plan.label blocks.entry = .plain handlers scope →
      plan.label blocks.exit = .plain handlers scope →
      (∀ block ∈ blocks.cleanup,
        plan.label block = ⟨handlers, .cleanup, block :: scope.finallys⟩) →
      (∀ block ∈ blocks.dispatch,
        plan.label block = ⟨blocks.cleanup.toList ++ handlers, .dispatch, scope.finallys⟩) →
      plan.Holds s [.transfer (.jump none blocks.entry)] →
      Code options plan handlers scope { s.skip 1 with fresh := blocks.exit + 1 }
        (.guarded blocks parts.body live₁) none t₁ →
      Code options plan handlers scope t₁ (.catching blocks parts.catches live₂) none t₂ →
      Code options plan handlers scope t₂ (.cleanup blocks parts.cleanup live₃) none t₃ →
      ((live₁ || live₂) && live₃) = false →
        Code options plan handlers scope s (.shape (.attempt parts)) none t₃
  | operandsNil {handlers scope s} : Code options plan handlers scope s (.operands []) (some []) s
  | operandsCons {handlers scope s t u} {form : Form} {rest : List Form} {operand : Operand}
      {operands : List Operand} :
    Code options plan handlers scope s (.form form) (some [operand]) t →
      Code options plan handlers scope t (.operands rest) (some operands) u →
        Code options plan handlers scope s (.operands (form :: rest)) (some (operand :: operands)) u
  | operandsStop {handlers scope s t} {form : Form} {rest : List Form} :
    Code options plan handlers scope s (.form form) none t →
      Code options plan handlers scope s (.operands (form :: rest)) none t
  | operandsStopLater {handlers scope s t u} {form : Form} {rest : List Form} {operand : Operand} :
    Code options plan handlers scope s (.form form) (some [operand]) t →
      Code options plan handlers scope t (.operands rest) none u →
        Code options plan handlers scope s (.operands (form :: rest)) none u
  | bodyNil {handlers scope s} {last : Operand} :
    Code options plan handlers scope s (.body last []) (some [last]) s
  | bodyCons {handlers scope s r t u} {form : Form} {rest : List Form} {last operand : Operand} :
    Code options plan handlers scope s (.form form) (some [operand]) t →
      Code options plan handlers scope t (.body operand rest) r u →
        Code options plan handlers scope s (.body last (form :: rest)) r u
  | bodyStop {handlers scope s t} {form : Form} {rest : List Form} {last : Operand} :
    Code options plan handlers scope s (.form form) none t →
      Code options plan handlers scope s (.body last (form :: rest)) none t
  | bindingsNil {handlers scope s r t} {forms : List Form} :
    Code options plan handlers scope s (.body (.literal .nil) forms) r t →
      Code options plan handlers scope s (.bindings [] forms) r t
  | bindingsCopy {handlers scope s r t u} {name : String} {init : Form}
      {pairs : List (String × Form)} {forms : List Form} {operand : Operand} :
    Code options plan handlers scope s (.form init) (some [operand]) t →
      plan.Holds t [.effect (.const operand)] →
      Code options plan handlers (scope.bind name t.value) (t.skip 1) (.bindings pairs forms) r u →
        Code options plan handlers scope s (.bindings ((name, init) :: pairs) forms) r u
  | bindingsKeep {handlers scope s r t u} {name : String} {init : Form}
      {pairs : List (String × Form)} {forms : List Form} {id : ValueId} :
    Code options plan handlers scope s (.form init) (some [.result id]) t →
      scope.binds id = false →
      Code options plan handlers (scope.bind name id) t (.bindings pairs forms) r u →
        Code options plan handlers scope s (.bindings ((name, init) :: pairs) forms) r u
  | bindingsStop {handlers scope s t} {name : String} {init : Form}
      {pairs : List (String × Form)} {forms : List Form} :
    Code options plan handlers scope s (.form init) none t →
      Code options plan handlers scope s (.bindings ((name, init) :: pairs) forms) none t
  | armsNil {handlers scope s} {meet : BlockId} :
    Code options plan handlers scope s (.arms meet [] false) none s
  | armsLive {handlers scope s t u} {meet block : BlockId} {arm : Option Form}
      {rest : List (Option Form × BlockId)} {operand : Operand} {live : Bool} :
    plan.label block = .plain handlers scope →
      Code options plan handlers scope (s.goTo block) (.body (.literal .nil) arm.toList)
        (some [operand]) t →
      plan.Holds t [.handOver operand meet] →
      Code options plan handlers scope (t.skip 1) (.arms meet rest live) none u →
        Code options plan handlers scope s (.arms meet ((arm, block) :: rest) true) none u
  | armsDead {handlers scope s t u} {meet block : BlockId} {arm : Option Form}
      {rest : List (Option Form × BlockId)} {live : Bool} :
    plan.label block = .plain handlers scope →
      Code options plan handlers scope (s.goTo block) (.body (.literal .nil) arm.toList) none t →
      Code options plan handlers scope t (.arms meet rest live) none u →
        Code options plan handlers scope s (.arms meet ((arm, block) :: rest) live) none u
  | guardedLive {handlers scope s t} {blocks : TryBlocks} {forms : List Form} {operand : Operand} :
    plan.Holds (s.goTo blocks.entry) (blocks.handlers.reverse.map (.effect <| .pushHandler ·)) →
      Code options plan (blocks.handlers ++ handlers) (scope.guarded blocks.handlers.head?)
        ((s.goTo blocks.entry).skip blocks.handlers.length) (.body (.literal .nil) forms)
        (some [operand]) t →
      plan.Holds t (blocks.handlers.map (.effect <| .popHandler ·) ++
        [.handOver operand blocks.after]) →
        Code options plan handlers scope s (.guarded blocks forms true) none
          (t.skip (blocks.handlers.length + 1))
  | guardedDead {handlers scope s t} {blocks : TryBlocks} {forms : List Form} :
    plan.Holds (s.goTo blocks.entry) (blocks.handlers.reverse.map (.effect <| .pushHandler ·)) →
      Code options plan (blocks.handlers ++ handlers) (scope.guarded blocks.handlers.head?)
        ((s.goTo blocks.entry).skip blocks.handlers.length) (.body (.literal .nil) forms) none t →
        Code options plan handlers scope s (.guarded blocks forms false) none t
  | catchingNone {handlers scope s} {blocks : TryBlocks} {catches : List CatchClause} :
    blocks.dispatch = none →
      Code options plan handlers scope s (.catching blocks catches false) none s
  | catching {handlers scope s t} {blocks : TryBlocks} {catches : List CatchClause}
      {dispatch : BlockId} {live : Bool} :
    blocks.dispatch = some dispatch →
      plan.Holds (s.goTo dispatch) [.effect (.popHandler dispatch),
        .transfer (.dispatch
          ((List.range' s.fresh catches.length).zip (catches.map (·.type))))] →
      Code options plan (blocks.cleanup.toList ++ handlers) (scope.guarded blocks.cleanup)
        (((s.opened catches.length).goTo dispatch).skip 2)
        (.clauses blocks.after (catches.zip (.range' s.fresh catches.length)) live) none t →
        Code options plan handlers scope s (.catching blocks catches live) none t
  | clausesNil {handlers scope s} {after : BlockId} :
    Code options plan handlers scope s (.clauses after [] false) none s
  | clausesLive {handlers scope s t u} {after block : BlockId} {clause : CatchClause}
      {rest : List (CatchClause × BlockId)} {operand : Operand} {live : Bool} :
    plan.label block = .plain handlers scope →
      plan.Holds (s.goTo block) [.receive] →
      Code options plan handlers (scope.bind clause.name s.value) ((s.goTo block).skip 1)
        (.body (.literal .nil) clause.body) (some [operand]) t →
      plan.Holds t [.handOver operand after] →
      Code options plan handlers scope (t.skip 1) (.clauses after rest live) none u →
        Code options plan handlers scope s (.clauses after ((clause, block) :: rest) true) none u
  | clausesDead {handlers scope s t u} {after block : BlockId} {clause : CatchClause}
      {rest : List (CatchClause × BlockId)} {live : Bool} :
    plan.label block = .plain handlers scope →
      plan.Holds (s.goTo block) [.receive] →
      Code options plan handlers (scope.bind clause.name s.value) ((s.goTo block).skip 1)
        (.body (.literal .nil) clause.body) none t →
      Code options plan handlers scope t (.clauses after rest live) none u →
        Code options plan handlers scope s (.clauses after ((clause, block) :: rest) live) none u
  | cleanupNone {handlers scope s} {blocks : TryBlocks} :
    blocks.cleanup = none →
      Code options plan handlers scope s (.cleanup blocks none true) none s
  | cleanupLive {handlers scope s t} {blocks : TryBlocks} {forms : List Form} {block : BlockId}
      {operand : Operand} :
    blocks.cleanup = some block →
      plan.Holds (s.goTo block) [.receive, .effect .takeException, .effect (.popHandler block)] →
      Code options plan handlers (scope.inFinally block) ((s.goTo block).skip 3)
        (.body (.literal .nil) forms) (some [operand]) t →
      plan.Holds t [.effect (.endFinally (.result (s.value + 1))),
        .handOver (.result s.value) blocks.exit] →
        Code options plan handlers scope s (.cleanup blocks (some forms) true) none (t.skip 2)
  | cleanupDead {handlers scope s t} {blocks : TryBlocks} {forms : List Form} {block : BlockId} :
    blocks.cleanup = some block →
      plan.Holds (s.goTo block) [.receive, .effect .takeException, .effect (.popHandler block)] →
      Code options plan handlers (scope.inFinally block) ((s.goTo block).skip 3)
        (.body (.literal .nil) forms) none t →
        Code options plan handlers scope s (.cleanup blocks (some forms) false) none t

end Resumable
