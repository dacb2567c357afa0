import Resumable.Proofs.Lowering.Distinct
import Resumable.Proofs.Lowering.Sorted

/-!
This module contains the places that the code of a form consists of, each with what is in scope
there. Names stand for different results at all of them, and every assignment belongs to one of
them: to `set!` of a name, or to `recur` inside of a loop.
-/

namespace Resumable

structure Place where
  handlers : List BlockId
  scope : Scope
  spot : Spot
  part : Part

/--
The place where the code of a form with parameters starts.
-/
def Place.root (options : CompileOptions) (source : Form) : Place :=
  { handlers := []
    scope := .ofParams options.params
    spot := .start options.params
    part := .shape (.finish [source]) }

def Part.first? : Part → Option Part
  | .shape (.perform _ items) => some (.operands items)
  | .shape (.body forms) => some (.body (.literal .nil) forms)
  | .shape (.select _ value _) => some (.form value)
  | .shape (.bind pairs forms) => some (.bindings pairs forms)
  | .shape (.loop pairs _) => some (.operands (pairs.map (·.2)))
  | .shape (.recur _ args) => some (.operands args)
  | .shape (.suspend _ args) => some (.operands args)
  | .shape (.finish forms) => some (.body (.literal .nil) forms)
  | .operands (first :: _) => some (.form first)
  | .body _ (first :: _) => some (.form first)
  | .bindings [] forms => some (.body (.literal .nil) forms)
  | .bindings ((_, init) :: _) _ => some (.form init)
  | _ => none

inductive Contains (options : CompileOptions) (plan : Plan) : Place → Place → Prop where
  | form {handlers scope s} {surface core : Form} {shape : Shape} :
    (∃ d d', Lower.expand options.expander surface d = .ok core d') →
      Reads options scope core shape →
        Contains options plan ⟨handlers, scope, s, .form surface⟩ ⟨handlers, scope, s, .shape shape⟩
  | first {handlers scope s} {part inner : Part} :
    part.first? = some inner →
      Contains options plan ⟨handlers, scope, s, part⟩ ⟨handlers, scope, s, inner⟩
  | arms {handlers scope s t} {choice : Choice} {value : Form} {arms : List (Option Form)}
      {operand : Operand} {live : Bool} :
    Code options plan handlers scope s (.form value) (some [operand]) t →
      Contains options plan ⟨handlers, scope, s, .shape (.select choice value arms)⟩
        ⟨handlers, scope, (t.opened (arms.length + 1)).skip 1,
          .arms (t.fresh + arms.length) (arms.zip (.range' t.fresh arms.length)) live⟩
  | loop {handlers scope s t} {pairs : List (String × Form)} {forms : List Form}
      {operands : List Operand} {point : LoopPoint} :
    Code options plan handlers scope s (.operands (pairs.map (·.2))) (some operands) t →
      point = ⟨t.fresh, scope.tryDepth, .range' t.value operands.length⟩ →
        Contains options plan ⟨handlers, scope, s, .shape (.loop pairs forms)⟩
          ⟨handlers, (scope.bindAll ((pairs.map (·.1)).zip point.carried)).inLoop point,
            ((t.opened 1).skip (operands.length + 1)).goTo t.fresh, .body (.literal .nil) forms⟩
  | guarded {handlers scope s} {parts : TryParts} {blocks : TryBlocks} {live : Bool} :
    blocks = .number s.fresh parts →
      Contains options plan ⟨handlers, scope, s, .shape (.attempt parts)⟩
        ⟨handlers, scope, { s.skip 1 with fresh := blocks.exit + 1 },
          .guarded blocks parts.body live⟩
  | catching {handlers scope s t} {parts : TryParts} {blocks : TryBlocks} {live live' : Bool} :
    blocks = .number s.fresh parts →
      Code options plan handlers scope { s.skip 1 with fresh := blocks.exit + 1 }
        (.guarded blocks parts.body live) none t →
        Contains options plan ⟨handlers, scope, s, .shape (.attempt parts)⟩
          ⟨handlers, scope, t, .catching blocks parts.catches live'⟩
  | cleanup {handlers scope s t u} {parts : TryParts} {blocks : TryBlocks}
      {live live' live'' : Bool} :
    blocks = .number s.fresh parts →
      Code options plan handlers scope { s.skip 1 with fresh := blocks.exit + 1 }
        (.guarded blocks parts.body live) none t →
      Code options plan handlers scope t (.catching blocks parts.catches live') none u →
        Contains options plan ⟨handlers, scope, s, .shape (.attempt parts)⟩
          ⟨handlers, scope, u, .cleanup blocks parts.cleanup live''⟩
  | operands {handlers scope s t} {form : Form} {rest : List Form} {operand : Operand} :
    Code options plan handlers scope s (.form form) (some [operand]) t →
      Contains options plan ⟨handlers, scope, s, .operands (form :: rest)⟩
        ⟨handlers, scope, t, .operands rest⟩
  | body {handlers scope s t} {form : Form} {rest : List Form} {last operand : Operand} :
    Code options plan handlers scope s (.form form) (some [operand]) t →
      Contains options plan ⟨handlers, scope, s, .body last (form :: rest)⟩
        ⟨handlers, scope, t, .body operand rest⟩
  | bindingsCopy {handlers scope s t} {name : String} {init : Form}
      {pairs : List (String × Form)} {forms : List Form} {operand : Operand} :
    Code options plan handlers scope s (.form init) (some [operand]) t →
      plan.Holds t [.effect (.const operand)] →
        Contains options plan ⟨handlers, scope, s, .bindings ((name, init) :: pairs) forms⟩
          ⟨handlers, scope.bind name t.value, t.skip 1, .bindings pairs forms⟩
  | bindingsKeep {handlers scope s t} {name : String} {init : Form}
      {pairs : List (String × Form)} {forms : List Form} {id : ValueId} :
    Code options plan handlers scope s (.form init) (some [.result id]) t →
      scope.binds id = false →
        Contains options plan ⟨handlers, scope, s, .bindings ((name, init) :: pairs) forms⟩
          ⟨handlers, scope.bind name id, t, .bindings pairs forms⟩
  | arm {handlers scope s} {meet block : BlockId} {arm : Option Form}
      {rest : List (Option Form × BlockId)} {live : Bool} :
    Contains options plan ⟨handlers, scope, s, .arms meet ((arm, block) :: rest) live⟩
      ⟨handlers, scope, s.goTo block, .body (.literal .nil) arm.toList⟩
  | armsLive {handlers scope s t} {meet block : BlockId} {arm : Option Form}
      {rest : List (Option Form × BlockId)} {operand : Operand} {live : Bool} :
    Code options plan handlers scope (s.goTo block) (.body (.literal .nil) arm.toList)
      (some [operand]) t →
      Contains options plan ⟨handlers, scope, s, .arms meet ((arm, block) :: rest) true⟩
        ⟨handlers, scope, t.skip 1, .arms meet rest live⟩
  | armsDead {handlers scope s t} {meet block : BlockId} {arm : Option Form}
      {rest : List (Option Form × BlockId)} {live : Bool} :
    Code options plan handlers scope (s.goTo block) (.body (.literal .nil) arm.toList) none t →
      Contains options plan ⟨handlers, scope, s, .arms meet ((arm, block) :: rest) live⟩
        ⟨handlers, scope, t, .arms meet rest live⟩
  | guardedBody {handlers scope s} {blocks : TryBlocks} {forms : List Form} {live : Bool} :
    Contains options plan ⟨handlers, scope, s, .guarded blocks forms live⟩
      ⟨blocks.handlers ++ handlers, scope.guarded blocks.handlers.head?,
        (s.goTo blocks.entry).skip blocks.handlers.length, .body (.literal .nil) forms⟩
  | clauses {handlers scope s} {blocks : TryBlocks} {catches : List CatchClause}
      {dispatch : BlockId} {live : Bool} :
    blocks.dispatch = some dispatch →
      Contains options plan ⟨handlers, scope, s, .catching blocks catches live⟩
        ⟨blocks.cleanup.toList ++ handlers, scope.guarded blocks.cleanup,
          ((s.opened catches.length).goTo dispatch).skip 2,
          .clauses blocks.after (catches.zip (.range' s.fresh catches.length)) live⟩
  | clause {handlers scope s} {after block : BlockId} {clause : CatchClause}
      {rest : List (CatchClause × BlockId)} {live : Bool} :
    Contains options plan ⟨handlers, scope, s, .clauses after ((clause, block) :: rest) live⟩
      ⟨handlers, scope.bind clause.name s.value, (s.goTo block).skip 1,
        .body (.literal .nil) clause.body⟩
  | clausesLive {handlers scope s t} {after block : BlockId} {clause : CatchClause}
      {rest : List (CatchClause × BlockId)} {operand : Operand} {live : Bool} :
    Code options plan handlers (scope.bind clause.name s.value) ((s.goTo block).skip 1)
      (.body (.literal .nil) clause.body) (some [operand]) t →
      Contains options plan ⟨handlers, scope, s, .clauses after ((clause, block) :: rest) true⟩
        ⟨handlers, scope, t.skip 1, .clauses after rest live⟩
  | clausesDead {handlers scope s t} {after block : BlockId} {clause : CatchClause}
      {rest : List (CatchClause × BlockId)} {live : Bool} :
    Code options plan handlers (scope.bind clause.name s.value) ((s.goTo block).skip 1)
      (.body (.literal .nil) clause.body) none t →
      Contains options plan ⟨handlers, scope, s, .clauses after ((clause, block) :: rest) live⟩
        ⟨handlers, scope, t, .clauses after rest live⟩
  | cleanupBody {handlers scope s} {blocks : TryBlocks} {forms : List Form} {block : BlockId}
      {live : Bool} :
    blocks.cleanup = some block →
      Contains options plan ⟨handlers, scope, s, .cleanup blocks (some forms) live⟩
        ⟨handlers, scope.inFinally block, (s.goTo block).skip 3, .body (.literal .nil) forms⟩

/--
Whether a place belongs to the code at another one.
-/
inductive Comprises (options : CompileOptions) (plan : Plan) (p : Place) : Place → Prop where
  | refl : Comprises options plan p p
  | step {q q' : Place} :
    Comprises options plan p q → Contains options plan q q' → Comprises options plan p q'

/--
Whether a loop is the innermost one around a place. Its body starts at its header, and the variables
of the loop are the names that are bound on top there.
-/
inductive Innermost (options : CompileOptions) (plan : Plan) (root : Place) (point : LoopPoint)
    (p : Place) : Prop where
  | intro {loop body : Place} {pairs : List (String × Form)} {forms : List Form} :
    Comprises options plan root loop → loop.part = .shape (.loop pairs forms) →
      Contains options plan loop body → body.part = .body (.literal .nil) forms →
      body.spot.block = point.header → body.spot.index = 0 →
      pairs.length = point.carried.length →
      body.scope = (loop.scope.bindAll ((pairs.map (·.1)).zip point.carried)).inLoop point →
      Comprises options plan body p → p.scope.loops = body.scope.loops →
        Innermost options plan root point p

/--
Whether an instruction gives variables new values.
-/
def Command.Assigns : Command → Prop
  | .effect (.setLocal _ _) | .effect (.recur _ _) => True
  | _ => False

inductive Place.Sets (options : CompileOptions) (plan : Plan) :
    Place → BlockId → Nat → Instruction → Prop where
  | setLocal {handlers scope s t} {target : ValueId} {items : List Form} {operand : Operand}
      {span : Span} :
    Code options plan handlers scope s (.operands items) (some [operand]) t →
      Sets options plan ⟨handlers, scope, s, .shape (.perform (.setLocal target) items)⟩ t.block
        t.index ⟨t.value, .effect (.setLocal target operand), span⟩
  | recur {handlers scope s t} {point : LoopPoint} {outer : List LoopPoint} {args : List Form}
      {operands : List Operand} {span : Span} :
    scope.loops = point :: outer →
      Code options plan handlers scope s (.operands args) (some operands) t →
      plan.Holds (t.skip 1) [.transfer (.jump none point.header)] →
        Sets options plan ⟨handlers, scope, s, .shape (.recur point args)⟩ t.block t.index
          ⟨t.value, .effect (.recur point.carried operands), span⟩

structure Place.Sound (p : Place) : Prop where
  sorted : p.scope.Sorted p.spot.value
  distinct : (p.scope.locals.map (·.2)).Nodup
  starts : p.part.Starts p.spot.value

namespace Scope

variable {scope : Scope} {high : ValueId}

theorem distinct_bind (h : (scope.locals.map (·.2)).Nodup) (name : String) {id : ValueId}
    (hid : scope.binds id = false)
    : ((scope.bind name id).locals.map (·.2)).Nodup := by
  refine List.nodup_cons.2 ⟨fun hmem => ?_, h⟩
  obtain ⟨entry, hentry, rfl⟩ := List.mem_map.1 hmem
  simp [binds_of_mem hentry] at hid

theorem Sorted.binds_eq_false (h : scope.Sorted high) {id : ValueId} (hid : high ≤ id)
    : scope.binds id = false :=
  Bool.eq_false_iff.2 fun hbinds => absurd (h.locals id hbinds) (Nat.not_lt.2 hid)

theorem distinct_bindAll (h : (scope.locals.map (·.2)).Nodup) (hsorted : scope.Sorted high)
    (names : List String) {ids : List ValueId} (hids : ids.Nodup) (hnew : ∀ id ∈ ids, high ≤ id)
    : ((scope.bindAll (names.zip ids)).locals.map (·.2)).Nodup := by
  rw [bindAll, List.map_append, List.map_reverse, List.nodup_append]
  refine ⟨List.pairwise_reverse.2 ((Lower.nodup_zip_snd hids).imp Ne.symm), h, ?_⟩
  rintro id hid _ hother rfl
  obtain ⟨entry, hentry, rfl⟩ := List.mem_map.1 (List.mem_reverse.1 hid)
  obtain ⟨other, hother, heq⟩ := List.mem_map.1 hother
  have hbinds := hsorted.binds_eq_false (hnew _ (List.of_mem_zip hentry).2)
  rw [← heq, binds_of_mem hother] at hbinds
  cases hbinds

end Scope

variable {options : CompileOptions} {plan : Plan} {root p q : Place}

namespace Place

theorem Sound.first {handlers scope s} {part inner : Part}
    (h : Sound ⟨handlers, scope, s, part⟩) (hfirst : part.first? = some inner)
    : Sound ⟨handlers, scope, s, inner⟩ := by
  refine ⟨h.sorted, h.distinct, ?_⟩
  unfold Part.first? at hfirst
  split at hfirst <;> cases hfirst <;> trivial

theorem Sound.later {handlers handlers' scope s t} {part part' : Part}
    (h : Sound ⟨handlers, scope, s, part⟩) (hle : s.value ≤ t.value)
    (hstarts : part'.Starts t.value)
    : Sound ⟨handlers', scope, t, part'⟩ :=
  ⟨h.sorted.mono hle, h.distinct, hstarts⟩

end Place

theorem Contains.sound (h : Contains options plan p q) (hp : p.Sound) : q.Sound := by
  cases h with
  | form _ hreads => exact ⟨hp.sorted, hp.distinct, hreads.starts hp.sorted⟩
  | first hfirst => exact hp.first hfirst
  | arms hvalue => exact hp.later (Nat.le_succ_of_le hvalue.value_le) trivial
  | @loop handlers scope s t pairs forms operands point hoperands hpoint =>
    have hsorted := hp.sorted.mono hoperands.value_le
    have hlow : ∀ id ∈ point.carried, t.value ≤ id :=
      fun id hid => (List.mem_range'_1.1 (by simpa [hpoint] using hid)).1
    have hcarried : point.carried.Nodup := by
      rw [hpoint]
      exact List.nodup_range'
    refine ⟨hsorted.looped hoperands.length_operands (by rw [hpoint]), ?_, trivial⟩
    exact Scope.distinct_bindAll hp.distinct hsorted _ hcarried hlow
  | guarded => exact hp.later (Nat.le_succ _) trivial
  | catching _ hguarded =>
    exact hp.later (Nat.le_trans (Nat.le_succ _) hguarded.value_le) trivial
  | cleanup _ hguarded hcatching =>
    have hle := Nat.le_trans hguarded.value_le hcatching.value_le
    exact hp.later (Nat.le_trans (Nat.le_succ _) hle) trivial
  | operands hform => exact hp.later hform.value_le trivial
  | body hform =>
    have hbelow := hform.operands_below hp.sorted trivial
    exact hp.later hform.value_le (hbelow _ (List.mem_singleton.2 rfl))
  | @bindingsCopy handlers scope s t name _ _ _ _ hinit _ =>
    have hsorted := hp.sorted.mono hinit.value_le
    refine ⟨(hsorted.mono (Nat.le_succ _)).bind name (Nat.lt_succ_self _), ?_, trivial⟩
    exact Scope.distinct_bind hp.distinct name (hsorted.binds_eq_false (Nat.le_refl _))
  | @bindingsKeep handlers scope s t name _ _ _ id hinit hnew =>
    have hbelow := hinit.operands_below hp.sorted trivial
    refine ⟨(hp.sorted.mono hinit.value_le).bind name ?_, ?_, trivial⟩
    . exact hbelow (.result id) (List.mem_singleton.2 rfl)
    . exact Scope.distinct_bind hp.distinct name hnew
  | arm => exact hp.later (Nat.le_refl _) trivial
  | armsLive harm => exact hp.later (Nat.le_succ_of_le harm.value_le) trivial
  | armsDead harm => exact hp.later harm.value_le trivial
  | guardedBody =>
    exact ⟨(hp.sorted.mono (Nat.le_add_right _ _)).guarded _, hp.distinct, trivial⟩
  | clauses => exact ⟨(hp.sorted.mono (Nat.le_add_right _ _)).guarded _, hp.distinct, trivial⟩
  | @clause handlers scope s _ _ clause =>
    refine ⟨(hp.sorted.mono (Nat.le_succ _)).bind clause.name (Nat.lt_succ_self _), ?_, trivial⟩
    exact Scope.distinct_bind hp.distinct clause.name (hp.sorted.binds_eq_false (Nat.le_refl _))
  | clausesLive hclause =>
    exact hp.later (Nat.le_succ_of_le (Nat.le_trans (Nat.le_succ _) hclause.value_le)) trivial
  | clausesDead hclause =>
    exact hp.later (Nat.le_trans (Nat.le_succ _) hclause.value_le) trivial
  | cleanupBody =>
    exact ⟨(hp.sorted.mono (Nat.le_add_right _ _)).inFinally _, hp.distinct, trivial⟩

theorem Place.sound_root (options : CompileOptions) (source : Form)
    : (Place.root options source).Sound where
  sorted := Scope.sorted_ofParams options.params
  distinct := (Lower.start_apart options.params).nodup
  starts := trivial

theorem Comprises.sound (h : Comprises options plan p q) (hp : p.Sound) : q.Sound := by
  induction h with
  | refl => exact hp
  | step _ hcontains ih => exact hcontains.sound ih

theorem Contains.loops (h : Contains options plan p q)
    : q.scope.loops = p.scope.loops ∨
        ∃ pairs forms point, p.part = .shape (.loop pairs forms) ∧
          q.part = .body (.literal .nil) forms ∧ q.spot.block = point.header ∧ q.spot.index = 0 ∧
          pairs.length = point.carried.length ∧
          q.scope = (p.scope.bindAll ((pairs.map (·.1)).zip point.carried)).inLoop point := by
  cases h with
  | @loop handlers scope s t pairs forms operands point hoperands hpoint =>
    have hlength := hoperands.length_operands
    subst hpoint
    exact .inr ⟨pairs, forms, _, rfl, rfl, rfl, rfl, by simpa using hlength.symm, rfl⟩
  | _ => exact .inl rfl

theorem Comprises.innermost (h : Comprises options plan root p) (hroot : root.scope.loops = [])
    {point : LoopPoint} {outer : List LoopPoint} (hloops : p.scope.loops = point :: outer)
    : Innermost options plan root point p := by
  induction h with
  | refl => simp [hroot] at hloops
  | @step q q' hcomprises hcontains ih =>
    rcases hcontains.loops with heq | ⟨pairs, forms, point', hloop, hbody, hblock, hindex, hlength,
      hscope⟩
    . obtain ⟨hentered, hloop, hcontains', hbody, hblock, hindex, hlength, hscope, hcomprises',
        hsame⟩ := ih (heq ▸ hloops)
      exact .intro hentered hloop hcontains' hbody hblock hindex hlength hscope
        (hcomprises'.step hcontains) (heq.trans hsame)
    . have hpoint : point' = point := by
        rw [hscope] at hloops
        exact (List.cons.inj hloops).1
      subst hpoint
      exact .intro hcomprises hloop hcontains hbody hblock hindex hlength hscope .refl rfl

def Place.Owns (options : CompileOptions) (plan : Plan) (root : Place) (b : BlockId) (i : Nat)
    (ins : Instruction) : Prop :=
  ins.command.Assigns → ∃ p, Comprises options plan root p ∧ p.Sets options plan b i ins

variable {handlers : List BlockId} {scope : Scope} {s t : Spot} {r : Option (List Operand)}

theorem Place.owns_row {commands : List Command} (horderly : Orderly plan.code)
    (hholds : plan.Holds s commands) (h : ∀ command ∈ commands, ¬ command.Assigns)
    : plan.Between (Place.Owns options plan root) s.value (s.value + commands.length) :=
  .row horderly hholds fun command hcommand _ _ _ _ hassigns => absurd hassigns (h command hcommand)

theorem Job.eq_setLocal {job : Job} {operands : List Operand}
    (h : (Command.effect (job.effect operands)).Assigns)
    : ∃ target operand, job = .setLocal target ∧ operands = [operand] := by
  unfold effect at h
  split at h <;> first | exact ⟨_, _, rfl, rfl⟩ | exact h.elim

theorem Code.owned {part : Part} (horderly : Orderly plan.code)
    (h : Code options plan handlers scope s part r t)
    (hcomprises : Comprises options plan root ⟨handlers, scope, s, part⟩)
    : plan.Between (Place.Owns options plan root) s.value t.value := by
  -- Most rows assign nothing, and then there is nothing to show of them.
  have hquiet : ∀ {s : Spot} {commands : List Command}, plan.Holds s commands →
      (∀ command ∈ commands, ¬ command.Assigns) →
        plan.Between (Place.Owns options plan root) s.value (s.value + commands.length) :=
    Place.owns_row horderly
  induction h with
  | form hexpand hreads _ ih => exact ih (hcomprises.step (.form hexpand hreads))
  | value | operandsNil | bodyNil | armsNil | catchingNone | clausesNil | cleanupNone =>
    exact .refl _
  | performStop _ ih | body _ ih | selectStop _ ih | bind _ ih | loopStop _ ih | recurStop _ ih
  | suspendStop _ ih | finishStop _ ih | operandsStop _ ih | bodyStop _ ih | bindingsNil _ ih
  | bindingsStop _ ih => exact ih (hcomprises.step (.first rfl))
  | @perform handlers scope s t job items operands hoperands hholds ih =>
    refine (ih (hcomprises.step (.first rfl))).trans (.one horderly hholds fun span hassigns => ?_)
    obtain ⟨target, operand, rfl, rfl⟩ := Job.eq_setLocal hassigns
    exact ⟨_, hcomprises, .setLocal hoperands⟩
  | @recur handlers scope s t point outer args operands hloops _ hoperands _ hholds ih =>
    have hset : plan.Between (Place.Owns options plan root) t.value (t.value + 1) :=
      .one horderly ⟨hholds.1, trivial⟩ fun span _ =>
        ⟨_, hcomprises, .recur hloops hoperands hholds.2⟩
    exact ((ih (hcomprises.step (.first rfl))).trans hset).trans
      (hquiet hholds.2 (by simp [Command.Assigns]))
  | operandsCons hform _ ih ihRest | operandsStopLater hform _ ih ihRest =>
    exact (ih (hcomprises.step (.first rfl))).trans (ihRest (hcomprises.step (.operands hform)))
  | bodyCons hform _ ih ihRest =>
    exact (ih (hcomprises.step (.first rfl))).trans (ihRest (hcomprises.step (.body hform)))
  | bindingsCopy hinit hholds _ ih ihRest =>
    have hcopied := hquiet hholds (by simp [Command.Assigns])
    exact ((ih (hcomprises.step (.first rfl))).trans hcopied).trans
      (ihRest (hcomprises.step (.bindingsCopy hinit hholds)))
  | bindingsKeep hinit hnew _ ih ihRest =>
    exact (ih (hcomprises.step (.first rfl))).trans
      (ihRest (hcomprises.step (.bindingsKeep hinit hnew)))
  | select hvalue _ hholds _ hreceive ih ihArms =>
    have hbranched := hquiet hholds (by simp [Command.Assigns])
    have hmet := hquiet hreceive (by simp [Command.Assigns, Command.receive])
    exact (((ih (hcomprises.step (.first rfl))).trans hbranched).trans
      (ihArms (hcomprises.step (.arms hvalue)))).trans hmet
  | selectDead hvalue _ hholds _ ih ihArms =>
    have hbranched := hquiet hholds (by simp [Command.Assigns])
    exact ((ih (hcomprises.step (.first rfl))).trans hbranched).trans
      (ihArms (hcomprises.step (.arms hvalue)))
  | @loop handlers scope s t u pairs forms operands operand point hoperands _ hholds hpoint _ _
      hjump hreceive ih ihBody =>
    have hentered := hquiet hholds (by simp +contextual [Command.Assigns, or_imp])
    have hleft := hquiet hjump (by simp [Command.Assigns, Command.handOver])
    have hmet := hquiet hreceive (by simp [Command.Assigns, Command.receive])
    rw [List.length_append, List.length_map] at hentered
    exact ((((ih (hcomprises.step (.first rfl))).trans hentered).trans
      (ihBody (hcomprises.step (.loop hoperands hpoint)))).trans hleft).trans hmet
  | @loopDead handlers scope s t u pairs forms operands point hoperands _ hholds hpoint _ ih
      ihBody =>
    have hentered := hquiet hholds (by simp +contextual [Command.Assigns, or_imp])
    rw [List.length_append, List.length_map] at hentered
    exact ((ih (hcomprises.step (.first rfl))).trans hentered).trans
      (ihBody (hcomprises.step (.loop hoperands hpoint)))
  | suspend _ _ hholds hreceive ih =>
    have hleft := hquiet hholds (by simp [Command.Assigns])
    have hmet := hquiet hreceive (by simp [Command.Assigns, Command.receive])
    exact ((ih (hcomprises.step (.first rfl))).trans hleft).trans hmet
  | finish _ _ hholds ih =>
    exact (ih (hcomprises.step (.first rfl))).trans
      (hquiet hholds (by simp [Command.Assigns]))
  | finishBy _ _ _ hholds hfinish ih =>
    have hleft := hquiet hholds (by simp [Command.Assigns])
    have hmet := hquiet hfinish (by simp [Command.Assigns, Command.receive])
    exact ((ih (hcomprises.step (.first rfl))).trans hleft).trans hmet
  | armsLive _ harm hjump _ ih ihRest =>
    have hleft := hquiet hjump (by simp [Command.Assigns, Command.handOver])
    exact ((ih (hcomprises.step .arm)).trans hleft).trans
      (ihRest (hcomprises.step (.armsLive harm)))
  | armsDead _ harm _ ih ihRest =>
    exact (ih (hcomprises.step .arm)).trans (ihRest (hcomprises.step (.armsDead harm)))
  | guardedLive hpush _ hpop ih =>
    have hpushed := hquiet hpush (by simp [Command.Assigns])
    have hleft := hquiet hpop
      (by simp +contextual [Command.Assigns, Command.handOver, or_imp])
    rw [List.length_map, List.length_reverse] at hpushed
    rw [List.length_append, List.length_map] at hleft
    exact (hpushed.trans (ih (hcomprises.step .guardedBody))).trans hleft
  | guardedDead hpush _ ih =>
    have hpushed := hquiet hpush (by simp [Command.Assigns])
    rw [List.length_map, List.length_reverse] at hpushed
    exact hpushed.trans (ih (hcomprises.step .guardedBody))
  | catching hdispatch hholds _ ih =>
    have hpicked := hquiet hholds (by simp [Command.Assigns])
    exact hpicked.trans (ih (hcomprises.step (.clauses hdispatch)))
  | clausesLive _ hreceive hclause hjump _ ih ihRest =>
    have hmet := hquiet hreceive (by simp [Command.Assigns, Command.receive])
    have hleft := hquiet hjump (by simp [Command.Assigns, Command.handOver])
    exact ((hmet.trans (ih (hcomprises.step .clause))).trans hleft).trans
      (ihRest (hcomprises.step (.clausesLive hclause)))
  | clausesDead _ hreceive hclause _ ih ihRest =>
    have hmet := hquiet hreceive (by simp [Command.Assigns, Command.receive])
    exact (hmet.trans (ih (hcomprises.step .clause))).trans
      (ihRest (hcomprises.step (.clausesDead hclause)))
  | cleanupLive hcleanup hholds _ hend ih =>
    have hentered := hquiet hholds (by simp [Command.Assigns, Command.receive])
    have hleft := hquiet hend (by simp [Command.Assigns, Command.handOver])
    exact (hentered.trans (ih (hcomprises.step (.cleanupBody hcleanup)))).trans hleft
  | cleanupDead hcleanup hholds _ ih =>
    have hentered := hquiet hholds (by simp [Command.Assigns, Command.receive])
    exact hentered.trans (ih (hcomprises.step (.cleanupBody hcleanup)))
  | attempt hblocks _ _ _ _ hjump hguarded hcatching _ _ hreceive ih₁ ih₂ ih₃ =>
    have hentered := hquiet hjump (by simp [Command.Assigns])
    have hmet := hquiet hreceive (by simp [Command.Assigns, Command.receive])
    exact (((hentered.trans (ih₁ (hcomprises.step (.guarded hblocks)))).trans
      (ih₂ (hcomprises.step (.catching hblocks hguarded)))).trans
        (ih₃ (hcomprises.step (.cleanup hblocks hguarded hcatching)))).trans hmet
  | attemptDead hblocks _ _ _ _ hjump hguarded hcatching _ _ ih₁ ih₂ ih₃ =>
    have hentered := hquiet hjump (by simp [Command.Assigns])
    exact ((hentered.trans (ih₁ (hcomprises.step (.guarded hblocks)))).trans
      (ih₂ (hcomprises.step (.catching hblocks hguarded)))).trans
        (ih₃ (hcomprises.step (.cleanup hblocks hguarded hcatching)))

/--
What an assignment in the code of a form is there for. It belongs to `set!` of a name that stands
for the variable at a place, or to `recur` at a place whose innermost loop has the variables and is
gone back to.
-/
inductive Assignment (options : CompileOptions) (plan : Plan) (root : Place) (b : BlockId)
    (i : Nat) : Instruction → Place → Prop where
  | set {p : Place} {t : Spot} {surface value : Form} {head name : String}
      {span span' span'' origin : Span} {target id : ValueId} {operand : Operand} :
    p.part = .form surface →
      (∃ d d', Lower.expand options.expander surface d
        = .ok (.list [.symbol head span, .symbol name span', value] span'') d') →
      p.scope.find? head = none → options.aliases.resolve head = "set!" →
      p.scope.find? name = some target →
      Code options plan p.handlers p.scope p.spot (.operands [value]) (some [operand]) t →
      t.block = b → t.index = i → t.value = id →
        Assignment options plan root b i ⟨id, .effect (.setLocal target operand), origin⟩ p
  | recur {p : Place} {t : Spot} {point : LoopPoint} {args : List Form} {id : ValueId}
      {operands : List Operand} {span : Span} :
    p.part = .shape (.recur point args) → Innermost options plan root point p →
      Code options plan p.handlers p.scope p.spot (.operands args) (some operands) t →
      t.block = b → t.index = i → t.value = id →
      (∃ span', (plan.code b)[i + 1]?
        = some ⟨id + 1, .transfer (.jump none point.header), span'⟩) →
        Assignment options plan root b i ⟨id, .effect (.recur point.carried operands), span⟩ p

theorem Named.setLocal_inv {name : String} {args items : List Form} {span : Span}
    {target : ValueId} (h : Named options scope name args span (.perform (.setLocal target) items))
    : name = "set!" ∧ ∃ assigned value span', args = [.symbol assigned span', value] ∧
        items = [value] ∧ scope.find? assigned = some target := by
  cases h with
  | setLocal hfind => exact ⟨rfl, _, _, _, rfl, rfl, hfind⟩

theorem Reads.setLocal_inv {core : Form} {items : List Form} {target : ValueId}
    (h : Reads options scope core (.perform (.setLocal target) items))
    : ∃ head name value span span' span'',
        core = .list [.symbol head span, .symbol name span', value] span'' ∧ items = [value] ∧
          scope.find? head = none ∧ options.aliases.resolve head = "set!" ∧
          scope.find? name = some target := by
  cases h with
  | named hhead hnamed =>
    obtain ⟨hset, name, value, span', rfl, rfl, hfind⟩ := hnamed.setLocal_inv
    exact ⟨_, name, value, _, span', _, rfl, rfl, hhead, hset, hfind⟩

theorem Contains.shape_inv {shape : Shape}
    (h : Contains options plan p ⟨handlers, scope, s, .shape shape⟩)
    : ∃ surface core, p = ⟨handlers, scope, s, .form surface⟩ ∧
        (∃ d d', Lower.expand options.expander surface d = .ok core d') ∧
        Reads options scope core shape := by
  cases h with
  | form hexpand hreads => exact ⟨_, _, rfl, hexpand, hreads⟩
  | @first _ _ _ part inner hfirst =>
    unfold Part.first? at hfirst
    split at hfirst <;> cases hfirst

theorem Place.Sets.assignment {source : Form} {b : BlockId} {i : Nat} {ins : Instruction}
    (hsets : p.Sets options plan b i ins)
    (hcomprises : Comprises options plan (.root options source) p)
    : ∃ q, Comprises options plan (.root options source) q ∧
        Assignment options plan (.root options source) b i ins q := by
  cases hsets with
  | setLocal hoperands =>
    cases hcomprises with
    | step hcomprises hcontains =>
      obtain ⟨surface, core, rfl, hexpand, hreads⟩ := hcontains.shape_inv
      obtain ⟨head, name, value, _, _, _, rfl, rfl, hhead, hset, hfind⟩ := hreads.setLocal_inv
      exact ⟨_, hcomprises, .set rfl hexpand hhead hset hfind hoperands rfl rfl rfl⟩
  | recur hloops hoperands hjump =>
    refine ⟨_, hcomprises, .recur rfl (hcomprises.innermost rfl hloops) hoperands rfl rfl rfl ?_⟩
    exact hjump.1

theorem Graph.Coded.assignment {source : Form} {graph : Graph}
    (h : graph.Coded options source plan) {b : BlockId} {i : Nat} {ins : Instruction}
    (hins : (plan.code b)[i]? = some ins) (hassigns : ins.command.Assigns)
    : ∃ p, Comprises options plan (.root options source) p ∧
        Assignment options plan (.root options source) b i ins p := by
  obtain ⟨t, hcode, hbound, _⟩ := h.main
  obtain ⟨p, hcomprises, hsets⟩ :=
    (hcode.owned h.toOrderly .refl).each hins (hbound hins).1 (hbound hins).2 hassigns
  exact hsets.assignment hcomprises

end Resumable
