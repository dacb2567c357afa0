import Resumable.Proofs.Lowering.Comprised
import Resumable.Proofs.Lowering.Nested

/-!
This module contains the rows of operands in the code of a form. Every instruction that uses the
values of forms belongs to such a row, and nothing outside of the row has to do with the blocks and
results inside of it.
-/

namespace Resumable

/--
Whether an instruction uses the values of forms at a place. Their code starts there and ends at a
spot, and the instruction is the one that stands so many behind it.
-/
inductive Place.Feeds (options : CompileOptions) (plan : Plan) :
    Place → List Form → List Operand → Spot → Nat → Command → Prop where
  | perform {handlers scope s t} {job : Job} {items : List Form} {operands : List Operand} :
    Code options plan handlers scope s (.operands items) (some operands) t →
      Feeds options plan ⟨handlers, scope, s, .shape (.perform job items)⟩ items operands t 0
        (.effect (job.effect operands))
  | recur {handlers scope s t} {point : LoopPoint} {args : List Form} {operands : List Operand} :
    Code options plan handlers scope s (.operands args) (some operands) t →
      Feeds options plan ⟨handlers, scope, s, .shape (.recur point args)⟩ args operands t 0
        (.effect (.recur point.carried operands))
  | suspend {handlers scope s t} {handler : String} {args : List Form}
      {operands : List Operand} :
    Code options plan handlers scope s (.operands args) (some operands) t →
      Feeds options plan ⟨handlers, scope, s, .shape (.suspend handler args)⟩ args operands t 0
        (.transfer (.suspend handler t.fresh operands))
  | finish {handlers scope s t} {form : Form} {operand : Operand} {handler : String} :
    Code options plan handlers scope s (.form form) (some [operand]) t →
      Feeds options plan ⟨handlers, scope, s, .shape (.finish [form])⟩ [form] [operand] t 0
        (.transfer (.suspend handler t.fresh [operand]))
  | finishNone {handlers scope s} {handler : String} :
    Feeds options plan ⟨handlers, scope, s, .shape (.finish [])⟩ [] [] s 0
      (.transfer (.suspend handler s.fresh [.literal .nil]))
  | loop {handlers scope s t} {pairs : List (String × Form)} {forms : List Form}
      {operands : List Operand} {operand : Operand} {k : Nat} :
    Code options plan handlers scope s (.operands (pairs.map (·.2))) (some operands) t →
      operands[k]? = some operand →
        Feeds options plan ⟨handlers, scope, s, .shape (.loop pairs forms)⟩ (pairs.map (·.2))
          operands t k (.effect (.const operand))
  | copy {handlers scope s t} {name : String} {init : Form} {pairs : List (String × Form)}
      {forms : List Form} {operand : Operand} :
    Code options plan handlers scope s (.form init) (some [operand]) t →
      Feeds options plan ⟨handlers, scope, s, .bindings ((name, init) :: pairs) forms⟩ [init]
        [operand] t 0 (.effect (.const operand))

structure Shape.Whole (scope : Scope) (shape : Shape) : Prop where
  proper : shape.Proper
  binds : ∀ id ∈ shape.ids, scope.binds id = true
  ends : ∀ forms, shape = .finish forms → forms.length ≤ 1

namespace Part

def inner : Part → List BlockId
  | .guarded blocks _ _ => blocks.handlers
  | .catching blocks _ _ => blocks.cleanup.toList
  | _ => []

def Home (s : Spot) : Part → BlockId → Nat → Prop
  | .arms _ entries _, b, _ => b ∈ entries.map (·.2)
  | .clauses _ entries _, b, _ => b ∈ entries.map (·.2)
  | .guarded blocks _ _, b, _ => b = blocks.entry
  | .catching blocks _ _, b, _ => b ∈ blocks.dispatch
  | .cleanup blocks _ _, b, _ => b ∈ blocks.cleanup
  | _, b, i => b = s.block ∧ s.index ≤ i

def last? : Part → Option ValueId
  | .body (.result id) _ => some id
  | _ => none

def Whole (scope : Scope) : Part → Prop
  | .shape whole => whole.Whole scope
  | _ => True

def isPlain : Part → Bool
  | .form _ | .shape _ | .operands _ | .body _ _ | .bindings _ _ => true
  | _ => false

def bounds (handlers : List BlockId) (scope : Scope) (s : Spot) (part : Part) : Plan.Bounds where
  goals b := part.Goal scope b ∨ b ∈ part.inner
  under b := b ∈ part.inner ++ handlers
  home := part.Home s
  known v := scope.binds v = true ∨ v ∈ part.last?
  onwards {b i j} h hle := by
    cases part with
    | arms | guarded | catching | clauses | cleanup => exact h
    | _ => exact ⟨h.1, Nat.le_trans h.2 hle⟩

structure Fit (handlers : List BlockId) (scope : Scope) (s : Spot) (part : Part) : Prop where
  older : (part.bounds handlers scope s).Older s
  sorted : scope.Sorted s.value
  whole : part.Whole scope

end Part

inductive Rows (options : CompileOptions) (plan : Plan) (root : Place) (b : BlockId) (i : Nat)
    (ins : Instruction) (a w : Spot) : Prop where
  | intro {q : Place} {forms : List Form} {operands : List Operand} {k : Nat} :
    Comprises options plan root q → q.Feeds options plan forms operands w k ins.command →
      q.spot = a → b = w.block → i = w.index + k → ins.id = w.value + k → plan.Starts w →
      (Part.operands forms).Fit q.handlers q.scope q.spot → Rows options plan root b i ins a w

open Plan

variable {options : CompileOptions} {plan : Plan} {root : Place} {handlers handlers' : List BlockId}
  {scope scope' : Scope} {s t m : Spot} {part part' : Part} {bounds : Bounds}
  {r : Option (List Operand)} {yet : ValueId → Prop}

theorem Place.Feeds.code {q : Place} {forms : List Form} {operands : List Operand} {k : Nat}
    {command : Command} (h : q.Feeds options plan forms operands t k command)
    : Code options plan q.handlers q.scope q.spot (.operands forms) (some operands) t := by
  cases h with
  | perform hcode | recur hcode | suspend hcode | loop hcode _ => exact hcode
  | finish hcode | copy hcode => exact .operandsCons hcode .operandsNil
  | finishNone => exact .operandsNil

theorem Given.one {operand : Operand} {v : ValueId} (h : Given (some [operand]) v)
    : operand = .result v := by
  obtain ⟨_, hr, hmem⟩ := h
  cases hr
  exact (List.mem_singleton.1 hmem).symm

theorem Given.result {id v : ValueId} (h : Given (some [.result id]) v) : v = id := by
  cases h.one
  rfl

theorem Rows.one {q : Place} {forms : List Form} {operands : List Operand} {command : Command}
    {rest : List Command} (horderly : Orderly plan.code) (hholds : plan.Holds t (command :: rest))
    (hcomprises : Comprises options plan root q)
    (hfeeds : q.Feeds options plan forms operands t 0 command)
    (hfit : (Part.operands forms).Fit q.handlers q.scope q.spot) {b : BlockId} {i : Nat}
    {ins : Instruction} (hins : (plan.code b)[i]? = some ins) (hid : ins.id = t.value)
    : t.value ≤ ins.id ∧ Rows options plan root b i ins q.spot t := by
  obtain ⟨span, hspan⟩ := hholds.1
  obtain ⟨rfl, rfl⟩ := horderly.unique hins hspan hid
  cases hins.symm.trans hspan
  exact ⟨Nat.le_refl _, .intro hcomprises hfeeds rfl rfl rfl rfl ⟨_, hspan, rfl⟩ hfit⟩

theorem Rows.loop {pairs : List (String × Form)} {forms : List Form} {operands : List Operand}
    {rest : List Command} (horderly : Orderly plan.code)
    (hholds : plan.Holds t (operands.map (fun operand => .effect (.const operand)) ++ rest))
    (hcomprises : Comprises options plan root ⟨handlers, scope, s, .shape (.loop pairs forms)⟩)
    (hoperands : Code options plan handlers scope s (.operands (pairs.map (·.2))) (some operands) t)
    (hfit : (Part.operands (pairs.map (·.2))).Fit handlers scope s) {b : BlockId} {i : Nat}
    {ins : Instruction} (hins : (plan.code b)[i]? = some ins)
    (hid : t.value ≤ ins.id ∧ ins.id < t.value + operands.length)
    : t.value ≤ ins.id ∧ Rows options plan root b i ins s t := by
  obtain ⟨k, hk, rfl, rfl, hid'⟩ := (holds_append.1 hholds).1.stands horderly hins hid.1
    (by simpa using hid.2)
  obtain ⟨operand, hoperand, hcommand⟩ := by simpa using hk
  have hstarts : plan.Starts t := by
    refine hholds.starts fun hnil => ?_
    rw [(List.append_eq_nil_iff.1 hnil).1] at hk
    cases hk
  have hfeeds : Place.Feeds options plan ⟨handlers, scope, s, .shape (.loop pairs forms)⟩
      (pairs.map (·.2)) operands t k (.effect (.const operand)) := .loop hoperands hoperand
  rw [hcommand] at hfeeds
  exact ⟨hid.1, .intro hcomprises hfeeds rfl rfl rfl hid' hstarts hfit⟩

namespace Part

theorem isPlain_inv (h : part.isPlain = true)
    : part.goal? = none ∧ part.inner = [] ∧ part.Home s = fun b i => b = s.block ∧ s.index ≤ i := by
  cases part with
  | arms | guarded | catching | clauses | cleanup => cases h
  | _ => exact ⟨rfl, rfl, rfl⟩

theorem follows_of (hgoal : ∀ b ∈ part.goal?, bounds.goals b)
    (hinner : ∀ b ∈ part.inner, bounds.goals b ∧ bounds.under b)
    (hhome : ∀ b i, part.Home s b i → bounds.home b i ∨ r ≠ none ∧ b = m.block ∧ m.index ≤ i)
    (hloops : ∀ point ∈ scope.loops, bounds.goals point.header)
    (hunder : ∀ b ∈ handlers, bounds.under b)
    (hknown : ∀ v, scope.binds v = true ∨ v ∈ part.last? → bounds.known v ∨ Given r v)
    : (part.bounds handlers scope s).Follows bounds m r where
  goals := by
    rintro b ((hb | ⟨point, hpoint, rfl⟩) | hb)
    . exact hgoal b hb
    . exact hloops point hpoint
    . exact (hinner b hb).1
  under b hb := (List.mem_append.1 hb).elim (fun hb => (hinner b hb).2) (hunder b)
  home := hhome
  known := hknown

theorem follows (hplain : part.isPlain = true) (hhome : bounds.home m.block m.index ∨ r ≠ none)
    (hloops : ∀ point ∈ scope.loops, bounds.goals point.header)
    (hunder : ∀ b ∈ handlers, bounds.under b)
    (hknown : ∀ v, scope.binds v = true ∨ v ∈ part.last? → bounds.known v ∨ Given r v)
    : (part.bounds handlers scope m).Follows bounds m r := by
  obtain ⟨hgoal, hinner, hhome'⟩ := @isPlain_inv m part hplain
  refine follows_of ?_ ?_ ?_ hloops hunder hknown
  . rw [hgoal]
    exact fun b hb => absurd hb (Option.not_mem_none b)
  . rw [hinner]
    exact fun _ hb => absurd hb List.not_mem_nil
  . rw [hhome']
    rintro b i ⟨rfl, hi⟩
    exact hhome.imp (fun hhome => bounds.onwards hhome hi) fun hr => ⟨hr, rfl, hi⟩

theorem isPlain_first {inner : Part} (h : part.first? = some inner)
    : part.isPlain = true ∧ inner.isPlain = true ∧ inner.last? = none ∧ inner.Whole scope := by
  unfold first? at h
  split at h <;> cases h <;> simp [isPlain, last?, Whole]

theorem binds_of_known (hlast : part.last? = none) {v : ValueId}
    (h : scope.binds v = true ∨ v ∈ part.last?)
    : scope.binds v = true := by
  refine h.resolve_right ?_
  rw [hlast]
  exact Option.not_mem_none v

theorem eq_of_mem_last? {last : Operand} {forms : List Form} {v : ValueId}
    (h : v ∈ (Part.body last forms).last?)
    : last = .result v := by
  cases last with
  | result id =>
    cases h
    rfl
  | _ => cases h

theorem follows_plain (hplain : part.isPlain = true) (hplain' : part'.isPlain = true)
    (hlast : part'.last? = none)
    : (part'.bounds handlers scope s).Follows (part.bounds handlers scope s) s r := by
  refine follows hplain' (.inl ?_) (fun point hpoint => .inl (.inr ⟨point, hpoint, rfl⟩))
    (fun b hb => List.mem_append_right _ hb) fun v hv => .inl (.inl (binds_of_known hlast hv))
  show part.Home s s.block s.index
  rw [(@isPlain_inv s part hplain).2.2]
  exact ⟨rfl, Nat.le_refl _⟩

theorem follows_first {inner : Part} (hfirst : part.first? = some inner)
    : (inner.bounds handlers scope s).Follows (part.bounds handlers scope s) s r := by
  obtain ⟨hplain, hinner, hlast, _⟩ := @isPlain_first scope part inner hfirst
  exact follows_plain hplain hinner hlast

theorem Fit.first {inner : Part} (h : part.Fit handlers scope s) (hfirst : part.first? = some inner)
    : inner.Fit handlers scope s where
  older := h.older.follow (r := none) (follows_first hfirst) (absurd rfl)
    fun _ hv => absurd hv Given.none
  sorted := h.sorted
  whole := (isPlain_first hfirst).2.2.2

theorem follows_within (hgoal : ∀ b ∈ part'.goal?, b ∈ part.goal?)
    (hinner : ∀ b ∈ part'.inner, b ∈ part.inner)
    (hhome : ∀ b i, part'.Home m b i → part.Home s b i) (hlast : part'.last? = none)
    : (part'.bounds handlers scope m).Follows (part.bounds handlers scope s) m r := by
  refine follows_of (fun b hb => .inl (.inl (hgoal b hb))) ?_ (fun b i hb => .inl (hhome b i hb))
    (fun point hpoint => .inl (.inr ⟨point, hpoint, rfl⟩)) (fun b hb => List.mem_append_right _ hb)
    fun v hv => .inl (.inl (binds_of_known hlast hv))
  exact fun b hb => ⟨.inr (hinner b hb), List.mem_append_left _ (hinner b hb)⟩

theorem follows_rest (hr : r ≠ none)
    : ((Part.operands []).bounds handlers scope m).Follows (part.bounds handlers scope s) m r :=
  follows rfl (.inr hr) (fun point hpoint => .inl (.inr ⟨point, hpoint, rfl⟩))
    (fun _ hb => List.mem_append_right _ hb) fun _ hv => .inl (.inl (binds_of_known rfl hv))

end Part

end Resumable
