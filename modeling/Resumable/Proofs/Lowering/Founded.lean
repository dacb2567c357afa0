import Resumable.Proofs.Lowering.Closed
import Resumable.Proofs.Lowering.Sorted
import Resumable.Proofs.Slots.Layout

/-!
This module contains the proof that lowered code writes every result before it reads it, on every
way that control can take: from block to block, and from any place that a handler protects to the
handler.

For a single result, blocks are marked that are entered only after it was written. A block that is
opened while code is laid out is marked if the result has been written at the place where that
happens, so the marks of all blocks follow from the code.
-/

namespace Resumable

def Instruction.targets (ins : Instruction) : List BlockId :=
  match ins.command with
  | .effect (.pushHandler block) => [block]
  | .effect _ => []
  | .transfer t => t.references

namespace Plan

def Has (plan : Plan) (v : ValueId) (marked : BlockId → Prop) (b : BlockId) (i : Nat) : Prop :=
  marked b ∨ ∃ j ins, j < i ∧ (plan.code b)[j]? = some ins ∧ v ∈ ins.writes

structure Sees (plan : Plan) (v : ValueId) (marked : BlockId → Prop) (b : BlockId) (i : Nat)
    (ins : Instruction) : Prop where
  reads : v ∈ ins.reads → plan.Has v marked b i
  targets : ∀ target ∈ ins.targets, marked target → plan.Has v marked b i

structure Rooted (plan : Plan) (v : ValueId) (marked : BlockId → Prop) (s t : Spot) : Prop where
  value : s.value ≤ t.value
  sees : ∀ {b : BlockId} {i : Nat} {ins : Instruction}, (plan.code b)[i]? = some ins →
    s.value ≤ ins.id → ins.id < t.value → plan.Sees v marked b i ins

structure Amid (plan : Plan) (v : ValueId) (marked : BlockId → Prop) (scope : Scope) (s : Spot) :
    Prop where
  locals : scope.binds v = true → plan.Has v marked s.block s.index
  loops : ∀ point ∈ scope.loops, marked point.header → plan.Has v marked s.block s.index

def Delivers (plan : Plan) (v : ValueId) (marked : BlockId → Prop) (s : Spot)
    (r : Option (List Operand)) (t : Spot) : Prop :=
  ∀ operands, r = some operands →
    (plan.Has v marked s.block s.index → plan.Has v marked t.block t.index) ∧
      (.result v ∈ operands → plan.Has v marked t.block t.index)

def Founded (plan : Plan) (low high : BlockId) (P : ValueId → (BlockId → Prop) → Prop) : Prop :=
  low ≤ high ∧ ∃ parent : BlockId → Spot, ∀ v marked,
    (∀ b, low ≤ b → b < high →
      (marked b ↔ plan.Has v marked (parent b).block (parent b).index)) → P v marked

variable {plan : Plan} {v : ValueId} {marked : BlockId → Prop} {scope : Scope} {s t u : Spot}
  {b : BlockId} {i : Nat} {r : Option (List Operand)}

namespace Has

theorem mono {j : Nat} (h : plan.Has v marked b i) (hle : i ≤ j) : plan.Has v marked b j := by
  rcases h with hmarked | ⟨k, ins, hk, hins, hv⟩
  . exact .inl hmarked
  . exact .inr ⟨k, ins, Nat.lt_of_lt_of_le hk hle, hins, hv⟩

theorem skip (h : plan.Has v marked s.block s.index) (count : Nat)
    : plan.Has v marked (s.skip count).block (s.skip count).index :=
  h.mono (Nat.le_add_right _ _)

theorem written {e : Effect} (hholds : plan.Holds s [.effect e]) (hv : v ∈ e.writes s.value)
    : plan.Has v marked (s.skip 1).block (s.skip 1).index := by
  obtain ⟨⟨span, hspan⟩, _⟩ := hholds
  exact .inr ⟨s.index, _, Nat.lt_succ_self _, hspan, hv⟩

end Has

namespace Rooted

theorem refl (hvalue : s.value = t.value) : plan.Rooted v marked s t where
  value := Nat.le_of_eq hvalue
  sees _ hlow hhigh := by lia

theorem trans (h : plan.Rooted v marked s t) (h' : plan.Rooted v marked t u)
    : plan.Rooted v marked s u where
  value := Nat.le_trans h.value h'.value
  sees {_ _ ins} hins hlow hhigh := by
    by_cases hid : ins.id < t.value
    . exact h.sees hins hlow hid
    . exact h'.sees hins (Nat.not_lt.1 hid) hhigh

theorem one {command : Command} (horderly : Orderly plan.code) (hholds : plan.Holds s [command])
    (hsees : ∀ span, plan.Sees v marked s.block s.index ⟨s.value, command, span⟩)
    : plan.Rooted v marked s (s.skip 1) where
  value := Nat.le_succ _
  sees {_ _ ins} hins hlow hhigh := by
    obtain ⟨⟨span, hspan⟩, _⟩ := hholds
    have hid : ins.id = s.value := Nat.le_antisymm (Nat.le_of_lt_succ hhigh) hlow
    obtain ⟨rfl, rfl⟩ := horderly.unique hins hspan hid
    rw [hins, Option.some.injEq] at hspan
    rw [hspan]
    exact hsees span

theorem effect {e : Effect} (horderly : Orderly plan.code) (hholds : plan.Holds s [.effect e])
    (hreads : .result v ∈ e.operands → plan.Has v marked s.block s.index)
    (hpush : ∀ b, e = .pushHandler b → marked b → plan.Has v marked s.block s.index)
    : plan.Rooted v marked s (s.skip 1) := by
  refine one horderly hholds fun span => ⟨fun hv => hreads (Instruction.mem_reads.1 hv), ?_⟩
  intro target htarget
  cases e with
  | pushHandler block =>
    cases List.mem_singleton.1 htarget
    exact hpush _ rfl
  | _ => cases htarget

theorem transfer {transfer : Transfer} (horderly : Orderly plan.code)
    (hholds : plan.Holds s [.transfer transfer])
    (hreads : .result v ∈ transfer.operands → plan.Has v marked s.block s.index)
    (htargets : ∀ b ∈ transfer.references, marked b → plan.Has v marked s.block s.index)
    : plan.Rooted v marked s (s.skip 1) :=
  one horderly hholds fun _ => ⟨fun hv => hreads (Instruction.mem_reads.1 hv), htargets⟩

theorem effects {α : Type} {items : List α} {f : α → Effect} (horderly : Orderly plan.code)
    (hholds : plan.Holds s (items.map fun item => .effect (f item)))
    (hreads : ∀ item ∈ items, .result v ∈ (f item).operands → plan.Has v marked s.block s.index)
    (hpush : ∀ item ∈ items, ∀ b, f item = .pushHandler b → marked b →
      plan.Has v marked s.block s.index)
    : plan.Rooted v marked s (s.skip items.length) := by
  induction items generalizing s with
  | nil => exact .refl rfl
  | cons item items ih =>
    have hskip : s.skip (item :: items).length = (s.skip 1).skip items.length := by
      simp only [Spot.skip, List.length_cons, Spot.mk.injEq, true_and]
      lia
    rw [List.forall_mem_cons] at hreads hpush
    rw [hskip]
    exact (effect horderly ⟨hholds.1, trivial⟩ hreads.1 hpush.1).trans (ih hholds.2
      (fun item hitem hv => (hreads.2 item hitem hv).skip 1)
      fun item hitem b heq hb => (hpush.2 item hitem b heq hb).skip 1)

end Rooted

namespace Amid

theorem mono (h : plan.Amid v marked scope s)
    (hgoes : plan.Has v marked s.block s.index → plan.Has v marked t.block t.index)
    : plan.Amid v marked scope t where
  locals hv := hgoes (h.locals hv)
  loops point hpoint hmarked := hgoes (h.loops point hpoint hmarked)

theorem bind {id : ValueId} (h : plan.Amid v marked scope s) (name : String)
    (hid : id = v → plan.Has v marked s.block s.index)
    : plan.Amid v marked (scope.bind name id) s where
  locals hv := by
    rcases Scope.binds_bind.1 hv with heq | hv
    . exact hid heq
    . exact h.locals hv
  loops := h.loops

theorem inLoop {names : List String} {point : LoopPoint}
    (h : plan.Amid v marked scope (s.goTo point.header))
    (hcarried : v ∈ point.carried → marked point.header)
    : plan.Amid v marked ((scope.bindAll (names.zip point.carried)).inLoop point)
        (s.goTo point.header) where
  locals hv := by
    rcases Scope.binds_bindAll.1 hv with hv | hv
    . obtain ⟨pair, hpair, rfl⟩ := List.mem_map.1 hv
      exact .inl (hcarried (List.of_mem_zip hpair).2)
    . exact h.locals hv
  loops point' hpoint hmarked := by
    rcases List.mem_cons.1 hpoint with rfl | hpoint
    . exact .inl hmarked
    . exact h.loops point' hpoint hmarked

end Amid

namespace Delivers

theorem none : plan.Delivers v marked s none t := by
  intro operands hoperands
  cases hoperands

theorem one {operand : Operand}
    (hgoes : plan.Has v marked s.block s.index → plan.Has v marked t.block t.index)
    (hresult : operand = .result v → plan.Has v marked t.block t.index)
    : plan.Delivers v marked s (some [operand]) t := by
  intro operands hoperands
  cases hoperands
  exact ⟨hgoes, fun hv => hresult (List.mem_singleton.1 hv).symm⟩

theorem after (h : plan.Delivers v marked t r u)
    (hgoes : plan.Has v marked s.block s.index → plan.Has v marked t.block t.index)
    : plan.Delivers v marked s r u := by
  intro operands hoperands
  obtain ⟨hgoes', hresults⟩ := h operands hoperands
  exact ⟨fun hhas => hgoes' (hgoes hhas), hresults⟩

theorem result {operand : Operand} (h : plan.Delivers v marked s (some [operand]) t)
    (hoperand : operand = .result v)
    : plan.Has v marked t.block t.index :=
  (h _ rfl).2 (List.mem_singleton.2 hoperand.symm)

end Delivers

namespace Founded

variable {low mid high : BlockId} {P Q : ValueId → (BlockId → Prop) → Prop}

theorem refl (h : ∀ v marked, P v marked) : plan.Founded low low P :=
  ⟨Nat.le_refl _, fun _ => ⟨0, 0, 0, 0⟩, fun v marked _ => h v marked⟩

theorem mono (h : plan.Founded low high P) (hPQ : ∀ v marked, P v marked → Q v marked)
    : plan.Founded low high Q := by
  obtain ⟨hle, parent, hparent⟩ := h
  exact ⟨hle, parent, fun v marked hmarks => hPQ v marked (hparent v marked hmarks)⟩

theorem trans (h : plan.Founded low mid P) (h' : plan.Founded mid high Q)
    : plan.Founded low high fun v marked => P v marked ∧ Q v marked := by
  obtain ⟨hle, parent, hparent⟩ := h
  obtain ⟨hle', parent', hparent'⟩ := h'
  refine ⟨Nat.le_trans hle hle', fun b => if b < mid then parent b else parent' b, ?_⟩
  intro v marked hmarks
  constructor
  . apply hparent v marked
    intro b hlow hhigh
    simpa only [if_pos hhigh] using hmarks b hlow (Nat.lt_of_lt_of_le hhigh hle')
  . apply hparent' v marked
    intro b hlow hhigh
    simpa only [if_neg (Nat.not_lt.2 hlow)] using hmarks b (Nat.le_trans hle hlow) hhigh

theorem opening (p : Spot) (low count : Nat)
    : plan.Founded low (low + count) fun v marked =>
        ∀ b, low ≤ b → b < low + count → (marked b ↔ plan.Has v marked p.block p.index) :=
  ⟨Nat.le_add_right _ _, fun _ => p, fun _ _ hmarks => hmarks⟩

end Founded

end Plan

open Plan

def Part.Rooted (plan : Plan) (v : ValueId) (marked : BlockId → Prop) (scope : Scope) (s : Spot) :
    Part → Prop
  | .form _ | .operands _ | .bindings _ _ => plan.Amid v marked scope s
  | .shape whole =>
    plan.Amid v marked scope s ∧ whole.Proper ∧ (v ∈ whole.ids → scope.binds v = true)
  | .body last _ =>
    plan.Amid v marked scope s ∧ (last = .result v → plan.Has v marked s.block s.index)
  | .arms meet entries _ => ∀ b ∈ entries.map (·.2),
    plan.Amid v marked scope (s.goTo b) ∧ (marked meet → marked b)
  | .guarded blocks _ _ => plan.Amid v marked scope (s.goTo blocks.entry) ∧
    ∀ b ∈ blocks.after :: blocks.handlers, marked b → marked blocks.entry
  | .catching blocks _ _ => ∀ b ∈ blocks.dispatch,
    plan.Amid v marked scope (s.goTo b) ∧ (marked blocks.after → marked b)
  | .clauses after entries _ => ∀ b ∈ entries.map (·.2),
    plan.Amid v marked scope (s.goTo b) ∧ (marked after → marked b)
  | .cleanup blocks _ _ => ∀ b ∈ blocks.cleanup,
    plan.Amid v marked scope (s.goTo b) ∧ (marked blocks.exit → marked b)

variable {options : CompileOptions} {plan : Plan} {handlers : List BlockId} {scope : Scope}
  {v : ValueId} {marked : BlockId → Prop} {s t u : Spot} {r : Option (List Operand)}

theorem Job.effect_operands {job : Job} {operands : List Operand}
    (h : .result v ∈ (job.effect operands).operands)
    : .result v ∈ operands ∨ v ∈ job.ids := by
  unfold effect at h
  split at h
  case h_2 =>
    rcases List.mem_cons.1 h with heq | h
    . cases heq
    . exact .inl h
  case h_3 =>
    obtain ⟨id, hid, heq⟩ := List.mem_map.1 h
    cases heq
    exact .inr hid
  case h_9 => cases List.mem_singleton.1 h
  all_goals exact .inl h

theorem Job.own_mem_writes (job : Job) (operands : List Operand) (own : ValueId)
    : own ∈ (job.effect operands).writes own := by
  unfold effect
  split <;> simp [Effect.writes]

theorem Job.effect_ne_pushHandler (job : Job) (operands : List Operand) (b : BlockId)
    : job.effect operands ≠ .pushHandler b := by
  unfold effect
  split <;> simp

theorem receive_rooted {b : BlockId} (horderly : Orderly plan.code)
    (hholds : plan.Holds (s.goTo b) [.receive])
    : plan.Rooted v marked s ((s.goTo b).skip 1) ∧
        (v = s.value → plan.Has v marked ((s.goTo b).skip 1).block ((s.goTo b).skip 1).index) := by
  have hreceived : plan.Rooted v marked (s.goTo b) ((s.goTo b).skip 1) :=
    .effect horderly hholds (by simp [Effect.operands]) (by simp)
  exact ⟨⟨hreceived.value, hreceived.sees⟩, fun hv => .written hholds (List.mem_singleton.2 hv)⟩

theorem copies_rooted {operands : List Operand} (horderly : Orderly plan.code)
    (hholds : plan.Holds s (operands.map fun operand => .effect (.const operand)))
    (hreads : .result v ∈ operands → plan.Has v marked s.block s.index)
    : plan.Rooted v marked s (s.skip operands.length) ∧
        (v ∈ List.range' s.value operands.length →
          plan.Has v marked (s.skip operands.length).block (s.skip operands.length).index) := by
  constructor
  . refine .effects horderly hholds ?_ (by simp)
    intro operand hmem hv
    exact hreads (List.mem_singleton.1 hv ▸ hmem)
  . intro hv
    clear hreads
    induction operands generalizing s with
    | nil => cases hv
    | cons operand operands ih =>
      have hskip : s.skip (operand :: operands).length = (s.skip 1).skip operands.length := by
        simp only [Spot.skip, List.length_cons, Spot.mk.injEq, true_and]
        lia
      rw [hskip]
      rcases List.mem_cons.1 hv with rfl | hv
      . exact (Has.written ⟨hholds.1, trivial⟩ (List.mem_singleton.2 rfl)).skip _
      . exact ih hholds.2 hv

theorem loop_rooted {operands : List Operand} {point : LoopPoint} (names : List String)
    (horderly : Orderly plan.code) (hamid : plan.Amid v marked scope s)
    (hdelivers : plan.Delivers v marked s (some operands) t)
    (hholds : plan.Holds t (operands.map (fun operand => .effect (.const operand)) ++
      [.transfer (.jump none t.fresh)]))
    (hpoint : point = ⟨t.fresh, scope.tryDepth, .range' t.value operands.length⟩)
    (hmarks : marked t.fresh ↔ plan.Has v marked (t.skip operands.length).block
      (t.skip operands.length).index)
    : plan.Rooted v marked t (((t.opened 1).skip (operands.length + 1)).goTo t.fresh) ∧
        plan.Amid v marked ((scope.bindAll (names.zip point.carried)).inLoop point)
          (((t.opened 1).skip (operands.length + 1)).goTo t.fresh) ∧
        (plan.Has v marked s.block s.index → marked t.fresh) := by
  subst hpoint
  rw [holds_append, List.length_map] at hholds
  obtain ⟨hcopied, hset⟩ := copies_rooted horderly hholds.1 (hdelivers _ rfl).2
  have hgoes : plan.Has v marked s.block s.index → marked t.fresh := by
    intro hhas
    exact hmarks.2 (((hdelivers _ rfl).1 hhas).skip operands.length)
  have hjumped : plan.Rooted v marked (t.skip operands.length)
      ((t.skip operands.length).skip 1) := by
    refine .transfer horderly hholds.2 (by simp [Transfer.operands]) ?_
    intro b hb hmarked
    cases List.mem_singleton.1 hb
    exact hmarks.1 hmarked
  have hentered := hcopied.trans hjumped
  exact ⟨⟨hentered.value, hentered.sees⟩,
    .inLoop (hamid.mono fun hhas => .inl (hgoes hhas)) (fun hv => hmarks.2 (hset hv)), hgoes⟩

theorem finally_rooted {b : BlockId} (horderly : Orderly plan.code)
    (hholds : plan.Holds (s.goTo b) [.receive, .effect .takeException, .effect (.popHandler b)])
    : plan.Rooted v marked s ((s.goTo b).skip 3) := by
  have hreceived : plan.Rooted v marked s ((s.goTo b).skip 1) :=
    (receive_rooted horderly ⟨hholds.1, trivial⟩).1
  have htaken : plan.Rooted v marked ((s.goTo b).skip 1) (((s.goTo b).skip 1).skip 1) :=
    .effect horderly ⟨hholds.2.1, trivial⟩ (by simp [Effect.operands]) (by simp)
  have hpopped : plan.Rooted v marked (((s.goTo b).skip 1).skip 1)
      ((((s.goTo b).skip 1).skip 1).skip 1) :=
    .effect horderly hholds.2.2 (by simp [Effect.operands]) (by simp)
  exact (hreceived.trans htaken).trans hpopped

theorem leave_rooted {transfer : Transfer} {operand : Operand} (horderly : Orderly plan.code)
    (hdelivers : plan.Delivers v marked s (some [operand]) t)
    (hholds : plan.Holds t [.transfer transfer])
    (hoperands : ∀ other ∈ transfer.operands, other = operand)
    (htargets : ∀ b ∈ transfer.references, marked b → plan.Has v marked t.block t.index)
    : plan.Rooted v marked t (t.skip 1) :=
  .transfer horderly hholds (fun hv => hdelivers.result (hoperands _ hv).symm) htargets

theorem branch_rooted {choice : Choice} {operand : Operand} {arms : List (Option Form)}
    {live : Bool} (horderly : Orderly plan.code)
    (hproper : choice = .test → arms.length = 2) (hamid : plan.Amid v marked scope s)
    (hdelivers : plan.Delivers v marked s (some [operand]) t)
    (hholds : plan.Holds t [.transfer (choice.transfer operand (.range' t.fresh arms.length))])
    (hmarks : ∀ b, t.fresh ≤ b → b < t.fresh + (arms.length + 1) →
      (marked b ↔ plan.Has v marked t.block t.index))
    : plan.Rooted v marked t (t.skip 1) ∧
        (Part.arms (t.fresh + arms.length) (arms.zip (.range' t.fresh arms.length)) live).Rooted
          plan v marked scope ((t.opened (arms.length + 1)).skip 1) := by
  have harm : ∀ b ∈ List.range' t.fresh arms.length,
      (marked b ↔ plan.Has v marked t.block t.index) := by
    intro b hb
    have := List.mem_range'_1.1 hb
    exact hmarks b (by lia) (by lia)
  constructor
  . apply leave_rooted horderly hdelivers hholds
    . simp [Choice.transfer_operands]
    . intro b hb hmarked
      exact (harm b (Choice.transfer_references (by simpa using hproper) hb)).1 hmarked
  . intro b hb
    obtain ⟨entry, hentry, rfl⟩ := List.mem_map.1 hb
    have hmark := harm _ (List.of_mem_zip hentry).2
    refine ⟨hamid.mono fun hhas => .inl (hmark.2 ((hdelivers _ rfl).1 hhas)), ?_⟩
    intro hmeet
    exact hmark.2 ((hmarks _ (by lia) (by lia)).1 hmeet)

theorem attempt_opening {parts : TryParts} {blocks : TryBlocks} (s : Spot)
    (hblocks : blocks = .number s.fresh parts)
    : plan.Founded s.fresh (blocks.exit + 1) fun v marked =>
        ∀ b, s.fresh ≤ b → b < blocks.exit + 1 →
          (marked b ↔ plan.Has v marked s.block s.index) := by
  have hcount := TryBlocks.number_exit s.fresh parts
  rw [← hblocks] at hcount
  rw [hcount]
  exact .opening s s.fresh _

theorem guarded_rooted {blocks : TryBlocks} {forms : List Form} {live : Bool}
    (horderly : Orderly plan.code)
    (hstart : (Part.guarded blocks forms live).Rooted plan v marked scope s)
    (hholds : plan.Holds (s.goTo blocks.entry)
      (blocks.handlers.reverse.map (.effect <| .pushHandler ·)))
    : plan.Rooted v marked (s.goTo blocks.entry)
          ((s.goTo blocks.entry).skip blocks.handlers.length) ∧
        (Part.body (.literal .nil) forms).Rooted plan v marked (scope.guarded blocks.handlers.head?)
          ((s.goTo blocks.entry).skip blocks.handlers.length) := by
  obtain ⟨hamid, hmarks⟩ := hstart
  constructor
  . rw [← List.length_reverse]
    refine .effects horderly hholds (by simp [Effect.operands]) ?_
    intro block hblock b heq hmarked
    cases heq
    exact .inl (hmarks _ (List.mem_cons_of_mem _ (List.mem_reverse.1 hblock)) hmarked)
  . exact ⟨⟨fun hv => (hamid.locals hv).skip _,
      fun point hpoint hmarked => (hamid.loops point hpoint hmarked).skip _⟩, by simp⟩

theorem attempt_rooted {parts : TryParts} {blocks : TryBlocks} {live₁ live₂ live₃ : Bool}
    {t₁ t₂ : Spot} (horderly : Orderly plan.code) (hamid : plan.Amid v marked scope s)
    (hblocks : blocks = .number s.fresh parts)
    (hjump : plan.Holds s [.transfer (.jump none blocks.entry)])
    (hmarks : ∀ b, s.fresh ≤ b → b < blocks.exit + 1 →
      (marked b ↔ plan.Has v marked s.block s.index))
    : plan.Rooted v marked s (s.skip 1) ∧
        (Part.guarded blocks parts.body live₁).Rooted plan v marked scope
          { s.skip 1 with fresh := blocks.exit + 1 } ∧
        (Part.catching blocks parts.catches live₂).Rooted plan v marked scope t₁ ∧
        (Part.cleanup blocks parts.cleanup live₃).Rooted plan v marked scope t₂ ∧
        (plan.Has v marked s.block s.index → marked blocks.exit) := by
  have hafter := TryBlocks.number_after s.fresh parts
  have hcleanups := TryBlocks.number_cleanup_bounds s.fresh parts
  have hdispatches := TryBlocks.number_dispatch_bounds s.fresh parts
  have hfirst : blocks.entry = s.fresh := by rw [hblocks]; rfl
  rw [← hblocks] at hafter hcleanups hdispatches
  have hentry := hmarks blocks.entry (by lia) (by lia)
  have hexit := hmarks blocks.exit (by lia) (by lia)
  have hleft := hmarks blocks.after (by lia) (by lia)
  have hcleanup : ∀ b ∈ blocks.cleanup, (marked b ↔ plan.Has v marked s.block s.index) := by
    intro b hb
    have := hcleanups b hb
    exact hmarks b (by lia) (by lia)
  have hdispatch : ∀ b ∈ blocks.dispatch, (marked b ↔ plan.Has v marked s.block s.index) := by
    intro b hb
    have := hdispatches b hb
    exact hmarks b (by lia) (by lia)
  refine ⟨?_, ⟨hamid.mono fun hhas => .inl (hentry.2 hhas), ?_⟩, ?_, ?_, hexit.2⟩
  . refine .transfer horderly hjump (by simp [Transfer.operands]) ?_
    intro b hb hmarked
    cases List.mem_singleton.1 hb
    exact hentry.1 hmarked
  . intro b hb hmarked
    apply hentry.2
    rcases List.mem_cons.1 hb with rfl | hb
    . exact hleft.1 hmarked
    . rcases List.mem_append.1 hb with hb | hb
      . exact (hdispatch b (Option.mem_toList.1 hb)).1 hmarked
      . exact (hcleanup b (Option.mem_toList.1 hb)).1 hmarked
  . intro b hb
    exact ⟨hamid.mono fun hhas => .inl ((hdispatch b hb).2 hhas),
      fun hmarked => (hdispatch b hb).2 (hleft.1 hmarked)⟩
  . intro b hb
    exact ⟨hamid.mono fun hhas => .inl ((hcleanup b hb).2 hhas),
      fun hmarked => (hcleanup b hb).2 (hexit.1 hmarked)⟩

theorem Code.founded {part : Part} (horderly : Orderly plan.code)
    (h : Code options plan handlers scope s part r t)
    : plan.Founded s.fresh t.fresh fun v marked => part.Rooted plan v marked scope s →
        plan.Rooted v marked s t ∧ plan.Delivers v marked s r t := by
  -- A part says where its blocks are opened, and what follows for all marks that agree with that. So
  -- two parts are put together by taking the blocks of both.
  induction h with
  | form _ hreads _ ih =>
    refine ih.mono fun v marked hcode hamid => hcode ⟨hamid, hreads.ids.2, ?_⟩
    intro hv
    obtain ⟨name, hmem⟩ := hreads.ids.1 v hv
    exact Scope.binds_of_mem hmem
  | value =>
    refine .refl fun v marked hstart => ⟨.refl rfl, .one (fun hhas => hhas) ?_⟩
    intro hoperand
    exact hstart.1.locals (hstart.2.2 (by simp [hoperand, Shape.ids]))
  | @perform handlers scope s t job items operands hoperands hholds ih =>
    refine ih.mono fun v marked hcode hstart => ?_
    obtain ⟨hrooted, hdelivers⟩ := hcode hstart.1
    refine ⟨hrooted.trans (.effect horderly hholds ?_ ?_), .one ?_ ?_⟩
    . intro hv
      rcases Job.effect_operands hv with hv | hv
      . exact (hdelivers _ rfl).2 hv
      . exact (hdelivers _ rfl).1 (hstart.1.locals (hstart.2.2 hv))
    . intro b heq
      exact absurd heq (Job.effect_ne_pushHandler job operands b)
    . intro hhas
      exact ((hdelivers _ rfl).1 hhas).skip 1
    . intro heq
      cases heq
      exact .written hholds (Job.own_mem_writes job operands t.value)
  | performStop _ ih | selectStop _ ih | loopStop _ ih | recurStop _ ih | suspendStop _ ih =>
    exact ih.mono fun v marked hcode hstart => ⟨(hcode hstart.1).1, .none⟩
  | body _ ih => exact ih.mono fun v marked hcode hstart => hcode ⟨hstart.1, by simp⟩
  | bind _ ih => exact ih.mono fun v marked hcode hstart => hcode hstart.1
  | finishStop _ ih =>
    exact ih.mono fun v marked hcode hstart => ⟨(hcode ⟨hstart.1, by simp⟩).1, .none⟩
  | operandsNil =>
    refine .refl fun v marked _ => ⟨.refl rfl, ?_⟩
    intro operands hoperands
    cases hoperands
    exact ⟨fun hhas => hhas, by simp⟩
  | operandsCons _ _ ih ihRest =>
    refine (ih.trans ihRest).mono ?_
    rintro v marked ⟨hcode, hrest⟩ hamid
    obtain ⟨hrooted, hdelivers⟩ := hcode hamid
    obtain ⟨hrooted', hdelivers'⟩ := hrest (hamid.mono (hdelivers _ rfl).1)
    refine ⟨hrooted.trans hrooted', ?_⟩
    intro operands hoperands
    cases hoperands
    refine ⟨fun hhas => (hdelivers' _ rfl).1 ((hdelivers _ rfl).1 hhas), ?_⟩
    intro hv
    rcases List.mem_cons.1 hv with heq | hv
    . exact (hdelivers' _ rfl).1 (hdelivers.result heq.symm)
    . exact (hdelivers' _ rfl).2 hv
  | operandsStop _ ih => exact ih.mono fun v marked hcode hamid => ⟨(hcode hamid).1, .none⟩
  | operandsStopLater _ _ ih ihRest =>
    refine (ih.trans ihRest).mono ?_
    rintro v marked ⟨hcode, hrest⟩ hamid
    obtain ⟨hrooted, hdelivers⟩ := hcode hamid
    exact ⟨hrooted.trans (hrest (hamid.mono (hdelivers _ rfl).1)).1, .none⟩
  | bodyNil => exact .refl fun v marked hstart => ⟨.refl rfl, .one (fun hhas => hhas) hstart.2⟩
  | bodyCons _ _ ih ihRest =>
    refine (ih.trans ihRest).mono ?_
    rintro v marked ⟨hcode, hrest⟩ hstart
    obtain ⟨hrooted, hdelivers⟩ := hcode hstart.1
    obtain ⟨hrooted', hdelivers'⟩ := hrest ⟨hstart.1.mono (hdelivers _ rfl).1, hdelivers.result⟩
    exact ⟨hrooted.trans hrooted', hdelivers'.after (hdelivers _ rfl).1⟩
  | bodyStop _ ih => exact ih.mono fun v marked hcode hstart => ⟨(hcode hstart.1).1, .none⟩
  | bindingsNil _ ih => exact ih.mono fun v marked hcode hamid => hcode ⟨hamid, by simp⟩
  | @bindingsCopy handlers scope s r t u name init pairs forms operand _ hholds _ ih ihRest =>
    refine (ih.trans ihRest).mono ?_
    rintro v marked ⟨hcode, hrest⟩ hamid
    obtain ⟨hrooted, hdelivers⟩ := hcode hamid
    have hgoes : plan.Has v marked s.block s.index →
        plan.Has v marked (t.skip 1).block (t.skip 1).index :=
      fun hhas => ((hdelivers _ rfl).1 hhas).skip 1
    have hcopied : plan.Rooted v marked t (t.skip 1) :=
      .effect horderly hholds (fun hv => hdelivers.result (List.mem_singleton.1 hv).symm) (by simp)
    obtain ⟨hrooted', hdelivers'⟩ := hrest ((hamid.mono hgoes).bind name
      fun heq => .written hholds (List.mem_singleton.2 heq.symm))
    exact ⟨(hrooted.trans hcopied).trans hrooted', hdelivers'.after hgoes⟩
  | @bindingsKeep handlers scope s r t u name init pairs forms id _ _ _ ih ihRest =>
    refine (ih.trans ihRest).mono ?_
    rintro v marked ⟨hcode, hrest⟩ hamid
    obtain ⟨hrooted, hdelivers⟩ := hcode hamid
    obtain ⟨hrooted', hdelivers'⟩ := hrest ((hamid.mono (hdelivers _ rfl).1).bind name
      fun heq => hdelivers.result (by rw [heq]))
    exact ⟨hrooted.trans hrooted', hdelivers'.after (hdelivers _ rfl).1⟩
  | bindingsStop _ ih => exact ih.mono fun v marked hcode hamid => ⟨(hcode hamid).1, .none⟩
  | @select handlers scope s t u choice value arms operand _ _ hholds _ hreceive ih ihArms =>
    refine ((ih.trans (.opening t t.fresh (arms.length + 1))).trans ihArms).mono ?_
    rintro v marked ⟨⟨hcode, hmarks⟩, harms⟩ hstart
    obtain ⟨hrooted, hdelivers⟩ := hcode hstart.1
    obtain ⟨hbranched, hentries⟩ := branch_rooted horderly
      (fun heq => by simpa [heq, Shape.Proper] using hstart.2.1) hstart.1 hdelivers hholds hmarks
    obtain ⟨harmed, _⟩ := harms hentries
    obtain ⟨hmet, hresult⟩ := receive_rooted horderly hreceive
    refine ⟨((hrooted.trans hbranched).trans ⟨harmed.value, harmed.sees⟩).trans hmet, .one ?_ ?_⟩
    . intro hhas
      exact .inl ((hmarks (t.fresh + arms.length) (by lia) (by lia)).2 ((hdelivers _ rfl).1 hhas))
    . intro heq
      cases heq
      exact hresult rfl
  | @selectDead handlers scope s t u choice value arms operand _ _ hholds _ ih ihArms =>
    refine ((ih.trans (.opening t t.fresh (arms.length + 1))).trans ihArms).mono ?_
    rintro v marked ⟨⟨hcode, hmarks⟩, harms⟩ hstart
    obtain ⟨hrooted, hdelivers⟩ := hcode hstart.1
    obtain ⟨hbranched, hentries⟩ := branch_rooted horderly
      (fun heq => by simpa [heq, Shape.Proper] using hstart.2.1) hstart.1 hdelivers hholds hmarks
    obtain ⟨harmed, _⟩ := harms hentries
    exact ⟨(hrooted.trans hbranched).trans ⟨harmed.value, harmed.sees⟩, .none⟩
  | @loop handlers scope s t u pairs forms operands operand point _ _ hholds hpoint _ _ hjump
      hreceive ih ihBody =>
    refine (((ih.trans (.opening (t.skip operands.length) t.fresh 1)).trans ihBody).trans
      (.opening u u.fresh 1)).mono ?_
    rintro v marked ⟨⟨⟨hcode, hhead⟩, hbody⟩, hexit⟩ hstart
    obtain ⟨hrooted, hdelivers⟩ := hcode hstart.1
    obtain ⟨hentered, hamid, hgoes⟩ := loop_rooted (pairs.map (·.1)) horderly hstart.1 hdelivers
      hholds hpoint (hhead t.fresh (by lia) (by lia))
    obtain ⟨hround, hdelivers'⟩ := hbody ⟨hamid, by simp⟩
    have hmark := hexit u.fresh (by lia) (by lia)
    have hleft : plan.Rooted v marked u (u.skip 1) := by
      apply leave_rooted horderly hdelivers' hjump
      . simp [Transfer.operands]
      . intro b hb hmarked
        cases List.mem_singleton.1 hb
        exact hmark.1 hmarked
    obtain ⟨hmet, hresult⟩ := receive_rooted horderly hreceive
    refine ⟨(((hrooted.trans hentered).trans hround).trans hleft).trans ⟨hmet.value, hmet.sees⟩,
      .one ?_ ?_⟩
    . intro hhas
      exact .inl (hmark.2 ((hdelivers' _ rfl).1 (.inl (hgoes hhas))))
    . intro heq
      cases heq
      exact hresult rfl
  | @loopDead handlers scope s t u pairs forms operands point _ _ hholds hpoint _ ih ihBody =>
    refine ((ih.trans (.opening (t.skip operands.length) t.fresh 1)).trans ihBody).mono ?_
    rintro v marked ⟨⟨hcode, hhead⟩, hbody⟩ hstart
    obtain ⟨hrooted, hdelivers⟩ := hcode hstart.1
    obtain ⟨hentered, hamid, _⟩ := loop_rooted (pairs.map (·.1)) horderly hstart.1 hdelivers
      hholds hpoint (hhead t.fresh (by lia) (by lia))
    obtain ⟨hround, _⟩ := hbody ⟨hamid, by simp⟩
    exact ⟨(hrooted.trans hentered).trans hround, .none⟩
  | @recur handlers scope s t point outer args operands hloops _ _ _ hholds ih =>
    refine ih.mono fun v marked hcode hstart => ?_
    obtain ⟨hrooted, hdelivers⟩ := hcode hstart.1
    have hset : plan.Rooted v marked t (t.skip 1) :=
      .effect horderly ⟨hholds.1, trivial⟩ (hdelivers _ rfl).2 (by simp)
    refine ⟨(hrooted.trans hset).trans
      (.transfer horderly hholds.2 (by simp [Transfer.operands]) ?_), .none⟩
    intro b hb hmarked
    cases List.mem_singleton.1 hb
    exact ((hdelivers _ rfl).1 (hstart.1.loops point (by simp [hloops]) hmarked)).skip 1
  | @suspend handlers scope s t handler args operands _ _ hholds hreceive ih =>
    refine (ih.trans (.opening t t.fresh 1)).mono ?_
    rintro v marked ⟨hcode, hopened⟩ hstart
    obtain ⟨hrooted, hdelivers⟩ := hcode hstart.1
    have hmark := hopened t.fresh (by lia) (by lia)
    have hleft : plan.Rooted v marked t (t.skip 1) := by
      refine .transfer horderly hholds (hdelivers _ rfl).2 ?_
      intro b hb hmarked
      cases List.mem_singleton.1 hb
      exact hmark.1 hmarked
    obtain ⟨hmet, hresult⟩ := receive_rooted horderly hreceive
    refine ⟨(hrooted.trans hleft).trans ⟨hmet.value, hmet.sees⟩, .one ?_ ?_⟩
    . intro hhas
      exact .inl (hmark.2 ((hdelivers _ rfl).1 hhas))
    . intro heq
      cases heq
      exact hresult rfl
  | finish _ _ hholds ih =>
    refine ih.mono fun v marked hcode hstart => ?_
    obtain ⟨hrooted, hdelivers⟩ := hcode ⟨hstart.1, by simp⟩
    exact ⟨hrooted.trans (leave_rooted horderly hdelivers hholds (by simp [Transfer.operands])
      (by simp [Transfer.references])), .none⟩
  | @finishBy handlers scope s t forms operand handler _ _ _ hholds hfinish ih =>
    refine (ih.trans (.opening t t.fresh 1)).mono ?_
    rintro v marked ⟨hcode, hopened⟩ hstart
    obtain ⟨hrooted, hdelivers⟩ := hcode ⟨hstart.1, by simp⟩
    have hleft : plan.Rooted v marked t (t.skip 1) := by
      apply leave_rooted horderly hdelivers hholds
      . simp [Transfer.operands]
      . intro b hb hmarked
        cases List.mem_singleton.1 hb
        exact (hopened t.fresh (by lia) (by lia)).1 hmarked
    obtain ⟨hmet, hresult⟩ := receive_rooted horderly ⟨hfinish.1, trivial⟩
    refine ⟨((hrooted.trans hleft).trans ⟨hmet.value, hmet.sees⟩).trans
      (.transfer horderly hfinish.2 ?_ (by simp [Transfer.references])), .none⟩
    intro hv
    cases List.mem_singleton.1 hv
    exact hresult rfl
  | armsNil | clausesNil | catchingNone _ | cleanupNone _ =>
    exact .refl fun v marked _ => ⟨.refl rfl, .none⟩
  | @armsLive handlers scope s t u meet block arm rest operand live _ _ hjump _ ih ihRest =>
    refine (ih.trans ihRest).mono ?_
    rintro v marked ⟨hcode, hrest⟩ hstart
    rw [Part.Rooted, List.map_cons, List.forall_mem_cons] at hstart
    obtain ⟨hrooted, hdelivers⟩ := hcode ⟨hstart.1.1, by simp⟩
    have hleft : plan.Rooted v marked t (t.skip 1) := by
      apply leave_rooted horderly hdelivers hjump
      . simp [Transfer.operands]
      . intro b hb hmarked
        cases List.mem_singleton.1 hb
        exact (hdelivers _ rfl).1 (.inl (hstart.1.2 hmarked))
    obtain ⟨hothers, _⟩ := hrest fun b hb => ⟨⟨(hstart.2 b hb).1.locals, (hstart.2 b hb).1.loops⟩,
      (hstart.2 b hb).2⟩
    have harm := hrooted.trans hleft
    exact ⟨Rooted.trans ⟨harm.value, harm.sees⟩ hothers, .none⟩
  | @armsDead handlers scope s t u meet block arm rest live _ _ _ ih ihRest =>
    refine (ih.trans ihRest).mono ?_
    rintro v marked ⟨hcode, hrest⟩ hstart
    rw [Part.Rooted, List.map_cons, List.forall_mem_cons] at hstart
    obtain ⟨hrooted, _⟩ := hcode ⟨hstart.1.1, by simp⟩
    obtain ⟨hothers, _⟩ := hrest fun b hb => ⟨⟨(hstart.2 b hb).1.locals, (hstart.2 b hb).1.loops⟩,
      (hstart.2 b hb).2⟩
    exact ⟨Rooted.trans ⟨hrooted.value, hrooted.sees⟩ hothers, .none⟩
  | @clausesLive handlers scope s t u after block clause rest operand live _ hreceive _ hjump _ ih
      ihRest =>
    refine (ih.trans ihRest).mono ?_
    rintro v marked ⟨hcode, hrest⟩ hstart
    rw [Part.Rooted, List.map_cons, List.forall_mem_cons] at hstart
    obtain ⟨hreceived, hresult⟩ := receive_rooted horderly hreceive
    obtain ⟨hrooted, hdelivers⟩ := hcode ⟨(hstart.1.1.mono fun hhas => hhas.skip 1).bind clause.name
      fun heq => hresult heq.symm, by simp⟩
    have hleft : plan.Rooted v marked t (t.skip 1) := by
      apply leave_rooted horderly hdelivers hjump
      . simp [Transfer.operands]
      . intro b hb hmarked
        cases List.mem_singleton.1 hb
        exact (hdelivers _ rfl).1 (.inl (hstart.1.2 hmarked))
    obtain ⟨hothers, _⟩ := hrest fun b hb => ⟨⟨(hstart.2 b hb).1.locals, (hstart.2 b hb).1.loops⟩,
      (hstart.2 b hb).2⟩
    exact ⟨((hreceived.trans hrooted).trans hleft).trans hothers, .none⟩
  | @clausesDead handlers scope s t u after block clause rest live _ hreceive _ _ ih ihRest =>
    refine (ih.trans ihRest).mono ?_
    rintro v marked ⟨hcode, hrest⟩ hstart
    rw [Part.Rooted, List.map_cons, List.forall_mem_cons] at hstart
    obtain ⟨hreceived, hresult⟩ := receive_rooted horderly hreceive
    obtain ⟨hrooted, _⟩ := hcode ⟨(hstart.1.1.mono fun hhas => hhas.skip 1).bind clause.name
      fun heq => hresult heq.symm, by simp⟩
    obtain ⟨hothers, _⟩ := hrest fun b hb => ⟨⟨(hstart.2 b hb).1.locals, (hstart.2 b hb).1.loops⟩,
      (hstart.2 b hb).2⟩
    exact ⟨(hreceived.trans hrooted).trans hothers, .none⟩
  | @guardedLive handlers scope s t blocks forms operand hpush _ hpop ih =>
    refine ih.mono fun v marked hcode hstart => ?_
    obtain ⟨hpushed, hentered⟩ := guarded_rooted horderly hstart hpush
    obtain ⟨hrooted, hdelivers⟩ := hcode hentered
    rw [holds_append, List.length_map] at hpop
    have hpopped : plan.Rooted v marked t (t.skip blocks.handlers.length) :=
      .effects horderly hpop.1 (by simp [Effect.operands]) (by simp)
    have hleft : plan.Rooted v marked (t.skip blocks.handlers.length)
        ((t.skip blocks.handlers.length).skip 1) := by
      refine .transfer horderly hpop.2 ?_ ?_
      . intro hv
        exact (hdelivers.result (List.mem_singleton.1 hv).symm).skip _
      . intro b hb hmarked
        cases List.mem_singleton.1 hb
        have hentry := hstart.2 _ (List.mem_cons_self ..) hmarked
        exact ((hdelivers _ rfl).1 (.inl hentry)).skip _
    have hbody := ((hpushed.trans hrooted).trans hpopped).trans hleft
    exact ⟨⟨hbody.value, hbody.sees⟩, .none⟩
  | @guardedDead handlers scope s t blocks forms hpush _ ih =>
    refine ih.mono fun v marked hcode hstart => ?_
    obtain ⟨hpushed, hentered⟩ := guarded_rooted horderly hstart hpush
    have hbody := hpushed.trans (hcode hentered).1
    exact ⟨⟨hbody.value, hbody.sees⟩, .none⟩
  | @catching handlers scope s t blocks catches dispatch live hdispatch hholds _ ih =>
    refine ((Founded.opening (s.goTo dispatch) s.fresh catches.length).trans ih).mono ?_
    rintro v marked ⟨hmarks, hcode⟩ hstart
    obtain ⟨hamid, hafter⟩ := hstart dispatch hdispatch
    have hpopped : plan.Rooted v marked (s.goTo dispatch) ((s.goTo dispatch).skip 1) :=
      .effect horderly ⟨hholds.1, trivial⟩ (by simp [Effect.operands]) (by simp)
    have hclause : ∀ b ∈ List.range' s.fresh catches.length,
        (marked b ↔ plan.Has v marked (s.goTo dispatch).block (s.goTo dispatch).index) := by
      intro b hb
      have := List.mem_range'_1.1 hb
      exact hmarks b (by lia) (by lia)
    have hleft : plan.Rooted v marked ((s.goTo dispatch).skip 1)
        (((s.goTo dispatch).skip 1).skip 1) := by
      refine .transfer horderly hholds.2 (by simp [Transfer.operands]) ?_
      intro b hb hmarked
      obtain ⟨entry, hentry, rfl⟩ := List.mem_map.1 hb
      exact ((hclause _ (List.of_mem_zip hentry).1).1 hmarked).skip 1
    have hpicked := hpopped.trans hleft
    obtain ⟨hclauses, _⟩ := hcode fun b hb => by
      obtain ⟨entry, hentry, rfl⟩ := List.mem_map.1 hb
      have hmark := hclause _ (List.of_mem_zip hentry).2
      exact ⟨⟨fun hv => .inl (hmark.2 (hamid.locals hv)),
        fun point hpoint hmarked => .inl (hmark.2 (hamid.loops point hpoint hmarked))⟩,
        fun hmarked => hmark.2 (.inl (hafter hmarked))⟩
    exact ⟨Rooted.trans (t := ((s.opened catches.length).goTo dispatch).skip 2)
      ⟨hpicked.value, hpicked.sees⟩ hclauses, .none⟩
  | @cleanupLive handlers scope s t blocks forms block operand hcleanup hholds _ hend ih =>
    refine ih.mono fun v marked hcode hstart => ?_
    obtain ⟨hamid, hexit⟩ := hstart block hcleanup
    obtain ⟨hrooted, hdelivers⟩ := hcode ⟨⟨fun hv => (hamid.locals hv).skip 3,
      fun point hpoint hmarked => (hamid.loops point hpoint hmarked).skip 3⟩, by simp⟩
    have htaken : v = s.value + 1 → plan.Has v marked t.block t.index := fun hv =>
      (hdelivers _ rfl).1 ((Has.written (s := (s.goTo block).skip 1) ⟨hholds.2.1, trivial⟩
        (List.mem_singleton.2 hv)).skip 1)
    have hreceived : v = s.value → plan.Has v marked t.block t.index := fun hv =>
      (hdelivers _ rfl).1 ((Has.written (s := s.goTo block) ⟨hholds.1, trivial⟩
        (List.mem_singleton.2 hv)).skip 2)
    have hended : plan.Rooted v marked t (t.skip 1) := by
      refine .effect horderly ⟨hend.1, trivial⟩ ?_ (by simp)
      intro hv
      cases List.mem_singleton.1 hv
      exact htaken rfl
    have hleft : plan.Rooted v marked (t.skip 1) ((t.skip 1).skip 1) := by
      refine .transfer horderly hend.2 ?_ ?_
      . intro hv
        cases List.mem_singleton.1 hv
        exact (hreceived rfl).skip 1
      . intro b hb hmarked
        cases List.mem_singleton.1 hb
        exact ((hdelivers _ rfl).1 (.inl (hexit hmarked))).skip 1
    exact ⟨(((finally_rooted horderly hholds).trans hrooted).trans hended).trans hleft, .none⟩
  | @cleanupDead handlers scope s t blocks forms block hcleanup hholds _ ih =>
    refine ih.mono fun v marked hcode hstart => ?_
    obtain ⟨hamid, _⟩ := hstart block hcleanup
    obtain ⟨hrooted, _⟩ := hcode ⟨⟨fun hv => (hamid.locals hv).skip 3,
      fun point hpoint hmarked => (hamid.loops point hpoint hmarked).skip 3⟩, by simp⟩
    exact ⟨(finally_rooted horderly hholds).trans hrooted, .none⟩
  | @attempt handlers scope s t₁ t₂ t₃ parts blocks _ _ _ hblocks _ _ _ _ hjump _ _ _ _ hreceive
      ih₁ ih₂ ih₃ =>
    refine ((((attempt_opening s hblocks).trans ih₁).trans ih₂).trans ih₃).mono ?_
    rintro v marked ⟨⟨⟨hmarks, hcode₁⟩, hcode₂⟩, hcode₃⟩ hstart
    obtain ⟨hentered, hguarded, hcaught, hcleaned, hexit⟩ :=
      attempt_rooted horderly hstart.1 hblocks hjump hmarks
    have htried := ((hentered.trans ⟨(hcode₁ hguarded).1.value, (hcode₁ hguarded).1.sees⟩).trans
      (hcode₂ hcaught).1).trans (hcode₃ hcleaned).1
    obtain ⟨hmet, hresult⟩ := receive_rooted horderly hreceive
    refine ⟨htried.trans hmet, .one ?_ ?_⟩
    . intro hhas
      exact .inl (hexit hhas)
    . intro heq
      cases heq
      exact hresult rfl
  | @attemptDead handlers scope s t₁ t₂ t₃ parts blocks _ _ _ hblocks _ _ _ _ hjump _ _ _ _
      ih₁ ih₂ ih₃ =>
    refine ((((attempt_opening s hblocks).trans ih₁).trans ih₂).trans ih₃).mono ?_
    rintro v marked ⟨⟨⟨hmarks, hcode₁⟩, hcode₂⟩, hcode₃⟩ hstart
    obtain ⟨hentered, hguarded, hcaught, hcleaned, _⟩ :=
      attempt_rooted horderly hstart.1 hblocks hjump hmarks
    exact ⟨((hentered.trans ⟨(hcode₁ hguarded).1.value, (hcode₁ hguarded).1.sees⟩).trans
      (hcode₂ hcaught).1).trans (hcode₃ hcleaned).1, .none⟩

inductive Plan.Marked (plan : Plan) (params : Nat) (parent : BlockId → Spot) (v : ValueId) :
    BlockId → Prop where
  | param : v < params → plan.Marked params parent v 0
  | marked {b} :
    0 < b → plan.Marked params parent v (parent b).block → plan.Marked params parent v b
  | written {b i ins} : 0 < b → i < (parent b).index →
    (plan.code (parent b).block)[i]? = some ins → v ∈ ins.writes → plan.Marked params parent v b

theorem Plan.marked_iff {params : Nat} {parent : BlockId → Spot} {b : BlockId} (hb : 0 < b)
    : plan.Marked params parent v b ↔
        plan.Has v (plan.Marked params parent v) (parent b).block (parent b).index := by
  constructor
  . intro h
    cases h with
    | param => exact absurd hb (Nat.lt_irrefl _)
    | marked _ h => exact .inl h
    | written _ hi hins hv => exact .inr ⟨_, _, hi, hins, hv⟩
  . rintro (h | ⟨i, ins, hi, hins, hv⟩)
    . exact .marked hb h
    . exact .written hb hi hins hv

theorem Graph.Coded.sees {source : Form} {graph : Graph} (h : graph.Coded options source plan)
    (v : ValueId)
    : ∃ marked : BlockId → Prop, (marked 0 → v < options.params.length) ∧
        ∀ {b : BlockId} {i : Nat} {ins : Instruction}, (plan.code b)[i]? = some ins →
          plan.Sees v marked b i ins := by
  obtain ⟨t, hcode, hbound, _⟩ := h.main
  obtain ⟨_, parent, hfounded⟩ := hcode.founded h.toOrderly
  refine ⟨plan.Marked options.params.length parent v, ?_, ?_⟩
  . intro hmarked
    cases hmarked with
    | param hv => exact hv
    | marked hpos => exact absurd hpos (Nat.lt_irrefl _)
    | written hpos => exact absurd hpos (Nat.lt_irrefl _)
  . intro b i ins hins
    have hamid : plan.Amid v (plan.Marked options.params.length parent v)
        (.ofParams options.params) (.start options.params) := by
      constructor
      . intro hv
        rw [Scope.ofParams, Scope.binds_bindAll] at hv
        rcases hv with hv | hv
        . obtain ⟨pair, hpair, rfl⟩ := List.mem_map.1 hv
          have := List.mem_range'_1.1 (List.of_mem_zip hpair).2
          exact .inl (.param (by lia))
        . cases hv
      . intro point hpoint
        simp [Scope.ofParams, Scope.bindAll] at hpoint
    obtain ⟨hrooted, _⟩ := hfounded v _ (fun b hlow _ => marked_iff hlow)
      ⟨hamid, trivial, by simp [Shape.ids]⟩
    exact hrooted.sees hins (hbound hins).1 (hbound hins).2

end Resumable
