import Resumable.Proofs.Lowering.Comprised
import Resumable.Proofs.Lowering.Founded

/-!
This module contains the pairing between the places that hand a value over and the blocks that it is
handed over to: nothing but the first instruction of a block reads the pending value, and every way
into such a block puts a value there before.

It is known of every block how control gets there from the moment on that it is opened, which may be
long before it is filled. So the pairing is checked instruction by instruction against what has been
allotted to the blocks, and no two stretches of code have to agree on anything else.
-/

namespace Resumable

inductive Arrival where
  | bare
  | handed
  | resumed (id : ValueId)
  | caught (id : ValueId)

namespace Plan

def Admits (plan : Plan) (arrival : BlockId → Arrival) (target : BlockId) (ins : Instruction) :
    Prop :=
  match ins.command with
  | .effect _ =>
    arrival target = .bare ∨ arrival target = .handed ∧ (plan.label target).role = .cleanup
  | .transfer (.jump (some _) _) => arrival target = .handed
  | .transfer (.dispatch clauses) =>
    arrival target = .caught ins.id ∧ (clauses.map (·.1)).Nodup
  | .transfer (.suspend _ _ _) => arrival target = .resumed ins.id
  | .transfer _ => arrival target = .bare

structure Quiet (plan : Plan) (arrival : BlockId → Arrival) (ins : Instruction) : Prop where
  reads : .pending ∉ ins.operands
  targets : ∀ target ∈ ins.targets, plan.Admits arrival target ins

inductive Hands (plan : Plan) (arrival : BlockId → Arrival) (b : BlockId) (i : Nat)
    (ins : Instruction) : Prop where
  | receive :
    i = 0 → arrival b ≠ .bare → ins.command = .receive → Hands plan arrival b i ins
  | quiet :
    (i = 0 → arrival b = .bare) → plan.Quiet arrival ins → Hands plan arrival b i ins

def Arises (plan : Plan) (b : BlockId) : Arrival → Prop
  | .bare | .handed => True
  | .resumed id => ∃ (c : BlockId) (i : Nat) (ins : Instruction) (handler : String)
      (args : List Operand), (plan.code c)[i]? = some ins ∧ ins.id = id ∧
        ins.command = .transfer (.suspend handler b args)
  | .caught id => ∃ (c : BlockId) (i : Nat) (ins : Instruction)
      (clauses : List (BlockId × CatchType)), (plan.code c)[i]? = some ins ∧ ins.id = id ∧
        ins.command = .transfer (.dispatch clauses) ∧ b ∈ clauses.map (·.1)

def Allots (plan : Plan) (low high : BlockId) (P : (BlockId → Arrival) → Prop) : Prop :=
  low ≤ high ∧ ∃ allotted : BlockId → Arrival,
    (∀ b, low ≤ b → b < high → plan.Arises b (allotted b)) ∧
      ∀ arrival, (∀ b, low ≤ b → b < high → arrival b = allotted b) → P arrival

def Proceeds (arrival : BlockId → Arrival) (s : Spot) : Prop :=
  s.index = 0 → arrival s.block = .bare

variable {plan : Plan} {arrival : BlockId → Arrival} {s : Spot}

namespace Admits

variable {target : BlockId} {ins : Instruction}

theorem handed (h : plan.Admits arrival target ins) (htarget : target ∈ ins.targets)
    (harrival : arrival target = .handed)
    : (∃ value, ins.command = .handOver value target) ∨
        (plan.label target).role = .cleanup ∧ ins.command = .effect (.pushHandler target) := by
  unfold Admits at h
  unfold Instruction.targets at htarget
  split at h
  case h_1 e hcommand =>
    cases e with
    | pushHandler b =>
      simp only [hcommand, List.mem_singleton] at htarget
      subst htarget
      rcases h with h | h
      . rw [harrival] at h
        cases h
      . exact .inr ⟨h.2, hcommand⟩
    | _ => simp [hcommand] at htarget
  case h_2 value b hcommand =>
    simp only [hcommand, Transfer.references, List.mem_singleton] at htarget
    subst htarget
    exact .inl ⟨value, hcommand⟩
  all_goals simp [harrival] at h

theorem resumed {id : ValueId} (h : plan.Admits arrival target ins)
    (harrival : arrival target = .resumed id)
    : ins.id = id := by
  unfold Admits at h
  split at h <;> simp_all

theorem caught {id : ValueId} (h : plan.Admits arrival target ins)
    (harrival : arrival target = .caught id)
    : ins.id = id ∧ ∀ clauses, ins.command = .transfer (.dispatch clauses) →
        (clauses.map (·.1)).Nodup := by
  unfold Admits at h
  split at h <;> simp_all

end Admits

namespace Allots

variable {low mid high : BlockId} {P Q : (BlockId → Arrival) → Prop}

theorem refl (h : ∀ arrival, P arrival) : plan.Allots low low P := by
  refine ⟨Nat.le_refl _, fun _ => .bare, fun _ _ _ => trivial, fun arrival _ => h arrival⟩

theorem mono (h : plan.Allots low high P) (hPQ : ∀ arrival, P arrival → Q arrival)
    : plan.Allots low high Q := by
  obtain ⟨hle, allotted, harises, hallotted⟩ := h
  exact ⟨hle, allotted, harises, fun arrival hsame => hPQ arrival (hallotted arrival hsame)⟩

theorem trans (h : plan.Allots low mid P) (h' : plan.Allots mid high Q)
    : plan.Allots low high fun arrival => P arrival ∧ Q arrival := by
  obtain ⟨hle, allotted, harises, hallotted⟩ := h
  obtain ⟨hle', allotted', harises', hallotted'⟩ := h'
  refine ⟨Nat.le_trans hle hle', fun b => if b < mid then allotted b else allotted' b, ?_, ?_⟩
  . intro b hlow hhigh
    by_cases hb : b < mid
    . simpa only [if_pos hb] using harises b hlow hb
    . simpa only [if_neg hb] using harises' b (Nat.not_lt.1 hb) hhigh
  . intro arrival hsame
    constructor
    . apply hallotted
      intro b hlow hhigh
      simpa only [if_pos hhigh] using hsame b hlow (Nat.lt_of_lt_of_le hhigh hle')
    . apply hallotted'
      intro b hlow hhigh
      simpa only [if_neg (Nat.not_lt.2 hlow)] using hsame b (Nat.le_trans hle hlow) hhigh

theorem opening (low count : Nat) (allotted : BlockId → Arrival)
    (harises : ∀ b, low ≤ b → b < low + count → plan.Arises b (allotted b))
    : plan.Allots low (low + count) fun arrival =>
        ∀ b, low ≤ b → b < low + count → arrival b = allotted b :=
  ⟨Nat.le_add_right _ _, allotted, harises, fun _ hsame => hsame⟩

theorem one (low : BlockId) (allotted : Arrival) (harises : plan.Arises low allotted)
    : plan.Allots low (low + 1) fun arrival => arrival low = allotted := by
  refine (opening low 1 (fun _ => allotted) ?_).mono ?_
  . intro b hlow hhigh
    obtain rfl : b = low := Nat.le_antisymm (Nat.le_of_lt_succ hhigh) hlow
    exact harises
  . exact fun arrival hsame => hsame low (Nat.le_refl _) (Nat.lt_succ_self _)

end Allots

theorem Proceeds.skip {count : Nat} (h : 0 < count) : Proceeds arrival (s.skip count) := by
  intro hindex
  change s.index + count = 0 at hindex
  lia

theorem Proceeds.skipAny (h : Proceeds arrival s) (count : Nat)
    : Proceeds arrival (s.skip count) := by
  intro hindex
  change s.index + count = 0 at hindex
  exact h (by lia)

theorem Proceeds.goTo {b : BlockId} (h : arrival b = .bare) : Proceeds arrival (s.goTo b) :=
  fun _ => h

namespace Hands

theorem one {command : Command} (horderly : Orderly plan.code) (hholds : plan.Holds s [command])
    (hproceeds : Proceeds arrival s)
    (hquiet : ∀ span, plan.Quiet arrival ⟨s.value, command, span⟩)
    : plan.Between (plan.Hands arrival) s.value (s.value + 1) :=
  .one horderly hholds fun span => .quiet hproceeds (hquiet span)

theorem effect {e : Effect} (horderly : Orderly plan.code) (hholds : plan.Holds s [.effect e])
    (hproceeds : Proceeds arrival s) (hreads : .pending ∉ e.operands)
    (hpush : ∀ b, e ≠ .pushHandler b)
    : plan.Between (plan.Hands arrival) s.value (s.value + 1) := by
  refine one horderly hholds hproceeds fun span => ⟨hreads, ?_⟩
  intro target htarget
  cases e with
  | pushHandler block => exact absurd rfl (hpush block)
  | _ => cases htarget

theorem received (horderly : Orderly plan.code) (hholds : plan.Holds s [.receive])
    (hindex : s.index = 0) (harrival : arrival s.block ≠ .bare)
    : plan.Between (plan.Hands arrival) s.value (s.value + 1) :=
  .one horderly hholds fun _ => .receive hindex harrival rfl

theorem effects {α : Type} {items : List α} {f : α → Effect} (horderly : Orderly plan.code)
    (hholds : plan.Holds s (items.map fun item => .effect (f item)))
    (hproceeds : Proceeds arrival s)
    (hquiet : ∀ item ∈ items, ∀ id span, plan.Quiet arrival ⟨id, .effect (f item), span⟩)
    : plan.Between (plan.Hands arrival) s.value (s.value + items.length) := by
  induction items generalizing s with
  | nil => exact .refl _
  | cons item items ih =>
    rw [List.forall_mem_cons] at hquiet
    have hfirst := one horderly ⟨hholds.1, trivial⟩ hproceeds fun span => hquiet.1 _ span
    have hrest := ih hholds.2 (Proceeds.skip (Nat.lt_succ_self 0)) hquiet.2
    have hlength : s.value + (item :: items).length = (s.skip 1).value + items.length := by
      simp only [Spot.skip, List.length_cons]
      lia
    rw [hlength]
    exact hfirst.trans hrest

end Hands

end Plan

open Plan

variable {options : CompileOptions} {plan : Plan} {handlers : List BlockId} {scope : Scope}
  {arrival : BlockId → Arrival} {s t u : Spot} {r : Option (List Operand)}

theorem Code.pending_not_mem {part : Part} {operands : List Operand}
    (h : Code options plan handlers scope s part (some operands) t)
    (hsound : Place.Sound ⟨handlers, scope, s, part⟩)
    : .pending ∉ operands :=
  fun hmem => h.operands_below hsound.sorted hsound.starts .pending hmem

theorem Code.ne_pending {part : Part} {operand : Operand}
    (h : Code options plan handlers scope s part (some [operand]) t)
    (hsound : Place.Sound ⟨handlers, scope, s, part⟩)
    : .pending ≠ operand :=
  fun heq => h.pending_not_mem hsound (List.mem_singleton.2 heq)

def Part.Allotted (plan : Plan) (arrival : BlockId → Arrival) (s : Spot) : Part → Prop
  | .form _ | .operands _ | .body _ _ | .bindings _ _ => Proceeds arrival s
  | .shape whole => Proceeds arrival s ∧ whole.Proper
  | .arms meet entries _ => arrival meet = .handed ∧ ∀ b ∈ entries.map (·.2), arrival b = .bare
  | .guarded blocks _ _ =>
    arrival blocks.entry = .bare ∧ arrival blocks.after = .handed ∧ ∀ b ∈ blocks.handlers,
      arrival b = .bare ∨ arrival b = .handed ∧ (plan.label b).role = .cleanup
  | .catching blocks _ _ =>
    arrival blocks.after = .handed ∧ ∀ b ∈ blocks.dispatch, arrival b = .bare
  | .clauses after entries _ =>
    arrival after = .handed ∧ ∀ b ∈ entries.map (·.2), arrival b ≠ .bare
  | .cleanup blocks _ _ =>
    arrival blocks.exit = .handed ∧ ∀ b ∈ blocks.cleanup, arrival b = .handed

/--
Whether the code from one place to another hands values over as it should, and goes on at a place
where it proceeds if it has a value.
-/
structure Plan.Passes (plan : Plan) (arrival : BlockId → Arrival) (s : Spot)
    (r : Option (List Operand)) (t : Spot) : Prop where
  between : plan.Between (plan.Hands arrival) s.value t.value
  proceeds : r ≠ none → Proceeds arrival t

namespace Plan.Passes

variable {operands : List Operand}

theorem stop (h : plan.Between (plan.Hands arrival) s.value t.value)
    : plan.Passes arrival s none t :=
  ⟨h, fun hne => absurd rfl hne⟩

theorem ready (h : plan.Passes arrival s (some operands) t) : Proceeds arrival t :=
  h.proceeds (Option.some_ne_none operands)

theorem of_some (h : plan.Passes arrival s (some operands) t) : plan.Passes arrival s r t :=
  ⟨h.between, fun _ => h.ready⟩

theorem after (h' : plan.Passes arrival t r u)
    (h : plan.Between (plan.Hands arrival) s.value t.value)
    : plan.Passes arrival s r u :=
  ⟨h.trans h'.between, h'.proceeds⟩

theorem trans (h : plan.Passes arrival s (some operands) t)
    (h' : Proceeds arrival t → plan.Passes arrival t r u)
    : plan.Passes arrival s r u :=
  (h' h.ready).after h.between

end Plan.Passes

theorem Job.pending_mem_effect {job : Job} {operands : List Operand}
    (h : .pending ∈ (job.effect operands).operands)
    : .pending ∈ operands := by
  unfold effect at h
  split at h
  case h_2 =>
    rcases List.mem_cons.1 h with heq | h
    . cases heq
    . exact h
  case h_3 =>
    obtain ⟨id, _, heq⟩ := List.mem_map.1 h
    cases heq
  case h_9 => cases List.mem_singleton.1 h
  all_goals exact h

theorem receive_passes {b : BlockId} (horderly : Orderly plan.code)
    (hbetween : plan.Between (plan.Hands arrival) s.value t.value)
    (hholds : plan.Holds (t.goTo b) [.receive]) (harrival : arrival b ≠ .bare)
    : plan.Passes arrival s r ((t.goTo b).skip 1) where
  between := hbetween.trans (Hands.received (s := t.goTo b) horderly hholds rfl harrival)
  proceeds _ := .skip (Nat.lt_succ_self 0)

theorem handOver_hands {operand : Operand} {b : BlockId} (horderly : Orderly plan.code)
    (hholds : plan.Holds s [.handOver operand b]) (hproceeds : Proceeds arrival s)
    (hoperand : .pending ≠ operand) (harrival : arrival b = .handed)
    : plan.Between (plan.Hands arrival) s.value (s.value + 1) := by
  refine Hands.one horderly hholds hproceeds fun span => ⟨?_, ?_⟩
  . exact fun hmem => hoperand (List.mem_singleton.1 hmem)
  . intro target htarget
    cases List.mem_singleton.1 htarget
    exact harrival

theorem jump_hands {b : BlockId} (horderly : Orderly plan.code)
    (hholds : plan.Holds s [.transfer (.jump none b)]) (hproceeds : Proceeds arrival s)
    (harrival : arrival b = .bare)
    : plan.Between (plan.Hands arrival) s.value (s.value + 1) := by
  refine Hands.one horderly hholds hproceeds fun span => ⟨List.not_mem_nil, ?_⟩
  intro target htarget
  cases List.mem_singleton.1 htarget
  exact harrival

theorem suspend_hands {handler : String} {operands : List Operand} {b : BlockId}
    (horderly : Orderly plan.code)
    (hholds : plan.Holds s [.transfer (.suspend handler b operands)])
    (hproceeds : Proceeds arrival s) (hoperands : .pending ∉ operands)
    (harrival : arrival b = .resumed s.value)
    : plan.Between (plan.Hands arrival) s.value (s.value + 1) := by
  refine Hands.one horderly hholds hproceeds fun span => ⟨hoperands, ?_⟩
  intro target htarget
  cases List.mem_singleton.1 htarget
  exact harrival

theorem Plan.arises_resumed {handler : String} {operands : List Operand} {b : BlockId}
    (hholds : plan.Holds s [.transfer (.suspend handler b operands)])
    : plan.Arises b (.resumed s.value) := by
  obtain ⟨⟨span, hspan⟩, _⟩ := hholds
  exact ⟨_, _, _, handler, operands, hspan, rfl, rfl⟩

theorem Plan.arises_caught {clauses : List (BlockId × CatchType)} {b : BlockId}
    (hholds : plan.Holds s [.transfer (.dispatch clauses)]) (hb : b ∈ clauses.map (·.1))
    : plan.Arises b (.caught s.value) := by
  obtain ⟨⟨span, hspan⟩, _⟩ := hholds
  exact ⟨_, _, _, clauses, hspan, rfl, rfl, hb⟩

theorem loopEntry_hands {operands : List Operand} {b : BlockId} (horderly : Orderly plan.code)
    (hholds : plan.Holds s (operands.map (fun operand => .effect (.const operand)) ++
      [.transfer (.jump none b)]))
    (hproceeds : Proceeds arrival s) (hoperands : .pending ∉ operands)
    (harrival : arrival b = .bare)
    : plan.Between (plan.Hands arrival) s.value (s.value + (operands.length + 1)) := by
  rw [holds_append, List.length_map] at hholds
  have hcopied : plan.Between (plan.Hands arrival) s.value (s.value + operands.length) := by
    refine Hands.effects horderly hholds.1 hproceeds fun operand hmem id span => ⟨?_, ?_⟩
    . intro heq
      cases List.mem_singleton.1 heq
      exact hoperands hmem
    . exact fun _ htarget => (List.not_mem_nil htarget).elim
  exact hcopied.trans
    (jump_hands horderly hholds.2 (hproceeds.skipAny operands.length) harrival)

theorem loop_passes {operands : List Operand} {point : LoopPoint} (horderly : Orderly plan.code)
    (hpassed : plan.Passes arrival s (some operands) t) (hoperands : .pending ∉ operands)
    (hholds : plan.Holds t (operands.map (fun operand => .effect (.const operand)) ++
      [.transfer (.jump none t.fresh)]))
    (hpoint : point.header = t.fresh) (hheader : arrival t.fresh = .bare)
    (hloops : ∀ point ∈ scope.loops, arrival point.header = .bare)
    (hbody : (∀ outer ∈ point :: scope.loops, arrival outer.header = .bare) →
      Proceeds arrival (((t.opened 1).skip (operands.length + 1)).goTo t.fresh) →
        plan.Passes arrival (((t.opened 1).skip (operands.length + 1)).goTo t.fresh) r u)
    : plan.Passes arrival s r u := by
  have hentered := loopEntry_hands horderly hholds hpassed.ready hoperands hheader
  have hpassed' := hbody (List.forall_mem_cons.2 ⟨by rw [hpoint, hheader], hloops⟩) (.goTo hheader)
  exact hpassed'.after (hpassed.between.trans hentered)

theorem select_allots (s : Spot) (count : Nat)
    : plan.Allots s.fresh (s.fresh + (count + 1)) fun arrival =>
        arrival (s.fresh + count) = .handed ∧
          ∀ b ∈ List.range' s.fresh count, arrival b = .bare := by
  refine (Allots.opening s.fresh _
    (fun b => if b = s.fresh + count then .handed else .bare) ?_).mono ?_
  . intro b _ _
    split <;> trivial
  . intro arrival hsame
    constructor
    . rw [hsame _ (by lia) (by lia), if_pos rfl]
    . intro b hb
      have := List.mem_range'_1.1 hb
      rw [hsame b (by lia) (by lia), if_neg (by lia)]

theorem branch_hands {choice : Choice} {operand : Operand} {blocks : List BlockId}
    (horderly : Orderly plan.code)
    (hholds : plan.Holds s [.transfer (choice.transfer operand blocks)])
    (hproceeds : Proceeds arrival s) (hoperand : .pending ≠ operand)
    (hproper : choice = .test → blocks.length = 2) (hblocks : ∀ b ∈ blocks, arrival b = .bare)
    : plan.Between (plan.Hands arrival) s.value (s.value + 1) := by
  refine Hands.one horderly hholds hproceeds fun span => ⟨?_, ?_⟩
  . intro hmem
    have hmem' : .pending ∈ (choice.transfer operand blocks).operands := hmem
    rw [Choice.transfer_operands] at hmem'
    exact hoperand (List.mem_singleton.1 hmem')
  . intro target htarget
    have hbare := hblocks target (Choice.transfer_references hproper htarget)
    cases choice <;> exact hbare

theorem select_hands {choice : Choice} {value : Form} {arms : List (Option Form)}
    {operand : Operand} {live : Bool} (horderly : Orderly plan.code)
    (hpassed : plan.Passes arrival s (some [operand]) t) (hoperand : .pending ≠ operand)
    (hproper : (Shape.select choice value arms).Proper)
    (hholds : plan.Holds t [.transfer (choice.transfer operand (.range' t.fresh arms.length))])
    (hopened : arrival (t.fresh + arms.length) = .handed ∧
      ∀ b ∈ List.range' t.fresh arms.length, arrival b = .bare)
    (harms : (Part.arms (t.fresh + arms.length) (arms.zip (.range' t.fresh arms.length))
        live).Allotted plan arrival ((t.opened (arms.length + 1)).skip 1) →
      plan.Passes arrival ((t.opened (arms.length + 1)).skip 1) none u)
    : plan.Between (plan.Hands arrival) s.value u.value := by
  have hbranched := branch_hands horderly hholds hpassed.ready hoperand
    (fun heq => by simpa [heq, Shape.Proper] using hproper) hopened.2
  have hpassed' := harms ⟨hopened.1, by
    rw [List.map_snd_zip (by simp)]
    exact hopened.2⟩
  exact (hpassed.between.trans hbranched).trans hpassed'.between

theorem attempt_allots {parts : TryParts} {blocks : TryBlocks} (s : Spot)
    (hblocks : blocks = .number s.fresh parts)
    : plan.Allots s.fresh (blocks.exit + 1) fun arrival =>
        arrival blocks.entry = .bare ∧ arrival blocks.exit = .handed ∧
          arrival blocks.after = .handed ∧ (∀ b ∈ blocks.cleanup, arrival b = .handed) ∧
            ∀ b ∈ blocks.dispatch, arrival b = .bare := by
  have hcount := TryBlocks.number_exit s.fresh parts
  have hafter := TryBlocks.number_after s.fresh parts
  have hcleanups := TryBlocks.number_cleanup_bounds s.fresh parts
  have hdispatches := TryBlocks.number_dispatch_bounds s.fresh parts
  have hfirst : blocks.entry = s.fresh := by rw [hblocks]; rfl
  rw [← hblocks] at hcount hafter hcleanups hdispatches
  rw [hcount]
  refine (Allots.opening s.fresh _ (fun b =>
    if b = blocks.exit ∨ b ∈ blocks.cleanup then .handed else .bare) ?_).mono ?_
  . intro b _ _
    split <;> trivial
  . intro arrival hsame
    have hexit : arrival blocks.exit = .handed := by
      rw [hsame _ (by lia) (by lia), if_pos (.inl rfl)]
    have hcleanup : ∀ b ∈ blocks.cleanup, arrival b = .handed := by
      intro b hb
      have := hcleanups b hb
      rw [hsame b (by lia) (by lia), if_pos (.inr hb)]
    refine ⟨?_, hexit, ?_, hcleanup, ?_⟩
    . rw [hsame _ (by lia) (by lia), if_neg]
      rintro (heq | hmem)
      . lia
      . have := hcleanups _ hmem
        lia
    . unfold TryBlocks.after
      cases hnone : blocks.cleanup with
      | none => exact hexit
      | some b => exact hcleanup b hnone
    . intro b hb
      have := hdispatches b hb
      rw [hsame b (by lia) (by lia), if_neg]
      rintro (heq | hmem)
      . lia
      . have := (hcleanups _ hmem).2.2 b hb
        lia

theorem guarded_hands {blocks : TryBlocks} (horderly : Orderly plan.code)
    (hholds : plan.Holds (s.goTo blocks.entry)
      (blocks.handlers.reverse.map (.effect <| .pushHandler ·)))
    (hentry : arrival blocks.entry = .bare)
    (hhandlers : ∀ b ∈ blocks.handlers,
      arrival b = .bare ∨ arrival b = .handed ∧ (plan.label b).role = .cleanup)
    : plan.Between (plan.Hands arrival) s.value (s.value + blocks.handlers.length) := by
  rw [← List.length_reverse]
  refine Hands.effects (s := s.goTo blocks.entry) (f := Effect.pushHandler) horderly hholds
    (.goTo hentry) fun block hblock id span => ⟨List.not_mem_nil, ?_⟩
  intro target htarget
  cases List.mem_singleton.1 htarget
  exact hhandlers _ (List.mem_reverse.1 hblock)

theorem finally_hands {b : BlockId} (horderly : Orderly plan.code)
    (hholds : plan.Holds (s.goTo b) [.receive, .effect .takeException, .effect (.popHandler b)])
    (harrival : arrival b = .handed)
    : plan.Between (plan.Hands arrival) s.value (s.value + 3) := by
  have hne : arrival (s.goTo b).block ≠ .bare := by
    change arrival b ≠ .bare
    simp [harrival]
  have hreceived := Hands.received horderly ⟨hholds.1, trivial⟩ rfl hne
  have htaken : plan.Between (plan.Hands arrival) (s.value + 1) (s.value + 2) :=
    Hands.effect (s := (s.goTo b).skip 1) horderly ⟨hholds.2.1, trivial⟩ (.skip (by simp))
      List.not_mem_nil (by simp)
  have hpopped : plan.Between (plan.Hands arrival) (s.value + 2) (s.value + 3) :=
    Hands.effect (s := ((s.goTo b).skip 1).skip 1) horderly hholds.2.2 (.skip (by simp))
      List.not_mem_nil (by simp)
  exact (hreceived.trans htaken).trans hpopped

theorem finish_hands {operand : Operand} (horderly : Orderly plan.code)
    (hholds : plan.Holds s [.transfer (.finish operand)]) (hproceeds : Proceeds arrival s)
    (hoperand : .pending ≠ operand)
    : plan.Between (plan.Hands arrival) s.value (s.value + 1) := by
  refine Hands.one horderly hholds hproceeds fun span => ⟨?_, ?_⟩
  . exact fun hmem => hoperand (List.mem_singleton.1 hmem)
  . exact fun _ htarget => (List.not_mem_nil htarget).elim

theorem proceeds_guarded {blocks : TryBlocks} (hentry : arrival blocks.entry = .bare) {count : Nat}
    : Proceeds arrival ((s.goTo blocks.entry).skip count) :=
  fun _ => hentry

theorem pops_hands {items : List BlockId} {operand : Operand} {b : BlockId}
    (horderly : Orderly plan.code)
    (hholds : plan.Holds s (items.map (.effect <| .popHandler ·) ++ [.handOver operand b]))
    (hproceeds : Proceeds arrival s) (hoperand : .pending ≠ operand)
    (harrival : arrival b = .handed)
    : plan.Between (plan.Hands arrival) s.value (s.value + (items.length + 1)) := by
  rw [holds_append, List.length_map] at hholds
  have hpopped := Hands.effects (f := Effect.popHandler) horderly hholds.1 hproceeds
    fun block _ id span => ⟨List.not_mem_nil, fun _ htarget => (List.not_mem_nil htarget).elim⟩
  exact hpopped.trans
    (handOver_hands horderly hholds.2 (hproceeds.skipAny items.length) hoperand harrival)

theorem clauses_allots {low count : Nat} {types : List CatchType} (hlength : types.length = count)
    (hholds : plan.Holds s [.transfer (.dispatch ((List.range' low count).zip types))])
    : plan.Allots low (low + count) fun arrival =>
        ∀ b ∈ List.range' low count, arrival b = .caught s.value := by
  refine (Allots.opening low count (fun _ => .caught s.value) ?_).mono ?_
  . intro b hlow hhigh
    refine arises_caught hholds ?_
    rw [List.map_fst_zip (by simp [hlength])]
    exact List.mem_range'_1.2 ⟨hlow, hhigh⟩
  . intro arrival hsame b hb
    have := List.mem_range'_1.1 hb
    exact hsame b this.1 this.2

theorem dispatch_hands {dispatch low count : Nat} {types : List CatchType}
    (hlength : types.length = count) (horderly : Orderly plan.code)
    (hholds : plan.Holds (s.goTo dispatch) [.effect (.popHandler dispatch),
      .transfer (.dispatch ((List.range' low count).zip types))])
    (hbare : arrival dispatch = .bare)
    (hcaught : ∀ b ∈ List.range' low count, arrival b = .caught (s.value + 1))
    : plan.Between (plan.Hands arrival) s.value (s.value + 2) := by
  have hpopped : plan.Between (plan.Hands arrival) s.value (s.value + 1) :=
    Hands.effect (s := s.goTo dispatch) horderly ⟨hholds.1, trivial⟩ (.goTo hbare)
      List.not_mem_nil (by simp)
  have hpicked : plan.Between (plan.Hands arrival) (s.value + 1) (s.value + 2) := by
    refine Hands.one (s := (s.goTo dispatch).skip 1) horderly hholds.2
      (.skip (Nat.lt_succ_self 0)) fun span => ⟨List.not_mem_nil, ?_⟩
    intro target htarget
    have hblocks : ((List.range' low count).zip types).map (·.1) = List.range' low count :=
      List.map_fst_zip (by simp [hlength])
    have htarget' : target ∈ ((List.range' low count).zip types).map (·.1) := htarget
    rw [hblocks] at htarget'
    refine ⟨hcaught target htarget', ?_⟩
    rw [hblocks]
    exact List.nodup_range'
  exact hpopped.trans hpicked

theorem attempt_hands {parts : TryParts} {blocks : TryBlocks} {live₁ live₂ live₃ : Bool}
    {t₁ t₂ t₃ : Spot} (horderly : Orderly plan.code)
    (hjump : plan.Holds s [.transfer (.jump none blocks.entry)]) (hproceeds : Proceeds arrival s)
    (hopened : arrival blocks.entry = .bare ∧ arrival blocks.exit = .handed ∧
      arrival blocks.after = .handed ∧ (∀ b ∈ blocks.cleanup, arrival b = .handed) ∧
        ∀ b ∈ blocks.dispatch, arrival b = .bare)
    (hcleanup : ∀ b ∈ blocks.cleanup, plan.label b = ⟨handlers, .cleanup, b :: scope.finallys⟩)
    (hguarded : (Part.guarded blocks parts.body live₁).Allotted plan arrival
        { s.skip 1 with fresh := blocks.exit + 1 } →
      plan.Passes arrival { s.skip 1 with fresh := blocks.exit + 1 } none t₁)
    (hcatching : (Part.catching blocks parts.catches live₂).Allotted plan arrival t₁ →
      plan.Passes arrival t₁ none t₂)
    (hcleaned : (Part.cleanup blocks parts.cleanup live₃).Allotted plan arrival t₂ →
      plan.Passes arrival t₂ none t₃)
    : plan.Between (plan.Hands arrival) s.value t₃.value := by
  obtain ⟨hentry, hexit, hafter, hcleanups, hdispatches⟩ := hopened
  have hentered := jump_hands horderly hjump hproceeds hentry
  have hbody := hguarded ⟨hentry, hafter, fun b hb => by
    rcases List.mem_append.1 hb with hb | hb
    . exact .inl (hdispatches b (Option.mem_toList.1 hb))
    . have hmem := Option.mem_toList.1 hb
      exact .inr ⟨hcleanups b hmem, by rw [hcleanup b hmem]⟩⟩
  have hcaught := hcatching ⟨hafter, hdispatches⟩
  have hdone := hcleaned ⟨hexit, hcleanups⟩
  exact ((hentered.trans hbody.between).trans hcaught.between).trans hdone.between

theorem Code.allots {part : Part} (horderly : Orderly plan.code)
    (h : Code options plan handlers scope s part r t)
    (hsound : Place.Sound ⟨handlers, scope, s, part⟩)
    : plan.Allots s.fresh t.fresh fun arrival =>
        (∀ point ∈ scope.loops, arrival point.header = .bare) → part.Allotted plan arrival s →
          plan.Passes arrival s r t := by
  have hstep : ∀ {p q : Place}, p.Sound → Contains options plan p q → q.Sound :=
    fun hp hcontains => hcontains.sound hp
  induction h with
  | form hexpand hreads _ ih =>
    refine (ih (hstep hsound (.form hexpand hreads))).mono ?_
    exact fun arrival hcode hloops hstart => hcode hloops ⟨hstart, hreads.ids.2⟩
  | value =>
    exact .refl fun arrival _ hstart => ⟨.refl _, fun _ => hstart.1⟩
  | operandsNil | bodyNil =>
    exact .refl fun arrival _ hstart => ⟨.refl _, fun _ => hstart⟩
  | armsNil | catchingNone | clausesNil | cleanupNone =>
    exact .refl fun arrival _ _ => .stop (.refl _)
  | @perform handlers scope s t job items operands hoperands hholds ih =>
    have hitems := hstep hsound (.first rfl)
    refine (ih hitems).mono fun arrival hcode hloops hstart => ?_
    have hpassed := hcode hloops hstart.1
    have hdone : plan.Between (plan.Hands arrival) t.value (t.value + 1) := by
      refine Hands.effect horderly hholds hpassed.ready ?_ ?_
      . exact fun hmem => hoperands.pending_not_mem hitems (Job.pending_mem_effect hmem)
      . exact Job.effect_ne_pushHandler job operands
    exact ⟨hpassed.between.trans hdone, fun _ => .skip (Nat.lt_succ_self 0)⟩
  | performStop _ ih | selectStop _ ih | loopStop _ ih | recurStop _ ih | suspendStop _ ih
  | finishStop _ ih | body _ ih | bind _ ih =>
    refine (ih (hstep hsound (.first rfl))).mono ?_
    exact fun arrival hcode hloops hstart => hcode hloops hstart.1
  | operandsStop _ ih | bodyStop _ ih | bindingsNil _ ih | bindingsStop _ ih =>
    exact ih (hstep hsound (.first rfl))
  | operandsCons hform _ ih ihRest =>
    refine ((ih (hstep hsound (.first rfl))).trans
      (ihRest (hstep hsound (.operands hform)))).mono ?_
    rintro arrival ⟨hcode, hrest⟩ hloops hstart
    exact ((hcode hloops hstart).trans (hrest hloops)).of_some
  | operandsStopLater hform _ ih ihRest =>
    refine ((ih (hstep hsound (.first rfl))).trans
      (ihRest (hstep hsound (.operands hform)))).mono ?_
    rintro arrival ⟨hcode, hrest⟩ hloops hstart
    exact (hcode hloops hstart).trans (hrest hloops)
  | bodyCons hform _ ih ihRest =>
    refine ((ih (hstep hsound (.first rfl))).trans
      (ihRest (hstep hsound (.body hform)))).mono ?_
    rintro arrival ⟨hcode, hrest⟩ hloops hstart
    exact (hcode hloops hstart).trans (hrest hloops)
  | bindingsCopy hinit hholds _ ih ihRest =>
    have hvalue := hstep hsound (.first rfl)
    refine ((ih hvalue).trans (ihRest (hstep hsound (.bindingsCopy hinit hholds)))).mono ?_
    rintro arrival ⟨hcode, hrest⟩ hloops hstart
    have hpassed := hcode hloops hstart
    have hcopied := Hands.effect horderly hholds hpassed.ready
      (fun hmem => hinit.ne_pending hvalue (List.mem_singleton.1 hmem)) (by simp)
    have hpassed' := hrest hloops (.skip (Nat.lt_succ_self 0))
    exact hpassed'.after (hpassed.between.trans hcopied)
  | bindingsKeep hinit hnew _ ih ihRest =>
    refine ((ih (hstep hsound (.first rfl))).trans
      (ihRest (hstep hsound (.bindingsKeep hinit hnew)))).mono ?_
    rintro arrival ⟨hcode, hrest⟩ hloops hstart
    exact (hcode hloops hstart).trans (hrest hloops)
  | @select handlers scope s t u choice value arms operand hvalue _ hholds _ hreceive ih ihArms =>
    have hpicked := hstep hsound (.first rfl)
    refine (((ih hpicked).trans (select_allots t arms.length)).trans
      (ihArms (hstep hsound (.arms hvalue)))).mono ?_
    rintro arrival ⟨⟨hcode, hopened⟩, harms⟩ hloops hstart
    have hmet := select_hands horderly (hcode hloops hstart.1) (hvalue.ne_pending hpicked) hstart.2
      hholds hopened (harms hloops)
    exact receive_passes horderly hmet hreceive (by simp [hopened.1])
  | @selectDead handlers scope s t u choice value arms operand hvalue _ hholds _ ih ihArms =>
    have hpicked := hstep hsound (.first rfl)
    refine (((ih hpicked).trans (select_allots t arms.length)).trans
      (ihArms (hstep hsound (.arms hvalue)))).mono ?_
    rintro arrival ⟨⟨hcode, hopened⟩, harms⟩ hloops hstart
    exact .stop (select_hands horderly (hcode hloops hstart.1) (hvalue.ne_pending hpicked) hstart.2
      hholds hopened (harms hloops))
  | @loop handlers scope s t u pairs forms operands operand point hoperands _ hholds hpoint hbody _
      hjump hreceive ih ihBody =>
    have hitems := hstep hsound (.first rfl)
    have hinner := hstep hsound (.loop hoperands hpoint)
    refine ((((ih hitems).trans (.one t.fresh .bare trivial)).trans (ihBody hinner)).trans
      (.one u.fresh .handed trivial)).mono ?_
    rintro arrival ⟨⟨⟨hcode, hheader⟩, hrest⟩, hmeet⟩ hloops hstart
    have hpassed := loop_passes horderly (hcode hloops hstart.1)
      (hoperands.pending_not_mem hitems) hholds (by rw [hpoint]) hheader hloops hrest
    have hleft := handOver_hands horderly hjump hpassed.ready (hbody.ne_pending hinner) hmeet
    exact receive_passes horderly (hpassed.between.trans hleft) hreceive (by simp [hmeet])
  | @loopDead handlers scope s t u pairs forms operands point hoperands _ hholds hpoint _ ih
      ihBody =>
    have hitems := hstep hsound (.first rfl)
    refine (((ih hitems).trans (.one t.fresh .bare trivial)).trans
      (ihBody (hstep hsound (.loop hoperands hpoint)))).mono ?_
    rintro arrival ⟨⟨hcode, hheader⟩, hrest⟩ hloops hstart
    exact loop_passes horderly (hcode hloops hstart.1) (hoperands.pending_not_mem hitems) hholds
      (by rw [hpoint]) hheader hloops hrest
  | @recur handlers scope s t point outer args operands hpoints _ hoperands _ hholds ih =>
    have hitems := hstep hsound (.first rfl)
    refine (ih hitems).mono fun arrival hcode hloops hstart => ?_
    have hpassed := hcode hloops hstart.1
    have hset := Hands.effect horderly ⟨hholds.1, trivial⟩ hpassed.ready
      (hoperands.pending_not_mem hitems) (by simp)
    have hleft := jump_hands horderly hholds.2 (.skip (Nat.lt_succ_self 0))
      (hloops point (by simp [hpoints]))
    exact .stop ((hpassed.between.trans hset).trans hleft)
  | @suspend handlers scope s t handler args operands hoperands _ hholds hreceive ih =>
    have hitems := hstep hsound (.first rfl)
    refine ((ih hitems).trans (.one t.fresh _ (arises_resumed hholds))).mono ?_
    rintro arrival ⟨hcode, hresumed⟩ hloops hstart
    have hpassed := hcode hloops hstart.1
    have hleft := suspend_hands horderly hholds hpassed.ready
      (hoperands.pending_not_mem hitems) hresumed
    exact receive_passes horderly (hpassed.between.trans hleft) hreceive (by simp [hresumed])
  | finish hbody _ hholds ih =>
    have hforms := hstep hsound (.first rfl)
    refine (ih hforms).mono fun arrival hcode hloops hstart => ?_
    have hpassed := hcode hloops hstart.1
    have hended := finish_hands horderly hholds hpassed.ready
      (hbody.ne_pending hforms)
    exact .stop (hpassed.between.trans hended)
  | @finishBy handlers scope s t forms operand handler hbody _ _ hholds hfinish ih =>
    have hforms := hstep hsound (.first rfl)
    refine ((ih hforms).trans (.one t.fresh _ (arises_resumed hholds))).mono ?_
    rintro arrival ⟨hcode, hresumed⟩ hloops hstart
    have hpassed := hcode hloops hstart.1
    have hleft := suspend_hands horderly hholds hpassed.ready
      (hbody.pending_not_mem hforms) hresumed
    have hmet := receive_passes (t := ((t.opened 1).skip 1)) (r := none) horderly
      (hpassed.between.trans hleft) ⟨hfinish.1, trivial⟩ (by simp [hresumed])
    have hended : plan.Between (plan.Hands arrival) (t.value + 2) (t.value + 3) :=
      finish_hands horderly hfinish.2 (.skip (Nat.lt_succ_self 0)) (by simp)
    exact .stop (hmet.between.trans hended)
  | @armsLive handlers scope s t u meet block arm rest operand live _ harm hjump _ ih ihRest =>
    have hbody := hstep hsound .arm
    refine ((ih hbody).trans (ihRest (hstep hsound (.armsLive harm)))).mono ?_
    rintro arrival ⟨hcode, hrest⟩ hloops hstart
    rw [Part.Allotted, List.map_cons, List.forall_mem_cons] at hstart
    have hpassed := hcode hloops (.goTo hstart.2.1)
    have hleft := handOver_hands horderly hjump hpassed.ready
      (harm.ne_pending hbody) hstart.1
    have hpassed' := hrest hloops ⟨hstart.1, hstart.2.2⟩
    exact .stop ((hpassed.between.trans hleft).trans hpassed'.between)
  | @armsDead handlers scope s t u meet block arm rest live _ harm _ ih ihRest =>
    refine ((ih (hstep hsound .arm)).trans (ihRest (hstep hsound (.armsDead harm)))).mono ?_
    rintro arrival ⟨hcode, hrest⟩ hloops hstart
    rw [Part.Allotted, List.map_cons, List.forall_mem_cons] at hstart
    have hpassed := hcode hloops (.goTo hstart.2.1)
    have hpassed' := hrest hloops ⟨hstart.1, hstart.2.2⟩
    exact .stop (hpassed.between.trans hpassed'.between)
  | @guardedLive handlers scope s t blocks forms operand hpush hcode hpop ih =>
    have hbody := hstep hsound .guardedBody
    refine (ih hbody).mono fun arrival hcode' hloops hstart => ?_
    have hpushed := guarded_hands horderly hpush hstart.1 hstart.2.2
    have hpassed := hcode' hloops (proceeds_guarded hstart.1)
    have hleft := pops_hands horderly hpop hpassed.ready (hcode.ne_pending hbody)
      hstart.2.1
    exact .stop ((hpushed.trans hpassed.between).trans hleft)
  | @guardedDead handlers scope s t blocks forms hpush _ ih =>
    refine (ih (hstep hsound .guardedBody)).mono fun arrival hcode hloops hstart => ?_
    have hpushed := guarded_hands horderly hpush hstart.1 hstart.2.2
    have hpassed := hcode hloops (proceeds_guarded hstart.1)
    exact .stop (hpushed.trans hpassed.between)
  | @catching handlers scope s t blocks catches dispatch live hdispatch hholds _ ih =>
    refine ((clauses_allots (s := (s.goTo dispatch).skip 1) (by simp) hholds.2).trans
      (ih (hstep hsound (.clauses hdispatch)))).mono ?_
    rintro arrival ⟨hcaught, hcode⟩ hloops hstart
    have hpicked := dispatch_hands (by simp) horderly hholds (hstart.2 dispatch hdispatch) hcaught
    have hpassed := hcode hloops ⟨hstart.1, by
      rw [List.map_snd_zip (by simp)]
      intro b hb
      simp [hcaught b hb]⟩
    exact .stop (hpicked.trans hpassed.between)
  | @clausesLive handlers scope s t u after block clause rest operand live _ hreceive hclause hjump
      _ ih ihRest =>
    have hbody := hstep hsound .clause
    refine ((ih hbody).trans (ihRest (hstep hsound (.clausesLive hclause)))).mono ?_
    rintro arrival ⟨hcode, hrest⟩ hloops hstart
    rw [Part.Allotted, List.map_cons, List.forall_mem_cons] at hstart
    have hmet := Hands.received (s := s.goTo block) horderly hreceive rfl hstart.2.1
    have hpassed := hcode hloops (.skip (Nat.lt_succ_self 0))
    have hleft := handOver_hands horderly hjump hpassed.ready
      (hclause.ne_pending hbody) hstart.1
    have hpassed' := hrest hloops ⟨hstart.1, hstart.2.2⟩
    exact .stop (((hmet.trans hpassed.between).trans hleft).trans hpassed'.between)
  | @clausesDead handlers scope s t u after block clause rest live _ hreceive hclause _ ih ihRest =>
    refine ((ih (hstep hsound .clause)).trans
      (ihRest (hstep hsound (.clausesDead hclause)))).mono ?_
    rintro arrival ⟨hcode, hrest⟩ hloops hstart
    rw [Part.Allotted, List.map_cons, List.forall_mem_cons] at hstart
    have hmet := Hands.received (s := s.goTo block) horderly hreceive rfl hstart.2.1
    have hpassed := hcode hloops (.skip (Nat.lt_succ_self 0))
    have hpassed' := hrest hloops ⟨hstart.1, hstart.2.2⟩
    exact .stop ((hmet.trans hpassed.between).trans hpassed'.between)
  | @cleanupLive handlers scope s t blocks forms block operand hcleanup hholds _ hend ih =>
    refine (ih (hstep hsound (.cleanupBody hcleanup))).mono fun arrival hcode hloops hstart => ?_
    have hentered := finally_hands horderly hholds (hstart.2 block hcleanup)
    have hpassed := hcode hloops (.skip (by simp))
    have hended := Hands.effect horderly ⟨hend.1, trivial⟩ hpassed.ready
      (by simp [Effect.operands]) (by simp)
    have hleft := handOver_hands horderly hend.2 (.skip (Nat.lt_succ_self 0)) (by simp) hstart.1
    exact .stop (((hentered.trans hpassed.between).trans hended).trans hleft)
  | @cleanupDead handlers scope s t blocks forms block hcleanup hholds _ ih =>
    refine (ih (hstep hsound (.cleanupBody hcleanup))).mono fun arrival hcode hloops hstart => ?_
    have hentered := finally_hands horderly hholds (hstart.2 block hcleanup)
    have hpassed := hcode hloops (.skip (by simp))
    exact .stop (hentered.trans hpassed.between)
  | @attempt handlers scope s t₁ t₂ t₃ parts blocks live₁ live₂ live₃ hblocks _ _ hcleanup _ hjump
      hguarded hcatching _ _ hreceive ih₁ ih₂ ih₃ =>
    refine ((((attempt_allots s hblocks).trans (ih₁ (hstep hsound (.guarded hblocks)))).trans
      (ih₂ (hstep hsound (.catching hblocks hguarded)))).trans
        (ih₃ (hstep hsound (.cleanup hblocks hguarded hcatching)))).mono ?_
    rintro arrival ⟨⟨⟨hopened, hcode₁⟩, hcode₂⟩, hcode₃⟩ hloops hstart
    have htried := attempt_hands horderly hjump hstart.1 hopened hcleanup (hcode₁ hloops)
      (hcode₂ hloops) (hcode₃ hloops)
    exact receive_passes horderly htried hreceive (by simp [hopened.2.1])
  | @attemptDead handlers scope s t₁ t₂ t₃ parts blocks live₁ live₂ live₃ hblocks _ _ hcleanup _
      hjump hguarded hcatching _ _ ih₁ ih₂ ih₃ =>
    refine ((((attempt_allots s hblocks).trans (ih₁ (hstep hsound (.guarded hblocks)))).trans
      (ih₂ (hstep hsound (.catching hblocks hguarded)))).trans
        (ih₃ (hstep hsound (.cleanup hblocks hguarded hcatching)))).mono ?_
    rintro arrival ⟨⟨⟨hopened, hcode₁⟩, hcode₂⟩, hcode₃⟩ hloops hstart
    exact .stop (attempt_hands horderly hjump hstart.1 hopened hcleanup (hcode₁ hloops)
      (hcode₂ hloops) (hcode₃ hloops))

structure Plan.Pairs (plan : Plan) (arrival : BlockId → Arrival) : Prop where
  start : arrival 0 = .bare
  arises : ∀ b, plan.Arises b (arrival b)
  hands : ∀ {b : BlockId} {i : Nat} {ins : Instruction}, (plan.code b)[i]? = some ins →
    plan.Hands arrival b i ins

theorem Graph.Coded.exists_pairs {source : Form} {graph : Graph}
    (h : graph.Coded options source plan)
    : ∃ arrival, plan.Pairs arrival := by
  obtain ⟨t, hcode, hbound, _⟩ := h.main
  obtain ⟨_, allotted, harises, hallots⟩ :=
    hcode.allots h.toOrderly (Place.sound_root options source)
  let arrival : BlockId → Arrival := fun b => if 1 ≤ b ∧ b < t.fresh then allotted b else .bare
  have hpasses : plan.Passes arrival (.start options.params) none t := by
    refine hallots arrival (fun b hlow hhigh => if_pos ⟨hlow, hhigh⟩) ?_
      ⟨?_, by simp [Shape.Proper]⟩
    . simp [Scope.ofParams, Scope.bindAll]
    . exact fun _ => if_neg (by simp [Spot.start])
  refine ⟨arrival, if_neg (by simp), fun b => ?_, fun hins => ?_⟩
  . by_cases hb : 1 ≤ b ∧ b < t.fresh
    . simpa only [arrival, if_pos hb] using harises b hb.1 hb.2
    . simp only [arrival, if_neg hb, Plan.Arises]
  . exact hpasses.between.each hins (hbound hins).1 (hbound hins).2

namespace Plan.Pairs

variable {b target : BlockId} {i : Nat} {ins : Instruction}

theorem command_zero (h : plan.Pairs arrival) (hins : (plan.code b)[0]? = some ins)
    : ins.command = .receive ↔ arrival b ≠ .bare := by
  cases h.hands hins with
  | receive _ harrival hcommand => exact iff_of_true hcommand harrival
  | quiet hbare hquiet =>
    refine iff_of_false ?_ fun hne => hne (hbare rfl)
    intro hcommand
    exact hquiet.reads (by simp [Instruction.operands, hcommand, Command.receive, Effect.operands])

theorem admits (h : plan.Pairs arrival) (hins : (plan.code b)[i]? = some ins)
    (htarget : target ∈ ins.targets)
    : plan.Admits arrival target ins := by
  cases h.hands hins with
  | receive _ _ hcommand =>
    rw [Instruction.targets, hcommand] at htarget
    cases htarget
  | quiet _ hquiet => exact hquiet.targets target htarget

theorem of_pending (h : plan.Pairs arrival) (hins : (plan.code b)[i]? = some ins)
    (hreads : .pending ∈ ins.operands)
    : i = 0 ∧ ins.command = .receive := by
  cases h.hands hins with
  | receive hi _ hcommand => exact ⟨hi, hcommand⟩
  | quiet _ hquiet => exact absurd hreads hquiet.reads

end Plan.Pairs

end Resumable
