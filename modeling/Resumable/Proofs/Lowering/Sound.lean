import Resumable.Proofs.Lowering.Checked

/-!
This module contains the induction over the code of a form that checks every instruction and every
block of it, and what follows for the graph of a form.
-/

namespace Resumable

open Plan

variable {options : CompileOptions} {plan : Plan} {params : Nat} {handlers : List BlockId}
  {scope : Scope} {s t : Spot} {r : Option (List Operand)}

structure TryBlocks.Labelled (blocks : TryBlocks) (plan : Plan) (handlers : List BlockId)
    (scope : Scope) (s : Spot) : Prop where
  entry : plan.label blocks.entry = .plain handlers scope
  exit : plan.label blocks.exit = .plain handlers scope
  cleanup : ∀ b ∈ blocks.cleanup,
    plan.label b = { under := handlers, role := .cleanup, inside := b :: scope.finallys }
  dispatch : ∀ b ∈ blocks.dispatch, plan.label b =
    { under := blocks.cleanup.toList ++ handlers, role := .dispatch, inside := scope.finallys }
  opened : ∀ b ∈ blocks.handlers, b < s.fresh

namespace TryBlocks.Labelled

variable {blocks : TryBlocks}

theorem stacked (h : blocks.Labelled plan handlers scope s)
    : plan.Stacked handlers scope.finallys blocks.handlers := by
  unfold TryBlocks.handlers
  cases hcleanup : blocks.cleanup with
  | none =>
    cases hdispatch : blocks.dispatch with
    | none => trivial
    | some dispatch =>
      have hlabel := h.dispatch dispatch hdispatch
      rw [hcleanup] at hlabel
      exact ⟨.inl hlabel, trivial⟩
  | some cleanup =>
    have hguards : plan.Guards handlers scope.finallys cleanup := .inr (h.cleanup cleanup hcleanup)
    cases hdispatch : blocks.dispatch with
    | none => exact ⟨hguards, trivial⟩
    | some dispatch =>
      have hlabel := h.dispatch dispatch hdispatch
      rw [hcleanup] at hlabel
      exact ⟨.inl hlabel, hguards, trivial⟩

theorem after (h : blocks.Labelled plan handlers scope s)
    : plan.Leads handlers scope.finallys blocks.after ∧
        plan.Leads (blocks.cleanup.toList ++ handlers) scope.finallys blocks.after := by
  unfold TryBlocks.after
  cases hcleanup : blocks.cleanup with
  | none => exact ⟨.inl h.exit, .inl h.exit⟩
  | some cleanup =>
    have hlabel := h.cleanup cleanup hcleanup
    exact ⟨.inr ⟨handlers, hlabel, .inl rfl⟩, .inr ⟨handlers, hlabel, .inr rfl⟩⟩

theorem mono (h : blocks.Labelled plan handlers scope s) (hfresh : s.fresh ≤ t.fresh)
    : blocks.Labelled plan handlers scope t :=
  { h with opened := fun b hb => Nat.lt_of_lt_of_le (h.opened b hb) hfresh }

end TryBlocks.Labelled

def Part.Prepared (plan : Plan) (params : Nat) (handlers : List BlockId) (scope : Scope)
    (s : Spot) : Part → Prop
  | .form _ | .operands _ | .bindings _ _ => plan.Here handlers scope.finallys s
  | .shape whole => plan.Here handlers scope.finallys s ∧
    (∀ id ∈ whole.ids, plan.Ready params s.value id) ∧ whole.Proper
  | .body last _ => plan.Here handlers scope.finallys s ∧ plan.AllReady params s.value [last]
  | .arms meet _ _ => plan.Leads handlers scope.finallys meet
  | .guarded blocks _ _ | .catching blocks _ _ | .cleanup blocks _ _ =>
    blocks.Labelled plan handlers scope s
  | .clauses after _ _ => plan.Leads handlers scope.finallys after

def Code.Sound (options : CompileOptions) (plan : Plan) (params : Nat) (handlers : List BlockId)
    (scope : Scope) (s : Spot) (r : Option (List Operand)) (t : Spot) : Prop :=
  plan.Covered options params s t ∧ ∀ operands, r = some operands →
    plan.AllReady params t.value operands ∧ plan.Here handlers scope.finallys t

theorem Code.arms_label {meet : BlockId} {arms : List (Option Form × BlockId)} {live : Bool}
    (h : Code options plan handlers scope s (.arms meet arms live) r t)
    : ∀ b ∈ arms.map (·.2), plan.label b = .plain handlers scope := by
  induction arms generalizing s live with
  | nil => simp
  | cons entry arms ih =>
    rw [List.map_cons, List.forall_mem_cons]
    cases h with
    | armsLive hlabel _ _ hrest => exact ⟨hlabel, ih hrest⟩
    | armsDead hlabel _ hrest => exact ⟨hlabel, ih hrest⟩

theorem Code.clauses_label {after : BlockId} {clauses : List (CatchClause × BlockId)} {live : Bool}
    (h : Code options plan handlers scope s (.clauses after clauses live) r t)
    : ∀ b ∈ clauses.map (·.2), plan.label b = .plain handlers scope := by
  induction clauses generalizing s live with
  | nil => simp
  | cons entry clauses ih =>
    rw [List.map_cons, List.forall_mem_cons]
    cases h with
    | clausesLive hlabel _ _ _ hrest => exact ⟨hlabel, ih hrest⟩
    | clausesDead hlabel _ _ hrest => exact ⟨hlabel, ih hrest⟩

theorem Choice.transfer_references {choice : Choice} {value : Operand} {blocks : List BlockId}
    {b : BlockId} (hlength : choice = .test → blocks.length = 2)
    (h : b ∈ (choice.transfer value blocks).references)
    : b ∈ blocks := by
  cases choice with
  | test =>
    match blocks, hlength rfl with
    | [yes, no], _ => exact h
  | cases tests =>
    simp only [Choice.transfer, Transfer.references, List.mem_append, Option.mem_toList] at h
    rcases h with h | h
    . exact List.mem_of_mem_take h
    . exact List.mem_of_mem_drop (List.mem_of_mem_head? h)

theorem Choice.transfer_operands (choice : Choice) (value : Operand) (blocks : List BlockId)
    : (choice.transfer value blocks).operands = [value] := by
  cases choice <;> rfl

theorem Plan.AllReady.literal {reader : ValueId} {value : Value}
    : plan.AllReady params reader [.literal value] := by
  intro id hid
  cases List.mem_singleton.1 hid

theorem leave_step {transfer : Transfer} (hholds : plan.Holds s [.transfer transfer])
    (hready : plan.AllReady params s.value transfer.operands)
    (hleads : ∀ target ∈ transfer.references, plan.Leads handlers scope.finallys target)
    (hdispatch : ∀ clauses, transfer = .dispatch clauses → (plan.label s.block).role = .dispatch)
    (hhere : plan.Here handlers scope.finallys s)
    : plan.Covered options params s (s.skip 1) := by
  refine .skip hholds (.leave hready ?_ hdispatch)
  intro target htarget
  rw [hhere.stack, hhere.inside]
  exact hleads target htarget

variable (options) in
theorem handOver_step {operand : Operand} {target : BlockId}
    (hholds : plan.Holds s [.handOver operand target])
    (hready : plan.AllReady params s.value [operand])
    (hleads : plan.Leads handlers scope.finallys target)
    (hhere : plan.Here handlers scope.finallys s)
    : plan.Covered options params s (s.skip 1) := by
  refine leave_step hholds hready ?_ nofun hhere
  intro b hb
  cases List.mem_singleton.1 hb
  exact hleads

theorem leaveTo_step {transfer : Transfer} {count : Nat}
    (haround : plan.Around params handlers scope s)
    (hlabel : ∀ b, s.fresh ≤ b → b < s.fresh + count → plan.label b = .plain handlers scope)
    (hholds : plan.Holds s [.transfer transfer])
    (hready : plan.AllReady params s.value transfer.operands)
    (hrefs : ∀ target ∈ transfer.references, s.fresh ≤ target ∧ target < s.fresh + count)
    (hdispatch : ∀ clauses, transfer = .dispatch clauses → (plan.label s.block).role = .dispatch)
    (hhere : plan.Here handlers scope.finallys s)
    : plan.Covered options params s ((s.opened count).skip 1) := by
  have hopened : plan.Covered options params s (s.opened count) :=
    .opened fun b hlow hhigh => haround.plainFits (hlabel b hlow hhigh) hlow
  refine hopened.trans (leave_step (s := s.opened count) hholds hready ?_ hdispatch
    ⟨hhere.stack, hhere.inside⟩)
  intro target htarget
  obtain ⟨hlow, hhigh⟩ := hrefs target htarget
  exact .inl (hlabel target hlow hhigh)

variable (options) in
theorem goOn_step {transfer : Transfer} (haround : plan.Around params handlers scope s)
    (hlabel : plan.label s.fresh = .plain handlers scope)
    (hholds : plan.Holds s [.transfer transfer])
    (hready : plan.AllReady params s.value transfer.operands)
    (hrefs : transfer.references = [s.fresh]) (hdispatch : ∀ clauses, transfer ≠ .dispatch clauses)
    (hhere : plan.Here handlers scope.finallys s)
    : plan.Covered options params s ((s.opened 1).skip 1) := by
  refine leaveTo_step haround ?_ hholds hready ?_ (fun _ h => absurd h (hdispatch _)) hhere
  . intro b hlow hhigh
    obtain rfl : b = s.fresh := Nat.le_antisymm (Nat.le_of_lt_succ hhigh) hlow
    exact hlabel
  . intro target htarget
    rw [hrefs, List.mem_singleton] at htarget
    subst htarget
    exact ⟨Nat.le_refl _, Nat.lt_succ_self _⟩

variable (options params) in
theorem meet_step {meet : BlockId} (hlabel : plan.label meet = .plain handlers scope)
    (hholds : plan.Holds (s.goTo meet) [.receive])
    : plan.Covered options params s ((s.goTo meet).skip 1) ∧
        plan.AllReady params ((s.goTo meet).skip 1).value [.result s.value] ∧
        plan.Here handlers scope.finallys ((s.goTo meet).skip 1) := by
  obtain ⟨hcovered, hhere, hgiven⟩ := receive_step options params hholds
    (Here.goTo hlabel)
  refine ⟨hcovered.ofGoTo, ?_, hhere⟩
  rw [AllReady.singleton]
  intro id hid
  cases hid
  exact hgiven

theorem Plan.Here.fallen {b : BlockId} (hrole : (plan.label b).role ≠ .plain)
    : plan.Here (b :: (plan.label b).under) (plan.label b).inside (s.goTo b) where
  stack := by
    change plan.stackAt b 0 = _
    rw [stackAt_zero]
    unfold Label.enter
    split
    . next h => exact absurd h hrole
    . rfl
    . rfl
  inside := rfl

variable (options params) in
theorem popOwn_step {b : BlockId} {inside : List BlockId} (hblock : s.block = b)
    (hrole : (plan.label b).role ≠ .plain) (hholds : plan.Holds s [.effect (.popHandler b)])
    (hhere : plan.Here (b :: (plan.label b).under) inside s)
    : plan.Covered options params s (s.skip 1) ∧
        plan.Here (plan.label b).under inside (s.skip 1) := by
  subst hblock
  have hhere' := hhere.skip hholds
  have hstack : (Command.effect (.popHandler s.block)).stack
      (s.block :: (plan.label s.block).under) = (plan.label s.block).under := by
    simp [Command.stack]
  rw [hstack] at hhere'
  exact ⟨.skip hholds (.popOwn hrole hhere.stack), hhere'⟩

variable (options params) in
theorem finally_step {b : BlockId} {outer : List BlockId}
    (hlabel : plan.label b = { under := handlers, role := .cleanup, inside := b :: outer })
    (hholds : plan.Holds (s.goTo b) [.receive, .effect .takeException, .effect (.popHandler b)])
    : plan.Covered options params s ((s.goTo b).skip 3) ∧
        plan.Here handlers (b :: outer) ((s.goTo b).skip 3) ∧
        plan.Ready params ((s.goTo b).skip 3).value s.value := by
  have hrole : (plan.label b).role ≠ .plain := by simp [hlabel]
  obtain ⟨hreceive, htake, hpop, _⟩ := hholds
  obtain ⟨hcovered₁, hhere₁, hgiven⟩ := receive_step options params
    (s := s.goTo b) ⟨hreceive, trivial⟩ (.fallen hrole)
  have htake' : plan.Holds ((s.goTo b).skip 1) [.effect .takeException] := ⟨htake, trivial⟩
  have hhere₂ := hhere₁.skip htake'
  have hcovered₂ : plan.Covered options params ((s.goTo b).skip 1) (((s.goTo b).skip 1).skip 1) :=
    .skip htake' (.take (by rw [show ((s.goTo b).skip 1).block = b from rfl, hlabel]) rfl)
  obtain ⟨hcovered₃, hhere₃⟩ := popOwn_step options params (b := b) rfl hrole
    ⟨hpop, trivial⟩ hhere₂
  rw [hlabel] at hhere₃
  exact ⟨((hcovered₁.trans hcovered₂).trans hcovered₃).ofGoTo, hhere₃,
    (hgiven.mono hcovered₂.value).mono hcovered₃.value⟩

theorem branch_step {choice : Choice} {operand : Operand} {arms : List (Option Form)} {live : Bool}
    {u v : Spot} (haround : plan.Around params handlers scope s)
    (hhere : plan.Here handlers scope.finallys s)
    (hready : plan.AllReady params s.value [operand])
    (hproper : choice = .test → arms.length = 2)
    (hmeet : plan.label (s.fresh + arms.length) = .plain handlers scope)
    (hholds : plan.Holds s [.transfer (choice.transfer operand (.range' s.fresh arms.length))])
    (harms : Code options plan handlers scope u
      (.arms (s.fresh + arms.length) (arms.zip (.range' s.fresh arms.length)) live) none v)
    : plan.Covered options params s ((s.opened (arms.length + 1)).skip 1) := by
  have hlabel := harms.arms_label
  rw [List.map_snd_zip (by simp)] at hlabel
  refine leaveTo_step haround ?_ hholds ?_ ?_ ?_ hhere
  . intro b hlow hhigh
    by_cases hb : b = s.fresh + arms.length
    . rw [hb, hmeet]
    . refine hlabel b ?_
      rw [List.mem_range'_1]
      lia
  . rw [Choice.transfer_operands]
    exact hready
  . intro target htarget
    have hmem := Choice.transfer_references (by simpa using hproper) htarget
    rw [List.mem_range'_1] at hmem
    lia
  . cases choice <;> exact nofun

theorem Plan.Around.inLoop {pairs : List (String × ValueId)} {point : LoopPoint}
    (h : plan.Around params handlers scope s)
    (hpairs : ∀ pair ∈ pairs, plan.Ready params s.value pair.2)
    (hnodup : point.carried.Nodup) (hcarried : ∀ id ∈ point.carried, plan.Ready params s.value id)
    (hdepth : point.tryDepth = scope.tryDepth)
    (hheader : plan.label point.header = .plain handlers scope)
    : plan.Around params handlers ((scope.bindAll pairs).inLoop point) s where
  locals entry hentry := by
    rcases List.mem_append.1 hentry with hnew | hold
    . exact hpairs entry (List.mem_reverse.1 hnew)
    . exact h.locals entry hold
  carried _ hpoint := by
    cases hpoint
    exact ⟨hnodup, hcarried⟩
  depth _ hpoint := by
    cases hpoint
    exact Nat.le_of_eq hdepth
  header _ hpoint _ := by
    cases hpoint
    exact hheader
  handlers := h.handlers
  inside := h.inside

variable (options) in
theorem loop_step {operands : List Operand} (names : List String) (haround : plan.Around params handlers scope s)
    (hhere : plan.Here handlers scope.finallys s)
    (hready : plan.AllReady params s.value operands)
    (hlabel : plan.label s.fresh = .plain handlers scope)
    (hholds : plan.Holds s (operands.map (fun operand => .effect (.const operand)) ++
      [.transfer (.jump none s.fresh)]))
    : plan.Covered options params s ((s.opened 1).skip (operands.length + 1)) ∧
        plan.Around params handlers
          ((scope.bindAll (names.zip (.range' s.value operands.length))).inLoop
            ⟨s.fresh, scope.tryDepth, .range' s.value operands.length⟩)
          (((s.opened 1).skip (operands.length + 1)).goTo s.fresh) := by
  rw [holds_append, List.length_map] at hholds
  obtain ⟨hcopied, hhere', hgiven⟩ := copy_steps options hholds.1 hready hhere
  have hjumped : plan.Covered options params (s.skip operands.length)
      (((s.skip operands.length).opened 1).skip 1) := by
    exact goOn_step options (haround.covered hcopied) hlabel hholds.2 .nil rfl nofun hhere'
  have hentered := hcopied.trans hjumped
  have hgiven' : ∀ id ∈ List.range' s.value operands.length,
      plan.Ready params (s.value + (operands.length + 1)) id :=
    fun id hid => (hgiven id hid).mono (Nat.le_succ _)
  refine ⟨hentered, ?_⟩
  exact (haround.covered (hentered.goTo s.fresh)).inLoop
    (fun pair hpair => hgiven' _ (List.of_mem_zip hpair).2) List.nodup_range' hgiven' rfl hlabel

theorem Plan.Around.bind {name : String} {id : ValueId} (h : plan.Around params handlers scope s)
    (hid : plan.Ready params s.value id)
    : plan.Around params handlers (scope.bind name id) s :=
  { h with
    locals := by
      intro entry hentry
      rcases List.mem_cons.1 hentry with rfl | hold
      . exact hid
      . exact h.locals entry hold }

theorem Plan.Around.guarded {inner : List BlockId} {handler : Option BlockId}
    (h : plan.Around params handlers scope s) (hinner : ∀ b ∈ inner, b < s.fresh)
    (hhandler : handler = inner.head?)
    : plan.Around params (inner ++ handlers) (scope.guarded handler) s where
  locals := h.locals
  carried := h.carried
  depth point hpoint := by
    have := h.depth point hpoint
    simp only [Scope.tryDepth, Scope.guarded, List.length_append] at this ⊢
    lia
  header point hpoint hdepth := by
    have hle := h.depth point hpoint
    -- a region of its own makes the depth greater than that of any loop around it
    cases inner with
    | nil =>
      subst hhandler
      exact h.header point hpoint hdepth
    | cons block rest =>
      subst hhandler
      simp only [Scope.tryDepth, Scope.guarded, List.head?_cons, Option.toList_some,
        List.singleton_append, List.length_cons] at hle hdepth
      lia
  handlers b hb := by
    rcases List.mem_append.1 hb with hnew | hold
    . exact hinner b hnew
    . exact h.handlers b hold
  inside := h.inside

theorem Plan.Around.inFinally {block : BlockId} (h : plan.Around params handlers scope s)
    (hblock : block < s.fresh)
    : plan.Around params handlers (scope.inFinally block) s where
  locals := h.locals
  carried := h.carried
  depth point hpoint := by
    have := h.depth point hpoint
    simp only [Scope.tryDepth, Scope.inFinally, List.length_cons] at this ⊢
    lia
  header point hpoint hdepth := by
    have hle := h.depth point hpoint
    simp only [Scope.tryDepth, Scope.inFinally, List.length_cons] at hle hdepth
    lia
  handlers := h.handlers
  inside b hb := by
    rcases List.mem_cons.1 hb with rfl | hold
    . exact hblock
    . exact h.inside b hold

theorem attempt_step {parts : TryParts} {blocks : TryBlocks} {live live' : Bool} {u v w x : Spot}
    (haround : plan.Around params handlers scope s) (hhere : plan.Here handlers scope.finallys s)
    (hblocks : blocks = .number s.fresh parts)
    (hentry : plan.label blocks.entry = .plain handlers scope)
    (hexit : plan.label blocks.exit = .plain handlers scope)
    (hcleanup : ∀ b ∈ blocks.cleanup, plan.label b = ⟨handlers, .cleanup, b :: scope.finallys⟩)
    (hdispatch : ∀ b ∈ blocks.dispatch,
      plan.label b = ⟨blocks.cleanup.toList ++ handlers, .dispatch, scope.finallys⟩)
    (hjump : plan.Holds s [.transfer (.jump none blocks.entry)])
    (hcatching : Code options plan handlers scope u (.catching blocks parts.catches live) none v)
    (hcleaning : Code options plan handlers scope w (.cleanup blocks parts.cleanup live') none x)
    : plan.Covered options params s { s.skip 1 with fresh := blocks.exit + 1 } ∧
        blocks.Labelled plan handlers scope { s.skip 1 with fresh := blocks.exit + 1 } := by
  have hnumber := TryBlocks.number_exit s.fresh parts
  have hcleanups := TryBlocks.number_cleanup_bounds s.fresh parts
  have hdispatches := TryBlocks.number_dispatch_bounds s.fresh parts
  have hcases := TryBlocks.number_cases s.fresh parts
  have hsome := TryBlocks.number_cleanup_isSome s.fresh parts
  have hfirst : blocks.entry = s.fresh := by rw [hblocks]; rfl
  rw [← hblocks] at hnumber hcleanups hdispatches hcases hsome
  have hfits : ∀ b, s.fresh ≤ b → b < blocks.exit + 1 → plan.BlockFits options b := by
    intro b hlow hhigh
    rcases hcases b hlow (Nat.le_of_lt_succ hhigh) with rfl | hb | hb | rfl
    . exact haround.plainFits hentry hlow
    . exact haround.cleanupFits (hcleanup b hb) hlow (by
        cases hforms : parts.cleanup with
        | none =>
          rw [hforms, hb] at hsome
          cases hsome
        | some forms =>
          rw [hforms] at hcleaning
          exact ⟨w, blocks, forms, live', x, hcleaning, hb⟩)
    . refine haround.dispatchFits (hdispatch b hb) hlow ?_ ⟨u, blocks, _, live, v, hcatching, hb, rfl⟩
      intro b' hb'
      exact (hcleanups b' (by simpa using hb')).2.2 b hb
    . exact haround.plainFits hexit hlow
  have hcount : 2 ≤ TryBlocks.count parts := Nat.le_add_left _ _
  refine ⟨?_, hentry, hexit, hcleanup, hdispatch, ?_⟩
  . have hjumped : plan.Covered options params s (s.skip 1) := by
      refine leave_step hjump .nil ?_ nofun hhere
      intro target htarget
      cases List.mem_singleton.1 htarget
      exact .inl hentry
    exact ⟨hjumped.value, by simp only; lia, hjumped.checked, hfits⟩
  . intro b hb
    simp only
    rcases List.mem_append.1 hb with hb | hb
    . have := hdispatches b (by simpa using hb)
      lia
    . have := hcleanups b (by simpa using hb)
      lia

theorem Code.sound {part : Part} (h : Code options plan handlers scope s part r t)
    (haround : plan.Around params handlers scope s)
    (hprepared : part.Prepared plan params handlers scope s)
    : Code.Sound options plan params handlers scope s r t := by
  -- What a part takes for granted is checked by the part around it, and what it leaves behind is
  -- what the part after it takes for granted.
  induction h with
  | form _ hreads _ ih =>
    obtain ⟨hids, hproper⟩ := hreads.ids
    refine ih haround ⟨hprepared, ?_, hproper⟩
    intro id hid
    obtain ⟨name, hmem⟩ := hids id hid
    exact haround.locals _ hmem
  | value =>
    refine ⟨.refl rfl rfl, ?_⟩
    intro operands hoperands
    cases hoperands
    refine ⟨?_, hprepared.1⟩
    rw [AllReady.singleton]
    rintro id rfl
    exact hprepared.2.1 id (List.mem_singleton.2 rfl)
  | @perform handlers scope s t job items operands _ hholds ih =>
    obtain ⟨hcovered, hresult⟩ := ih haround hprepared.1
    obtain ⟨hready, hhere⟩ := hresult _ rfl
    have hfits : plan.Fits params t.block t.index t.value (.effect (job.effect operands)) :=
      Job.effect_fits hready fun id hid => (hprepared.2.1 id hid).mono hcovered.value
    refine ⟨hcovered.trans (.skip hholds hfits), ?_⟩
    intro os hos
    cases hos
    have hhere' := hhere.skip hholds
    rw [Job.effect_stack] at hhere'
    refine ⟨?_, hhere'⟩
    rw [AllReady.singleton]
    intro id hid
    cases hid
    exact ⟨Nat.lt_succ_self _, .inr (gives_of_holds hholds (Job.effect_isNameable _ _))⟩
  | performStop _ ih =>
    exact ⟨(ih haround hprepared.1).1, by simp⟩
  | body _ ih => exact ih haround ⟨hprepared.1, .literal⟩
  | @select handlers scope s t u choice value arms operand _ hmeet hholds harms hreceive ih ihArms =>
    obtain ⟨hcovered, hresult⟩ := ih haround hprepared.1
    obtain ⟨hready, hhere⟩ := hresult _ rfl
    have haround₁ := haround.covered hcovered
    have hbranch := branch_step haround₁ hhere hready (fun hc => by subst hc; exact hprepared.2.2)
      hmeet hholds harms
    obtain ⟨harmed, _⟩ := ihArms (haround₁.covered hbranch) (.inl hmeet)
    obtain ⟨hmet, hready', hhere'⟩ := meet_step options params hmeet hreceive
    refine ⟨((hcovered.trans hbranch).trans harmed).trans hmet, ?_⟩
    intro operands hoperands
    cases hoperands
    exact ⟨hready', hhere'⟩
  | @selectDead handlers scope s t u choice value arms operand _ hmeet hholds harms ih ihArms =>
    obtain ⟨hcovered, hresult⟩ := ih haround hprepared.1
    obtain ⟨hready, hhere⟩ := hresult _ rfl
    have haround₁ := haround.covered hcovered
    have hbranch := branch_step haround₁ hhere hready (fun hc => by subst hc; exact hprepared.2.2)
      hmeet hholds harms
    obtain ⟨harmed, _⟩ := ihArms (haround₁.covered hbranch) (.inl hmeet)
    exact ⟨(hcovered.trans hbranch).trans harmed, by simp⟩
  | selectStop _ ih => exact ⟨(ih haround hprepared.1).1, by simp⟩
  | bind _ ih => exact ih haround hprepared.1
  | @loop handlers scope s t u pairs forms operands operand point _ hlabel hholds hpoint _ hexit
      hjump hreceive ih ihBody =>
    obtain ⟨hcovered, hresult⟩ := ih haround hprepared.1
    obtain ⟨hready, hhere⟩ := hresult _ rfl
    have haround₁ := haround.covered hcovered
    subst hpoint
    obtain ⟨hentered, haround₂⟩ := loop_step options (pairs.map (·.1)) haround₁ hhere
      hready hlabel hholds
    obtain ⟨hbody, hresult'⟩ := ihBody haround₂ ⟨Here.goTo hlabel, .literal⟩
    obtain ⟨hready', hhere'⟩ := hresult' _ rfl
    have hlooped := (hcovered.trans hentered).trans hbody.ofGoTo
    have hleft := goOn_step options (haround.covered hlooped) hexit hjump hready' rfl
      nofun hhere'
    obtain ⟨hmet, hready'', hhere''⟩ := meet_step options params hexit
      hreceive
    refine ⟨(hlooped.trans hleft).trans hmet, ?_⟩
    intro os hos
    cases hos
    exact ⟨hready'', hhere''⟩
  | @loopDead handlers scope s t u pairs forms operands point _ hlabel hholds hpoint _ ih ihBody =>
    obtain ⟨hcovered, hresult⟩ := ih haround hprepared.1
    obtain ⟨hready, hhere⟩ := hresult _ rfl
    have haround₁ := haround.covered hcovered
    subst hpoint
    obtain ⟨hentered, haround₂⟩ := loop_step options (pairs.map (·.1)) haround₁ hhere
      hready hlabel hholds
    obtain ⟨hbody, _⟩ := ihBody haround₂ ⟨Here.goTo hlabel, .literal⟩
    exact ⟨(hcovered.trans hentered).trans hbody.ofGoTo, by simp⟩
  | loopStop _ ih => exact ⟨(ih haround hprepared.1).1, by simp⟩
  | recurStop _ ih => exact ⟨(ih haround hprepared.1).1, by simp⟩
  | suspendStop _ ih => exact ⟨(ih haround hprepared.1).1, by simp⟩
  | finishStop _ ih => exact ⟨(ih haround ⟨hprepared.1, .literal⟩).1, by simp⟩
  | @recur handlers scope s t point outer args operands hloops hdepth _ hlength hholds ih =>
    obtain ⟨hcovered, hresult⟩ := ih haround hprepared.1
    obtain ⟨hready, hhere⟩ := hresult _ rfl
    have haround₁ := haround.covered hcovered
    have hpoint : point ∈ scope.loops.head? := by rw [hloops]; rfl
    obtain ⟨hnodup, hcarried⟩ := haround₁.carried point hpoint
    have hone : plan.Holds t [.effect (.recur point.carried operands)] := ⟨hholds.1, trivial⟩
    have hset : plan.Covered options params t (t.skip 1) :=
      .skip hone (.recur hnodup hlength hcarried hready)
    have hjumped : plan.Covered options params (t.skip 1) ((t.skip 1).skip 1) := by
      refine leave_step hholds.2 .nil ?_ nofun (hhere.skip hone)
      intro target htarget
      cases List.mem_singleton.1 htarget
      exact .inl (haround₁.header point hpoint hdepth)
    exact ⟨(hcovered.trans hset).trans hjumped, by simp⟩
  | @suspend handlers scope s t handler args operands _ hlabel hholds hreceive ih =>
    obtain ⟨hcovered, hresult⟩ := ih haround hprepared.1
    obtain ⟨hready, hhere⟩ := hresult _ rfl
    have hleft := goOn_step options (haround.covered hcovered) hlabel hholds hready
      (by simp [Transfer.references]) nofun hhere
    obtain ⟨hmet, hready', hhere'⟩ := meet_step options params hlabel hreceive
    refine ⟨(hcovered.trans hleft).trans hmet, ?_⟩
    intro os hos
    cases hos
    exact ⟨hready', hhere'⟩
  | @finish handlers scope s t forms operand _ _ hholds ih =>
    obtain ⟨hcovered, hresult⟩ := ih haround ⟨hprepared.1, .literal⟩
    obtain ⟨hready, _⟩ := hresult _ rfl
    exact ⟨hcovered.trans (.skip hholds (.finish hready)), by simp⟩
  | @finishBy handlers scope s t forms operand handler _ _ hlabel hholds hfinish ih =>
    obtain ⟨hcovered, hresult⟩ := ih haround ⟨hprepared.1, .literal⟩
    obtain ⟨hready, hhere⟩ := hresult _ rfl
    have hleft := goOn_step options (haround.covered hcovered) hlabel hholds hready
      (by simp [Transfer.references]) nofun hhere
    obtain ⟨hmet, hready', _⟩ := meet_step options params hlabel
      ⟨hfinish.1, trivial⟩
    exact ⟨((hcovered.trans hleft).trans hmet).trans (.skip hfinish.2 (.finish hready')), by simp⟩
  | operandsNil =>
    refine ⟨.refl rfl rfl, ?_⟩
    intro operands hoperands
    cases hoperands
    exact ⟨.nil, hprepared⟩
  | operandsCons _ _ ih ihRest =>
    obtain ⟨hcovered, hresult⟩ := ih haround hprepared
    obtain ⟨hready, hhere⟩ := hresult _ rfl
    obtain ⟨hcovered', hresult'⟩ := ihRest (haround.covered hcovered) hhere
    obtain ⟨hready', hhere'⟩ := hresult' _ rfl
    refine ⟨hcovered.trans hcovered', ?_⟩
    intro operands hoperands
    cases hoperands
    refine ⟨?_, hhere'⟩
    intro id hid
    rcases List.mem_cons.1 hid with rfl | hid
    . exact (hready id (List.mem_singleton.2 rfl)).mono hcovered'.value
    . exact hready' id hid
  | operandsStop _ ih => exact ⟨(ih haround hprepared).1, by simp⟩
  | operandsStopLater _ _ ih ihRest =>
    obtain ⟨hcovered, hresult⟩ := ih haround hprepared
    obtain ⟨hcovered', _⟩ := ihRest (haround.covered hcovered) (hresult _ rfl).2
    exact ⟨hcovered.trans hcovered', by simp⟩
  | bodyNil =>
    refine ⟨.refl rfl rfl, ?_⟩
    intro operands hoperands
    cases hoperands
    exact ⟨hprepared.2, hprepared.1⟩
  | bodyCons _ _ ih ihRest =>
    obtain ⟨hcovered, hresult⟩ := ih haround hprepared.1
    obtain ⟨hready, hhere⟩ := hresult _ rfl
    obtain ⟨hcovered', hresult'⟩ := ihRest (haround.covered hcovered) ⟨hhere, hready⟩
    exact ⟨hcovered.trans hcovered', hresult'⟩
  | bodyStop _ ih => exact ⟨(ih haround hprepared.1).1, by simp⟩
  | bindingsNil _ ih => exact ih haround ⟨hprepared, .literal⟩
  | bindingsCopy _ hholds _ ih ihRest =>
    obtain ⟨hcovered, hresult⟩ := ih haround hprepared
    obtain ⟨hready, hhere⟩ := hresult _ rfl
    obtain ⟨hcopied, hhere', hgiven⟩ := plain_step options hholds rfl hready hhere
    have hcovered' := hcovered.trans hcopied
    obtain ⟨hrest, hresult'⟩ := ihRest ((haround.covered hcovered').bind hgiven) hhere'
    exact ⟨hcovered'.trans hrest, hresult'⟩
  | bindingsKeep _ _ _ ih ihRest =>
    obtain ⟨hcovered, hresult⟩ := ih haround hprepared
    obtain ⟨hready, hhere⟩ := hresult _ rfl
    have hgiven := hready _ (List.mem_singleton.2 rfl)
    obtain ⟨hrest, hresult'⟩ := ihRest ((haround.covered hcovered).bind hgiven) hhere
    exact ⟨hcovered.trans hrest, hresult'⟩
  | bindingsStop _ ih => exact ⟨(ih haround hprepared).1, by simp⟩
  | armsNil => exact ⟨.refl rfl rfl, by simp⟩
  | armsLive hlabel _ hjump _ ih ihRest =>
    obtain ⟨hcovered, hresult⟩ := ih (haround.mono (Nat.le_refl _) (Nat.le_refl _))
      ⟨Here.goTo hlabel, .literal⟩
    obtain ⟨hready, hhere⟩ := hresult _ rfl
    have hcovered' := hcovered.ofGoTo.trans (handOver_step options hjump hready hprepared hhere)
    obtain ⟨hrest, _⟩ := ihRest (haround.covered hcovered') hprepared
    exact ⟨hcovered'.trans hrest, by simp⟩
  | armsDead hlabel _ _ ih ihRest =>
    obtain ⟨hcovered, _⟩ := ih (haround.mono (Nat.le_refl _) (Nat.le_refl _))
      ⟨Here.goTo hlabel, .literal⟩
    obtain ⟨hrest, _⟩ := ihRest (haround.covered hcovered.ofGoTo) hprepared
    exact ⟨hcovered.ofGoTo.trans hrest, by simp⟩
  | @guardedLive handlers scope s t blocks forms operand hpush _ hpop ih =>
    obtain ⟨hpushed, hhere⟩ := push_steps options params hpush
      hprepared.stacked (Here.goTo hprepared.entry)
    have haround₁ := (haround.covered hpushed.ofGoTo).guarded
      (fun b hb => hprepared.opened b hb) rfl
    obtain ⟨hcovered, hresult⟩ := ih haround₁ ⟨hhere, .literal⟩
    obtain ⟨hready, hhere'⟩ := hresult _ rfl
    rw [holds_append, List.length_map] at hpop
    obtain ⟨hpopped, hhere''⟩ := pop_steps options params hpop.1
      hprepared.stacked hhere'
    have hjumped := handOver_step options hpop.2 (hready.mono hpopped.value)
      hprepared.after.1 hhere''
    exact ⟨((hpushed.ofGoTo.trans hcovered).trans hpopped).trans hjumped, by simp⟩
  | @guardedDead handlers scope s t blocks forms hpush _ ih =>
    obtain ⟨hpushed, hhere⟩ := push_steps options params hpush
      hprepared.stacked (Here.goTo hprepared.entry)
    have haround₁ := (haround.covered hpushed.ofGoTo).guarded
      (fun b hb => hprepared.opened b hb) rfl
    obtain ⟨hcovered, _⟩ := ih haround₁ ⟨hhere, .literal⟩
    exact ⟨hpushed.ofGoTo.trans hcovered, by simp⟩
  | catchingNone _ => exact ⟨.refl rfl rfl, by simp⟩
  | @catching handlers scope s t blocks catches dispatch live hdispatch hholds hclauses ih =>
    have hlabel := hprepared.dispatch dispatch hdispatch
    have hrole : (plan.label dispatch).role ≠ .plain := by simp [hlabel]
    have hhere := Here.fallen (s := s) hrole
    obtain ⟨hpopped, hhere'⟩ := popOwn_step options params (b := dispatch)
      rfl hrole ⟨hholds.1, trivial⟩ hhere
    rw [hlabel] at hhere'
    have hlabels := hclauses.clauses_label
    rw [List.map_snd_zip (by simp)] at hlabels
    have haround₁ := haround.guarded
      (fun b hb => hprepared.opened b (List.mem_append_right _ hb))
      (show blocks.cleanup = blocks.cleanup.toList.head? by simp)
    have hleft : plan.Covered options params ((s.goTo dispatch).skip 1)
        ((((s.goTo dispatch).skip 1).opened catches.length).skip 1) := by
      have hrole : (plan.label ((s.goTo dispatch).skip 1).block).role = .dispatch :=
        congrArg Label.role hlabel
      refine leaveTo_step ((haround₁.covered hpopped.ofGoTo)) ?_ hholds.2 .nil ?_
        (fun _ _ => hrole) hhere'
      . intro b hlow hhigh
        exact hlabels b (List.mem_range'_1.2 ⟨hlow, hhigh⟩)
      . intro target htarget
        obtain ⟨pair, hpair, rfl⟩ := List.mem_map.1 htarget
        exact List.mem_range'_1.1 (List.of_mem_zip hpair).1
    have hcovered := hpopped.ofGoTo.trans hleft
    obtain ⟨hrest, _⟩ := ih (haround₁.covered hcovered) hprepared.after.2
    exact ⟨hcovered.trans hrest, by simp⟩
  | clausesNil => exact ⟨.refl rfl rfl, by simp⟩
  | clausesLive hlabel hreceive _ hjump _ ih ihRest =>
    obtain ⟨hreceived, hhere, hgiven⟩ := receive_step options params
      hreceive (Here.goTo hlabel)
    obtain ⟨hcovered, hresult⟩ := ih ((haround.covered hreceived.ofGoTo).bind hgiven)
      ⟨hhere, .literal⟩
    obtain ⟨hready, hhere'⟩ := hresult _ rfl
    have hcovered' := (hreceived.ofGoTo.trans hcovered).trans
      (handOver_step options hjump hready hprepared hhere')
    obtain ⟨hrest, _⟩ := ihRest (haround.covered hcovered') hprepared
    exact ⟨hcovered'.trans hrest, by simp⟩
  | clausesDead hlabel hreceive _ _ ih ihRest =>
    obtain ⟨hreceived, hhere, hgiven⟩ := receive_step options params
      hreceive (Here.goTo hlabel)
    obtain ⟨hcovered, _⟩ := ih ((haround.covered hreceived.ofGoTo).bind hgiven) ⟨hhere, .literal⟩
    have hcovered' := hreceived.ofGoTo.trans hcovered
    obtain ⟨hrest, _⟩ := ihRest (haround.covered hcovered') hprepared
    exact ⟨hcovered'.trans hrest, by simp⟩
  | cleanupNone _ => exact ⟨.refl rfl rfl, by simp⟩
  | @cleanupLive handlers scope s t blocks forms block operand hcleanup hholds _ hend ih =>
    have hlabel := hprepared.cleanup block hcleanup
    obtain ⟨hstarted, hhere, hgiven⟩ := finally_step options params hlabel
      hholds
    have hopened : block < s.fresh := hprepared.opened block (by simp [TryBlocks.handlers, hcleanup])
    obtain ⟨hcovered, hresult⟩ := ih
      ((haround.covered hstarted).inFinally hopened) ⟨hhere, .literal⟩
    obtain ⟨_, hhere'⟩ := hresult _ rfl
    have htake : plan.Takes block (s.value + 1) := hholds.2.1
    obtain ⟨spanEnd, hendAt⟩ := hend.1
    have hend' : plan.Holds t [.effect (.endFinally (.result (s.value + 1)))] := ⟨hend.1, trivial⟩
    have hlater := hcovered.value
    have hended : plan.Covered options params t (t.skip 1) := by
      refine .skip hend' (.endFinally htake ?_ hhere'.inside ?_)
      . simp only [Spot.skip, Spot.goTo] at hlater
        lia
      . rw [hhere'.stack, hlabel]
    have hhere'' := hhere'.skip hend'
    have hjumped : plan.Covered options params (t.skip 1) ((t.skip 1).skip 1) := by
      refine .skip hend.2 (.leaveFinally htake rfl hendAt rfl ?_ hhere''.inside ?_)
      . rw [AllReady.singleton]
        intro id hid
        cases hid
        exact (hgiven.mono hcovered.value).mono hended.value
      . rw [hhere''.stack]
        exact hprepared.exit
    exact ⟨((hstarted.trans hcovered).trans hended).trans hjumped, by simp⟩
  | @cleanupDead handlers scope s t blocks forms block hcleanup hholds _ ih =>
    have hlabel := hprepared.cleanup block hcleanup
    obtain ⟨hstarted, hhere, _⟩ := finally_step options params hlabel
      hholds
    have hopened : block < s.fresh := hprepared.opened block (by simp [TryBlocks.handlers, hcleanup])
    obtain ⟨hcovered, _⟩ := ih ((haround.covered hstarted).inFinally hopened) ⟨hhere, .literal⟩
    exact ⟨hstarted.trans hcovered, by simp⟩
  | @attempt handlers scope s t₁ t₂ t₃ parts blocks live₁ live₂ live₃ hblocks hentry hexit hcleanup
      hdispatch hjump _ hcatching hcleaning _ hreceive ih₁ ih₂ ih₃ =>
    obtain ⟨hopened, hlabelled⟩ := attempt_step haround hprepared.1 hblocks hentry hexit hcleanup
      hdispatch hjump hcatching hcleaning
    obtain ⟨hguarded, _⟩ := ih₁ (haround.covered hopened) hlabelled
    obtain ⟨hcaught, _⟩ := ih₂ ((haround.covered hopened).covered hguarded)
      (hlabelled.mono hguarded.fresh)
    obtain ⟨hcleaned, _⟩ := ih₃ (((haround.covered hopened).covered hguarded).covered hcaught)
      ((hlabelled.mono hguarded.fresh).mono hcaught.fresh)
    obtain ⟨hmet, hready, hhere⟩ := meet_step options params hexit hreceive
    refine ⟨(((hopened.trans hguarded).trans hcaught).trans hcleaned).trans hmet, ?_⟩
    intro operands hoperands
    cases hoperands
    exact ⟨hready, hhere⟩
  | @attemptDead handlers scope s t₁ t₂ t₃ parts blocks live₁ live₂ live₃ hblocks hentry hexit
      hcleanup hdispatch hjump _ hcatching hcleaning _ ih₁ ih₂ ih₃ =>
    obtain ⟨hopened, hlabelled⟩ := attempt_step haround hprepared.1 hblocks hentry hexit hcleanup
      hdispatch hjump hcatching hcleaning
    obtain ⟨hguarded, _⟩ := ih₁ (haround.covered hopened) hlabelled
    obtain ⟨hcaught, _⟩ := ih₂ ((haround.covered hopened).covered hguarded)
      (hlabelled.mono hguarded.fresh)
    obtain ⟨hcleaned, _⟩ := ih₃ (((haround.covered hopened).covered hguarded).covered hcaught)
      ((hlabelled.mono hguarded.fresh).mono hcaught.fresh)
    exact ⟨((hopened.trans hguarded).trans hcaught).trans hcleaned, by simp⟩

namespace Graph.Coded

variable {source : Form} {graph : Graph}

theorem covered (h : graph.Coded options source plan)
    : ∃ t : Spot, plan.Covered options options.params.length (.start options.params) t ∧
        (∀ {b : BlockId} {i : Nat} {ins : Instruction}, (plan.code b)[i]? = some ins →
          options.params.length ≤ ins.id ∧ ins.id < t.value) ∧
        ∀ b, t.fresh ≤ b → plan.label b = .plain [] {} := by
  obtain ⟨t, hcode, hbound, hbeyond⟩ := h.main
  have haround : plan.Around options.params.length [] (.ofParams options.params)
      (.start options.params) := by
    constructor
    . intro entry hentry
      have hzip : entry ∈ options.params.zip (.range' 0 options.params.length) := by
        simpa [Scope.ofParams, Scope.bindAll] using hentry
      have hid := List.mem_range'_1.1 (List.of_mem_zip hzip).2
      rw [Nat.zero_add] at hid
      exact ⟨hid.2, .inl hid.2⟩
    all_goals simp [Scope.ofParams, Scope.bindAll]
  have hhere : plan.Here [] [] (.start options.params) := by
    constructor
    . change plan.stackAt 0 0 = []
      rw [stackAt_zero, h.outermost]
      rfl
    . change (plan.label 0).inside = []
      rw [h.outermost]
      rfl
  obtain ⟨hcovered, _⟩ := hcode.sound haround ⟨hhere, by simp [Shape.ids], trivial⟩
  exact ⟨t, hcovered, hbound, hbeyond⟩

theorem fits (h : graph.Coded options source plan) {b : BlockId} {i : Nat} {ins : Instruction}
    (hins : (plan.code b)[i]? = some ins)
    : plan.Fits options.params.length b i ins.id ins.command := by
  obtain ⟨t, hcovered, hbound, _⟩ := h.covered
  obtain ⟨b', i', command, span, hins', hfits⟩ := hcovered.checked ins.id (hbound hins).1
    (hbound hins).2
  obtain ⟨rfl, rfl⟩ := h.unique hins hins' rfl
  rw [hins, Option.some.injEq] at hins'
  rw [hins']
  exact hfits

theorem blockFits (h : graph.Coded options source plan) (b : BlockId)
    : plan.BlockFits options b := by
  obtain ⟨t, hcovered, _, hbeyond⟩ := h.covered
  have hplain : ∀ b, plan.label b = .plain [] {} → plan.BlockFits options b := by
    intro b hlabel
    constructor <;> simp [hlabel, Label.plain]
  by_cases hlow : 1 ≤ b
  . by_cases hhigh : b < t.fresh
    . exact hcovered.blocks b hlow hhigh
    . exact hplain b (hbeyond b (Nat.not_lt.1 hhigh))
  . obtain rfl : b = 0 := Nat.eq_zero_of_not_pos hlow
    exact hplain 0 h.outermost

end Graph.Coded

end Resumable
