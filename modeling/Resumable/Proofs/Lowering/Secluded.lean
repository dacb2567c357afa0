import Resumable.Proofs.Lowering.Rows

/-!
This module contains the proof that the code of a form is nested: every instruction that uses values
of forms comes right after the code of a row of operands, and that row is secluded in the code
around it.
-/

namespace Resumable

open Plan

variable {options : CompileOptions} {plan : Plan} {root : Place} {handlers : List BlockId}
  {scope : Scope} {s t u m : Spot} {bounds : Bounds} {r : Option (List Operand)}
  {rows : BlockId → Nat → Instruction → Spot → Spot → Prop} {yet : ValueId → Prop}

theorem Named.finish_length {name : String} {args forms : List Form} {span : Span}
    (h : Named options scope name args span (.finish forms))
    : forms.length ≤ 1 := by
  cases h with
  | @finish value => cases value <;> simp

theorem Reads.whole {form : Form} {shape : Shape} (h : Reads options scope form shape)
    : shape.Whole scope where
  proper := h.ids.2
  binds id hid := by
    obtain ⟨name, hmem⟩ := h.ids.1 id hid
    exact Scope.binds_of_mem hmem
  ends forms hshape := by
    subst hshape
    cases h with
    | named _ hnamed => exact hnamed.finish_length

namespace Plan.Nested

theorem quiet {commands : List Command} (horderly : Orderly plan.code)
    (hholds : plan.Holds s commands) (hhome : bounds.home s.block s.index)
    (hleads : ∀ command ∈ commands, ∀ id span, ∀ target ∈ (Instruction.mk id command span).targets,
      bounds.goals target)
    (hwrites : ∀ command ∈ commands, ∀ id span, ∀ v ∈ (Instruction.mk id command span).writes,
      v = id)
    (huses : ∀ command ∈ commands, ¬ command.Uses)
    (hgives : ∀ v, Given r v → s.value ≤ v ∧ v < s.value + commands.length)
    : plan.Nested rows bounds yet s r (s.skip commands.length) :=
  .row horderly hholds hhome hleads
    (fun command hmem id span v hv => .inr (hwrites command hmem id span v hv))
    (fun hk huse => absurd huse (huses _ (List.mem_of_getElem? hk))) fun v hv => .inr (hgives v hv)

theorem receive {b : BlockId} (horderly : Orderly plan.code)
    (hholds : plan.Holds (s.goTo b) [.receive]) (hhome : bounds.home b 0)
    : plan.Nested rows bounds yet s (some [.result s.value]) ((s.goTo b).skip 1) := by
  refine .ofGoTo (b := b) (.quiet horderly hholds hhome ?_ ?_ ?_ ?_) fun _ => ?_
  . simp [Command.receive, Instruction.targets]
  . simp [Command.receive, Instruction.writes, Effect.writes]
  . simp [Command.receive, Command.Uses]
  . rintro v hv
    cases hv.result
    exact ⟨Nat.le_refl _, Nat.lt_succ_self _⟩
  . exact hholds.ahead_next horderly

theorem proceed {commands : List Command} (h : plan.Nested rows bounds yet s r m) (hr : r ≠ none)
    (horderly : Orderly plan.code) (hbounds : bounds.Older s) (hholds : plan.Holds m commands)
    (hleads : ∀ command ∈ commands, ∀ id span, ∀ target ∈ (Instruction.mk id command span).targets,
      bounds.goals target)
    (hwrites : ∀ command ∈ commands, ∀ id span, ∀ v ∈ (Instruction.mk id command span).writes,
      v = id)
    (huses : ∀ command ∈ commands, ¬ command.Uses)
    : plan.Nested rows bounds yet s none (m.skip commands.length) := by
  let after : Bounds :=
    { goals := bounds.goals
      under := bounds.under
      home b i := b = m.block ∧ m.index ≤ i
      known := bounds.known
      onwards := fun h hle => ⟨h.1, Nat.le_trans h.2 hle⟩ }
  have hrow : plan.Nested rows after yet m none (m.skip commands.length) :=
    .quiet horderly hholds ⟨rfl, Nat.le_refl _⟩ hleads hwrites huses
      fun v hv => absurd hv Given.none
  exact h.trans hrow hbounds ⟨fun _ => id, fun _ => id, fun _ _ hb => .inr ⟨hr, hb⟩, fun _ => .inl⟩
    fun _ hnone => absurd rfl hnone

theorem handOver {operand : Operand} {target : BlockId} (h : plan.Nested rows bounds yet s r m)
    (hr : r ≠ none) (horderly : Orderly plan.code) (hbounds : bounds.Older s)
    (hholds : plan.Holds m [.handOver operand target]) (hgoal : bounds.goals target)
    : plan.Nested rows bounds yet s none (m.skip 1) := by
  refine h.proceed hr horderly hbounds hholds ?_ ?_ ?_
  . simpa [Command.handOver, Instruction.targets, Transfer.references] using hgoal
  . simp [Command.handOver, Instruction.writes]
  . simp [Command.handOver, Command.Uses]

theorem leave {transfer : Transfer} (count : Nat) (horderly : Orderly plan.code)
    (hholds : plan.Holds s [.transfer transfer]) (hbounds : bounds.Older s)
    (hhome : bounds.home s.block s.index)
    (hlabels : ∀ b, s.fresh ≤ b → b < s.fresh + count → ∀ h ∈ (plan.label b).under,
      bounds.under h ∨ s.fresh ≤ h ∧ h < s.fresh + count)
    (htargets : ∀ b ∈ transfer.references, s.fresh ≤ b ∧ b < s.fresh + count)
    (huses : (Command.transfer transfer).Uses → yet s.value)
    (hrest : plan.Nested rows (bounds.widen s count) yet ((s.opened count).skip 1) r t)
    (hahead : r ≠ none → plan.Ahead t)
    : plan.Nested rows bounds yet s r t := by
  have hleft : plan.Nested rows (bounds.widen s count) yet (s.opened count) none
      ((s.opened count).skip 1) := by
    refine .row horderly (show plan.Holds (s.opened count) [.transfer transfer] from hholds)
      (.inl hhome) ?_ ?_ ?_ fun v hv => absurd hv Given.none
    . intro command hcommand
      cases List.mem_singleton.1 hcommand
      exact fun _ _ b hb => .inr (htargets b hb)
    . simp [Instruction.writes]
    . intro k command hk huse
      cases k with
      | zero =>
        cases hk
        exact huses huse
      | succ => cases hk
  exact (hleft.trans hrest (hbounds.widen count) .refl fun _ => hahead).opened hbounds hlabels

end Plan.Nested

theorem Place.Feeds.nests {q : Place} {forms : List Form} {operands : List Operand}
    {command : Command} {rest : List Command} {part : Part} {values : List Operand}
    (horderly : Orderly plan.code) (hfeeds : q.Feeds options plan forms operands t 0 command)
    (hcomprises : Comprises options plan root q)
    (hfit : (Part.operands forms).Fit q.handlers q.scope q.spot)
    (hbounds : (part.bounds handlers scope q.spot).Older q.spot)
    (hholds : plan.Holds t (command :: rest))
    (hoperands : plan.Nested (Rows options plan root) (part.bounds handlers scope q.spot)
      (fun _ => False) q.spot (some values) t)
    (hused : plan.Nested (Rows options plan root) ((Part.operands []).bounds handlers scope t)
      (· = t.value) t r u)
    : plan.Nested (Rows options plan root) (part.bounds handlers scope q.spot) (fun _ => False)
        q.spot r u :=
  hoperands.used hused hbounds (Part.follows_rest (by simp))
    (fun _ hv => .inl (Part.binds_of_known rfl hv)) (Rows.one horderly hholds hcomprises hfeeds hfit)

theorem bind_known {part : Part} {name : String} {id v : ValueId}
    (h : (scope.bind name id).binds v = true)
    : (part.bounds handlers scope s).known v ∨ Given (some [.result id]) v := by
  rcases Scope.binds_bind.1 h with rfl | h
  . exact .inr ⟨_, rfl, List.mem_singleton.2 rfl⟩
  . exact .inl (.inl h)

theorem Job.effect_targets (job : Job) (operands : List Operand) {id : ValueId} {span : Span}
    {b : BlockId}
    : b ∉ (Instruction.mk id (.effect (job.effect operands)) span).targets := by
  unfold effect
  split <;> exact List.not_mem_nil

theorem Part.first_nests {part inner : Part} (hfirst : part.first? = some inner)
    (hfit : part.Fit handlers scope s)
    (hcomprises : Comprises options plan root ⟨handlers, scope, s, part⟩)
    (hnested : inner.Fit handlers scope s →
      Comprises options plan root ⟨handlers, scope, s, inner⟩ →
        plan.Nested rows (inner.bounds handlers scope s) yet s r t)
    : plan.Nested rows (part.bounds handlers scope s) yet s r t :=
  .within hfit.older (Part.follows_first hfirst) fun _ =>
    hnested (hfit.first hfirst) (hcomprises.step (.first hfirst))

theorem uses_first {first command : Command} {rest : List Command} {v : ValueId} {k : Nat}
    (hrest : ∀ command ∈ rest, ¬ command.Uses) (hk : (first :: rest)[k]? = some command)
    (huse : command.Uses)
    : v + k = v := by
  cases k with
  | zero => rfl
  | succ k => exact absurd huse (hrest _ (List.mem_of_getElem? hk))

theorem branch_nests {choice : Choice} {operand : Operand} {arms : List (Option Form)}
    {live : Bool} {v : Spot} (horderly : Orderly plan.code)
    (hproper : choice = .test → arms.length = 2)
    (hlabel : plan.label (s.fresh + arms.length) = .plain handlers scope)
    (hholds : plan.Holds s [.transfer (choice.transfer operand (.range' s.fresh arms.length))])
    (harms : Code options plan handlers scope ((s.opened (arms.length + 1)).skip 1)
      (.arms (s.fresh + arms.length) (arms.zip (.range' s.fresh arms.length)) live) none u)
    (hbounds : ((Part.operands []).bounds handlers scope s).Older s)
    (hnested : Bounds.Older (Part.bounds handlers scope ((s.opened (arms.length + 1)).skip 1)
        (.arms (s.fresh + arms.length) (arms.zip (.range' s.fresh arms.length)) live))
        ((s.opened (arms.length + 1)).skip 1) →
      plan.Nested rows (Part.bounds handlers scope ((s.opened (arms.length + 1)).skip 1)
        (.arms (s.fresh + arms.length) (arms.zip (.range' s.fresh arms.length)) live)) yet
        ((s.opened (arms.length + 1)).skip 1) none u)
    (hrest : plan.Nested rows
      (((Part.operands []).bounds handlers scope s).widen s (arms.length + 1)) yet u r v)
    (hahead : r ≠ none → plan.Ahead v)
    : plan.Nested rows ((Part.operands []).bounds handlers scope s) yet s r v := by
  have hblocks : ∀ b ∈ (arms.zip (List.range' s.fresh arms.length)).map (·.2),
      s.fresh ≤ b ∧ b < s.fresh + arms.length := by
    rw [List.map_snd_zip (by simp)]
    exact fun b hb => List.mem_range'_1.1 hb
  have hlabels : ∀ b, s.fresh ≤ b → b < s.fresh + (arms.length + 1) →
      (plan.label b).under = handlers := by
    intro b hlow hhigh
    by_cases hb : b = s.fresh + arms.length
    . rw [hb, hlabel]
      rfl
    . rw [harms.arms_label b]
      . rfl
      . rw [List.map_snd_zip (by simp), List.mem_range'_1]
        lia
  have hfollows : ((Part.arms (s.fresh + arms.length) (arms.zip (.range' s.fresh arms.length))
      live).bounds handlers scope ((s.opened (arms.length + 1)).skip 1)).Follows
        (((Part.operands []).bounds handlers scope s).widen s (arms.length + 1))
        ((s.opened (arms.length + 1)).skip 1) none := by
    refine Part.follows_of ?_ (fun _ hb => absurd hb List.not_mem_nil) ?_ ?_ ?_ ?_
    . intro b hb
      obtain ⟨_, rfl⟩ := TryBlocks.mem_goal? hb
      exact .inr ⟨Nat.le_add_right _ _, Nat.lt_succ_self _⟩
    . intro b i hb
      obtain ⟨hlow, hhigh⟩ := hblocks b hb
      exact .inl (.inr ⟨hlow, Nat.lt_succ_of_lt hhigh⟩)
    . exact fun point hpoint => .inl (.inl (.inr ⟨point, hpoint, rfl⟩))
    . exact fun b hb => .inl hb
    . exact fun v hv => .inl (.inl (Part.binds_of_known rfl hv))
  refine .leave (arms.length + 1) horderly hholds hbounds ⟨rfl, Nat.le_refl _⟩ ?_ ?_ ?_ ?_ hahead
  . intro b hlow hhigh h hh
    rw [hlabels b hlow hhigh] at hh
    exact .inl hh
  . intro b hb
    have hmem := Choice.transfer_references (by simpa using hproper) hb
    have hrange := List.mem_range'_1.1 hmem
    lia
  . cases choice <;> exact False.elim
  . have holder := (hbounds.widen (arms.length + 1)).mono (t := (s.opened (arms.length + 1)).skip 1)
      (Nat.le_succ _) (Nat.le_refl _)
    exact (Nested.within holder hfollows hnested).trans hrest holder .refl fun _ => hahead

theorem loop_nests {operands : List Operand} {pairs : List (String × Form)} {forms : List Form}
    {point : LoopPoint} {bounds' : Bounds} {r' : Option (List Operand)} {v : Spot}
    (horderly : Orderly plan.code) (hlabel : plan.label s.fresh = .plain handlers scope)
    (hholds : plan.Holds s (operands.map (fun operand => .effect (.const operand)) ++
      [.transfer (.jump none s.fresh)]))
    (hpoint : point = ⟨s.fresh, scope.tryDepth, .range' s.value operands.length⟩)
    (hbounds : ((Part.operands []).bounds handlers scope s).Older s)
    (hbody : Bounds.Older (Part.bounds handlers
        ((scope.bindAll ((pairs.map (·.1)).zip point.carried)).inLoop point)
        (((s.opened 1).skip (operands.length + 1)).goTo s.fresh) (.body (.literal .nil) forms))
        (((s.opened 1).skip (operands.length + 1)).goTo s.fresh) →
      plan.Nested rows (Part.bounds handlers
        ((scope.bindAll ((pairs.map (·.1)).zip point.carried)).inLoop point)
        (((s.opened 1).skip (operands.length + 1)).goTo s.fresh) (.body (.literal .nil) forms))
        (fun _ => False) (((s.opened 1).skip (operands.length + 1)).goTo s.fresh) r u)
    (hleft : r ≠ none → plan.Ahead u)
    (hrest : bounds'.Older u → plan.Nested rows bounds' (fun _ => False) u r' v)
    (hfollows : bounds'.Follows (((Part.operands []).bounds handlers scope s).widen s 1) u r)
    (hahead : r = none → r' ≠ none → plan.Ahead v)
    : plan.Nested rows ((Part.operands []).bounds handlers scope s)
        (fun id => s.value ≤ id ∧ id < s.value + operands.length) s r' v := by
  have hentered : plan.Nested rows (((Part.operands []).bounds handlers scope s).widen s 1)
      (fun id => s.value ≤ id ∧ id < s.value + operands.length) (s.opened 1)
      (some (point.carried.map .result)) ((s.opened 1).skip (operands.length + 1)) := by
    have hlength : operands.length + 1
        = (operands.map (fun operand => Command.effect (.const operand)) ++
            [Command.transfer (.jump none s.fresh)]).length := by
      simp
    rw [hlength]
    refine .row horderly (hholds.opened 1) (.inl ⟨rfl, Nat.le_refl _⟩) ?_ ?_ ?_ ?_
    . intro command hcommand id span target htarget
      rcases List.mem_append.1 hcommand with hcommand | hcommand
      . obtain ⟨operand, _, rfl⟩ := List.mem_map.1 hcommand
        cases htarget
      . cases List.mem_singleton.1 hcommand
        cases List.mem_singleton.1 htarget
        exact .inr ⟨Nat.le_refl _, Nat.lt_succ_self _⟩
    . intro command hcommand id span v hv
      rcases List.mem_append.1 hcommand with hcommand | hcommand
      . obtain ⟨operand, _, rfl⟩ := List.mem_map.1 hcommand
        exact .inr (List.mem_singleton.1 hv)
      . cases List.mem_singleton.1 hcommand
        cases hv
    . intro k command hk huse
      refine ⟨Nat.le_add_right _ _, Nat.add_lt_add_left ?_ _⟩
      refine Nat.lt_of_not_le fun hle => ?_
      rw [List.getElem?_append_right (by simpa using hle)] at hk
      cases List.mem_singleton.1 (List.mem_of_getElem? hk)
      exact huse
    . rintro v ⟨_, hr, hmem⟩
      cases hr
      simp only [hpoint, List.mem_map, Operand.result.injEq, exists_eq_right,
        List.mem_range'_1] at hmem
      rw [← hlength]
      exact .inr ⟨hmem.1, Nat.lt_succ_of_lt hmem.2⟩
  have hfollowsBody : Bounds.Follows (Part.bounds handlers
      ((scope.bindAll ((pairs.map (·.1)).zip point.carried)).inLoop point)
      (((s.opened 1).skip (operands.length + 1)).goTo s.fresh) (.body (.literal .nil) forms))
      (((Part.operands []).bounds handlers scope s).widen s 1)
      ((s.opened 1).skip (operands.length + 1)) (some (point.carried.map .result)) := by
    refine Part.follows_of (fun b hb => absurd hb (Option.not_mem_none b))
      (fun _ hb => absurd hb List.not_mem_nil) ?_ ?_ (fun b hb => .inl hb) ?_
    . rintro b i ⟨rfl, _⟩
      exact .inl (.inr ⟨Nat.le_refl _, Nat.lt_succ_self _⟩)
    . intro point' hpoint'
      rcases List.mem_cons.1 hpoint' with rfl | hpoint'
      . rw [hpoint]
        exact .inr ⟨Nat.le_refl _, Nat.lt_succ_self _⟩
      . exact .inl (.inl (.inr ⟨point', hpoint', rfl⟩))
    . intro v hv
      rcases Scope.binds_bindAll.1 (Part.binds_of_known rfl hv) with hv | hv
      . obtain ⟨pair, hpair, rfl⟩ := List.mem_map.1 hv
        exact .inr ⟨_, rfl, List.mem_map_of_mem (List.of_mem_zip hpair).2⟩
      . exact .inl (.inl hv)
  have holder := hbounds.widen 1
  refine @Nested.opened _ _ _ _ _ _ _ 1 ?_ hbounds ?_
  . have hloop := hentered.next holder hfollowsBody fun hbody' =>
      ((hbody (hbody'.mono (Nat.le_refl _) (Nat.le_refl _))).ofGoTo hleft).mono fun _ => False.elim
    exact hloop.andThen holder hfollows (fun h => (hrest h).mono fun _ => False.elim) hahead
  . intro b hlow hhigh h hh
    rw [Nat.le_antisymm (Nat.le_of_lt_succ hhigh) hlow, hlabel] at hh
    exact .inl hh

namespace TryBlocks

theorem number_range {first : BlockId} {parts : TryParts} {b : BlockId}
    (h : b = (number first parts).entry ∨ b ∈ (number first parts).cleanup ∨
      b ∈ (number first parts).dispatch ∨ b = (number first parts).exit)
    : first ≤ b ∧ b < first + count parts := by
  have hexit := number_exit first parts
  have hcount : 2 ≤ count parts := Nat.le_add_left _ _
  rcases h with rfl | hb | hb | rfl
  . exact ⟨Nat.le_refl _, Nat.lt_add_of_pos_right (Nat.lt_of_lt_of_le Nat.two_pos hcount)⟩
  . have hbounds := number_cleanup_bounds first parts b hb
    lia
  . have hbounds := number_dispatch_bounds first parts b hb
    lia
  . lia

theorem number_after_range (first : BlockId) (parts : TryParts)
    : first ≤ (number first parts).after ∧ (number first parts).after < first + count parts := by
  have hafter := number_after first parts
  have hexit := number_exit first parts
  lia

theorem number_under {blocks : TryBlocks} {parts : TryParts} {first b h : BlockId}
    (hblocks : blocks = .number first parts)
    (hentry : plan.label blocks.entry = .plain handlers scope)
    (hexit : plan.label blocks.exit = .plain handlers scope)
    (hcleanup : ∀ block ∈ blocks.cleanup,
      plan.label block = ⟨handlers, .cleanup, block :: scope.finallys⟩)
    (hdispatch : ∀ block ∈ blocks.dispatch,
      plan.label block = ⟨blocks.cleanup.toList ++ handlers, .dispatch, scope.finallys⟩)
    (hlow : first ≤ b) (hhigh : b < first + count parts) (hh : h ∈ (plan.label b).under)
    : h ∈ handlers ∨ first ≤ h ∧ h < first + count parts := by
  subst hblocks
  have hcases := number_cases first parts b hlow (by have := number_exit first parts; lia)
  rcases hcases with hb | hb | hb | hb
  . rw [hb, hentry] at hh
    exact .inl hh
  . rw [hcleanup b hb] at hh
    exact .inl hh
  . rw [hdispatch b hb] at hh
    refine (List.mem_append.1 hh).symm.imp_right fun hh => ?_
    exact number_range (.inr (.inl (Option.mem_toList.1 hh)))
  . rw [hb, hexit] at hh
    exact .inl hh

end TryBlocks

theorem attempt_nests {parts : TryParts} {blocks : TryBlocks} {live₁ live₂ live₃ : Bool}
    {t₁ t₂ t₃ v : Spot} (horderly : Orderly plan.code) (hblocks : blocks = .number s.fresh parts)
    (hentry : plan.label blocks.entry = .plain handlers scope)
    (hexit : plan.label blocks.exit = .plain handlers scope)
    (hcleanup : ∀ block ∈ blocks.cleanup,
      plan.label block = ⟨handlers, .cleanup, block :: scope.finallys⟩)
    (hdispatch : ∀ block ∈ blocks.dispatch,
      plan.label block = ⟨blocks.cleanup.toList ++ handlers, .dispatch, scope.finallys⟩)
    (hjump : plan.Holds s [.transfer (.jump none blocks.entry)])
    (hbounds : ((Part.operands []).bounds handlers scope s).Older s)
    (h₁ : (Part.bounds handlers scope { s.skip 1 with fresh := blocks.exit + 1 }
        (.guarded blocks parts.body live₁)).Older { s.skip 1 with fresh := blocks.exit + 1 } →
      plan.Nested rows (Part.bounds handlers scope { s.skip 1 with fresh := blocks.exit + 1 }
        (.guarded blocks parts.body live₁)) (fun _ => False)
        { s.skip 1 with fresh := blocks.exit + 1 } none t₁)
    (h₂ : (Part.bounds handlers scope t₁ (.catching blocks parts.catches live₂)).Older t₁ →
      plan.Nested rows (Part.bounds handlers scope t₁ (.catching blocks parts.catches live₂))
        (fun _ => False) t₁ none t₂)
    (h₃ : (Part.bounds handlers scope t₂ (.cleanup blocks parts.cleanup live₃)).Older t₂ →
      plan.Nested rows (Part.bounds handlers scope t₂ (.cleanup blocks parts.cleanup live₃))
        (fun _ => False) t₂ none t₃)
    (hrest : plan.Nested rows
      (((Part.operands []).bounds handlers scope s).widen s (TryBlocks.count parts))
      (fun _ => False) t₃ r v)
    (hahead : r ≠ none → plan.Ahead v)
    : plan.Nested rows ((Part.operands []).bounds handlers scope s) (fun _ => False) s r v := by
  have hstart : { s.skip 1 with fresh := blocks.exit + 1 }
      = (s.opened (TryBlocks.count parts)).skip 1 := by
    have hexit := TryBlocks.number_exit s.fresh parts
    rw [← hblocks] at hexit
    rw [hexit]
    rfl
  rw [hstart] at h₁
  have hrange : ∀ b, b = blocks.entry ∨ b ∈ blocks.cleanup ∨ b ∈ blocks.dispatch ∨
      b = blocks.exit → s.fresh ≤ b ∧ b < s.fresh + TryBlocks.count parts := by
    rw [hblocks]
    exact fun _ => TryBlocks.number_range
  have hafter : s.fresh ≤ blocks.after ∧ blocks.after < s.fresh + TryBlocks.count parts := by
    rw [hblocks]
    exact TryBlocks.number_after_range s.fresh parts
  have holder := (hbounds.widen (TryBlocks.count parts)).mono
    (t := (s.opened (TryBlocks.count parts)).skip 1) (Nat.le_succ _) (Nat.le_refl _)
  have hparts : ∀ (part : Part) (m : Spot), part.last? = none →
      (∀ b ∈ part.goal?, b = blocks.exit ∨ b = blocks.after) →
      (∀ b ∈ part.inner, b ∈ blocks.handlers) →
      (∀ b i, part.Home m b i → b = blocks.entry ∨ b ∈ blocks.cleanup ∨ b ∈ blocks.dispatch) →
        (part.bounds handlers scope m).Follows
          (((Part.operands []).bounds handlers scope s).widen s (TryBlocks.count parts)) m none := by
    intro part m hnone hgoal hinner hhome
    refine Part.follows_of ?_ ?_ ?_ ?_ ?_ ?_
    . intro b hb
      rcases hgoal b hb with rfl | rfl
      . exact .inr (hrange _ (.inr (.inr (.inr rfl))))
      . exact .inr hafter
    . intro b hb
      have hmem : b ∈ blocks.dispatch ∨ b ∈ blocks.cleanup :=
        (List.mem_append.1 (hinner b hb)).imp Option.mem_toList.1 Option.mem_toList.1
      have hb := hrange b (.inr (hmem.symm.imp_right .inl))
      exact ⟨.inr hb, .inr hb⟩
    . intro b i hb
      exact .inl (.inr (hrange b ((hhome b i hb).imp_right (.imp_right .inl))))
    . exact fun point hpoint => .inl (.inl (.inr ⟨point, hpoint, rfl⟩))
    . exact fun b hb => .inl hb
    . exact fun v hv => .inl (.inl (Part.binds_of_known hnone hv))
  have hguarded := Nested.within holder
    (hparts (.guarded blocks parts.body live₁) _ rfl
      (fun b hb => .inr (TryBlocks.mem_goal? hb).2) (fun b hb => hb) fun b _ hb => .inl hb) h₁
  have hcaught := hguarded.andThen holder
    (hparts (.catching blocks parts.catches live₂) _ rfl
      (fun b hb => .inr (TryBlocks.mem_goal? hb).2)
      (fun b hb => List.mem_append_right _ hb) fun b _ hb => .inr (.inr hb)) h₂
    fun _ hnone => absurd rfl hnone
  have hcleaned := hcaught.andThen holder
    (hparts (.cleanup blocks parts.cleanup live₃) _ rfl
      (fun b hb => .inl (TryBlocks.mem_goal? hb).2)
      (fun b hb => absurd hb List.not_mem_nil) fun b _ hb => .inr (.inl hb)) h₃
    fun _ hnone => absurd rfl hnone
  refine .leave _ horderly hjump hbounds ⟨rfl, Nat.le_refl _⟩ ?_ ?_ False.elim
    (hcleaned.trans hrest holder .refl fun _ => hahead) hahead
  . intro b hlow hhigh h hh
    exact TryBlocks.number_under hblocks hentry hexit hcleanup hdispatch hlow hhigh hh
  . intro b hb
    cases List.mem_singleton.1 hb
    exact hrange _ (.inl rfl)

theorem goOn_nests {transfer : Transfer} (horderly : Orderly plan.code)
    (hlabel : plan.label s.fresh = .plain handlers scope)
    (hholds : plan.Holds s [.transfer transfer]) (hrefs : transfer.references = [s.fresh])
    (hbounds : ((Part.operands []).bounds handlers scope s).Older s)
    (huses : (Command.transfer transfer).Uses → yet s.value)
    (hrest : plan.Nested rows (((Part.operands []).bounds handlers scope s).widen s 1) yet
      ((s.opened 1).skip 1) r t)
    (hahead : r ≠ none → plan.Ahead t)
    : plan.Nested rows ((Part.operands []).bounds handlers scope s) yet s r t := by
  refine .leave _ horderly hholds hbounds ⟨rfl, Nat.le_refl _⟩ ?_ ?_ huses hrest hahead
  . intro b hlow hhigh h hh
    rw [Nat.le_antisymm (Nat.le_of_lt_succ hhigh) hlow, hlabel] at hh
    exact .inl hh
  . intro b hb
    rw [hrefs, List.mem_singleton] at hb
    exact hb ▸ ⟨Nat.le_refl _, Nat.lt_succ_self _⟩

theorem finish_feeds {forms : List Form} {operand : Operand} {handler : String}
    (h : Code options plan handlers scope s (.body (.literal .nil) forms) (some [operand]) t)
    (hlength : forms.length ≤ 1)
    : ∃ operands, Place.Feeds options plan ⟨handlers, scope, s, .shape (.finish forms)⟩ forms
        operands t 0 (.transfer (.suspend handler t.fresh [operand])) := by
  match forms, hlength with
  | [], _ =>
    cases h with
    | bodyNil => exact ⟨[], .finishNone⟩
  | [form], _ =>
    cases h with
    | bodyCons hform hrest =>
      cases hrest with
      | bodyNil => exact ⟨[operand], .finish hform⟩

theorem arm_nests {meet block : BlockId} {arm : Option Form} {rest : List (Option Form × BlockId)}
    {live : Bool}
    (hbounds : (Part.bounds handlers scope s (.arms meet ((arm, block) :: rest) live)).Older s)
    (h : (Part.bounds handlers scope (s.goTo block) (.body (.literal .nil) arm.toList)).Older
        (s.goTo block) →
      plan.Nested rows
        (Part.bounds handlers scope (s.goTo block) (.body (.literal .nil) arm.toList)) yet
        (s.goTo block) r t)
    : plan.Nested rows (Part.bounds handlers scope s (.arms meet ((arm, block) :: rest) live)) yet
        (s.goTo block) r t := by
  refine .within (hbounds.goTo block) (Part.follows_within ?_ ?_ ?_ rfl) h
  . exact fun b hb => absurd hb (Option.not_mem_none b)
  . exact fun b hb => absurd hb List.not_mem_nil
  . rintro b i ⟨rfl, _⟩
    exact List.mem_cons_self

theorem TryBlocks.mem_goal_of_imp {live live' : Bool} {target b : BlockId}
    (hlive : live' = true → live = true) (h : b ∈ if live' then some target else none)
    : b ∈ if live then some target else none := by
  obtain ⟨hlive', rfl⟩ := mem_goal? h
  rw [hlive hlive']
  rfl

theorem Part.follows_arms {meet : BlockId} {first : Option Form × BlockId}
    {rest : List (Option Form × BlockId)} {live live' : Bool} {m : Spot}
    (hlive : live' = true → live = true)
    : ((Part.arms meet rest live').bounds handlers scope m).Follows
        ((Part.arms meet (first :: rest) live).bounds handlers scope s) m r := by
  refine Part.follows_within (fun b hb => TryBlocks.mem_goal_of_imp hlive hb) ?_ ?_ rfl
  . exact fun b hb => absurd hb List.not_mem_nil
  . exact fun b i hb => List.mem_cons_of_mem _ hb

theorem Part.follows_clauses {after : BlockId} {first : CatchClause × BlockId}
    {rest : List (CatchClause × BlockId)} {live live' : Bool} {m : Spot}
    (hlive : live' = true → live = true)
    : ((Part.clauses after rest live').bounds handlers scope m).Follows
        ((Part.clauses after (first :: rest) live).bounds handlers scope s) m r := by
  refine Part.follows_within (fun b hb => TryBlocks.mem_goal_of_imp hlive hb) ?_ ?_ rfl
  . exact fun b hb => absurd hb List.not_mem_nil
  . exact fun b i hb => List.mem_cons_of_mem _ hb

theorem guarded_nests {blocks : TryBlocks} {forms : List Form} {live : Bool}
    (horderly : Orderly plan.code)
    (hpush : plan.Holds (s.goTo blocks.entry)
      (blocks.handlers.reverse.map (.effect <| .pushHandler ·)))
    (hbounds : (Part.bounds handlers scope s (.guarded blocks forms live)).Older s)
    (h : (Part.bounds (blocks.handlers ++ handlers) (scope.guarded blocks.handlers.head?)
          ((s.goTo blocks.entry).skip blocks.handlers.length)
          (.body (.literal .nil) forms)).Older
        ((s.goTo blocks.entry).skip blocks.handlers.length) →
      plan.Nested rows
        (Part.bounds (blocks.handlers ++ handlers) (scope.guarded blocks.handlers.head?)
          ((s.goTo blocks.entry).skip blocks.handlers.length) (.body (.literal .nil) forms)) yet
        ((s.goTo blocks.entry).skip blocks.handlers.length) r t)
    : plan.Nested rows (Part.bounds handlers scope s (.guarded blocks forms live)) yet
        (s.goTo blocks.entry) r t := by
  have hpushed : plan.Nested rows (Part.bounds handlers scope s (.guarded blocks forms live)) yet
      (s.goTo blocks.entry) (some []) ((s.goTo blocks.entry).skip blocks.handlers.length) := by
    have hlength : blocks.handlers.length
        = (blocks.handlers.reverse.map fun b => Command.effect (.pushHandler b)).length := by
      simp
    rw [hlength]
    refine .quiet horderly hpush rfl ?_ ?_ ?_ fun v hv => absurd hv Given.nil
    . intro command hcommand id span target htarget
      obtain ⟨b, hb, rfl⟩ := List.mem_map.1 hcommand
      cases List.mem_singleton.1 htarget
      exact .inr (List.mem_reverse.1 hb)
    . simp +contextual [Instruction.writes, Effect.writes]
    . simp [Command.Uses]
  refine hpushed.next (hbounds.goTo blocks.entry) (Part.follows rfl (.inl rfl) ?_ ?_ ?_) h
  . exact fun point hpoint => .inl (.inr ⟨point, hpoint, rfl⟩)
  . exact fun b hb => hb
  . exact fun v hv => .inl (.inl (Part.binds_of_known rfl hv))

theorem catching_nests {blocks : TryBlocks} {catches : List CatchClause} {dispatch : BlockId}
    {live : Bool} (horderly : Orderly plan.code) (hdispatch : blocks.dispatch = some dispatch)
    (hholds : plan.Holds (s.goTo dispatch) [.effect (.popHandler dispatch),
      .transfer (.dispatch ((List.range' s.fresh catches.length).zip (catches.map (·.type))))])
    (hclauses : Code options plan (blocks.cleanup.toList ++ handlers) (scope.guarded blocks.cleanup)
      (((s.opened catches.length).goTo dispatch).skip 2)
      (.clauses blocks.after (catches.zip (.range' s.fresh catches.length)) live) none t)
    (hbounds : (Part.bounds handlers scope s (.catching blocks catches live)).Older s)
    (h : (Part.bounds (blocks.cleanup.toList ++ handlers) (scope.guarded blocks.cleanup)
          (((s.opened catches.length).goTo dispatch).skip 2)
          (.clauses blocks.after (catches.zip (.range' s.fresh catches.length)) live)).Older
        (((s.opened catches.length).goTo dispatch).skip 2) →
      plan.Nested rows (Part.bounds (blocks.cleanup.toList ++ handlers)
          (scope.guarded blocks.cleanup) (((s.opened catches.length).goTo dispatch).skip 2)
          (.clauses blocks.after (catches.zip (.range' s.fresh catches.length)) live)) yet
        (((s.opened catches.length).goTo dispatch).skip 2) none t)
    : plan.Nested rows (Part.bounds handlers scope s (.catching blocks catches live)) yet s none t
    := by
  have hblocks : ∀ b ∈ (catches.zip (List.range' s.fresh catches.length)).map (·.2),
      s.fresh ≤ b ∧ b < s.fresh + catches.length := by
    rw [List.map_snd_zip (by simp)]
    exact fun b hb => List.mem_range'_1.1 hb
  have holder := (hbounds.widen catches.length).goTo dispatch
  have hpicked : plan.Nested rows
      ((Part.bounds handlers scope s (.catching blocks catches live)).widen s catches.length) yet
      ((s.opened catches.length).goTo dispatch) none
      (((s.opened catches.length).goTo dispatch).skip 2) := by
    refine .quiet horderly (hholds.opened catches.length) (.inl hdispatch) ?_ ?_ ?_
      fun v hv => absurd hv Given.none
    . intro command hcommand id span target htarget
      rcases List.mem_cons.1 hcommand with rfl | hcommand
      . cases htarget
      . cases List.mem_singleton.1 hcommand
        obtain ⟨clause, hclause, rfl⟩ := List.mem_map.1 htarget
        exact .inr (List.mem_range'_1.1 (List.of_mem_zip hclause).1)
    . simp [Instruction.writes, Effect.writes]
    . simp [Command.Uses]
  have hfollows : Bounds.Follows (Part.bounds (blocks.cleanup.toList ++ handlers)
      (scope.guarded blocks.cleanup) (((s.opened catches.length).goTo dispatch).skip 2)
      (.clauses blocks.after (catches.zip (.range' s.fresh catches.length)) live))
      ((Part.bounds handlers scope s (.catching blocks catches live)).widen s catches.length)
      (((s.opened catches.length).goTo dispatch).skip 2) none := by
    refine Part.follows_of (fun b hb => .inl (.inl (.inl hb)))
      (fun b hb => absurd hb List.not_mem_nil) (fun b i hb => .inl (.inr (hblocks b hb))) ?_
      (fun b hb => .inl hb) fun v hv => .inl (.inl (Part.binds_of_known rfl hv))
    exact fun point hpoint => .inl (.inl (.inr ⟨point, hpoint, rfl⟩))
  refine ((hpicked.andThen holder hfollows h fun _ => absurd rfl).ofGoTo (absurd rfl)).opened hbounds
    ?_
  intro b hlow hhigh h hh
  have hlabel := hclauses.clauses_label b (by
    rw [List.map_snd_zip (by simp), List.mem_range'_1]
    exact ⟨hlow, hhigh⟩)
  rw [hlabel] at hh
  exact .inl hh

theorem clause_nests {after block : BlockId} {clause : CatchClause}
    {rest : List (CatchClause × BlockId)} {live : Bool} (horderly : Orderly plan.code)
    (hreceive : plan.Holds (s.goTo block) [.receive])
    (hbounds : (Part.bounds handlers scope s (.clauses after ((clause, block) :: rest) live)).Older s)
    (h : (Part.bounds handlers (scope.bind clause.name s.value) ((s.goTo block).skip 1)
          (.body (.literal .nil) clause.body)).Older ((s.goTo block).skip 1) →
      plan.Nested rows (Part.bounds handlers (scope.bind clause.name s.value)
          ((s.goTo block).skip 1) (.body (.literal .nil) clause.body)) yet
        ((s.goTo block).skip 1) r t)
    : plan.Nested rows (Part.bounds handlers scope s (.clauses after ((clause, block) :: rest) live))
        yet (s.goTo block) r t := by
  have hreceived : plan.Nested rows
      (Part.bounds handlers scope s (.clauses after ((clause, block) :: rest) live)) yet
      (s.goTo block) (some [.result s.value]) ((s.goTo block).skip 1) := by
    refine .quiet horderly hreceive List.mem_cons_self ?_ ?_ ?_ ?_
    . simp [Command.receive, Instruction.targets]
    . simp [Command.receive, Instruction.writes, Effect.writes]
    . simp [Command.receive, Command.Uses]
    . rintro v hv
      cases hv.result
      exact ⟨Nat.le_refl _, Nat.lt_succ_self _⟩
  refine hreceived.next (hbounds.goTo block) (Part.follows_of ?_ ?_ ?_ ?_ ?_ ?_) h
  . exact fun b hb => absurd hb (Option.not_mem_none b)
  . exact fun b hb => absurd hb List.not_mem_nil
  . rintro b i ⟨rfl, _⟩
    exact .inl List.mem_cons_self
  . exact fun point hpoint => .inl (.inr ⟨point, hpoint, rfl⟩)
  . exact fun b hb => hb
  . exact fun v hv => bind_known (Part.binds_of_known rfl hv)

theorem cleanup_nests {blocks : TryBlocks} {forms : List Form} {block : BlockId} {live : Bool}
    (horderly : Orderly plan.code) (hcleanup : blocks.cleanup = some block)
    (hholds : plan.Holds (s.goTo block)
      [.receive, .effect .takeException, .effect (.popHandler block)])
    (hbounds : (Part.bounds handlers scope s (.cleanup blocks (some forms) live)).Older s)
    (h : (Part.bounds handlers (scope.inFinally block) ((s.goTo block).skip 3)
          (.body (.literal .nil) forms)).Older ((s.goTo block).skip 3) →
      plan.Nested rows (Part.bounds handlers (scope.inFinally block) ((s.goTo block).skip 3)
          (.body (.literal .nil) forms)) yet ((s.goTo block).skip 3) r t)
    : plan.Nested rows (Part.bounds handlers scope s (.cleanup blocks (some forms) live)) yet
        (s.goTo block) r t := by
  have hentered : plan.Nested rows
      (Part.bounds handlers scope s (.cleanup blocks (some forms) live)) yet (s.goTo block)
      (some []) ((s.goTo block).skip 3) := by
    refine .quiet horderly hholds hcleanup ?_ ?_ ?_ fun v hv => absurd hv Given.nil
    . simp [Command.receive, Instruction.targets]
    . simp [Command.receive, Instruction.writes, Effect.writes]
    . simp [Command.receive, Command.Uses]
  refine hentered.next (hbounds.goTo block) (Part.follows_of ?_ ?_ ?_ ?_ ?_ ?_) h
  . exact fun b hb => absurd hb (Option.not_mem_none b)
  . exact fun b hb => absurd hb List.not_mem_nil
  . rintro b i ⟨rfl, _⟩
    exact .inl hcleanup
  . exact fun point hpoint => .inl (.inr ⟨point, hpoint, rfl⟩)
  . exact fun b hb => hb
  . exact fun v hv => .inl (.inl (Part.binds_of_known rfl hv))

theorem Code.nests {part : Part} (horderly : Orderly plan.code)
    (h : Code options plan handlers scope s part r t) (hfit : part.Fit handlers scope s)
    (hcomprises : Comprises options plan root ⟨handlers, scope, s, part⟩)
    : plan.Nested (Rows options plan root) (part.bounds handlers scope s) (fun _ => False) s r t := by
  -- The code of a part is that of smaller parts, one after the other, with rows of instructions in
  -- between. A row that uses values comes right behind their code, which is secluded from there on.
  induction h with
  | form hexpand hreads _ ih =>
    exact .within hfit.older (Part.follows_plain rfl rfl rfl) fun holder =>
      ih ⟨holder, hfit.sorted, hreads.whole⟩
        (hcomprises.step (.form hexpand hreads))
  | value =>
    refine .refl (fun _ => ⟨rfl, Nat.le_refl _⟩) fun v hv => ?_
    cases hv.one
    exact .inl (hfit.whole.binds v (List.mem_singleton.2 rfl))
  | performStop _ ih | body _ ih | selectStop _ ih | bind _ ih | loopStop _ ih | recurStop _ ih
  | suspendStop _ ih | finishStop _ ih | operandsStop _ ih | bodyStop _ ih | bindingsNil _ ih
  | bindingsStop _ ih => exact Part.first_nests rfl hfit hcomprises ih
  | @perform handlers scope s t job items operands hoperands hholds ih =>
    have hitems := Part.first_nests rfl hfit hcomprises ih
    refine (Place.Feeds.perform hoperands).nests horderly hcomprises (hfit.first rfl) hfit.older
      hholds hitems (.row horderly hholds ⟨rfl, Nat.le_refl _⟩ ?_ ?_ (uses_first (by simp)) ?_)
    . intro command hcommand id span target htarget
      cases List.mem_singleton.1 hcommand
      exact absurd htarget (Job.effect_targets job operands)
    . intro command hcommand id span v hv
      cases List.mem_singleton.1 hcommand
      exact (Job.effect_writes hv).symm.imp_left fun hv => .inl (hfit.whole.binds v hv)
    . rintro v hv
      cases hv.result
      exact .inr ⟨Nat.le_refl _, Nat.lt_succ_self _⟩
  | @select handlers scope s t u choice value arms operand hvalue hlabel hholds harms hreceive ih
      ihArms =>
    have hpicked := Part.first_nests rfl hfit hcomprises ih
    have hproper := hfit.whole.proper
    refine hpicked.next hfit.older (Part.follows_rest (by simp)) fun holder => ?_
    refine branch_nests horderly (fun htest => by subst htest; exact hproper) hlabel hholds harms
      holder (fun holder' => ihArms ⟨holder', ?_, trivial⟩ (hcomprises.step (.arms hvalue)))
      (.receive horderly hreceive (.inr ⟨Nat.le_add_right _ _, Nat.lt_succ_self _⟩))
      fun _ => hreceive.ahead_next horderly
    exact hfit.sorted.mono (Nat.le_succ_of_le hvalue.value_le)
  | @selectDead handlers scope s t u choice value arms operand hvalue hlabel hholds harms ih
      ihArms =>
    have hpicked := Part.first_nests rfl hfit hcomprises ih
    have hproper := hfit.whole.proper
    refine hpicked.next hfit.older (Part.follows_rest (by simp)) fun holder => ?_
    refine branch_nests horderly (fun htest => by subst htest; exact hproper) hlabel hholds harms
      holder (fun holder' => ihArms ⟨holder', ?_, trivial⟩ (hcomprises.step (.arms hvalue)))
      (.refl (absurd rfl) fun v hv => absurd hv Given.none) (absurd rfl)
    exact hfit.sorted.mono (Nat.le_succ_of_le hvalue.value_le)
  | @loop handlers scope s t u pairs forms operands operand point hoperands hlabel hholds hpoint _
      hlabel' hjump hreceive ih ihBody =>
    have hinits := Part.first_nests rfl hfit hcomprises ih
    have hsorted := hfit.sorted.mono hoperands.value_le
    refine hinits.used (loop_nests horderly hlabel hholds hpoint ?_ (fun holder =>
      ihBody ⟨holder, ?_, trivial⟩ (hcomprises.step (.loop hoperands hpoint)))
      (fun _ => (Holds.starts hjump (by simp)).ahead horderly) (fun holder =>
        goOn_nests horderly hlabel' hjump rfl holder False.elim
          (.receive horderly hreceive (.inr ⟨Nat.le_refl _, Nat.lt_succ_self _⟩))
          fun _ => hreceive.ahead_next horderly) ?_ fun hr => absurd hr (Option.some_ne_none _))
      hfit.older (Part.follows_rest (by simp))
      (fun _ hv => .inl (Part.binds_of_known rfl hv)) ?_
    . exact hinits.follow hfit.older (Part.follows_rest (by simp))
    . exact hsorted.looped hoperands.length_operands (by rw [hpoint])
    . refine Part.follows rfl (.inr (by simp)) ?_ (fun b hb => .inl hb)
        fun v hv => .inl (.inl (Part.binds_of_known rfl hv))
      exact fun point hpoint => .inl (.inl (.inr ⟨point, hpoint, rfl⟩))
    . exact Rows.loop horderly hholds hcomprises hoperands (hfit.first rfl)
  | @loopDead handlers scope s t u pairs forms operands point hoperands hlabel hholds hpoint _ ih
      ihBody =>
    have hinits := Part.first_nests rfl hfit hcomprises ih
    have hsorted := hfit.sorted.mono hoperands.value_le
    refine hinits.used (loop_nests horderly hlabel hholds hpoint ?_ (fun holder =>
      ihBody ⟨holder, ?_, trivial⟩ (hcomprises.step (.loop hoperands hpoint))) (absurd rfl)
      (fun _ => .refl (absurd rfl) fun v hv => absurd hv Given.none) .refl
      fun _ => absurd rfl) hfit.older (Part.follows_rest (by simp))
      (fun _ hv => .inl (Part.binds_of_known rfl hv)) ?_
    . exact hinits.follow hfit.older (Part.follows_rest (by simp))
    . exact hsorted.looped hoperands.length_operands (by rw [hpoint])
    . exact Rows.loop horderly hholds hcomprises hoperands (hfit.first rfl)
  | @recur handlers scope s t point outer args operands hloops hdepth hoperands _ hholds ih =>
    have hargs := Part.first_nests rfl hfit hcomprises ih
    refine (Place.Feeds.recur hoperands).nests horderly hcomprises (hfit.first rfl) hfit.older
      hholds hargs (.row horderly hholds ⟨rfl, Nat.le_refl _⟩ ?_ ?_
        (uses_first (by simp [Command.Uses])) fun v hv => absurd hv Given.none)
    . intro command hcommand id span target htarget
      rcases List.mem_cons.1 hcommand with rfl | hcommand
      . cases htarget
      . cases List.mem_singleton.1 hcommand
        cases List.mem_singleton.1 htarget
        exact .inl (.inr ⟨point, hloops ▸ List.mem_cons_self, rfl⟩)
    . intro command hcommand id span v hv
      rcases List.mem_cons.1 hcommand with rfl | hcommand
      . exact .inl (.inl (hfit.sorted.carried point (hloops ▸ List.mem_cons_self) v hv))
      . cases List.mem_singleton.1 hcommand
        cases hv
  | suspend hoperands hlabel hholds hreceive ih =>
    have hargs := Part.first_nests rfl hfit hcomprises ih
    refine (Place.Feeds.suspend hoperands).nests horderly hcomprises (hfit.first rfl) hfit.older
      hholds hargs (goOn_nests horderly hlabel hholds rfl ?_ (fun _ => rfl)
        (.receive horderly hreceive (.inr ⟨Nat.le_refl _, Nat.lt_succ_self _⟩))
        fun _ => hreceive.ahead_next horderly)
    exact hargs.follow hfit.older (Part.follows_rest (by simp))
  | finish _ _ hholds ih =>
    have hvalue := Part.first_nests rfl hfit hcomprises ih
    exact hvalue.proceed (by simp) horderly hfit.older hholds
      (by simp [Instruction.targets, Transfer.references]) (by simp [Instruction.writes])
      (by simp [Command.Uses])
  | finishBy hbody _ hlabel hholds hfinish ih =>
    have hvalue := Part.first_nests rfl hfit hcomprises ih
    obtain ⟨operands, hfeeds⟩ := finish_feeds hbody (hfit.whole.ends _ rfl)
    refine hfeeds.nests horderly hcomprises ⟨hfit.older, hfit.sorted, trivial⟩ hfit.older hholds
      hvalue (goOn_nests horderly hlabel hholds rfl ?_ (fun _ => rfl) ?_ (absurd rfl))
    . exact hvalue.follow hfit.older (Part.follows_rest (by simp))
    . refine .ofGoTo (.quiet horderly hfinish (.inr ⟨Nat.le_refl _, Nat.lt_succ_self _⟩) ?_ ?_ ?_
        fun v hv => absurd hv Given.none) (absurd rfl)
      . simp [Command.receive, Instruction.targets, Transfer.references]
      . simp [Command.receive, Instruction.writes, Effect.writes]
      . simp [Command.receive, Command.Uses]
  | @attempt handlers scope s t₁ t₂ t₃ parts blocks live₁ live₂ live₃ hblocks hentry hexit hcleanup
      hdispatch hjump hguarded hcatching hcleaning _ hreceive ih₁ ih₂ ih₃ =>
    have hsorted := hfit.sorted.mono (Nat.le_succ s.value)
    have hsorted' := hsorted.mono hguarded.value_le
    refine attempt_nests horderly hblocks hentry hexit hcleanup hdispatch hjump hfit.older
      (fun holder => ih₁ ⟨holder, hsorted, trivial⟩ (hcomprises.step (.guarded hblocks)))
      (fun holder => ih₂ ⟨holder, hsorted', trivial⟩
        (hcomprises.step (.catching hblocks hguarded)))
      (fun holder => ih₃ ⟨holder, hsorted'.mono hcatching.value_le, trivial⟩
        (hcomprises.step (.cleanup hblocks hguarded hcatching)))
      (.receive horderly hreceive (.inr ?_)) fun _ => hreceive.ahead_next horderly
    rw [hblocks]
    exact TryBlocks.number_range (.inr (.inr (.inr rfl)))
  | @attemptDead handlers scope s t₁ t₂ t₃ parts blocks live₁ live₂ live₃ hblocks hentry hexit
      hcleanup hdispatch hjump hguarded hcatching hcleaning _ ih₁ ih₂ ih₃ =>
    have hsorted := hfit.sorted.mono (Nat.le_succ s.value)
    have hsorted' := hsorted.mono hguarded.value_le
    exact attempt_nests horderly hblocks hentry hexit hcleanup hdispatch hjump hfit.older
      (fun holder => ih₁ ⟨holder, hsorted, trivial⟩ (hcomprises.step (.guarded hblocks)))
      (fun holder => ih₂ ⟨holder, hsorted', trivial⟩
        (hcomprises.step (.catching hblocks hguarded)))
      (fun holder => ih₃ ⟨holder, hsorted'.mono hcatching.value_le, trivial⟩
        (hcomprises.step (.cleanup hblocks hguarded hcatching)))
      (.refl (absurd rfl) fun v hv => absurd hv Given.none) (absurd rfl)
  | operandsNil =>
    refine .refl (fun _ => ⟨rfl, Nat.le_refl _⟩) ?_
    rintro v ⟨_, hr, hmem⟩
    cases hr
    cases hmem
  | @operandsCons handlers scope s t u form rest operand operands hform hrest ih ihRest =>
    have hfirst := Part.first_nests rfl hfit hcomprises ih
    have hfollows : ((Part.operands rest).bounds handlers scope t).Follows
        ((Part.operands (form :: rest)).bounds handlers scope s) t (some [operand]) :=
      Part.follows_rest (by simp)
    refine hfirst.join (ihRest ⟨hfirst.follow hfit.older hfollows,
      hfit.sorted.mono hform.value_le, trivial⟩ (hcomprises.step (.operands hform))) hfit.older
      hfollows (fun _ => ⟨Option.some_ne_none _, fun hr => absurd hr (Option.some_ne_none _)⟩) ?_
    rintro v ⟨_, hr, hmem⟩
    cases hr
    rcases List.mem_cons.1 hmem with rfl | hmem
    . exact .inl ⟨_, rfl, List.mem_singleton.2 rfl⟩
    . exact .inr ⟨_, rfl, hmem⟩
  | @operandsStopLater handlers scope s t u form rest operand hform hrest ih ihRest =>
    have hfirst := Part.first_nests rfl hfit hcomprises ih
    exact hfirst.next hfit.older (Part.follows_rest (by simp)) fun holder =>
      ihRest ⟨holder, hfit.sorted.mono hform.value_le, trivial⟩ (hcomprises.step (.operands hform))
  | bodyNil =>
    refine .refl (fun _ => ⟨rfl, Nat.le_refl _⟩) fun v hv => ?_
    cases hv.one
    exact .inr rfl
  | @bodyCons handlers scope s r t u form rest last operand hform hrest ih ihRest =>
    have hfirst := Part.first_nests rfl hfit hcomprises ih
    refine hfirst.next hfit.older (Part.follows rfl (.inr (by simp)) ?_ ?_ ?_) fun holder =>
      ihRest ⟨holder, hfit.sorted.mono hform.value_le, trivial⟩ (hcomprises.step (.body hform))
    . exact fun point hpoint => .inl (.inr ⟨point, hpoint, rfl⟩)
    . exact fun b hb => hb
    . rintro v (hv | hv)
      . exact .inl (.inl hv)
      . exact .inr ⟨_, rfl, List.mem_singleton.2 (Part.eq_of_mem_last? hv).symm⟩
  | @bindingsCopy handlers scope s r t u name init pairs forms operand hinit hholds hrest ih
      ihRest =>
    have hfirst := Part.first_nests rfl hfit hcomprises ih
    refine (Place.Feeds.copy hinit).nests horderly hcomprises ⟨hfit.older, hfit.sorted, trivial⟩
      hfit.older hholds hfirst ?_
    have hsorted := hfit.sorted.mono hinit.value_le
    have hcopied : plan.Nested (Rows options plan root)
        ((Part.operands []).bounds handlers scope t) (· = t.value) t (some [.result t.value])
        (t.skip 1) := by
      refine .row horderly hholds ⟨rfl, Nat.le_refl _⟩ ?_ ?_ (uses_first (by simp)) ?_
      . simp [Instruction.targets]
      . simp [Instruction.writes, Effect.writes]
      . rintro v hv
        cases hv.result
        exact .inr ⟨Nat.le_refl _, Nat.lt_succ_self _⟩
    have hfollows : ((Part.bindings pairs forms).bounds handlers (scope.bind name t.value)
        (t.skip 1)).Follows ((Part.operands []).bounds handlers scope t) (t.skip 1)
          (some [.result t.value]) :=
      Part.follows rfl (.inr (by simp)) (fun point hpoint => .inl (.inr ⟨point, hpoint, rfl⟩))
        (fun b hb => hb) fun v hv => bind_known (Part.binds_of_known rfl hv)
    refine hcopied.next (hfirst.follow hfit.older (Part.follows_rest (by simp))) hfollows
      fun holder => ?_
    refine (ihRest ⟨holder, ?_, trivial⟩ (hcomprises.step (.bindingsCopy hinit hholds))).mono
      fun _ => False.elim
    exact (hsorted.mono (Nat.le_succ _)).bind name (Nat.lt_succ_self _)
  | @bindingsKeep handlers scope s r t u name init pairs forms id hinit hnew hrest ih ihRest =>
    have hfirst := Part.first_nests rfl hfit hcomprises ih
    refine hfirst.next hfit.older (Part.follows rfl (.inr (by simp)) ?_ ?_ ?_) fun holder =>
      ihRest ⟨holder, ?_, trivial⟩ (hcomprises.step (.bindingsKeep hinit hnew))
    . exact fun point hpoint => .inl (.inr ⟨point, hpoint, rfl⟩)
    . exact fun b hb => hb
    . exact fun v hv => bind_known (Part.binds_of_known rfl hv)
    . exact (hfit.sorted.mono hinit.value_le).bind name
        (hfirst.given_lt hfit.older ⟨_, rfl, List.mem_singleton.2 rfl⟩)
  | armsNil | clausesNil | catchingNone | cleanupNone =>
    exact .refl (absurd rfl) fun v hv => absurd hv Given.none
  | @armsLive handlers scope s t u meet block arm rest operand live _ harm hjump hrest ih ihRest =>
    have hbody := arm_nests hfit.older fun holder =>
      ih ⟨holder, hfit.sorted, trivial⟩ (hcomprises.step .arm)
    have hleft := hbody.handOver (by simp) horderly (hfit.older.goTo block) hjump (.inl (.inl rfl))
    exact (hleft.ofGoTo (absurd rfl)).andThen hfit.older (Part.follows_arms fun _ => rfl)
      (fun holder => ihRest ⟨holder, hfit.sorted.mono (Nat.le_succ_of_le harm.value_le), trivial⟩
        (hcomprises.step (.armsLive harm))) fun _ => absurd rfl
  | @armsDead handlers scope s t u meet block arm rest live _ harm hrest ih ihRest =>
    have hbody := arm_nests hfit.older fun holder =>
      ih ⟨holder, hfit.sorted, trivial⟩ (hcomprises.step .arm)
    exact (hbody.ofGoTo (absurd rfl)).andThen hfit.older (Part.follows_arms id)
      (fun holder => ihRest ⟨holder, hfit.sorted.mono harm.value_le, trivial⟩
        (hcomprises.step (.armsDead harm))) fun _ => absurd rfl
  | @guardedLive handlers scope s t blocks forms operand hpush hbody hpop ih =>
    have hguarded := guarded_nests horderly hpush hfit.older fun holder =>
      ih ⟨holder, (hfit.sorted.mono (Nat.le_add_right _ _)).guarded _, trivial⟩
        (hcomprises.step .guardedBody)
    have hlength : blocks.handlers.length + 1
        = (blocks.handlers.map (fun b => Command.effect (.popHandler b)) ++
            [Command.handOver operand blocks.after]).length := by
      simp
    rw [hlength]
    refine (hguarded.proceed (by simp) horderly (hfit.older.goTo blocks.entry) hpop ?_ ?_
      ?_).ofGoTo (absurd rfl)
    . intro command hcommand id span target htarget
      rcases List.mem_append.1 hcommand with hcommand | hcommand
      . obtain ⟨b, _, rfl⟩ := List.mem_map.1 hcommand
        cases htarget
      . cases List.mem_singleton.1 hcommand
        cases List.mem_singleton.1 htarget
        exact .inl (.inl rfl)
    . simp +contextual [Command.handOver, Instruction.writes, Effect.writes, or_imp]
    . simp +contextual [Command.handOver, Command.Uses, or_imp]
  | @guardedDead handlers scope s t blocks forms hpush hbody ih =>
    have hguarded := guarded_nests horderly hpush hfit.older fun holder =>
      ih ⟨holder, (hfit.sorted.mono (Nat.le_add_right _ _)).guarded _, trivial⟩
        (hcomprises.step .guardedBody)
    exact hguarded.ofGoTo (absurd rfl)
  | @catching handlers scope s t blocks catches dispatch live hdispatch hholds hclauses ih =>
    exact catching_nests horderly hdispatch hholds hclauses hfit.older fun holder =>
      ih ⟨holder, (hfit.sorted.mono (Nat.le_add_right _ _)).guarded _, trivial⟩
        (hcomprises.step (.clauses hdispatch))
  | @clausesLive handlers scope s t u after block clause rest operand live _ hreceive hclause hjump
      hrest ih ihRest =>
    have hsorted := hfit.sorted.mono (Nat.le_succ s.value)
    have hbody := clause_nests horderly hreceive hfit.older fun holder =>
      ih ⟨holder, hsorted.bind clause.name (Nat.lt_succ_self _), trivial⟩ (hcomprises.step .clause)
    have hleft := hbody.handOver (by simp) horderly (hfit.older.goTo block) hjump (.inl (.inl rfl))
    exact (hleft.ofGoTo (absurd rfl)).andThen hfit.older (Part.follows_clauses fun _ => rfl)
      (fun holder => ihRest ⟨holder, hsorted.mono (Nat.le_succ_of_le hclause.value_le), trivial⟩
        (hcomprises.step (.clausesLive hclause))) fun _ => absurd rfl
  | @clausesDead handlers scope s t u after block clause rest live _ hreceive hclause hrest ih
      ihRest =>
    have hsorted := hfit.sorted.mono (Nat.le_succ s.value)
    have hbody := clause_nests horderly hreceive hfit.older fun holder =>
      ih ⟨holder, hsorted.bind clause.name (Nat.lt_succ_self _), trivial⟩ (hcomprises.step .clause)
    exact (hbody.ofGoTo (absurd rfl)).andThen hfit.older (Part.follows_clauses id)
      (fun holder => ihRest ⟨holder, hsorted.mono hclause.value_le, trivial⟩
        (hcomprises.step (.clausesDead hclause))) fun _ => absurd rfl
  | @cleanupLive handlers scope s t blocks forms block operand hcleanup hholds hbody hend ih =>
    have hcleaned := cleanup_nests horderly hcleanup hholds hfit.older fun holder =>
      ih ⟨holder, (hfit.sorted.mono (Nat.le_add_right _ _)).inFinally _, trivial⟩
        (hcomprises.step (.cleanupBody hcleanup))
    refine (hcleaned.proceed (by simp) horderly (hfit.older.goTo block) hend ?_ ?_ ?_).ofGoTo
      (absurd rfl)
    . have hexit : (Part.bounds handlers scope s (.cleanup blocks (some forms) true)).goals
          blocks.exit := .inl (.inl rfl)
      simpa [Command.handOver, Instruction.targets, Transfer.references] using hexit
    . simp [Command.handOver, Instruction.writes, Effect.writes]
    . simp [Command.handOver, Command.Uses]
  | @cleanupDead handlers scope s t blocks forms block hcleanup hholds hbody ih =>
    have hcleaned := cleanup_nests horderly hcleanup hholds hfit.older fun holder =>
      ih ⟨holder, (hfit.sorted.mono (Nat.le_add_right _ _)).inFinally _, trivial⟩
        (hcomprises.step (.cleanupBody hcleanup))
    exact hcleaned.ofGoTo (absurd rfl)

end Resumable
