import Resumable.Proofs.Lowering.Laid

/-!
This module contains the proof that the lowering of `try` lays out the code of its protected body,
of its clauses and of its `finally`, each under the handlers that are in force there.
-/

namespace Resumable

namespace Lower

variable {options : CompileOptions} {lower : Form → Lower Lowered} {d d' : Draft}

theorem withCatch_ok {α : Type} {handler : Option BlockId} {step : Lower α} {a : α}
    (h : withCatch handler step d = .ok a d')
    : ∃ t, step (d.within (d.scope.guarded handler)) = .ok a t ∧
        (t.scope = d.scope.guarded handler → d' = t.within d.scope) := by
  cases handler with
  | none =>
    refine ⟨d', h, ?_⟩
    intro hscope
    have hsame : d.scope.guarded none = d.scope := rfl
    rw [← hsame, ← hscope]
    rfl
  | some block =>
    unfold withCatch at h
    obtain ⟨t, hstep, rfl⟩ := within_ok.1 h
    refine ⟨t, hstep, ?_⟩
    intro hscope
    rw [hscope]
    rfl

theorem guarded_grows (hlower : Faithful options lower) {blocks : TryBlocks} {forms : List Form}
    {span : Span} {lowered : Lowered} {live : Bool} {e : Draft} (htidy : d.Tidy)
    (hblank : blocks.entry < d.spot.fresh ∧ d.code blocks.entry = [])
    (hbody : withCatch blocks.handlers.head? (body lower forms)
      ((d.goTo blocks.entry).pushAll
        (blocks.handlers.reverse.map fun block => (.pushHandler block, span))) = .ok lowered e)
    (hhand : handOver lowered blocks.handlers blocks.after span e = .ok live d')
    : Draft.Grows (· = blocks.entry) False d d' (fun handlers plan =>
        Code options plan handlers d.scope d.spot (.guarded blocks forms live) none d'.spot) ∧
      d'.scope = d.scope := by
  have hat := Draft.Grows.goTo htidy hblank.1 hblank.2
  have hspot := Draft.goTo_spot hblank.2
  have hpushed := Draft.Grows.pushAll hat.tidy (hat.isOpen trivial)
    (blocks.handlers.reverse.map fun block => (.pushHandler block, span))
  have hspot' := Draft.pushAll_spot hat.tidy (hat.isOpen trivial)
    (blocks.handlers.reverse.map fun block => (.pushHandler block, span))
  have hscope := Draft.pushAll_scope hat.tidy (hat.isOpen trivial)
    (blocks.handlers.reverse.map fun block => (.pushHandler block, span))
  rw [List.length_map, List.length_reverse, hspot] at hspot'
  rw [List.map_map, hspot] at hpushed
  generalize (d.goTo blocks.entry).pushAll
    (blocks.handlers.reverse.map fun block => (.pushHandler block, span)) = g at *
  obtain ⟨t, hforms, hleave⟩ := withCatch_ok hbody
  have hlaid := body_laid hlower (hpushed.tidy.within (g.scope.guarded blocks.handlers.head?))
    (hpushed.isOpen trivial) hforms
  obtain rfl := hleave hlaid.scope
  have hgrows := (hat.next hpushed).next
    ((hlaid.toGrows.inside (blocks.handlers ++ ·)).within g.scope)
  have htidy' := hgrows.tidy
  rcases handOver_ok htidy' hgrows.isOpen hhand with ⟨rfl, rfl, rfl⟩ | ⟨operand, rfl, rfl, rfl⟩
  . refine ⟨(hgrows.weaken (fun _ _ ht => ht) (by simp)).map ?_, hscope⟩
    rintro handlers plan ⟨⟨_, hholds⟩, hcode⟩
    simp only [Draft.within_spot, Draft.within_scope] at hcode
    rw [hscope, hspot'] at hcode
    exact .guardedDead hholds hcode
  . have hopen := hgrows.isOpen rfl
    refine ⟨(hgrows.next (handOver_grows htidy' hopen blocks.handlers operand blocks.after
      span)).map ?_, ?_⟩
    . rintro handlers plan ⟨⟨⟨_, hholds⟩, hcode⟩, hhanded⟩
      simp only [Draft.within_spot, Draft.within_scope] at hcode hhanded
      rw [hscope, hspot'] at hcode
      rw [handOver_spot htidy' hopen]
      exact .guardedLive hholds hcode hhanded
    . rw [handOver_scope htidy' hopen]
      exact hscope

theorem clauseBody_grows (hlower : Faithful options lower) {name : String} {caught : ValueId}
    {forms : List Form} {lowered : Lowered} (htidy : d.Tidy) (hopen : d.Open)
    (h : withLocals (do
      bindLocal name caught
      body lower forms) d = .ok lowered d')
    : Draft.Grows (· = d.spot.block) (lowered.operands.isSome = true) d d' (fun handlers plan =>
        Code options plan handlers (d.scope.bind name caught) d.spot
          (.body (.literal .nil) forms) lowered.operands d'.spot) ∧
      d'.scope = d.scope := by
  obtain ⟨t, hbody, rfl⟩ := withLocals_ok.1 h
  obtain ⟨_, _, hbind, hforms⟩ := bind_ok.1 hbody
  obtain rfl := bindLocal_ok.1 hbind
  have hlaid := body_laid hlower (htidy.within (d.scope.bind name caught)) hopen hforms
  refine ⟨hlaid.toGrows.within _, ?_⟩
  rw [Draft.within_scope, hlaid.scope]
  exact keepLocals_bindAll d.scope [(name, caught)]

theorem clauses_grows (hlower : Faithful options lower) {after : BlockId} {span : Span}
    {clauses : List (CatchClause × BlockId)} {live : Bool} (htidy : d.Tidy)
    (hblank : d.Blank (clauses.map (·.2))) (hnodup : (clauses.map (·.2)).Nodup)
    (h : catchBodies lower after span clauses d = .ok live d')
    : Draft.Grows (fun b => b = d.spot.block ∨ b ∈ clauses.map (·.2)) False d d'
        (fun handlers plan => (∀ b ∈ clauses.map (·.2), plan.label b = .plain handlers d.scope) →
          Code options plan handlers d.scope d.spot (.clauses after clauses live) none d'.spot) ∧
      d'.scope = d.scope := by
  induction clauses generalizing d live with
  | nil =>
    obtain ⟨rfl, rfl⟩ := pure_ok.1 h
    refine ⟨((Draft.Grows.refl htidy).weaken (fun _ _ ht => .inl ht) (by simp)).map ?_, rfl⟩
    intro handlers plan _ _
    exact .clausesNil
  | cons entry clauses ih =>
    obtain ⟨clause, block⟩ := entry
    rw [List.map_cons, List.nodup_cons] at hnodup
    obtain ⟨hinside, hempty⟩ := hblank block (by simp)
    have hlater : ∀ {g : Draft}, Draft.Extends (· = block) d g → g.Blank (clauses.map (·.2)) := by
      intro g hext
      refine (hblank.subset (List.subset_cons_self _ _)).mono hext ?_
      rintro b hb rfl
      exact hnodup.1 hb
    unfold catchBodies at h
    obtain ⟨_, _, henter, hrest⟩ := bind_ok.1 h
    obtain ⟨lowered, e, hbody, hrest⟩ := bind_ok.1 hrest
    obtain ⟨here, f, hhand, hrest⟩ := bind_ok.1 hrest
    obtain ⟨more, _, hmore, hlive⟩ := bind_ok.1 hrest
    obtain ⟨rfl, rfl⟩ := pure_ok.1 hlive
    have hat := Draft.Grows.goTo htidy hinside hempty
    obtain ⟨rfl, rfl⟩ := (enter_ok hat.tidy).1 henter
    have hpush := Draft.Grows.push hat.tidy (hat.isOpen trivial) .receive span
    have hspot : ((d.goTo block).push .receive span).spot = (d.spot.goTo block).skip 1 := by
      rw [Draft.push_spot hat.tidy, Draft.goTo_spot hempty]
    have hscope : ((d.goTo block).push .receive span).scope = d.scope :=
      Draft.push_scope _ _ hat.tidy
    rw [Draft.goTo_spot hempty] at hpush
    obtain ⟨hgrows, hscope'⟩ := clauseBody_grows hlower hpush.tidy (hpush.isOpen ⟨_, rfl⟩) hbody
    have hfirst := (hat.next hpush).next hgrows
    rw [hscope] at hscope'
    rcases handOver_ok hfirst.tidy hfirst.isOpen hhand with ⟨rfl, rfl, rfl⟩ | ⟨operand, rfl, rfl, rfl⟩
    . obtain ⟨hgrows', hscope''⟩ := ih hfirst.tidy (hlater hfirst.toExtends) hnodup.2 hmore
      refine ⟨(hfirst.row hgrows').map ?_, hscope''.trans hscope'⟩
      rintro handlers plan ⟨⟨⟨_, hreceive⟩, hcode⟩, hcode'⟩ hlabel
      simp only [List.map_cons, List.forall_mem_cons] at hlabel
      rw [hscope'] at hcode'
      rw [hscope, hspot] at hcode
      exact .clausesDead hlabel.1 hreceive hcode (hcode' hlabel.2)
    . have hopen := hfirst.isOpen rfl
      have hfirst' := hfirst.next (handOver_grows hfirst.tidy hopen [] operand after span)
      obtain ⟨hgrows', hscope''⟩ := ih hfirst'.tidy (hlater hfirst'.toExtends) hnodup.2 hmore
      refine ⟨(hfirst'.row hgrows').map ?_, ?_⟩
      . rintro handlers plan ⟨⟨⟨⟨_, hreceive⟩, hcode⟩, hjump⟩, hcode'⟩ hlabel
        simp only [List.map_cons, List.forall_mem_cons] at hlabel
        rw [handOver_spot hfirst.tidy hopen, handOver_scope hfirst.tidy hopen, hscope'] at hcode'
        rw [hscope, hspot] at hcode
        exact .clausesLive hlabel.1 hreceive hcode hjump (hcode' hlabel.2)
      . rw [hscope'', handOver_scope hfirst.tidy hopen, hscope']

theorem catching_grows (hlower : Faithful options lower) {blocks : TryBlocks}
    {catches : List CatchClause} {dispatch : BlockId} {span : Span} {live : Bool} (htidy : d.Tidy)
    (hdispatch : blocks.dispatch = some dispatch)
    (hblank : dispatch < d.spot.fresh ∧ d.code dispatch = [])
    (h : catchForms lower dispatch catches blocks.cleanup blocks.after span d = .ok live d')
    : Draft.Grows (fun b => b = d.spot.block ∨ b = dispatch) False d d' (fun handlers plan =>
        Code options plan handlers d.scope d.spot (.catching blocks catches live) none d'.spot) ∧
      d'.scope = d.scope := by
  unfold catchForms at h
  simp only [bind_ok, goTo_ok] at h
  obtain ⟨_, _, hblocks, _, _, rfl, _, _, hpop, _, _, hleave, hclauses⟩ := h
  obtain ⟨rfl, rfl⟩ := (newBlocks_ok htidy).1 hblocks
  have hopened := Draft.Grows.openedBy htidy catches.length
    (fun _ handlers => .plain (blocks.cleanup.toList ++ handlers) d.scope)
  have hspot := Draft.openedBy_spot htidy catches.length
  have hscope := Draft.openedBy_scope d catches.length
  have hfresh := Draft.Blank.openedBy htidy catches.length
  have hnothing : Draft.Extends (fun _ => False) d (d.openedBy catches.length) :=
    .openedBy htidy catches.length
  have hblank' := hnothing.blank hblank id
  generalize d.openedBy catches.length = g at *
  have hat := Draft.Grows.goTo hopened.tidy hblank'.1 hblank'.2
  have hspot₁ := Draft.goTo_spot hblank'.2
  obtain ⟨_, rfl⟩ := (perform_ok hat.tidy).1 hpop
  have hpush := Draft.Grows.push hat.tidy (hat.isOpen trivial) (.effect (.popHandler dispatch)) span
  obtain rfl := (leave_ok hpush.tidy).1 hleave
  have hpush' := Draft.Grows.push hpush.tidy (hpush.isOpen ⟨_, rfl⟩)
    (.transfer (.dispatch ((List.range' d.spot.fresh catches.length).zip (catches.map (·.type)))))
    span
  have hspot₂ := Draft.push_spot hpush.tidy
    (.transfer (.dispatch ((List.range' d.spot.fresh catches.length).zip (catches.map (·.type)))))
    span
  have hscope₂ := Draft.push_scope
    (.transfer (.dispatch ((List.range' d.spot.fresh catches.length).zip (catches.map (·.type)))))
    span hpush.tidy
  rw [Draft.push_spot hat.tidy, hspot₁, hspot] at hspot₂
  rw [Draft.push_scope _ _ hat.tidy, Draft.goTo_scope, hscope] at hscope₂
  have hwritten := hat.next (hpush.next hpush')
  rw [Draft.push_spot hat.tidy, hspot₁, hspot] at hwritten
  generalize ((g.goTo dispatch).push (.effect (.popHandler dispatch)) span).push
    (.transfer (.dispatch ((List.range' d.spot.fresh catches.length).zip (catches.map (·.type)))))
    span = w at *
  have hopened' : Draft.Grows (fun b => b = d.spot.block ∨ b = dispatch) False d g _ :=
    hopened.weaken (fun _ _ ht => .inl ht) False.elim
  have hbefore := hopened'.trans hwritten (fun _ _ ht => .inr ht)
  obtain ⟨t, hbodies, hout⟩ := withCatch_ok hclauses
  have hzip : (catches.zip (.range' d.spot.fresh catches.length)).map (·.2) =
      .range' d.spot.fresh catches.length :=
    List.map_snd_zip (by simp)
  have hclear : w.Blank (.range' d.spot.fresh catches.length) := by
    refine hfresh.mono hwritten.toExtends ?_
    intro b hb
    rw [List.mem_range'_1] at hb
    lia
  obtain ⟨hgrows, hscope₃⟩ := clauses_grows hlower
    (hwritten.tidy.within (w.scope.guarded blocks.cleanup))
    (by rw [hzip]; exact hclear) (by rw [hzip]; exact List.nodup_range') hbodies
  obtain rfl := hout hscope₃
  rw [hzip] at hgrows
  refine ⟨(hbefore.trans ((hgrows.inside (blocks.cleanup.toList ++ ·)).within w.scope) ?_).map ?_,
    hscope₂⟩
  . rintro b hb (rfl | hmem)
    . exact hbefore.near hb
    . rw [List.mem_range'_1] at hmem
      lia
  . rintro handlers plan ⟨⟨hlabel, _, hpopped, hleft⟩, hcode⟩
    simp only [Draft.within_spot, Draft.within_scope] at hcode
    rw [hspot₂, hscope₂] at hcode
    refine .catching hdispatch ⟨hpopped.1, hleft⟩ (hcode ?_)
    intro b hb
    rw [List.mem_range'_1] at hb
    exact hlabel b hb.1 hb.2

theorem cleanup_grows (hlower : Faithful options lower) {blocks : TryBlocks} {forms : List Form}
    {block : BlockId} {span : Span} {live : Bool} (htidy : d.Tidy)
    (hcleanup : blocks.cleanup = some block) (hblank : block < d.spot.fresh ∧ d.code block = [])
    (h : finallyForms lower block blocks.exit forms span d = .ok live d')
    : Draft.Grows (· = block) False d d' (fun handlers plan =>
        Code options plan handlers d.scope d.spot (.cleanup blocks (some forms) live) none
          d'.spot) ∧
      d'.scope = d.scope := by
  unfold finallyForms at h
  simp only [bind_ok] at h
  obtain ⟨_, _, henter, _, _, htake, _, _, hpop, lowered, e, hbody, hend⟩ := h
  -- The block was opened together with the others of the form, and has been left blank since.
  have hat := Draft.Grows.goTo htidy hblank.1 hblank.2
  have hspot := Draft.goTo_spot hblank.2
  obtain ⟨rfl, rfl⟩ := (enter_ok hat.tidy).1 henter
  have hpush₁ := Draft.Grows.push hat.tidy (hat.isOpen trivial) .receive span
  obtain ⟨rfl, rfl⟩ := (perform_ok hpush₁.tidy).1 htake
  have hpush₂ := Draft.Grows.push hpush₁.tidy (hpush₁.isOpen ⟨_, rfl⟩) (.effect .takeException) span
  obtain ⟨_, rfl⟩ := (perform_ok hpush₂.tidy).1 hpop
  have hpush₃ := Draft.Grows.push hpush₂.tidy (hpush₂.isOpen ⟨_, rfl⟩)
    (.effect (.popHandler block)) span
  have hspot₁ := Draft.push_spot hat.tidy .receive span
  have hspot₂ := Draft.push_spot hpush₁.tidy (.effect .takeException) span
  have hspot₃ := Draft.push_spot hpush₂.tidy (.effect (.popHandler block)) span
  have hscope : ((((d.goTo block).push .receive span).push (.effect .takeException) span).push
      (.effect (.popHandler block)) span).scope = d.scope := by
    rw [Draft.push_scope _ _ hpush₂.tidy, Draft.push_scope _ _ hpush₁.tidy,
      Draft.push_scope _ _ hat.tidy, Draft.goTo_scope]
  have hbefore := hat.next (hpush₁.next (hpush₂.next hpush₃))
  have hopen := hbefore.isOpen ⟨_, rfl⟩
  rw [hspot₂, hspot₁, hspot] at hbefore hspot₃
  rw [hspot₁, hspot] at hend
  generalize (((d.goTo block).push .receive span).push (.effect .takeException) span).push
      (.effect (.popHandler block)) span = w at *
  obtain ⟨t, hforms, rfl⟩ := within_ok.1 hbody
  have hlaid := body_laid hlower (hbefore.tidy.within (w.scope.inFinally block)) hopen hforms
  have hscope' : ({ t.scope with finallys := t.scope.finallys.tail } : Scope) = d.scope := by
    rw [hlaid.scope, ← hscope]
    rfl
  rw [hscope'] at hend
  have hgrows := hbefore.next (hlaid.toGrows.within d.scope)
  cases lowered with
  | terminated =>
    obtain ⟨rfl, rfl⟩ := pure_ok.1 hend
    refine ⟨(hgrows.weaken (fun _ _ ht => ht) False.elim).map ?_, rfl⟩
    rintro handlers plan ⟨⟨_, hreceive, htake, hpop⟩, hcode⟩
    simp only [Draft.within_spot, Draft.within_scope] at hcode
    rw [hspot₃, hscope] at hcode
    exact .cleanupDead hcleanup ⟨hreceive.1, htake.1, hpop⟩ hcode
  | value operand =>
    simp only [bind_ok] at hend
    obtain ⟨_, _, hperform, _, _, hleave, hlive⟩ := hend
    obtain ⟨rfl, rfl⟩ := pure_ok.1 hlive
    obtain ⟨_, rfl⟩ := (perform_ok hgrows.tidy).1 hperform
    have hpush := Draft.Grows.push hgrows.tidy (hgrows.isOpen rfl)
      (.effect (.endFinally (.result ((d.spot.goTo block).skip 1).value))) span
    obtain rfl := (leave_ok hpush.tidy).1 hleave
    have hpush' := Draft.Grows.push hpush.tidy (hpush.isOpen ⟨_, rfl⟩)
      (.handOver (.result d.spot.value) blocks.exit) span
    refine ⟨((hgrows.next (hpush.next hpush')).weaken (fun _ _ ht => ht) False.elim).map ?_, ?_⟩
    . rintro handlers plan ⟨⟨⟨_, hreceive, htake, hpop⟩, hcode⟩, hagain, hjump⟩
      rw [Draft.push_spot hgrows.tidy] at hjump
      rw [Draft.push_spot hpush.tidy, Draft.push_spot hgrows.tidy]
      simp only [Draft.within_spot, Draft.within_scope] at hcode hagain hjump ⊢
      rw [hspot₃, hscope] at hcode
      exact .cleanupLive hcleanup ⟨hreceive.1, htake.1, hpop⟩ hcode ⟨hagain.1, hjump⟩
    . rw [Draft.push_scope _ _ hpush.tidy, Draft.push_scope _ _ hgrows.tidy, Draft.within_scope]

theorem catchPart_grows (hlower : Faithful options lower) {blocks : TryBlocks}
    {catches : List CatchClause} {span : Span} {live : Bool} (htidy : d.Tidy)
    (hblank : ∀ b ∈ blocks.dispatch, b < d.spot.fresh ∧ d.code b = [])
    (h : catchPart lower blocks.dispatch catches blocks.cleanup blocks.after span d = .ok live d')
    : Draft.Grows (fun b => b = d.spot.block ∨ b ∈ blocks.dispatch) False d d'
        (fun handlers plan =>
          Code options plan handlers d.scope d.spot (.catching blocks catches live) none d'.spot) ∧
      d'.scope = d.scope := by
  unfold catchPart at h
  cases hdispatch : blocks.dispatch with
  | none =>
    rw [hdispatch] at h
    obtain ⟨rfl, rfl⟩ := pure_ok.1 h
    refine ⟨((Draft.Grows.refl htidy).weaken (fun _ _ ht => .inl ht) False.elim).map ?_, rfl⟩
    intro handlers plan _
    exact .catchingNone hdispatch
  | some dispatch =>
    rw [hdispatch] at h
    obtain ⟨hgrows, hscope⟩ := catching_grows hlower htidy hdispatch (hblank dispatch hdispatch) h
    refine ⟨hgrows.weaken ?_ id, hscope⟩
    rintro b _ (rfl | rfl)
    . exact .inl rfl
    . exact .inr rfl

theorem finallyPart_grows (hlower : Faithful options lower) {blocks : TryBlocks}
    {forms : Option (List Form)} {span : Span} {live : Bool} (htidy : d.Tidy)
    (hsome : blocks.cleanup.isSome = forms.isSome)
    (hblank : ∀ b ∈ blocks.cleanup, b < d.spot.fresh ∧ d.code b = [])
    (h : finallyPart lower blocks.cleanup blocks.exit forms span d = .ok live d')
    : Draft.Grows (fun b => b = d.spot.block ∨ b ∈ blocks.cleanup) False d d'
        (fun handlers plan =>
          Code options plan handlers d.scope d.spot (.cleanup blocks forms live) none d'.spot) ∧
      d'.scope = d.scope := by
  unfold finallyPart at h
  cases hcleanup : blocks.cleanup with
  | none =>
    rw [hcleanup] at h hsome
    obtain ⟨rfl, rfl⟩ := pure_ok.1 h
    refine ⟨((Draft.Grows.refl htidy).weaken (fun _ _ ht => .inl ht) False.elim).map ?_, rfl⟩
    intro handlers plan _
    obtain rfl : forms = none := by simpa using hsome.symm
    exact .cleanupNone hcleanup
  | some block =>
    cases forms with
    | none => simp [hcleanup] at hsome
    | some forms =>
      rw [hcleanup] at h
      obtain ⟨hgrows, hscope⟩ := cleanup_grows hlower htidy hcleanup (hblank block hcleanup) h
      refine ⟨hgrows.weaken ?_ id, hscope⟩
      rintro b _ rfl
      exact .inr rfl

end Lower

namespace TryBlocks

def count (parts : TryParts) : Nat :=
  parts.cleanup.toList.length + (parts.catches.take 1).length + 2

def labels (blocks : TryBlocks) (scope : Scope) (b : BlockId) (handlers : List BlockId) : Label :=
  if b ∈ blocks.dispatch then
    { under := blocks.cleanup.toList ++ handlers, role := .dispatch, inside := scope.finallys }
  else if b ∈ blocks.cleanup then
    { under := handlers, role := .cleanup, inside := b :: scope.finallys }
  else .plain handlers scope

variable (first : BlockId) (parts : TryParts)

theorem number_exit : (number first parts).exit + 1 = first + count parts := by
  simp only [number, count]
  lia

theorem number_cleanup
    : (number first parts).cleanup = (List.range' (first + 1) parts.cleanup.toList.length).head? := by
  unfold number
  cases parts.cleanup <;> rfl

theorem number_dispatch
    : (number first parts).dispatch
        =
      (List.range' (first + 1 + parts.cleanup.toList.length)
        (parts.catches.take 1).length).head? := by
  unfold number
  cases parts.catches <;> rfl

theorem number_cleanup_isSome : (number first parts).cleanup.isSome = parts.cleanup.isSome := by
  simp [number]

theorem number_cleanup_bounds
    : ∀ b ∈ (number first parts).cleanup, first < b ∧ b < (number first parts).exit ∧
        ∀ b' ∈ (number first parts).dispatch, b < b' := by
  intro b h
  unfold number at h ⊢
  cases hcleanup : parts.cleanup with
  | none => simp [hcleanup] at h
  | some forms =>
    simp only [hcleanup, Option.map_some, Option.mem_some_iff] at h
    subst h
    refine ⟨by lia, by simp; lia, ?_⟩
    intro b' hb'
    cases hcatches : parts.catches with
    | nil => simp [hcatches] at hb'
    | cons clause rest =>
      simp [hcatches] at hb'
      lia

theorem number_dispatch_bounds
    : ∀ b ∈ (number first parts).dispatch, first < b ∧ b < (number first parts).exit := by
  intro b h
  unfold number at h ⊢
  cases hcatches : parts.catches with
  | nil => simp [hcatches] at h
  | cons clause rest =>
    simp only [hcatches, List.head?_cons, Option.map_some, Option.mem_some_iff] at h
    subst h
    simp only [List.take_succ_cons, List.take_zero, List.length_cons, List.length_nil]
    lia

theorem number_cases (b : BlockId) (hlow : first ≤ b) (hhigh : b ≤ (number first parts).exit)
    : b = (number first parts).entry ∨ b ∈ (number first parts).cleanup ∨
        b ∈ (number first parts).dispatch ∨ b = (number first parts).exit := by
  unfold number at hhigh ⊢
  cases hcleanup : parts.cleanup <;> cases hcatches : parts.catches <;>
    simp [hcleanup, hcatches] at hhigh ⊢ <;> lia

theorem handlers_reverse (blocks : TryBlocks)
    : blocks.handlers.reverse = blocks.cleanup.toList ++ blocks.dispatch.toList := by
  unfold handlers
  cases blocks.cleanup <;> cases blocks.dispatch <;> rfl

theorem handlers_head? (blocks : TryBlocks)
    : blocks.handlers.head? = blocks.dispatch.or blocks.cleanup := by
  unfold handlers
  cases blocks.cleanup <;> cases blocks.dispatch <;> rfl

end TryBlocks

namespace Lower

variable {options : CompileOptions} {lower : Form → Lower Lowered} {d d' : Draft}

theorem parts_laid (hlower : Faithful options lower) {parts : TryParts} {blocks : TryBlocks}
    {span : Span} {lowered lowered₁ : Lowered} {live₁ live₂ live₃ : Bool} {e₁ e₂ e₃ e₄ : Draft}
    (htidy : d.Tidy) (hopen : d.Open) (hblocks : blocks = .number d.spot.fresh parts)
    (hbody : withCatch blocks.handlers.head? (body lower parts.body)
      (((d.leftTo (TryBlocks.count parts) (.jump none blocks.entry) span).goTo blocks.entry).pushAll
        (blocks.handlers.reverse.map fun block => (.pushHandler block, span))) = .ok lowered₁ e₁)
    (hhand : handOver lowered₁ blocks.handlers blocks.after span e₁ = .ok live₁ e₂)
    (hcatch : catchPart lower blocks.dispatch parts.catches blocks.cleanup blocks.after span e₂ =
      .ok live₂ e₃)
    (hfinally : finallyPart lower blocks.cleanup blocks.exit parts.cleanup span e₃ = .ok live₃ e₄)
    (hend : (if (live₁ || live₂) && live₃ then meetAt blocks.exit span else pure .terminated) e₄ =
      .ok lowered d')
    : Laid options d (.shape (.attempt parts)) lowered.operands d' := by
  have hentry : blocks.entry = d.spot.fresh := by rw [hblocks]; rfl
  have hexit := TryBlocks.number_exit d.spot.fresh parts
  have hcount : 2 ≤ TryBlocks.count parts := Nat.le_add_left _ _
  have hcleanups := TryBlocks.number_cleanup_bounds d.spot.fresh parts
  have hdispatches := TryBlocks.number_dispatch_bounds d.spot.fresh parts
  have hsome := TryBlocks.number_cleanup_isSome d.spot.fresh parts
  rw [← hblocks] at hexit hcleanups hdispatches hsome
  have hleft := Draft.Grows.leftTo htidy (TryBlocks.count parts) (.jump none blocks.entry) span
    hopen (blocks.labels d.scope)
  have hspot := Draft.leftTo_spot htidy (TryBlocks.count parts) (.jump none blocks.entry) span
  have hscope := Draft.leftTo_scope htidy (TryBlocks.count parts) (.jump none blocks.entry) span
  have hblank := Draft.Blank.leftTo htidy (TryBlocks.count parts) (.jump none blocks.entry) span
  generalize d.leftTo (TryBlocks.count parts) (.jump none blocks.entry) span = g at *
  have hclear : ∀ b, d.spot.fresh ≤ b → b ≤ blocks.exit → b < g.spot.fresh ∧ g.code b = [] := by
    intro b hlow hhigh
    refine hblank b ?_
    rw [List.mem_range'_1]
    lia
  obtain ⟨hguarded, hscope₁⟩ := guarded_grows hlower hleft.tidy
    (hclear blocks.entry (by lia) (by lia)) hbody hhand
  -- the blocks of the parts are different, so each is still empty when its part is written
  obtain ⟨hcatching, hscope₂⟩ := catchPart_grows hlower hguarded.tidy (by
    intro b hb
    have := hdispatches b hb
    exact hguarded.blank (hclear b (by lia) (by lia)) (by lia)) hcatch
  have hguarded' : Draft.Grows (fun b => b = blocks.entry ∨ b ∈ blocks.dispatch) False g e₂ _ :=
    hguarded.weaken (fun _ _ ht => .inl ht) id
  have hcaught := hguarded'.trans hcatching (by
    rintro b hb (rfl | hmem)
    . exact .inl (hguarded.near hb)
    . exact .inr hmem)
  obtain ⟨hcleaning, hscope₃⟩ := finallyPart_grows hlower hcaught.tidy hsome (by
    intro b hb
    obtain ⟨hlow, hhigh, hother⟩ := hcleanups b hb
    refine hcaught.blank (hclear b (by lia) (by lia)) ?_
    rintro (heq | hmem)
    . lia
    . exact Nat.lt_irrefl _ (hother b hmem)) hfinally
  have hcaught' : Draft.Grows
      (fun b => b = blocks.entry ∨ b ∈ blocks.dispatch ∨ b ∈ blocks.cleanup) False g e₃ _ :=
    hcaught.weaken (fun _ _ ht => ht.imp id .inl) id
  have hcleaned := hcaught'.trans hcleaning (by
    rintro b hb (rfl | hmem)
    . exact (hcaught.near hb).imp id .inl
    . exact .inr (.inr hmem))
  obtain ⟨hlt, hempty⟩ := hcleaned.blank (hclear blocks.exit (by lia) (Nat.le_refl _)) (by
    rintro (heq | hmem | hmem)
    . lia
    . exact Nat.lt_irrefl _ (hdispatches _ hmem).2
    . exact Nat.lt_irrefl _ (hcleanups _ hmem).2.1)
  have hall := hleft.trans hcleaned (by
    rintro b hb (rfl | hmem | hmem)
    . lia
    . have := hdispatches b hmem
      lia
    . have := hcleanups b hmem
      lia)
  have hscope₄ : e₄.scope = d.scope := by rw [hscope₃, hscope₂, hscope₁, hscope]
  have hspot₀ : g.spot = { d.spot.skip 1 with fresh := blocks.exit + 1 } := by
    rw [hspot, hexit]
    rfl
  have hlabel : ∀ {handlers : List BlockId} {plan : Plan}, (∀ b, d.spot.fresh ≤ b →
      b < d.spot.fresh + TryBlocks.count parts → plan.label b = blocks.labels d.scope b handlers) →
      plan.label blocks.entry = .plain handlers d.scope ∧
        plan.label blocks.exit = .plain handlers d.scope ∧
        (∀ b ∈ blocks.cleanup, plan.label b = ⟨handlers, .cleanup, b :: d.scope.finallys⟩) ∧
        (∀ b ∈ blocks.dispatch,
          plan.label b = ⟨blocks.cleanup.toList ++ handlers, .dispatch, d.scope.finallys⟩) := by
    intro handlers plan hplan
    unfold TryBlocks.labels at hplan
    have hplain : ∀ b, d.spot.fresh ≤ b → b ≤ blocks.exit → b ∉ blocks.dispatch →
        b ∉ blocks.cleanup → plan.label b = .plain handlers d.scope := by
      intro b hlow hhigh hdispatch hcleanup
      rw [hplan b hlow (by lia), if_neg hdispatch, if_neg hcleanup]
    refine ⟨hplain _ (by lia) (by lia) ?_ ?_, hplain _ (by lia) (Nat.le_refl _) ?_ ?_, ?_, ?_⟩
    . intro hmem
      have := hdispatches _ hmem
      lia
    . intro hmem
      have := hcleanups _ hmem
      lia
    . intro hmem
      have := hdispatches _ hmem
      lia
    . intro hmem
      have := hcleanups _ hmem
      lia
    . intro b hb
      obtain ⟨hlow, hhigh, hother⟩ := hcleanups b hb
      rw [hplan _ (by lia) (by lia), if_neg, if_pos hb]
      intro hmem
      exact Nat.lt_irrefl _ (hother b hmem)
    . intro b hb
      obtain ⟨hlow, hhigh⟩ := hdispatches b hb
      rw [hplan _ (by lia) (by lia), if_pos hb]
  cases hlive : (live₁ || live₂) && live₃ with
  | false =>
    rw [hlive] at hend
    obtain ⟨rfl, rfl⟩ := pure_ok.1 hend
    refine ⟨(hall.weaken (fun _ _ ht => ht) (by simp [Lowered.operands])).map ?_, hscope₄⟩
    rintro handlers plan ⟨⟨hplan, hjump⟩, ⟨hcode₁, hcode₂⟩, hcode₃⟩
    obtain ⟨h₁, h₂, h₃, h₄⟩ := hlabel hplan
    rw [hspot₀, hscope] at hcode₁
    rw [hscope₁, hscope] at hcode₂
    rw [hscope₂, hscope₁, hscope] at hcode₃
    exact .attemptDead hblocks h₁ h₂ h₃ h₄ hjump hcode₁ hcode₂ hcode₃ hlive
  | true =>
    rw [hlive] at hend
    refine meetAt_laid hall hscope₄ (fun _ _ ht => ht) (by lia) hlt hempty hend ?_
    rintro handlers plan ⟨⟨hplan, hjump⟩, ⟨hcode₁, hcode₂⟩, hcode₃⟩ hreceive
    obtain ⟨h₁, h₂, h₃, h₄⟩ := hlabel hplan
    rw [hspot₀, hscope] at hcode₁
    rw [hscope₁, hscope] at hcode₂
    rw [hscope₂, hscope₁, hscope] at hcode₃
    exact .attempt hblocks h₁ h₂ h₃ h₄ hjump hcode₁ hcode₂ hcode₃ hlive hreceive

theorem attempt_laid (hlower : Faithful options lower) {parts : TryParts} {span : Span}
    {lowered : Lowered} (htidy : d.Tidy) (hopen : d.Open)
    (h : attempt lower parts span d = .ok lowered d')
    : Laid options d (.shape (.attempt parts)) lowered.operands d' := by
  unfold attempt at h
  simp only [bind_ok, newBlock_ok, goTo_ok] at h
  obtain ⟨_, _, ⟨rfl, rfl⟩, _, _, hcleanups, _, _, hdispatches, _, _, ⟨rfl, rfl⟩, _, _, hleave, _,
    _, rfl, _, _, hpushes, lowered₁, e₁, hbody, live₁, e₂, hhand, live₂, e₃, hcatch, live₃, e₄,
    hfinally, hend⟩ := h
  obtain ⟨rfl, rfl⟩ := (newBlocks_ok htidy.opened).1 hcleanups
  obtain ⟨rfl, rfl⟩ := (newBlocks_ok (htidy.opened.openedBy _)).1 hdispatches
  have hspot : (d.opened.openedBy parts.cleanup.toList.length).spot =
      d.spot.opened (parts.cleanup.toList.length + 1) :=
    Draft.openedBy_spot htidy (parts.cleanup.toList.length + 1)
  have hdraft : ((d.opened.openedBy parts.cleanup.toList.length).openedBy
      (parts.catches.take 1).length).opened = d.openedBy (TryBlocks.count parts) := by
    have hcount : TryBlocks.count parts =
        (parts.cleanup.toList.length + 1) + (parts.catches.take 1).length + 1 := by
      unfold TryBlocks.count
      omega
    rw [hcount, Draft.openedBy_add, Draft.openedBy_add]
    rfl
  have hexit : ((d.opened.openedBy parts.cleanup.toList.length).openedBy
      (parts.catches.take 1).length).spot.fresh = (TryBlocks.number d.spot.fresh parts).exit := by
    rw [Draft.openedBy_spot (htidy.opened.openedBy _), hspot]
    simp only [TryBlocks.number, Spot.opened]
    lia
  have hcleanup : (List.range' d.opened.spot.fresh parts.cleanup.toList.length).head? =
      (TryBlocks.number d.spot.fresh parts).cleanup := by
    rw [TryBlocks.number_cleanup, Draft.opened_spot htidy]
    rfl
  have hdispatch : (List.range' (d.opened.openedBy parts.cleanup.toList.length).spot.fresh
      (parts.catches.take 1).length).head? = (TryBlocks.number d.spot.fresh parts).dispatch := by
    rw [TryBlocks.number_dispatch, hspot]
    simp only [Spot.opened]
    congr 2
    lia
  rw [hdraft] at hleave
  rw [hexit] at hend hfinally hhand hcatch
  rw [hcleanup] at hpushes hbody hhand hcatch hfinally
  rw [hdispatch] at hpushes hbody hhand hcatch
  obtain rfl := (leave_ok (htidy.openedBy _)).1 hleave
  rw [← TryBlocks.handlers_reverse] at hpushes
  rw [← TryBlocks.handlers_head?] at hbody
  have hleft := Draft.Grows.leftTo htidy (TryBlocks.count parts) (.jump none d.spot.fresh) span
    hopen (fun _ handlers => .plain handlers d.scope)
  obtain ⟨hlt, hempty⟩ := Draft.Blank.leftTo htidy (TryBlocks.count parts)
    (.jump none d.spot.fresh) span d.spot.fresh (by simp [TryBlocks.count])
  have hat := Draft.Grows.goTo hleft.tidy hlt hempty
  obtain rfl := (performEach_ok hat.tidy (hat.isOpen trivial)).1 hpushes
  exact parts_laid hlower htidy hopen rfl hbody hhand hcatch hfinally hend

end Lower

end Resumable
