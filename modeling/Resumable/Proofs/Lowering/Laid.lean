import Resumable.Proofs.Lowering.Growth

/-!
This module contains the proof that the lowering rules lay out the code of forms, as far as the
flow of control between the parts of a form is concerned that is not a `try`.
-/

namespace Resumable

def Lowered.operands : Lowered → Option (List Operand)
  | .value operand => some [operand]
  | .terminated => none

structure Laid (options : CompileOptions) (d : Draft) (part : Part) (r : Option (List Operand))
    (d' : Draft) : Prop extends
    Draft.Grows (· = d.spot.block) (r.isSome = true) d d' (fun handlers plan =>
      Code options plan handlers d.scope d.spot part r d'.spot) where
  scope : d'.scope = d.scope

structure Faithful (options : CompileOptions) (lower : Form → Lower Lowered) : Prop where
  laid : ∀ {form : Form} {d d' : Draft} {lowered : Lowered}, d.Tidy → d.Open →
    lower form d = .ok lowered d' → Laid options d (.form form) lowered.operands d'

namespace Laid

variable {options : CompileOptions} {d e f : Draft} {part part' : Part}
  {r r' : Option (List Operand)}

theorem map (h : Laid options d part r e)
    (hcode : ∀ handlers plan, Code options plan handlers d.scope d.spot part r e.spot →
      Code options plan handlers d.scope d.spot part' r e.spot)
    : Laid options d part' r e where
  toGrows := h.toGrows.map hcode
  scope := h.scope

theorem ofGrows (hgrows : Draft.Grows (· = d.spot.block) (r.isSome = true) d e
      (fun handlers plan => Code options plan handlers d.scope d.spot part r e.spot))
    (hscope : e.scope = d.scope)
    : Laid options d part r e :=
  ⟨hgrows, hscope⟩

theorem next (h : Laid options d part r e) {live : Prop} {holds : List BlockId → Plan → Prop}
    (h' : Draft.Grows (· = e.spot.block) live e f holds)
    (hscope : f.scope = e.scope) (hlive : r'.isSome = true → live)
    (hcode : ∀ handlers plan, Code options plan handlers d.scope d.spot part r e.spot →
      holds handlers plan → Code options plan handlers d.scope d.spot part' r' f.spot)
    : Laid options d part' r' f where
  toGrows := ((h.toGrows.next h').weaken (fun _ _ ht => ht) hlive).map
    (fun handlers plan hboth => hcode handlers plan hboth.1 hboth.2)
  scope := hscope.trans h.scope

end Laid

namespace Lower

variable {options : CompileOptions} {lower : Form → Lower Lowered} {d d' f : Draft}

theorem andThen_ok {step : Lower Lowered} {next : Operand → Lower Lowered} {lowered : Lowered}
    : andThen step next d = .ok lowered d'
        ↔
      (step d = .ok .terminated d' ∧ lowered = .terminated) ∨
        ∃ operand e, step d = .ok (.value operand) e ∧ next operand e = .ok lowered d' := by
  unfold andThen
  simp only [bind_ok]
  constructor
  . rintro ⟨mid, e, hstep, hnext⟩
    cases mid with
    | value operand => exact .inr ⟨operand, e, hstep, hnext⟩
    | terminated =>
      obtain ⟨rfl, rfl⟩ := pure_ok.1 hnext
      exact .inl ⟨hstep, rfl⟩
  . rintro (⟨hstep, rfl⟩ | ⟨operand, e, hstep, hnext⟩)
    . exact ⟨_, _, hstep, pure_ok.2 ⟨rfl, rfl⟩⟩
    . exact ⟨_, _, hstep, hnext⟩

theorem withOperands_ok {forms : List Form} {next : List Operand → Lower Lowered}
    {lowered : Lowered}
    : withOperands lower forms next d = .ok lowered d'
        ↔
      (operands lower forms d = .ok none d' ∧ lowered = .terminated) ∨
        ∃ os e, operands lower forms d = .ok (some os) e ∧ next os e = .ok lowered d' := by
  unfold withOperands
  simp only [bind_ok]
  constructor
  . rintro ⟨mid, e, hstep, hnext⟩
    cases mid with
    | some os => exact .inr ⟨os, e, hstep, hnext⟩
    | none =>
      obtain ⟨rfl, rfl⟩ := pure_ok.1 hnext
      exact .inl ⟨hstep, rfl⟩
  . rintro (⟨hstep, rfl⟩ | ⟨os, e, hstep, hnext⟩)
    . exact ⟨_, _, hstep, pure_ok.2 ⟨rfl, rfl⟩⟩
    . exact ⟨_, _, hstep, hnext⟩

theorem withOperands_nil {next : List Operand → Lower Lowered}
    : withOperands lower [] next = next [] := by
  simp [withOperands, operands]

theorem withOperands_cons {form : Form} {rest : List Form} {next : List Operand → Lower Lowered}
    : withOperands lower (form :: rest) next
        =
      andThen (lower form) fun operand =>
        withOperands lower rest fun os => next (operand :: os) := by
  unfold withOperands andThen
  rw [operands]
  rw [bind_assoc]
  congr 1
  funext mid
  cases mid with
  | terminated => simp
  | value operand =>
    simp only [bind_assoc]
    congr 1
    funext os
    cases os <;> simp

theorem operands_laid (hlower : Faithful options lower) {forms : List Form}
    {r : Option (List Operand)} (htidy : d.Tidy) (hopen : d.Open)
    (h : operands lower forms d = .ok r d')
    : Laid options d (.operands forms) r d' := by
  induction forms generalizing d d' r with
  | nil =>
    obtain ⟨rfl, rfl⟩ := pure_ok.1 h
    exact .ofGrows (((Draft.Grows.refl htidy).weaken (fun _ _ ht => ht) (fun _ => hopen)).map
      fun _ _ _ => .operandsNil) rfl
  | cons form rest ih =>
    rw [operands] at h
    obtain ⟨mid, e, hform, hrest⟩ := bind_ok.1 h
    have hlaid := hlower.laid htidy hopen hform
    cases mid with
    | terminated =>
      obtain ⟨rfl, rfl⟩ := pure_ok.1 hrest
      exact hlaid.map fun _ _ => .operandsStop
    | value operand =>
      obtain ⟨more, f, hmore, hlast⟩ := bind_ok.1 hrest
      have hlaid' := ih hlaid.tidy (hlaid.isOpen rfl) hmore
      cases more with
      | none =>
        obtain ⟨rfl, rfl⟩ := pure_ok.1 hlast
        refine hlaid.next hlaid'.toGrows hlaid'.scope (by simp) ?_
        intro handlers plan hcode hcode'
        rw [hlaid.scope] at hcode'
        exact .operandsStopLater hcode hcode'
      | some os =>
        obtain ⟨rfl, rfl⟩ := pure_ok.1 hlast
        refine hlaid.next hlaid'.toGrows hlaid'.scope (by simp) ?_
        intro handlers plan hcode hcode'
        rw [hlaid.scope] at hcode'
        exact .operandsCons hcode hcode'

theorem operands_length {forms : List Form} {os : List Operand}
    (h : operands lower forms d = .ok (some os) d')
    : os.length = forms.length := by
  induction forms generalizing d os with
  | nil =>
    obtain ⟨hos, _⟩ := pure_ok.1 h
    cases hos
    rfl
  | cons form rest ih =>
    rw [operands] at h
    obtain ⟨mid, e, _, hrest⟩ := bind_ok.1 h
    cases mid with
    | terminated => cases (pure_ok.1 hrest).1
    | value operand =>
      obtain ⟨more, f, hmore, hlast⟩ := bind_ok.1 hrest
      cases more with
      | none => cases (pure_ok.1 hlast).1
      | some os =>
        obtain ⟨hos, rfl⟩ := pure_ok.1 hlast
        cases hos
        rw [List.length_cons, List.length_cons, ih hmore]

theorem sequence_laid (hlower : Faithful options lower) {forms : List Form} {last : Operand}
    {lowered : Lowered} (htidy : d.Tidy) (hopen : d.Open)
    (h : sequence lower last forms d = .ok lowered d')
    : Laid options d (.body last forms) lowered.operands d' := by
  induction forms generalizing d last with
  | nil =>
    obtain ⟨rfl, rfl⟩ := pure_ok.1 h
    exact .ofGrows (((Draft.Grows.refl htidy).weaken (fun _ _ ht => ht) (fun _ => hopen)).map
      fun _ _ _ => .bodyNil) rfl
  | cons form rest ih =>
    rcases andThen_ok.1 h with ⟨hform, rfl⟩ | ⟨operand, e, hform, hrest⟩
    . exact (hlower.laid htidy hopen hform).map fun _ _ => .bodyStop
    . have hlaid := hlower.laid htidy hopen hform
      have hlaid' := ih hlaid.tidy (hlaid.isOpen rfl) hrest
      refine hlaid.next hlaid'.toGrows hlaid'.scope id ?_
      intro handlers plan hcode hcode'
      rw [hlaid.scope] at hcode'
      exact .bodyCons hcode hcode'

theorem body_laid (hlower : Faithful options lower) {forms : List Form} {lowered : Lowered}
    (htidy : d.Tidy) (hopen : d.Open) (h : body lower forms d = .ok lowered d')
    : Laid options d (.body (.literal .nil) forms) lowered.operands d' :=
  sequence_laid hlower htidy hopen h

theorem perform_laid (hlower : Faithful options lower) {job : Job} {items : List Form}
    (span : Span) {lowered : Lowered} (htidy : d.Tidy) (hopen : d.Open)
    (h : withOperands lower items (fun os => performValue (job.effect os) span) d = .ok lowered d')
    : Laid options d (.shape (.perform job items)) lowered.operands d' := by
  rcases withOperands_ok.1 h with ⟨hitems, rfl⟩ | ⟨os, e, hitems, hperform⟩
  . exact (operands_laid hlower htidy hopen hitems).map fun _ _ => .performStop
  . have hlaid := operands_laid hlower htidy hopen hitems
    obtain ⟨_, _, hpush, hlowered⟩ := bind_ok.1 hperform
    obtain ⟨rfl, rfl⟩ := (perform_ok hlaid.tidy).1 hpush
    obtain ⟨rfl, rfl⟩ := pure_ok.1 hlowered
    refine hlaid.next (.push hlaid.tidy (hlaid.isOpen rfl) (.effect (job.effect os)) span)
      (Draft.push_scope _ _ hlaid.tidy) (fun _ => ⟨_, rfl⟩) ?_
    intro handlers plan hcode hholds
    rw [Draft.push_spot hlaid.tidy]
    exact .perform hcode hholds

theorem meetAt_laid {part : Part} {meet : BlockId} {span : Span} {lowered : Lowered} {f : Draft}
    {touched : BlockId → Prop} {live : Prop} {holds : List BlockId → Plan → Prop}
    (hgrows : Draft.Grows touched live d f holds) (hscope : f.scope = d.scope)
    (htouched : ∀ b, b < d.spot.fresh → touched b → b = d.spot.block)
    (hfresh : d.spot.fresh ≤ meet) (hmeet : meet < f.spot.fresh) (hempty : f.code meet = [])
    (h : meetAt meet span f = .ok lowered d')
    (hcode : ∀ handlers plan, holds handlers plan → plan.Holds (f.spot.goTo meet) [.receive] →
      Code options plan handlers d.scope d.spot part (some [.result f.spot.value])
        ((f.spot.goTo meet).skip 1))
    : Laid options d part lowered.operands d' := by
  have htidy : (f.goTo meet).Tidy := hgrows.tidy.goTo hmeet
  have hopen : (f.goTo meet).Open := Draft.goTo_open hempty
  obtain ⟨rfl, rfl⟩ := (meetAt_ok htidy).1 h
  have hat := Draft.Grows.goTo hgrows.tidy hmeet hempty
  have hpush := hat.next (.push htidy hopen .receive span)
  refine ⟨((hgrows.weaken htouched id).trans hpush ?_).weaken (fun _ _ ht => ht)
    (fun _ => ⟨_, rfl⟩) |>.map ?_, ?_⟩
  . intro b hb ht
    lia
  . intro handlers plan hboth
    have hspot := Draft.goTo_spot hempty
    rw [Draft.push_spot htidy, hspot]
    rw [hspot] at hboth
    exact hcode handlers plan hboth.1 hboth.2.2
  . rw [Draft.push_scope _ _ htidy]
    exact hscope

theorem handOver_ok {lowered : Lowered} {pops : List BlockId} {target : BlockId} {span : Span}
    {live : Bool} (htidy : d.Tidy) (hopen : lowered.operands.isSome = true → d.Open)
    (h : handOver lowered pops target span d = .ok live d')
    : (lowered = .terminated ∧ live = false ∧ d' = d) ∨
        ∃ operand, lowered = .value operand ∧ live = true ∧
          d' = (d.pushAll (pops.map fun block => (.popHandler block, span))).push
            (.handOver operand target) span := by
  cases lowered with
  | terminated =>
    obtain ⟨rfl, rfl⟩ := pure_ok.1 h
    exact .inl ⟨rfl, rfl, rfl⟩
  | value operand =>
    obtain ⟨_, e, hpops, hrest⟩ := bind_ok.1 h
    obtain ⟨_, f, hleave, hlive⟩ := bind_ok.1 hrest
    obtain ⟨rfl, rfl⟩ := pure_ok.1 hlive
    obtain rfl := (performEach_ok htidy (hopen rfl)).1 hpops
    obtain rfl := (leave_ok (htidy.pushAll (hopen rfl) _)).1 hleave
    exact .inr ⟨operand, rfl, rfl, rfl⟩

theorem handOver_grows (htidy : d.Tidy) (hopen : d.Open) (pops : List BlockId) (operand : Operand)
    (target : BlockId) (span : Span)
    : Draft.Grows (· = d.spot.block) False d
        ((d.pushAll (pops.map fun block => (.popHandler block, span))).push
          (.handOver operand target) span)
        (fun _ plan => plan.Holds d.spot (pops.map (.effect <| .popHandler ·) ++
          [.handOver operand target])) := by
  have htidy' := htidy.pushAll hopen (pops.map fun block => (.popHandler block, span))
  have hopen' := Draft.pushAll_open htidy hopen (pops.map fun block => (.popHandler block, span))
  refine (((Draft.Grows.pushAll htidy hopen _).next
    (.push htidy' hopen' (.handOver operand target) span)).weaken (fun _ _ ht => ht) (by simp)).map ?_
  rintro handlers plan ⟨hpops, hjump⟩
  rw [Draft.pushAll_spot htidy hopen] at hjump
  rw [Plan.holds_append]
  simp only [List.map_map, List.length_map] at hpops hjump ⊢
  exact ⟨hpops, hjump⟩

theorem handOver_spot (htidy : d.Tidy) (hopen : d.Open) (pops : List BlockId) (command : Command)
    (span : Span)
    : ((d.pushAll (pops.map fun block => (.popHandler block, span))).push command span).spot
        =
      d.spot.skip (pops.length + 1) := by
  rw [Draft.push_spot (htidy.pushAll hopen _), Draft.pushAll_spot htidy hopen, List.length_map]
  rfl

theorem handOver_scope (htidy : d.Tidy) (hopen : d.Open) (pops : List BlockId) (command : Command)
    (span : Span)
    : ((d.pushAll (pops.map fun block => (.popHandler block, span))).push command span).scope
        =
      d.scope := by
  rw [Draft.push_scope _ _ (htidy.pushAll hopen _), Draft.pushAll_scope htidy hopen]

theorem arm_eq {form : Option Form} {meet : BlockId} {span : Span}
    : arm lower form meet span
        =
      body lower form.toList >>= fun lowered => handOver lowered [] meet span := by
  have hbody : ∀ form, body lower [form] = lower form := by
    intro form
    have hsame : lower form = lower form >>= pure := (bind_pure _).symm
    rw [hsame]
    unfold body sequence andThen
    congr 1
    funext lowered
    cases lowered <;> rfl
  cases form with
  | none => simp [arm, body, sequence, handOver, performEach]
  | some form =>
    unfold arm Option.toList
    rw [hbody]
    refine bind_congr fun lowered => ?_
    cases lowered <;> simp [handOver, performEach]

theorem arms_grows (hlower : Faithful options lower) {meet : BlockId} {span : Span}
    {arms : List (Option Form × BlockId)} {live : Bool} (htidy : d.Tidy)
    (hblank : d.Blank (arms.map (·.2))) (hnodup : (arms.map (·.2)).Nodup)
    (h : Lower.arms lower meet span arms d = .ok live d')
    : Draft.Grows (fun b => b = d.spot.block ∨ b ∈ arms.map (·.2)) False d d'
        (fun handlers plan => (∀ b ∈ arms.map (·.2), plan.label b = .plain handlers d.scope) →
          Code options plan handlers d.scope d.spot (.arms meet arms live) none d'.spot) ∧
      d'.scope = d.scope := by
  induction arms generalizing d live with
  | nil =>
    obtain ⟨rfl, rfl⟩ := pure_ok.1 h
    refine ⟨((Draft.Grows.refl htidy).weaken (fun _ _ ht => .inl ht) (by simp)).map ?_, rfl⟩
    intro handlers plan _ _
    exact .armsNil
  | cons entry arms ih =>
    obtain ⟨form, block⟩ := entry
    rw [List.map_cons, List.nodup_cons] at hnodup
    obtain ⟨hinside, hempty⟩ := hblank block (by simp)
    have hlater : ∀ {g : Draft}, Draft.Extends (· = block) d g → g.Blank (arms.map (·.2)) := by
      intro g hext
      refine (hblank.subset (List.subset_cons_self _ _)).mono hext ?_
      rintro b hb rfl
      exact hnodup.1 hb
    unfold Lower.arms at h
    obtain ⟨_, _, hgoTo, hrest⟩ := bind_ok.1 h
    obtain rfl := goTo_ok.1 hgoTo
    obtain ⟨here, e, harm, hrest⟩ := bind_ok.1 hrest
    obtain ⟨more, f, hmore, hlive⟩ := bind_ok.1 hrest
    obtain ⟨rfl, rfl⟩ := pure_ok.1 hlive
    rw [arm_eq] at harm
    obtain ⟨lowered, g, hbody, hhand⟩ := bind_ok.1 harm
    have hat := Draft.Grows.goTo htidy hinside hempty
    have hlaid := body_laid hlower hat.tidy (hat.isOpen trivial) hbody
    have hspot := Draft.goTo_spot hempty
    rcases handOver_ok hlaid.tidy hlaid.isOpen hhand with ⟨rfl, rfl, rfl⟩ | ⟨operand, rfl, rfl, rfl⟩
    . have hgrows := hat.next hlaid.toGrows
      obtain ⟨hgrows', hscope⟩ := ih hgrows.tidy (hlater hgrows.toExtends) hnodup.2 hmore
      refine ⟨(hgrows.row hgrows').map ?_, hscope.trans hlaid.scope⟩
      rintro handlers plan ⟨⟨_, hcode⟩, hcode'⟩ hlabel
      simp only [List.map_cons, List.forall_mem_cons] at hlabel
      rw [hlaid.scope] at hcode'
      rw [hspot] at hcode
      exact .armsDead hlabel.1 hcode (hcode' hlabel.2)
    . have hopen' := hlaid.isOpen rfl
      have hgrows := hat.next (hlaid.toGrows.next
        (handOver_grows hlaid.tidy hopen' [] operand meet span))
      obtain ⟨hgrows', hscope⟩ := ih hgrows.tidy (hlater hgrows.toExtends) hnodup.2 hmore
      refine ⟨(hgrows.row hgrows').map ?_, ?_⟩
      . rintro handlers plan ⟨⟨_, hcode, hjump⟩, hcode'⟩ hlabel
        simp only [List.map_cons, List.forall_mem_cons] at hlabel
        rw [handOver_spot hlaid.tidy hopen', handOver_scope hlaid.tidy hopen', hlaid.scope] at hcode'
        rw [hspot] at hcode
        exact .armsLive hlabel.1 hcode hjump (hcode' hlabel.2)
      . rw [hscope, handOver_scope hlaid.tidy hopen', hlaid.scope]
        rfl

theorem select_laid (hlower : Faithful options lower) {choice : Choice} {value : Form}
    {arms : List (Option Form)} {span : Span} {operand : Operand} {e : Draft} {live : Bool}
    {lowered : Lowered} (hvalue : Laid options d (.form value) (some [operand]) e)
    (harms : Lower.arms lower (e.spot.fresh + arms.length) span
      (arms.zip (.range' e.spot.fresh arms.length))
      (e.leftTo (arms.length + 1)
        (choice.transfer operand (.range' e.spot.fresh arms.length)) span) = .ok live f)
    (hmeet : meetIf live (e.spot.fresh + arms.length) span f = .ok lowered d')
    : Laid options d (.shape (.select choice value arms)) lowered.operands d' := by
  have hopen := hvalue.isOpen rfl
  have hleft := Draft.Grows.leftTo hvalue.tidy (arms.length + 1)
    (choice.transfer operand (.range' e.spot.fresh arms.length)) span hopen (fun _ handlers => .plain handlers d.scope)
  have hblank := Draft.Blank.leftTo hvalue.tidy (arms.length + 1)
    (choice.transfer operand (.range' e.spot.fresh arms.length)) span
  have hspot := Draft.leftTo_spot hvalue.tidy (arms.length + 1)
    (choice.transfer operand (.range' e.spot.fresh arms.length)) span
  have hscope := Draft.leftTo_scope hvalue.tidy (arms.length + 1)
    (choice.transfer operand (.range' e.spot.fresh arms.length)) span
  generalize e.leftTo (arms.length + 1)
    (choice.transfer operand (.range' e.spot.fresh arms.length)) span = g at *
  have hblocks : (arms.zip (.range' e.spot.fresh arms.length)).map (·.2) =
      .range' e.spot.fresh arms.length :=
    List.map_snd_zip (by simp)
  have hblank' := hblank
  rw [List.range'_concat, Nat.one_mul] at hblank'
  obtain ⟨hgrows, hscope'⟩ := arms_grows hlower hleft.tidy
    (by rw [hblocks]; exact hblank'.subset (List.subset_append_left _ _))
    (by rw [hblocks]; exact List.nodup_range') harms
  rw [hblocks] at hgrows
  have hbefore := hvalue.toGrows.next hleft
  have hfresh : d.spot.fresh ≤ e.spot.fresh := hvalue.fresh
  have hall := hbefore.trans hgrows (by
    rintro b hb (rfl | hmem)
    . exact hbefore.near hb
    . rw [List.mem_range'_1] at hmem
      lia)
  have hscope'' : f.scope = d.scope := by rw [hscope', hscope, hvalue.scope]
  unfold meetIf at hmeet
  cases live with
  | false =>
    obtain ⟨rfl, rfl⟩ := pure_ok.1 hmeet
    refine ⟨(hall.weaken (fun _ _ ht => ht) (by simp [Lowered.operands])).map ?_, hscope''⟩
    rintro handlers plan ⟨⟨hcode, hlabel, hholds⟩, hcode'⟩
    rw [hspot, hscope, hvalue.scope] at hcode'
    refine .selectDead hcode (hlabel _ (by lia) (by lia)) hholds (hcode' ?_)
    intro b hb
    rw [List.mem_range'_1] at hb
    exact hlabel b hb.1 (by lia)
  | true =>
    have hinside := hvalue.tidy.inside
    obtain ⟨hlt, hempty⟩ := hgrows.blank (hblank (e.spot.fresh + arms.length) (by simp)) (by
      rw [hspot, List.mem_range'_1]
      simp only [Spot.skip, Spot.opened]
      lia)
    refine meetAt_laid hall hscope'' (fun _ _ ht => ht) (by lia) hlt hempty hmeet ?_
    rintro handlers plan ⟨⟨hcode, hlabel, hholds⟩, hcode'⟩ hreceive
    rw [hspot, hscope, hvalue.scope] at hcode'
    refine .select hcode (hlabel _ (by lia) (by lia)) hholds (hcode' ?_) hreceive
    intro b hb
    rw [List.mem_range'_1] at hb
    exact hlabel b hb.1 (by lia)

theorem choose_laid (hlower : Faithful options lower) {test yes : Form} {no : Option Form}
    {span : Span} {lowered : Lowered} (htidy : d.Tidy) (hopen : d.Open)
    (h : choose lower test yes no span d = .ok lowered d')
    : Laid options d (.shape (.select .test test [some yes, no])) lowered.operands d' := by
  rcases andThen_ok.1 h with ⟨htest, rfl⟩ | ⟨operand, e, htest, hrest⟩
  . exact (hlower.laid htidy hopen htest).map fun _ _ => .selectStop
  . have hlaid := hlower.laid htidy hopen htest
    simp only [bind_ok, newBlock_ok] at hrest
    obtain ⟨_, _, ⟨rfl, rfl⟩, _, _, ⟨rfl, rfl⟩, _, _, ⟨rfl, rfl⟩, _, _, hleave, live, g, harms,
      hmeet⟩ := hrest
    have htidy₁ := hlaid.tidy.opened
    have htidy₂ := htidy₁.opened
    obtain rfl := (leave_ok htidy₂.opened).1 hleave
    rw [Draft.opened_spot htidy₁, Draft.opened_spot hlaid.tidy] at harms hmeet
    exact @select_laid _ _ _ _ _ hlower .test _ [some yes, no] _ _ _ _ _ hlaid harms hmeet

theorem case_laid (hlower : Faithful options lower) {value : Form} {rest : List Form}
    {clauses : List (Form × Form)} {fallback : Option Form} {span : Span} {lowered : Lowered}
    (hclauses : caseClauses rest = (clauses, fallback)) (htidy : d.Tidy) (hopen : d.Open)
    (h : caseForm lower (value :: rest) span d = .ok lowered d')
    : Laid options d (.shape (.select (.cases (clauses.map (caseTests ·.1))) value
        (clauses.map (some ·.2) ++ fallback.toList.map some))) lowered.operands d' := by
  rcases andThen_ok.1 h with ⟨hvalue, rfl⟩ | ⟨operand, e, hvalue, hrest⟩
  . exact (hlower.laid htidy hopen hvalue).map fun _ _ => .selectStop
  . have hlaid := hlower.laid htidy hopen hvalue
    rw [hclauses] at hrest
    simp only [bind_ok, newBlock_ok] at hrest
    obtain ⟨_, _, hblocks, _, _, hblocks', _, _, ⟨rfl, rfl⟩, _, _, hleave, live, g, harms,
      hmeet⟩ := hrest
    obtain ⟨rfl, rfl⟩ := (newBlocks_ok hlaid.tidy).1 hblocks
    have htidy₁ := hlaid.tidy.openedBy clauses.length
    obtain ⟨rfl, rfl⟩ := (newBlocks_ok htidy₁).1 hblocks'
    have htidy₂ := htidy₁.openedBy fallback.toList.length
    obtain rfl := (leave_ok htidy₂.opened).1 hleave
    rw [Draft.openedBy_spot htidy₁, Draft.openedBy_spot hlaid.tidy] at harms hmeet
    generalize harms' : clauses.map (fun clause => some clause.2) ++ fallback.toList.map some = arms
    have hlength : arms.length = clauses.length + fallback.toList.length := by simp [← harms']
    have hrange : List.range' e.spot.fresh arms.length =
        .range' e.spot.fresh clauses.length ++
          .range' (e.spot.fresh + clauses.length) fallback.toList.length := by
      rw [hlength, List.range'_append_1]
    have hdraft : ((e.openedBy clauses.length).openedBy fallback.toList.length).opened =
        e.openedBy (arms.length + 1) := by
      rw [← Draft.openedBy_add, ← hlength, Draft.openedBy_add]
      rfl
    have htransfer : Transfer.case operand (clauses.map (caseTests ·.1))
        (.range' e.spot.fresh clauses.length)
        (List.range' (e.spot.fresh + clauses.length) fallback.toList.length).head? =
        (Choice.cases (clauses.map (caseTests ·.1))).transfer operand
          (.range' e.spot.fresh arms.length) := by
      simp [Choice.transfer, hrange]
    have hzip : (clauses.map (some ·.2)).zip (.range' e.spot.fresh clauses.length) ++
        (fallback.toList.map some).zip
          (.range' (e.spot.fresh + clauses.length) fallback.toList.length) =
        arms.zip (.range' e.spot.fresh arms.length) := by
      rw [hrange, ← harms', List.zip_append (by simp)]
    have hmeetBlock : e.spot.fresh + clauses.length + fallback.toList.length =
        e.spot.fresh + arms.length := by
      rw [hlength, Nat.add_assoc]
    simp only [Spot.opened] at harms hmeet
    rw [hdraft, htransfer, hzip, hmeetBlock] at harms
    rw [hmeetBlock] at hmeet
    exact select_laid hlower hlaid harms hmeet

theorem ownResult_ok {operand : Operand} {span : Span} {id : ValueId} (htidy : d.Tidy)
    (h : ownResult operand span d = .ok id d')
    : (id = d.spot.value ∧ d' = d.push (.effect (.const operand)) span) ∨
        (operand = .result id ∧ d.scope.binds id = false ∧ d' = d) := by
  unfold ownResult at h
  split at h
  . next own =>
    obtain ⟨_, _, hscope, h⟩ := bind_ok.1 h
    obtain ⟨rfl, rfl⟩ := scope_ok.1 hscope
    split at h
    . exact .inl ((perform_ok htidy).1 h)
    . next hbinds =>
      obtain ⟨rfl, rfl⟩ := pure_ok.1 h
      exact .inr ⟨rfl, Bool.not_eq_true _ ▸ hbinds, rfl⟩
  . exact .inl ((perform_ok htidy).1 h)

theorem bindings_laid (hlower : Faithful options lower) {pairs : List (String × Form)}
    {forms : List Form} {lowered : Lowered} (htidy : d.Tidy) (hopen : d.Open)
    (h : bindAll lower forms pairs d = .ok lowered d')
    : Draft.Grows (· = d.spot.block) (lowered.operands.isSome = true) d d' (fun handlers plan =>
        Code options plan handlers d.scope d.spot (.bindings pairs forms) lowered.operands
          d'.spot) ∧
      ∃ names, d'.scope = d.scope.bindAll names := by
  induction pairs generalizing d with
  | nil =>
    have hlaid := body_laid hlower htidy hopen h
    exact ⟨hlaid.toGrows.map fun _ _ => .bindingsNil, [], hlaid.scope⟩
  | cons pair pairs ih =>
    obtain ⟨name, init⟩ := pair
    rcases andThen_ok.1 h with ⟨hinit, rfl⟩ | ⟨operand, e, hinit, hrest⟩
    . have hlaid := hlower.laid htidy hopen hinit
      exact ⟨hlaid.toGrows.map fun _ _ => .bindingsStop, [], hlaid.scope⟩
    . have hlaid := hlower.laid htidy hopen hinit
      obtain ⟨id, f, hown, hrest⟩ := bind_ok.1 hrest
      obtain ⟨_, _, hbind, hbody⟩ := bind_ok.1 hrest
      obtain rfl := bindLocal_ok.1 hbind
      have hnames : ∀ names, (e.scope.bind name id).bindAll names =
          d.scope.bindAll ((name, id) :: names) := by
        intro names
        simp [hlaid.scope, Scope.bind, Scope.bindAll]
      rcases ownResult_ok hlaid.tidy hown with ⟨rfl, rfl⟩ | ⟨rfl, hbinds, rfl⟩
      . have hpush := Draft.Grows.push hlaid.tidy (hlaid.isOpen rfl) (.effect (.const operand))
          init.span
        have hscope : (e.push (.effect (.const operand)) init.span).scope = e.scope :=
          Draft.push_scope _ _ hlaid.tidy
        obtain ⟨hgrows, names, hnames'⟩ := ih
          (hpush.tidy.within ((e.push (.effect (.const operand)) init.span).scope.bind name
            e.spot.value)) (hpush.isOpen ⟨_, rfl⟩) hbody
        refine ⟨((hlaid.toGrows.next hpush).next (hgrows.within _)).map ?_,
          (name, e.spot.value) :: names, ?_⟩
        . rintro handlers plan ⟨⟨hcode, hholds⟩, hcode'⟩
          simp only [Draft.within_scope, Draft.within_spot] at hcode'
          rw [hscope, hlaid.scope, Draft.push_spot hlaid.tidy] at hcode'
          exact .bindingsCopy hcode hholds hcode'
        . rw [hnames', Draft.within_scope, hscope, hnames]
      . obtain ⟨hgrows, names, hnames'⟩ := ih
          (hlaid.tidy.within (f.scope.bind name id)) (hlaid.isOpen rfl) hbody
        refine ⟨(hlaid.toGrows.next (hgrows.within _)).map ?_, (name, id) :: names, ?_⟩
        . rintro handlers plan ⟨hcode, hcode'⟩
          simp only [Draft.within_scope, Draft.within_spot] at hcode'
          rw [hlaid.scope] at hcode' hbinds
          exact .bindingsKeep hcode hbinds hcode'
        . rw [hnames', Draft.within_scope, hnames]

theorem keepLocals_bindAll (scope : Scope) (names : List (String × ValueId))
    : (scope.bindAll names).keepLocals scope.locals.length = scope := by
  simp [Scope.bindAll, Scope.keepLocals]

theorem withLocals_ok {α : Type} {step : Lower α} {a : α}
    : withLocals step d = .ok a d'
        ↔
      ∃ t, step d = .ok a t ∧ d' = t.within (t.scope.keepLocals d.scope.locals.length) := by
  unfold withLocals
  simp only [bind_ok, scope_ok, within_ok]
  constructor
  . rintro ⟨_, _, ⟨rfl, rfl⟩, t, hstep, rfl⟩
    exact ⟨t, hstep, rfl⟩
  . rintro ⟨t, hstep, rfl⟩
    exact ⟨_, _, ⟨rfl, rfl⟩, t, hstep, rfl⟩

theorem bind_laid (hlower : Faithful options lower) {pairs : List (String × Form)}
    {forms : List Form} {lowered : Lowered} (htidy : d.Tidy) (hopen : d.Open)
    (h : withLocals (bindAll lower forms pairs) d = .ok lowered d')
    : Laid options d (.shape (.bind pairs forms)) lowered.operands d' := by
  obtain ⟨t, hbind, rfl⟩ := withLocals_ok.1 h
  obtain ⟨hgrows, names, hnames⟩ := bindings_laid hlower htidy hopen hbind
  have hwithin : Draft.Grows _ _ (d.within d.scope) t _ := hgrows
  refine ⟨(hwithin.within _).map fun _ _ => .bind, ?_⟩
  rw [Draft.within_scope, hnames, keepLocals_bindAll]

theorem recur_laid (hlower : Faithful options lower) {point : LoopPoint} {outer : List LoopPoint}
    {args : List Form} {span : Span} {lowered : Lowered} (hloops : d.scope.loops = point :: outer)
    (hdepth : point.tryDepth = d.scope.tryDepth) (hlength : point.carried.length = args.length)
    (htidy : d.Tidy) (hopen : d.Open) (h : recurTo lower point args span d = .ok lowered d')
    : Laid options d (.shape (.recur point args)) lowered.operands d' := by
  rcases withOperands_ok.1 h with ⟨hargs, rfl⟩ | ⟨os, e, hargs, hrest⟩
  . exact (operands_laid hlower htidy hopen hargs).map fun _ _ => .recurStop
  . have hlaid := operands_laid hlower htidy hopen hargs
    simp only [bind_ok] at hrest
    obtain ⟨_, _, hrecur, _, _, hleave, hlowered⟩ := hrest
    obtain ⟨rfl, rfl⟩ := pure_ok.1 hlowered
    obtain ⟨_, rfl⟩ := (perform_ok hlaid.tidy).1 hrecur
    have hpush := Draft.Grows.push hlaid.tidy (hlaid.isOpen rfl)
      (.effect (.recur point.carried os)) span
    obtain rfl := (leave_ok hpush.tidy).1 hleave
    have hpush' := Draft.Grows.push hpush.tidy (hpush.isOpen ⟨_, rfl⟩)
      (.transfer (.jump none point.header)) span
    refine hlaid.next (hpush.next hpush') ?_ (by simp [Lowered.operands]) ?_
    . rw [Draft.push_scope _ _ hpush.tidy, Draft.push_scope _ _ hlaid.tidy]
    . rintro handlers plan hcode ⟨hholds, hholds'⟩
      rw [Draft.push_spot hlaid.tidy] at hholds'
      rw [Draft.push_spot hpush.tidy, Draft.push_spot hlaid.tidy]
      refine .recur hloops hdepth hcode ?_ ⟨hholds.1, hholds'⟩
      rw [hlength, operands_length hargs]

theorem suspend_laid (hlower : Faithful options lower) {handler : String} {args : List Form}
    {span : Span} {lowered : Lowered} (htidy : d.Tidy) (hopen : d.Open)
    (h : suspendCall lower handler args span d = .ok lowered d')
    : Laid options d (.shape (.suspend handler args)) lowered.operands d' := by
  rcases withOperands_ok.1 h with ⟨hargs, rfl⟩ | ⟨os, e, hargs, hrest⟩
  . exact (operands_laid hlower htidy hopen hargs).map fun _ _ => .suspendStop
  . have hlaid := operands_laid hlower htidy hopen hargs
    simp only [bind_ok, newBlock_ok] at hrest
    obtain ⟨_, _, ⟨rfl, rfl⟩, _, _, hleave, hmeet⟩ := hrest
    obtain rfl := (leave_ok hlaid.tidy.opened).1 hleave
    have hleft := Draft.Grows.leftTo hlaid.tidy 1 (.suspend handler e.spot.fresh os) span
      (hlaid.isOpen rfl) (fun _ handlers => .plain handlers d.scope)
    have hblank := Draft.Blank.leftTo hlaid.tidy 1 (.suspend handler e.spot.fresh os) span
    obtain ⟨hlt, hempty⟩ := hblank e.spot.fresh (by simp)
    have hspot := Draft.leftTo_spot hlaid.tidy 1 (.suspend handler e.spot.fresh os) span
    refine meetAt_laid (hlaid.toGrows.next hleft) ?_ (fun _ _ ht => ht) hlaid.fresh hlt hempty
      hmeet ?_
    . rw [Draft.leftTo_scope hlaid.tidy, hlaid.scope]
    . rintro handlers plan ⟨hcode, hlabel, hholds⟩ hreceive
      rw [hspot] at hreceive ⊢
      exact .suspend hcode (hlabel _ (Nat.le_refl _) (Nat.lt_succ_self _)) hholds hreceive

theorem finish_laid {forms : List Form} {e : Draft} {operand : Operand} {span : Span} {a : Unit}
    (hlaid : Laid options d (.body (.literal .nil) forms) (some [operand]) e)
    (h : finishWith options operand span e = .ok a d')
    : Laid options d (.shape (.finish forms)) none d' := by
  unfold finishWith at h
  cases hhandler : options.terminators.returnHandler? with
  | none =>
    rw [hhandler] at h
    obtain rfl := (leave_ok hlaid.tidy).1 h
    refine hlaid.next (.push hlaid.tidy (hlaid.isOpen rfl) (.transfer (.finish operand)) span)
      (Draft.push_scope _ _ hlaid.tidy) (by simp) ?_
    intro handlers plan hcode hholds
    rw [Draft.push_spot hlaid.tidy]
    exact .finish hcode hhandler hholds
  | some handler =>
    rw [hhandler] at h
    simp only [bind_ok, newBlock_ok] at h
    obtain ⟨_, _, ⟨rfl, rfl⟩, _, _, hleave, _, _, henter, hleave'⟩ := h
    obtain rfl := (leave_ok hlaid.tidy.opened).1 hleave
    have hleft := Draft.Grows.leftTo hlaid.tidy 1 (.suspend handler e.spot.fresh [operand]) span
      (hlaid.isOpen rfl) (fun _ handlers => .plain handlers d.scope)
    have hblank := Draft.Blank.leftTo hlaid.tidy 1 (.suspend handler e.spot.fresh [operand]) span
    obtain ⟨hlt, hempty⟩ := hblank e.spot.fresh (by simp)
    have hspot := Draft.leftTo_spot hlaid.tidy 1 (.suspend handler e.spot.fresh [operand]) span
    have hscope := Draft.leftTo_scope hlaid.tidy 1 (.suspend handler e.spot.fresh [operand]) span
    change Lower.enter _ _ (e.leftTo 1 _ _) = _ at henter
    generalize e.leftTo 1 (.suspend handler e.spot.fresh [operand]) span = g at *
    have hat := Draft.Grows.goTo hleft.tidy hlt hempty
    obtain ⟨rfl, rfl⟩ := (enter_ok hat.tidy).1 henter
    have hpush := Draft.Grows.push hat.tidy (hat.isOpen trivial) .receive span
    obtain rfl := (leave_ok hpush.tidy).1 hleave'
    have hpush' := Draft.Grows.push hpush.tidy (hpush.isOpen ⟨_, rfl⟩)
      (.transfer (.finish (.result g.spot.value))) span
    have hspot' := Draft.goTo_spot hempty
    refine ⟨(((hlaid.toGrows.next hleft).trans ((hat.next hpush).next hpush') ?_).weaken
      (fun _ _ ht => ht) (by simp)).map ?_, ?_⟩
    . have := hlaid.fresh
      intro b hb ht
      lia
    . rintro handlers plan ⟨⟨hcode, hlabel, hholds⟩, ⟨_, hreceive⟩, hfinish⟩
      rw [Draft.push_spot hat.tidy] at hfinish
      rw [Draft.push_spot hpush.tidy, Draft.push_spot hat.tidy]
      rw [hspot', hspot] at *
      exact .finishBy hcode hhandler (hlabel _ (Nat.le_refl _) (Nat.lt_succ_self _)) hholds
        ⟨hreceive.1, hfinish⟩
    . rw [Draft.push_scope _ _ hpush.tidy, Draft.push_scope _ _ hat.tidy, Draft.goTo_scope, hscope,
        hlaid.scope]

theorem loopBody_grows (hlower : Faithful options lower) {names : List (String × ValueId)}
    {point : LoopPoint} {forms : List Form} {lowered : Lowered} (htidy : d.Tidy) (hopen : d.Open)
    (h : withLocals (do
      bindLocals names
      withLoop point (body lower forms)) d = .ok lowered d')
    : Draft.Grows (· = d.spot.block) (lowered.operands.isSome = true) d d' (fun handlers plan =>
        Code options plan handlers ((d.scope.bindAll names).inLoop point) d.spot
          (.body (.literal .nil) forms) lowered.operands d'.spot) ∧
      d'.scope = d.scope := by
  obtain ⟨t, hbody, rfl⟩ := withLocals_ok.1 h
  obtain ⟨_, _, hbind, hloop⟩ := bind_ok.1 hbody
  obtain rfl := bindLocals_ok.1 hbind
  obtain ⟨u, hforms, rfl⟩ := within_ok.1 hloop
  have hlaid := body_laid hlower (htidy.within ((d.scope.bindAll names).inLoop point)) hopen hforms
  refine ⟨hlaid.toGrows.within _, ?_⟩
  simp only [Draft.within_scope]
  rw [hlaid.scope]
  exact keepLocals_bindAll d.scope names

theorem copyAll_grows {os : List Operand} {forms : List Form} {ids : List ValueId}
    (hlength : os.length = forms.length) (htidy : d.Tidy) (hopen : d.Open)
    (h : copyAll (os.zip forms) d = .ok ids d')
    : ids = .range' d.spot.value os.length ∧ d'.spot = d.spot.skip os.length ∧
        d'.scope = d.scope ∧
      Draft.Grows (· = d.spot.block) True d d' (fun _ plan =>
        plan.Holds d.spot (os.map fun operand => .effect (.const operand))) := by
  obtain ⟨rfl, rfl⟩ := (copyAll_ok htidy hopen).1 h
  have hsize : (os.zip forms).length = os.length := by
    rw [List.length_zip]
    omega
  have hconsts : ((os.zip forms).map fun pair : Operand × Form =>
      (Effect.const pair.1, pair.2.span)).map (fun entry => Command.effect entry.1) =
      os.map fun operand => .effect (.const operand) := by
    rw [List.map_map]
    have hfst : (os.zip forms).map Prod.fst = os := List.map_fst_zip (by omega)
    conv => rhs; rw [← hfst]
    rw [List.map_map]
    rfl
  rw [← hconsts, Draft.pushAll_spot htidy hopen, Draft.pushAll_scope htidy hopen, List.length_map,
    hsize]
  exact ⟨rfl, rfl, rfl, .pushAll htidy hopen _⟩

theorem loop_laid (hlower : Faithful options lower) {pairs : List (String × Form)}
    {forms : List Form} {span : Span} {lowered : Lowered} (htidy : d.Tidy) (hopen : d.Open)
    (h : loopOver lower pairs forms span d = .ok lowered d')
    : Laid options d (.shape (.loop pairs forms)) lowered.operands d' := by
  rcases withOperands_ok.1 h with ⟨hinits, rfl⟩ | ⟨os, e, hinits, hrest⟩
  . exact (operands_laid hlower htidy hopen hinits).map fun _ _ => .loopStop
  . have hlaid := operands_laid hlower htidy hopen hinits
    simp only [bind_ok, newBlock_ok, goTo_ok, scope_ok] at hrest
    obtain ⟨carried, g, hcopy, _, _, ⟨rfl, rfl⟩, _, _, hleave, _, _, rfl, _, _, ⟨rfl, rfl⟩,
      lowered₁, u, hbody, hend⟩ := hrest
    obtain ⟨rfl, hspot₁, hscope₁, hcopied⟩ :=
      copyAll_grows (operands_length hinits) hlaid.tidy (hlaid.isOpen rfl) hcopy
    obtain rfl := (leave_ok hcopied.tidy.opened).1 hleave
    have hleft := Draft.Grows.leftTo hcopied.tidy 1 (.jump none g.spot.fresh) span
      (hcopied.isOpen trivial) (fun _ handlers => .plain handlers d.scope)
    have hspot₂ := Draft.leftTo_spot hcopied.tidy 1 (.jump none g.spot.fresh) span
    have hscope₂ := Draft.leftTo_scope hcopied.tidy 1 (.jump none g.spot.fresh) span
    obtain ⟨hlt, hempty⟩ := Draft.Blank.leftTo hcopied.tidy 1 (.jump none g.spot.fresh) span
      g.spot.fresh (by simp)
    have hdepth : ((g.opened.push (.transfer (.jump none g.spot.fresh)) span).goTo
        g.spot.fresh).scope = d.scope := hscope₂.trans (hscope₁.trans hlaid.scope)
    rw [hdepth] at hbody
    change withLocals _ ((g.leftTo 1 _ _).goTo _) = _ at hbody
    generalize hw : g.leftTo 1 (.jump none g.spot.fresh) span = w at *
    have hat := Draft.Grows.goTo hleft.tidy hlt hempty
    obtain ⟨hgrows, hscope₃⟩ := loopBody_grows hlower hat.tidy (hat.isOpen trivial) hbody
    rw [Draft.goTo_scope, Draft.goTo_spot hempty] at hgrows
    rw [Draft.goTo_scope, hscope₂, hscope₁, hlaid.scope] at hscope₃
    have hfresh : d.spot.fresh ≤ g.spot.fresh := by
      rw [hspot₁]
      exact hlaid.fresh
    -- A loop that is never left and one that is have all code in common but the way out.
    have hall : Draft.Grows (· = d.spot.block) (lowered₁.operands.isSome = true) d u
        (fun handlers plan =>
        Code options plan handlers d.scope d.spot (.operands (pairs.map (·.2))) (some os) e.spot ∧
        plan.label e.spot.fresh = .plain handlers d.scope ∧
        plan.Holds e.spot (os.map (fun operand => .effect (.const operand)) ++
          [.transfer (.jump none e.spot.fresh)]) ∧
        Code options plan handlers
          ((d.scope.bindAll ((pairs.map (·.1)).zip (.range' e.spot.value os.length))).inLoop
            ⟨e.spot.fresh, d.scope.tryDepth, .range' e.spot.value os.length⟩)
          (((e.spot.opened 1).skip (os.length + 1)).goTo e.spot.fresh)
          (.body (.literal .nil) forms) lowered₁.operands u.spot) := by
      have htouched : ∀ b, b < d.spot.fresh → b = g.spot.fresh → b = d.spot.block := by
        intro b hb ht
        lia
      refine (((hlaid.toGrows.next hcopied).next hleft).trans (hat.next hgrows) htouched).map ?_
      rintro handlers plan ⟨⟨⟨hcode, hconsts⟩, hlabel, hjump⟩, _, hbody⟩
      rw [hspot₁] at hlabel hjump
      rw [hspot₂, hscope₂, hscope₁, hlaid.scope, hspot₁] at hbody
      refine ⟨hcode, hlabel _ (Nat.le_refl _) (Nat.lt_succ_self _), ?_, hbody⟩
      rw [Plan.holds_append, List.length_map]
      exact ⟨hconsts, hjump⟩
    cases lowered₁ with
    | terminated =>
      obtain ⟨rfl, rfl⟩ := pure_ok.1 hend
      refine ⟨hall.map ?_, hscope₃⟩
      rintro handlers plan ⟨hcode, hlabel, hholds, hbody⟩
      exact .loopDead hcode hlabel hholds rfl hbody
    | value operand =>
      simp only [bind_ok, newBlock_ok] at hend
      obtain ⟨_, _, ⟨rfl, rfl⟩, _, _, hleave, hmeet⟩ := hend
      obtain rfl := (leave_ok hall.tidy.opened).1 hleave
      have hleft := Draft.Grows.leftTo hall.tidy 1 (.jump (some operand) u.spot.fresh) span
        (hall.isOpen rfl) (fun _ handlers => .plain handlers d.scope)
      obtain ⟨hlt, hempty⟩ := Draft.Blank.leftTo hall.tidy 1 (.jump (some operand) u.spot.fresh)
        span u.spot.fresh (by simp)
      have hspot := Draft.leftTo_spot hall.tidy 1 (.jump (some operand) u.spot.fresh) span
      have hscope := Draft.leftTo_scope hall.tidy 1 (.jump (some operand) u.spot.fresh) span
      refine meetAt_laid (hall.next hleft) (hscope.trans hscope₃) (fun _ _ ht => ht) hall.fresh hlt
        hempty hmeet ?_
      rintro handlers plan ⟨⟨hcode, hlabel, hholds, hbody⟩, hlabel', hjump⟩ hreceive
      rw [hspot] at hreceive ⊢
      exact .loop hcode hlabel hholds rfl hbody
        (hlabel' _ (Nat.le_refl _) (Nat.lt_succ_self _)) hjump hreceive

end Lower

end Resumable
