import Resumable.Proofs.Handlers.Discipline

/-!
This module contains what the body of a `finally` clause can do to the handlers and to the value
that was in flight when it was entered: it leaves the handlers around it alone, and keeps the value
for the end.
-/

namespace Resumable

namespace Plan

variable {options : CompileOptions} {source : Form} {graph : Graph} {plan : Plan} {params : Nat}
  {F b : BlockId} {x : ValueId} {v : Value} {handlers : List BlockId} {i : Nat}
  {ins : Instruction}

def Above (plan : Plan) (F : BlockId) (around handlers : List BlockId) : Prop :=
  ∃ inner, handlers = inner ++ around ∧ ∀ h ∈ inner, F ∈ (plan.label h).inside ∧ h ≠ F

def Inner (plan : Plan) (F : BlockId) (handlers : List BlockId) : Prop :=
  ∃ inner, handlers = inner ++ (plan.label F).under ∧
    ∀ h ∈ inner, F ∈ (plan.label h).inside ∧ h ≠ F

structure Body (plan : Plan) (F : BlockId) (x : ValueId) (v : Value) (b : BlockId) (i : Nat)
    (p : Plain) (handlers : List BlockId) : Prop where
  held : plan.Held b i p.state handlers
  inner : plan.Inner F handlers
  value : p.values x = v
  past : ∀ {j : Nat} {before : Instruction}, i = j + 1 → (plan.code b)[j]? = some before →
    before.command ≠ .effect (.endFinally (.result x))

theorem Takes.unique (h : plan.Takes F x) {x' : ValueId} (h' : plan.Takes F x') : x = x' := by
  obtain ⟨_, hx⟩ := h
  obtain ⟨_, hx'⟩ := h'
  rw [hx] at hx'
  cases hx'
  rfl

theorem mem_inside_of_guards {inside : List BlockId} {target : BlockId}
    (h : plan.Guards handlers inside target) (hF : F ∈ inside)
    : F ∈ (plan.label target).inside := by
  rcases h with h | h
  . rw [h]
    exact hF
  . rw [h]
    exact List.mem_cons_of_mem _ hF

end Plan

namespace Graph.Coded

open Plan

variable {options : CompileOptions} {source : Form} {graph : Graph} {plan : Plan}
  {F b : BlockId} {x : ValueId} {v : Value} {handlers : List BlockId} {i : Nat}
  {ins : Instruction}

theorem takes_inj (h : graph.Coded options source plan) {F' : BlockId} (hF : plan.Takes F x)
    (hF' : plan.Takes F' x)
    : F = F' := by
  obtain ⟨_, hx⟩ := hF
  obtain ⟨_, hx'⟩ := hF'
  exact (h.unique hx hx' rfl).1

theorem not_ready_of_takes (h : graph.Coded options source plan) (hF : plan.Takes F x)
    {reader : ValueId}
    : ¬ plan.Ready options.params.length reader x := by
  intro ⟨_, hready⟩
  obtain ⟨_, hx⟩ := hF
  rcases hready with hparam | ⟨b, i, effect, span, hi, hname⟩
  . obtain ⟨_, _, hbound, _⟩ := h.main
    have := (hbound hx).1
    lia
  . obtain ⟨rfl, rfl⟩ := h.unique hx hi rfl
    rw [hx] at hi
    cases hi
    cases hname

theorem write_of_takes (h : graph.Coded options source plan) (hF : plan.Takes F x)
    (hi : (plan.code b)[i]? = some ins) (hwrite : x ∈ ins.writes)
    : b = F ∧ i = 1 := by
  have hown : x = ins.id → b = F ∧ i = 1 := by
    intro heq
    obtain ⟨_, hx⟩ := hF
    exact h.unique hi hx heq.symm
  have hfits := h.fits hi
  obtain ⟨id, command, span⟩ := ins
  cases hfits with
  | @plain e hplain _ =>
    apply hown
    cases e <;> first | exact List.mem_singleton.1 hwrite | cases hplain
  | setLocal hready _ =>
    rcases List.mem_cons.1 hwrite with rfl | hwrite
    . exact absurd hready (h.not_ready_of_takes hF)
    . exact hown (List.mem_singleton.1 hwrite)
  | recur _ _ hready _ => exact absurd (hready x hwrite) (h.not_ready_of_takes hF)
  | take _ _ => exact hown (List.mem_singleton.1 hwrite)
  | push | pop | popOwn | endFinally | finish | leave | leaveFinally => cases hwrite

theorem inside_cleanup (h : graph.Coded options source plan)
    (hrole : (plan.label F).role = .cleanup)
    : ∃ outer, (plan.label F).inside = F :: outer ∧ F ∉ outer := by
  obtain ⟨_, scope, _, _, _, _, _, _, _, hlt, hlabel⟩ := (h.blockFits F).cleanup hrole
  refine ⟨scope.finallys, by rw [hlabel], ?_⟩
  intro hmem
  exact Nat.lt_irrefl _ (hlt F hmem)

theorem ne_of_mem_inside (h : graph.Coded options source plan) {inside : List BlockId}
    (hF : F ∈ inside) {target : BlockId}
    (htarget : (plan.label target).role = .cleanup → (plan.label target).inside = target :: inside)
    (hrole : (plan.label F).role = .cleanup)
    : target ≠ F := by
  intro heq
  subst heq
  obtain ⟨outer, hinside, hnot⟩ := h.inside_cleanup hrole
  rw [htarget hrole] at hinside
  cases hinside
  exact hnot hF

theorem lt_of_mem_under (h : graph.Coded options source plan) {g : BlockId}
    (hg : g ∈ (plan.label F).under)
    : F ∉ (plan.label g).inside := by
  intro hmem
  have hlt := (h.blockFits F).under g hg
  have hle := (h.blockFits g).inside F hmem
  exact Nat.lt_irrefl _ (Nat.lt_of_lt_of_le hlt hle)

theorem inner_not_mem (h : graph.Coded options source plan) (hinner : plan.Inner F handlers)
    : F ∉ handlers := by
  obtain ⟨inner, rfl, hall⟩ := hinner
  intro hmem
  rcases List.mem_append.1 hmem with hmem | hmem
  . exact (hall F hmem).2 rfl
  . exact Nat.lt_irrefl _ ((h.blockFits F).under F hmem)

theorem above_push (h : graph.Coded options source plan) (hrole : (plan.label F).role = .cleanup)
    {around : List BlockId} (habove : plan.Above F around handlers) {inside outer : List BlockId}
    (hF : F ∈ inside) {block : BlockId} (hguards : plan.Guards outer inside block)
    : plan.Above F around (block :: handlers) := by
  obtain ⟨inner, rfl, hall⟩ := habove
  refine ⟨block :: inner, rfl, ?_⟩
  rw [List.forall_mem_cons]
  refine ⟨⟨mem_inside_of_guards hguards hF, ?_⟩, hall⟩
  apply h.ne_of_mem_inside hF _ hrole
  intro hcleanup
  rcases hguards with hlabel | hlabel
  . rw [hlabel] at hcleanup
    cases hcleanup
  . rw [hlabel]

theorem above_pop {around : List BlockId} (habove : plan.Above F around handlers)
    (hout : ∀ g ∈ around, F ∉ (plan.label g).inside) {block : BlockId}
    (hblock : F ∈ (plan.label block).inside)
    : plan.Above F around (if handlers.head? = some block then handlers.tail else handlers) := by
  split
  . next hhead =>
    obtain ⟨inner, rfl, hall⟩ := habove
    cases inner with
    | nil => exact absurd hblock (hout block (List.mem_of_mem_head? hhead))
    | cons top inner => exact ⟨inner, rfl, (List.forall_mem_cons.1 hall).2⟩
  . exact habove

theorem inner_push (h : graph.Coded options source plan) (hrole : (plan.label F).role = .cleanup)
    (hinner : plan.Inner F handlers) {inside : List BlockId} (hF : F ∈ inside) {block : BlockId}
    (hguards : plan.Guards handlers inside block)
    : plan.Inner F (block :: handlers) :=
  h.above_push hrole hinner hF hguards

theorem inner_pop (h : graph.Coded options source plan) (hinner : plan.Inner F handlers)
    {block : BlockId} (hblock : F ∈ (plan.label block).inside)
    : plan.Inner F (if handlers.head? = some block then handlers.tail else handlers) :=
  -- The handlers around the clause come before it, the popped one does not.
  above_pop hinner (fun _ hg => h.lt_of_mem_under hg) hblock

theorem popped_inside (h : graph.Coded options source plan) (hF : F ∈ (plan.label b).inside)
    {block : BlockId} (hi : (plan.code b)[i]? = some ins)
    (hpop : ins.command = .effect (.popHandler block))
    : F ∈ (plan.label block).inside := by
  have hfits := h.fits hi
  rw [hpop] at hfits
  cases hfits with
  | plain hplain => cases hplain
  | pop _ hguards => exact mem_inside_of_guards hguards hF
  | popOwn => exact hF

theorem body_effect (h : graph.Coded options source plan) (hsmall : graph.IsSmall)
    (hrole : (plan.label F).role = .cleanup) (hx : plan.Takes F x) (hv : v.isNil = false)
    (hF : F ∈ (plan.label b).inside) (hstarted : b = F → 3 ≤ i) {call : Caller} {e : Effect}
    {p p' : Plain} (hbody : plan.Body F x v b i p handlers) (hi : (plan.code b)[i]? = some ins)
    (he : ins.command = .effect e) (hok : Plain.effect call ins.id e p = .ok () p')
    : plan.Body F x v b (i + 1) p' ((Command.effect e).stack handlers) := by
  have hheld := hbody.held.effect (h.blockFits b) hi (h.fits hi) he (h.small_references hsmall hi)
  have hwrites : ins.writes = e.writes ins.id := by simp only [Instruction.writes, he]
  have hx' : x ∉ e.writes ins.id := by
    intro hmem
    obtain ⟨rfl, rfl⟩ := h.write_of_takes hx hi (hwrites ▸ hmem)
    exact absurd (hstarted rfl) (by omega)
  rcases Plain.changes_effect call ins.id e p with ⟨_, _, hstop⟩ | ⟨store, values, heq, hother⟩
  . rw [hstop] at hok
    cases hok
  rw [heq] at hok
  cases hok
  refine ⟨hheld, ?_, (hother x hx').trans hbody.value, ?_⟩
  . cases e with
    | pushHandler block =>
      have hstack := hbody.held.mayHold.eq_stackAt (h.blockFits b) hi
        (by simp [IsPrologue, he, Command.receive])
      have hfits := h.fits hi
      rw [he] at hfits
      cases hfits with
      | plain hplain => cases hplain
      | push hguards =>
        rw [← hstack] at hguards
        exact h.inner_push hrole hbody.inner hF hguards
    | popHandler block => exact h.inner_pop hbody.inner (h.popped_inside hF hi he)
    | _ => exact hbody.inner
  . intro j before hj hbefore hend
    obtain rfl : i = j := by omega
    rw [hi] at hbefore
    cases hbefore
    rw [he] at hend
    cases hend
    -- It would have been thrown again.
    rw [Plain.effect_endFinally, hbody.value, hv] at heq
    cases heq

theorem target_inside (h : graph.Coded options source plan) (hrole : (plan.label F).role = .cleanup)
    (hx : plan.Takes F x) (hF : F ∈ (plan.label b).inside)
    (hpast : ∀ {j : Nat} {before : Instruction}, i = j + 1 → (plan.code b)[j]? = some before →
      before.command ≠ .effect (.endFinally (.result x)))
    (hi : (plan.code b)[i]? = some ins) {t : Transfer} (ht : ins.command = .transfer t)
    {target : BlockId} (htarget : target ∈ t.references)
    : F ∈ (plan.label target).inside ∧ target ≠ F := by
  have hplain : (plan.label target).role = .plain → target ≠ F := by
    intro hplain heq
    rw [heq, hrole] at hplain
    cases hplain
  have hfits := h.fits hi
  rw [ht] at hfits
  cases hfits with
  | finish => cases htarget
  | leave _ hleads _ =>
    rcases hleads target htarget with hlabel | ⟨_, hlabel, _⟩
    . rw [hlabel]
      exact ⟨hF, hplain (by rw [hlabel])⟩
    . refine ⟨?_, h.ne_of_mem_inside hF (fun _ => by rw [hlabel]) hrole⟩
      rw [hlabel]
      exact List.mem_cons_of_mem _ hF
  | @leaveFinally block outer _ exit exception j before htakes hj hbefore hend _ hinside hlabel =>
    cases List.mem_singleton.1 htarget
    refine ⟨?_, hplain (by rw [hlabel])⟩
    rw [hinside] at hF
    rcases List.mem_cons.1 hF with rfl | hF
    . obtain rfl := hx.unique htakes
      exact absurd hend (hpast hj hbefore)
    . rw [hlabel]
      exact hF

theorem body_target (h : graph.Coded options source plan) (hrole : (plan.label F).role = .cleanup)
    (hx : plan.Takes F x) (hF : F ∈ (plan.label b).inside) {p : Plain}
    (hbody : plan.Body F x v b i p handlers) (hi : (plan.code b)[i]? = some ins) {t : Transfer}
    (ht : ins.command = .transfer t) {target : BlockId} (htarget : target ∈ t.references)
    : F ∈ (plan.label target).inside ∧ target ≠ F :=
  -- At the end of the clause itself the value in flight is thrown again.
  h.target_inside hrole hx hF hbody.past hi ht htarget

end Graph.Coded

namespace Plan

structure Entered (plan : Plan) (F : BlockId) (x : ValueId) (v : Value) (i : Nat) (p : Plain) :
    Prop where
  held : plan.Held F i p.state (F :: (plan.label F).under)
  flight : i < 2 → p.state.exception = v
  value : i = 2 → p.values x = v

def Cleaning (plan : Plan) (F : BlockId) (x : ValueId) (v : Value) (b : BlockId) (i : Nat)
    (p : Plain) : Prop :=
  (b = F ∧ i < 3 ∧ plan.Entered F x v i p) ∨
    ((b = F → 3 ≤ i) ∧ ∃ handlers, plan.Body F x v b i p handlers)

structure Carries (plan : Plan) (F : BlockId) (x : ValueId) (v : Value) (s : State)
    (values : ValueId → Value) (handlers : List BlockId) : Prop where
  stacked : s.Stacked handlers
  chain : plan.Chain handlers
  inner : plan.Inner F handlers
  value : values x = v

inductive Cleans (plan : Plan) (F : BlockId) (x : ValueId) (v : Value) :
    EStateM.Result Stop Plain Plain.Ending → Prop where
  | next {target : BlockId} {handlers : List BlockId} {p : Plain} :
    plan.At target p.state handlers → plan.Carries F x v p.state p.values handlers →
      F ∈ (plan.label target).inside → target ≠ F → plan.Cleans F x v (.ok .next p)
  | done {value : Value} {p : Plain} : plan.Cleans F x v (.ok (.done value) p)
  | suspend {name : String} {resume : BlockId} {args : List Value} {handlers : List BlockId}
      {p : Plain} :
    resume < State.blockLimit → plan.Enters resume handlers →
      plan.Carries F x v p.state p.values handlers → F ∈ (plan.label resume).inside → resume ≠ F →
        plan.Cleans F x v (.ok (.suspend name resume args) p)
  | stop {stop : Stop} {handlers : List BlockId} {p : Plain} :
    plan.Carries F x v p.state p.values handlers → plan.Cleans F x v (.error stop p)

theorem Body.carries {plan : Plan} {F b : BlockId} {x : ValueId} {v : Value} {i : Nat} {p : Plain}
    {handlers : List BlockId} (h : plan.Body F x v b i p handlers)
    : plan.Carries F x v p.state p.values handlers where
  stacked := h.held.stacked
  chain := h.held.chain
  inner := h.inner
  value := h.value

end Plan

namespace Graph.Coded

open Plan

variable {options : CompileOptions} {source : Form} {graph : Graph} {plan : Plan}
  {F b : BlockId} {x : ValueId} {v : Value} {handlers : List BlockId} {i : Nat}
  {ins : Instruction}

theorem entered_effect (h : graph.Coded options source plan) (hsmall : graph.IsSmall)
    (hrole : (plan.label F).role = .cleanup) (hx : plan.Takes F x) {p : Plain} (hlt : i < 3)
    (hentered : plan.Entered F x v i p) (hi : (plan.code F)[i]? = some ins) {e : Effect}
    (he : ins.command = .effect e) (call : Caller)
    : ∃ p', Plain.effect call ins.id e p = .ok () p' ∧ plan.Cleaning F x v F (i + 1) p' := by
  have hheld := hentered.held.effect (h.blockFits F) hi (h.fits hi) he
    (h.small_references hsmall hi)
  rcases (h.blockFits F).prologue hrole hi hlt with ⟨rfl, hcommand⟩ | ⟨rfl, hcommand⟩ |
    ⟨rfl, hcommand⟩
  . rw [he] at hcommand
    cases hcommand
    refine ⟨{ p with values := update p.values ins.id p.state.pending }, rfl, .inl ?_⟩
    exact ⟨rfl, by omega, hheld, fun _ => hentered.flight (by omega), by omega⟩
  . rw [he] at hcommand
    cases hcommand
    refine ⟨{ p with
      state := p.state.clearException
      values := update p.values ins.id p.state.exception }, rfl, .inl ?_⟩
    refine ⟨rfl, by omega, hheld, by omega, ?_⟩
    intro _
    obtain ⟨_, htake⟩ := hx
    rw [hi] at htake
    cases htake
    simp only [update, if_true]
    exact hentered.flight (by omega)
  . rw [he] at hcommand
    cases hcommand
    have hpopped : (Command.effect (.popHandler F)).stack (F :: (plan.label F).under)
        = (plan.label F).under := by
      simp [Command.stack]
    rw [hpopped] at hheld
    refine ⟨{ p with state := p.state.popHandler F }, rfl, .inr ⟨fun _ => by omega,
      (plan.label F).under, hheld, ⟨[], rfl, by simp⟩, hentered.value rfl, ?_⟩⟩
    intro j before hj hbefore
    obtain rfl : j = 2 := by omega
    rw [hi] at hbefore
    cases hbefore
    simp [he]

theorem cleaning_effect (h : graph.Coded options source plan) (hsmall : graph.IsSmall)
    (hrole : (plan.label F).role = .cleanup) (hx : plan.Takes F x) (hv : v.isNil = false)
    (hF : F ∈ (plan.label b).inside) {call : Caller} {e : Effect} {p p' : Plain}
    (hcleaning : plan.Cleaning F x v b i p) (hi : (plan.code b)[i]? = some ins)
    (he : ins.command = .effect e) (hok : Plain.effect call ins.id e p = .ok () p')
    : plan.Cleaning F x v b (i + 1) p' := by
  rcases hcleaning with ⟨rfl, hlt, hentered⟩ | ⟨hstarted, handlers, hbody⟩
  . obtain ⟨q, hq, hnext⟩ := h.entered_effect hsmall hrole hx hlt hentered hi he call
    rw [hq] at hok
    cases hok
    exact hnext
  . exact .inr ⟨fun heq => Nat.le_succ_of_le (hstarted heq), _,
      h.body_effect hsmall hrole hx hv hF hstarted hbody hi he hok⟩

theorem body_of_cleaning (h : graph.Coded options source plan)
    (hrole : (plan.label F).role = .cleanup) {p : Plain}
    (hcleaning : plan.Cleaning F x v b i p) (hi : (plan.code b)[i]? = some ins)
    (hother : ¬ IsPrologue b i ins.command)
    : ∃ handlers, plan.Body F x v b i p handlers := by
  rcases hcleaning with ⟨rfl, hlt, _⟩ | ⟨_, hbody⟩
  . exact absurd ((h.blockFits b).prologue hrole hi hlt) hother
  . exact hbody

theorem code_cleans (h : graph.Coded options source plan) (hsmall : graph.IsSmall)
    (hrole : (plan.label F).role = .cleanup) (hx : plan.Takes F x) (hv : v.isNil = false)
    (hF : F ∈ (plan.label b).inside) (call : Caller) {p : Plain}
    (hcleaning : plan.Cleaning F x v b 0 p)
    (hlast : ∃ ins ∈ plan.code b, ins.isTransfer = true)
    : plan.Cleans F x v (Plain.code call (plan.code b) p) := by
  have hends : Plain.Ends call (plan.code b) (plan.Cleaning F x v b)
      (Plain.code call (plan.code b) p) := by
    apply Plain.code_ends _ hcleaning
    intro i ins e p p' hi he hcleaning hok
    exact h.cleaning_effect hsmall hrole hx hv hF hcleaning hi he hok
  generalize Plain.code call (plan.code b) p = r at hends
  cases hends with
  | @left i ins t p p' ending hi ht hcleaning hok =>
    obtain ⟨handlers, hbody⟩ := h.body_of_cleaning hrole hcleaning hi
      (by simp [IsPrologue, ht, Command.receive])
    have htarget : ∀ target ∈ t.references, F ∈ (plan.label target).inside ∧ target ≠ F :=
      fun _ hmem => h.body_target hrole hx hF hbody hi ht hmem
    rcases Plain.leaves_transfer t p with ⟨_, _, hstop⟩ | ⟨_, _, _, hleft, hleaving⟩
    . rw [hstop] at hok
      cases hok
    . rw [hleft] at hok
      cases hok
      cases hbody.held.left (h.blockFits b) hi (h.fits hi) ht (h.small_references hsmall hi)
        hleaving with
      | next hmem hat =>
        obtain ⟨hinside, hne⟩ := htarget _ hmem
        exact .next hat ⟨hat.stacked, hat.chain, hbody.inner, hbody.value⟩ hinside hne
      | done hfinished => exact .done
      | suspend hmem hlt hstacked henters =>
        obtain ⟨hinside, hne⟩ := htarget _ hmem
        exact .suspend hlt henters ⟨hstacked, hbody.held.chain, hbody.inner, hbody.value⟩ hinside
          hne
  | @effectStop i ins e p p' stop hi he hcleaning hstopped =>
    -- Nothing stops the block before it has put the fault aside.
    rcases hcleaning with ⟨rfl, hlt, hentered⟩ | ⟨_, handlers, hbody⟩
    . obtain ⟨q, hq, _⟩ := h.entered_effect hsmall hrole hx hlt hentered hi he call
      rw [hq] at hstopped
      cases hstopped
    . rcases Plain.changes_effect call ins.id e p with ⟨_, _, hstop⟩ | ⟨_, _, hchanged, _⟩
      . rw [hstop] at hstopped
        cases hstopped
        exact .stop hbody.carries
      . rw [hchanged] at hstopped
        cases hstopped
  | @transferStop i ins t p p' stop hi ht hcleaning hstopped =>
    obtain ⟨handlers, hbody⟩ := h.body_of_cleaning hrole hcleaning hi
      (by simp [IsPrologue, ht, Command.receive])
    rcases Plain.leaves_transfer t p with ⟨_, _, hstop⟩ | ⟨_, _, _, hleft, _⟩
    . rw [hstop] at hstopped
      cases hstopped
      exact .stop hbody.carries
    . rw [hleft] at hstopped
      cases hstopped
  | through hnone =>
    obtain ⟨ins, hmem, htransfer⟩ := hlast
    rw [hnone ins hmem] at htransfer
    cases htransfer

end Graph.Coded

end Resumable
