import Resumable.Proofs.Handlers.Stack
import Resumable.Proofs.Slots.Effects
import Resumable.Proofs.Slots.Layout

/-!
This module contains the discipline that the instructions of a block keep with the handlers: what is
pushed and popped inside of a block, and what every way out of it finds.
-/

namespace Resumable

/--
Whether all blocks that a graph consists of or refers to can be told apart in a slot.
-/
def Graph.IsSmall (graph : Graph) : Prop :=
  ∀ entry ∈ graph.blocks.entries, entry.1 < State.blockLimit ∧
    ∀ ins ∈ entry.2.code, ∀ b ∈ ins.references, b < State.blockLimit

instance (graph : Graph) : Decidable graph.IsSmall :=
  inferInstanceAs (Decidable (∀ entry ∈ graph.blocks.entries, entry.1 < State.blockLimit ∧
    ∀ ins ∈ entry.2.code, ∀ b ∈ ins.references, b < State.blockLimit))

namespace Plan

def Chain (plan : Plan) : List BlockId → Prop
  | [] => True
  | h :: rest => (plan.label h).role ≠ .plain ∧ (plan.label h).under = rest ∧ plan.Chain rest

/--
Whether a block may be entered with handlers in force: those that it is under, below itself if a
fault leads to it. A `finally` block is also entered when nothing is in flight.
-/
def Enters (plan : Plan) (b : BlockId) (handlers : List BlockId) : Prop :=
  match (plan.label b).role with
  | .plain => handlers = (plan.label b).under
  | .dispatch => handlers = b :: (plan.label b).under
  | .cleanup => handlers = (plan.label b).under ∨ handlers = b :: (plan.label b).under

def MayHold (plan : Plan) (b : BlockId) (i : Nat) (handlers : List BlockId) : Prop :=
  handlers = plan.stackAt b i ∨
    (plan.label b).role = .cleanup ∧ i < 3 ∧ handlers = (plan.label b).under

variable {options : CompileOptions} {plan : Plan} {params : Nat} {b : BlockId}
  {handlers inside : List BlockId} {i : Nat} {ins : Instruction}

theorem Chain.tail {h : BlockId} {rest : List BlockId} (hchain : plan.Chain (h :: rest))
    : plan.Chain rest :=
  hchain.2.2

theorem Chain.enters {h : BlockId} {rest : List BlockId} (hchain : plan.Chain (h :: rest))
    : plan.Enters h (h :: rest) := by
  obtain ⟨hrole, hunder, _⟩ := hchain
  unfold Enters
  rw [hunder]
  cases hr : (plan.label h).role with
  | plain => contradiction
  | dispatch => rfl
  | cleanup => exact .inr rfl

theorem Guards.chain {target : BlockId} (h : plan.Guards handlers inside target)
    (hchain : plan.Chain handlers)
    : plan.Chain (target :: handlers) := by
  rcases h with h | h <;> simp [Chain, h, hchain]

theorem Leads.enters {target : BlockId} (h : plan.Leads handlers inside target)
    : plan.Enters target handlers := by
  unfold Enters
  rcases h with h | ⟨under, h, hhandlers⟩
  . rw [h]
  . rw [h]
    exact hhandlers

theorem Enters.mayHold (h : plan.Enters b handlers) : plan.MayHold b 0 handlers := by
  unfold Enters at h
  unfold MayHold
  rw [stackAt_zero, Label.enter]
  cases hrole : (plan.label b).role with
  | plain | dispatch =>
    rw [hrole] at h
    exact .inl h
  | cleanup =>
    rw [hrole] at h
    rcases h with h | h
    . exact .inr ⟨rfl, by omega, h⟩
    . exact .inl h

theorem BlockFits.cleanup_code (h : plan.BlockFits options b)
    (hrole : (plan.label b).role = .cleanup)
    : ∃ value, plan.Holds ⟨b, 0, value, 0⟩
        [.receive, .effect .takeException, .effect (.popHandler b)] := by
  obtain ⟨handlers, scope, s, blocks, forms, live, t, hcode, hblock, _⟩ := h.cleanup hrole
  cases hcode with
  | cleanupLive hcleanup hholds | cleanupDead hcleanup hholds =>
    rw [hblock] at hcleanup
    cases hcleanup
    exact ⟨s.value, hholds⟩

def IsPrologue (b : BlockId) (i : Nat) (command : Command) : Prop :=
  (i = 0 ∧ command = .receive) ∨ (i = 1 ∧ command = .effect .takeException) ∨
    (i = 2 ∧ command = .effect (.popHandler b))

theorem BlockFits.prologue (h : plan.BlockFits options b)
    (hrole : (plan.label b).role = .cleanup) (hi : (plan.code b)[i]? = some ins) (hlt : i < 3)
    : IsPrologue b i ins.command := by
  obtain ⟨value, ⟨_, hreceive⟩, ⟨_, htake⟩, ⟨_, hpop⟩, _⟩ := h.cleanup_code hrole
  have hcases : i = 0 ∨ i = 1 ∨ i = 2 := by omega
  rcases hcases with rfl | rfl | rfl
  . rw [hreceive] at hi
    cases hi
    exact .inl ⟨rfl, rfl⟩
  . simp only [Spot.skip] at htake
    rw [htake] at hi
    cases hi
    exact .inr (.inl ⟨rfl, rfl⟩)
  . simp only [Spot.skip] at hpop
    rw [hpop] at hi
    cases hi
    exact .inr (.inr ⟨rfl, rfl⟩)

theorem Fits.pop_stackAt {id : ValueId} {block : BlockId}
    (h : plan.Fits params b i id (.effect (.popHandler block)))
    : ∃ rest, plan.stackAt b i = block :: rest ∧ (plan.label block).under = rest := by
  cases h with
  | plain hplain => cases hplain
  | pop hstack hguards =>
    refine ⟨_, hstack, ?_⟩
    rcases hguards with hlabel | hlabel <;> rw [hlabel]
  | popOwn _ hstack => exact ⟨_, hstack, rfl⟩

theorem MayHold.eq_stackAt (h : plan.MayHold b i handlers) (hblock : plan.BlockFits options b)
    (hi : (plan.code b)[i]? = some ins) (hprologue : ¬ IsPrologue b i ins.command)
    : handlers = plan.stackAt b i := by
  rcases h with h | ⟨hrole, hlt, _⟩
  . exact h
  . exact absurd (hblock.prologue hrole hi hlt) hprologue

theorem MayHold.succ (h : plan.MayHold b i handlers) (hblock : plan.BlockFits options b)
    (hi : (plan.code b)[i]? = some ins) (hfits : plan.Fits params b i ins.id ins.command)
    : plan.MayHold b (i + 1) (ins.command.stack handlers) := by
  rcases h with h | ⟨hrole, hlt, hunder⟩
  . left
    rw [stackAt_succ hi, h]
  . rcases hblock.prologue hrole hi hlt with ⟨hi', hcommand⟩ | ⟨hi', hcommand⟩ | ⟨hi', hcommand⟩
    . right
      rw [hcommand]
      exact ⟨hrole, by omega, hunder⟩
    . right
      rw [hcommand]
      exact ⟨hrole, by omega, hunder⟩
    . left
      -- There is nothing of its own to pop, and the handlers that it is under come before it.
      rw [hcommand] at hfits
      obtain ⟨rest, hstack, hrest⟩ := hfits.pop_stackAt
      have hhead : handlers.head? ≠ some b := by
        intro hhead
        have := hblock.under b (hunder ▸ List.mem_of_mem_head? hhead)
        exact Nat.lt_irrefl _ this
      rw [stackAt_succ hi, hcommand, hstack]
      simp only [Command.stack, List.head?_cons, if_true, List.tail_cons]
      rw [if_neg hhead, hunder, hrest]

theorem Chain.effect {e : Effect} (h : plan.Chain handlers) (hholds : plan.MayHold b i handlers)
    (hblock : plan.BlockFits options b) (hi : (plan.code b)[i]? = some ins)
    (hfits : plan.Fits params b i ins.id ins.command) (he : ins.command = .effect e)
    : plan.Chain ((Command.effect e).stack handlers) := by
  cases e with
  | pushHandler block =>
    have hstack := hholds.eq_stackAt hblock hi (by simp [IsPrologue, he, Command.receive])
    rw [he] at hfits
    cases hfits with
    | plain hplain => cases hplain
    | push hguards =>
      rw [← hstack] at hguards
      exact hguards.chain h
  | popHandler block =>
    simp only [Command.stack]
    split
    . next hhead =>
      obtain ⟨rest, rfl⟩ := List.head?_eq_some_iff.1 hhead
      exact h.tail
    . exact h
  | _ => exact h

structure Held (plan : Plan) (b : BlockId) (i : Nat) (s : State) (handlers : List BlockId) :
    Prop where
  stacked : s.Stacked handlers
  chain : plan.Chain handlers
  mayHold : plan.MayHold b i handlers

theorem Held.effect {e : Effect} {s : State} (h : plan.Held b i s handlers)
    (hblock : plan.BlockFits options b) (hi : (plan.code b)[i]? = some ins)
    (hfits : plan.Fits params b i ins.id ins.command) (he : ins.command = .effect e)
    (hsmall : ∀ b ∈ ins.references, b < State.blockLimit)
    : plan.Held b (i + 1) (e.onState s) ((Command.effect e).stack handlers) where
  mayHold := he ▸ h.mayHold.succ hblock hi hfits
  stacked := by
    cases e with
    | pushHandler block =>
      apply h.stacked.pushHandler
      apply hsmall
      simp [Instruction.references, he, Effect.references]
    | popHandler block => exact h.stacked.popHandler block
    | takeException => exact h.stacked.setException _
    | _ => exact h.stacked
  chain := h.chain.effect h.mayHold hblock hi hfits he

structure At (plan : Plan) (b : BlockId) (s : State) (handlers : List BlockId) : Prop where
  block : s.slot 1 = State.ofBlock b
  small : b < State.blockLimit
  stacked : s.Stacked handlers
  chain : plan.Chain handlers
  enters : plan.Enters b handlers

inductive Left (plan : Plan) (handlers : List BlockId) (t : Transfer) :
    Plain.Ending → State → Prop where
  | next {target : BlockId} {s : State} :
    target ∈ t.references → plan.At target s handlers → plan.Left handlers t .next s
  | done {value : Value} {s : State} :
    s.slot 1 = .keyword "finished" → plan.Left handlers t (.done value) s
  | suspend {name : String} {resume : BlockId} {args : List Value} {s : State} :
    resume ∈ t.references → resume < State.blockLimit → s.Stacked handlers →
      plan.Enters resume handlers → plan.Left handlers t (.suspend name resume args) s

inductive Leaves (plan : Plan) : EStateM.Result Stop Plain Plain.Ending → Prop where
  | next {target : BlockId} {handlers : List BlockId} {p : Plain} :
    plan.At target p.state handlers → plan.Leaves (.ok .next p)
  | done {value : Value} {p : Plain} :
    p.state.slot 1 = .keyword "finished" → plan.Leaves (.ok (.done value) p)
  | suspend {name : String} {resume : BlockId} {args : List Value} {handlers : List BlockId}
      {p : Plain} :
    resume < State.blockLimit → p.state.Stacked handlers → plan.Chain handlers →
      plan.Enters resume handlers → plan.Leaves (.ok (.suspend name resume args) p)
  | stop {stop : Stop} {handlers : List BlockId} {p : Plain} :
    p.state.Stacked handlers → plan.Chain handlers → plan.Leaves (.error stop p)

theorem Fits.target {t : Transfer} {id : ValueId} (h : plan.Fits params b i id (.transfer t))
    {target : BlockId} (htarget : target ∈ t.references)
    : plan.Enters target (plan.stackAt b i) := by
  cases h with
  | finish => cases htarget
  | leave _ hleads _ => exact (hleads target htarget).enters
  | leaveFinally _ _ _ _ _ _ hlabel =>
    cases List.mem_singleton.1 htarget
    unfold Enters
    rw [hlabel]

theorem At.resumeAt {s : State} {target : BlockId} (hstacked : s.Stacked handlers)
    (hchain : plan.Chain handlers) (henters : plan.Enters target handlers)
    (hsmall : target < State.blockLimit)
    : plan.At target (s.resumeAt target) handlers where
  block := State.slot_setSlot (hstacked.lt_size (by decide)) _
  small := hsmall
  stacked := hstacked.setSlot (by decide) _
  chain := hchain
  enters := henters

theorem Held.left {t : Transfer} {ending : Plain.Ending} {s s' : State}
    (h : plan.Held b i s handlers) (hblock : plan.BlockFits options b)
    (hi : (plan.code b)[i]? = some ins) (hfits : plan.Fits params b i ins.id ins.command)
    (ht : ins.command = .transfer t) (hsmall : ∀ b ∈ ins.references, b < State.blockLimit)
    (hleaving : Plain.Leaving s t ending s')
    : plan.Left handlers t ending s' := by
  have hstack := h.mayHold.eq_stackAt hblock hi (by simp [IsPrologue, ht, Command.receive])
  have htarget : ∀ target ∈ t.references,
      plan.Enters target handlers ∧ target < State.blockLimit := by
    intro target hmem
    rw [ht] at hfits
    refine ⟨hstack ▸ hfits.target hmem, hsmall target ?_⟩
    simpa only [Instruction.references, ht] using hmem
  cases hleaving with
  | goTo hmem =>
    obtain ⟨henters, hlt⟩ := htarget _ hmem
    exact .next hmem (.resumeAt h.stacked h.chain henters hlt)
  | @handOver operand target value =>
    have hmem : target ∈ (Transfer.jump (some operand) target).references :=
      List.mem_singleton.2 rfl
    obtain ⟨henters, hlt⟩ := htarget _ hmem
    exact .next hmem (.resumeAt (h.stacked.setPending _) h.chain henters hlt)
  | finish =>
    exact .done ((State.slot_setSlot_ne _ (by decide) _).trans
      (State.slot_setSlot (h.stacked.lt_size (by decide)) _))
  | @dispatch clauses clause hclause =>
    have hmem : clause.1 ∈ (Transfer.dispatch clauses).references := List.mem_map_of_mem hclause
    obtain ⟨henters, hlt⟩ := htarget _ hmem
    exact .next hmem
      (.resumeAt ((h.stacked.setPending _).setException _) h.chain henters hlt)
  | @suspend handler resume operands args =>
    have hmem : resume ∈ (Transfer.suspend handler resume operands).references :=
      List.mem_singleton.2 rfl
    obtain ⟨henters, hlt⟩ := htarget _ hmem
    exact .suspend hmem hlt h.stacked henters

end Plan

namespace Graph.Coded

variable {options : CompileOptions} {source : Form} {graph : Graph} {plan : Plan}

theorem small_references (h : graph.Coded options source plan) (hsmall : graph.IsSmall)
    {b : BlockId} {i : Nat} {ins : Instruction} (hi : (plan.code b)[i]? = some ins)
    : ∀ target ∈ ins.references, target < State.blockLimit := by
  obtain ⟨block, hblock, hcode⟩ := h.get?_block hi
  intro target htarget
  have hmem : ins ∈ block.code := hcode ▸ List.mem_of_getElem? hi
  exact (hsmall _ (Table.mem_of_get? hblock)).2 ins hmem target htarget

theorem held_effect (h : graph.Coded options source plan) (hsmall : graph.IsSmall) {call : Caller}
    {b : BlockId} {i : Nat} {ins : Instruction} {e : Effect} {p p' : Plain}
    (hi : (plan.code b)[i]? = some ins) (he : ins.command = .effect e)
    (hheld : ∃ handlers, plan.Held b i p.state handlers)
    (hok : Plain.effect call ins.id e p = .ok () p')
    : ∃ handlers, plan.Held b (i + 1) p'.state handlers := by
  obtain ⟨handlers, hheld⟩ := hheld
  have hheld' := hheld.effect (h.blockFits b) hi (h.fits hi) he (h.small_references hsmall hi)
  rcases Plain.changes_effect call ins.id e p with ⟨_, _, hstop⟩ | ⟨_, _, hchanged, _⟩
  . rw [hstop] at hok
    cases hok
  . rw [hchanged] at hok
    cases hok
    exact ⟨_, hheld'⟩

theorem held_ends (h : graph.Coded options source plan) (hsmall : graph.IsSmall) (call : Caller)
    {b : BlockId} {handlers : List BlockId} {p : Plain} (hheld : plan.Held b 0 p.state handlers)
    : Plain.Ends call (plan.code b) (fun i q => ∃ handlers, plan.Held b i q.state handlers)
        (Plain.code call (plan.code b) p) :=
  Plain.code_ends (fun {_ _ _ _ _} hi he hheld hok => h.held_effect hsmall hi he hheld hok)
    ⟨handlers, hheld⟩

theorem block_leaves (h : graph.Coded options source plan) (hsmall : graph.IsSmall) (call : Caller)
    {b : BlockId} {handlers : List BlockId} {p : Plain} (hheld : plan.Held b 0 p.state handlers)
    (hlast : ∃ ins ∈ plan.code b, ins.isTransfer = true)
    : plan.Leaves (Plain.code call (plan.code b) p) := by
  have hends := h.held_ends hsmall call hheld
  generalize Plain.code call (plan.code b) p = r at hends
  cases hends with
  | @left i ins t p p' ending hi ht hheld hok =>
    obtain ⟨handlers, hheld⟩ := hheld
    rcases Plain.leaves_transfer t p with ⟨_, _, hstop⟩ | ⟨_, _, _, hleft, hleaving⟩
    . rw [hstop] at hok
      cases hok
    . rw [hleft] at hok
      cases hok
      cases hheld.left (h.blockFits b) hi (h.fits hi) ht (h.small_references hsmall hi)
        hleaving with
      | next _ hat => exact .next hat
      | done hfinished => exact .done hfinished
      | suspend _ hlt hstacked henters => exact .suspend hlt hstacked hheld.chain henters
  | @effectStop i ins e p p' stop hi he hheld hstopped =>
    obtain ⟨handlers, hheld⟩ := hheld
    rcases Plain.changes_effect call ins.id e p with ⟨_, _, hstop⟩ | ⟨_, _, hchanged, _⟩
    . rw [hstop] at hstopped
      cases hstopped
      exact .stop hheld.stacked hheld.chain
    . rw [hchanged] at hstopped
      cases hstopped
  | @transferStop i ins t p p' stop hi ht hheld hstopped =>
    obtain ⟨handlers, hheld⟩ := hheld
    rcases Plain.leaves_transfer t p with ⟨_, _, hstop⟩ | ⟨_, _, _, hleft, _⟩
    . rw [hstop] at hstopped
      cases hstopped
      exact .stop hheld.stacked hheld.chain
    . rw [hleft] at hstopped
      cases hstopped
  | through hnone =>
    obtain ⟨ins, hmem, htransfer⟩ := hlast
    rw [hnone ins hmem] at htransfer
    cases htransfer

end Graph.Coded

end Resumable
