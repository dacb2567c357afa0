import Resumable.Proofs.Handlers.Resting
import Resumable.Proofs.Lowering.Released

/-!
This module contains what the instructions of a block do to a handler that is in force in it: as
long as it is not the block of the handler itself, the handler stays in force up to the end of the
protected body that it belongs to. The body of a `finally` clause leaves all handlers in force that
are around it.
-/

namespace Resumable

namespace Plan

structure Sheltered (plan : Plan) (H b : BlockId) : Prop where
  ne : b ≠ H
  inForce : ∃ j, H ∈ plan.stackAt b j ∧ ∀ {i : Nat} {ins : Instruction}, i < j →
    (plan.code b)[i]? = some ins → ∃ block, ins.command = .effect (.pushHandler block)

end Plan

inductive TryBlocks.Covers (plan : Plan) (blocks : TryBlocks) (H b : BlockId) (i : Nat) :
    Command → Prop where
  | push {block : BlockId} : Covers plan blocks H b i (.effect (.pushHandler block))
  | inside {command : Command} : H ∈ plan.stackAt b i → Covers plan blocks H b i command
  | pop {block : BlockId} :
    block ∈ blocks.handlers → Covers plan blocks H b i (.effect (.popHandler block))
  | handOver {operand : Operand} :
    plan.stackAt b i = (plan.label blocks.entry).under →
      Covers plan blocks H b i (.handOver operand blocks.after)

theorem Command.popHandler_of_stack {command : Command} {handlers : List BlockId} {H : BlockId}
    (hmem : H ∈ handlers) (hout : H ∉ command.stack handlers)
    : command = .effect (.popHandler H) := by
  cases command with
  | transfer => exact absurd hmem hout
  | effect e =>
    cases e with
    | pushHandler block => exact absurd (List.mem_cons_of_mem block hmem) hout
    | popHandler block =>
      simp only [stack] at hout
      split at hout
      . next hhead =>
        obtain ⟨rest, rfl⟩ := List.head?_eq_some_iff.1 hhead
        rcases List.mem_cons.1 hmem with rfl | hmem
        . rfl
        . exact absurd hmem hout
      . exact absurd hmem hout
    | _ => exact absurd hmem hout

namespace Plan

variable {options : CompileOptions} {plan : Plan} {parts : TryParts} {blocks : TryBlocks}
  {H b : BlockId} {i j : Nat}

theorem popped_of_stackAt (hmem : H ∈ plan.stackAt b j) (hle : j ≤ i) (hout : H ∉ plan.stackAt b i)
    : ∃ k ins, j ≤ k ∧ k < i ∧ (plan.code b)[k]? = some ins ∧
        ins.command = .effect (.popHandler H) := by
  induction hle with
  | refl => exact absurd hmem hout
  | @step i hle ih =>
    by_cases hin : H ∈ plan.stackAt b i
    . cases hins : (plan.code b)[i]? with
      | none =>
        have hlength := List.getElem?_eq_none_iff.1 hins
        have hsame : plan.stackAt b (i + 1) = plan.stackAt b i := by
          unfold stackAt
          rw [List.take_of_length_le hlength, List.take_of_length_le (Nat.le_succ_of_le hlength)]
        exact absurd (hsame ▸ hin) hout
      | some ins =>
        rw [stackAt_succ hins] at hout
        exact ⟨i, ins, hle, Nat.lt_succ_self i, hins, Command.popHandler_of_stack hin hout⟩
    . obtain ⟨k, ins, hjk, hki, hins, hpop⟩ := ih hin
      exact ⟨k, ins, hjk, Nat.lt_succ_of_lt hki, hins, hpop⟩

theorem Enters.mem_stackAt {handlers : List BlockId} (h : plan.Enters b handlers)
    (hmem : H ∈ handlers)
    : H ∈ plan.stackAt b 0 := by
  rcases h.mayHold with rfl | ⟨hrole, _, rfl⟩
  . exact hmem
  . simp only [stackAt_zero, Label.enter, hrole]
    exact List.mem_cons_of_mem _ hmem

theorem Enters.sheltered {handlers : List BlockId} (h : plan.Enters b handlers)
    (hmem : H ∈ handlers) (hne : b ≠ H)
    : plan.Sheltered H b :=
  ⟨hne, 0, h.mem_stackAt hmem, fun hlt => absurd hlt (Nat.not_lt_zero _)⟩

theorem Attempts.sheltered (h : plan.Attempts options parts blocks) (hmem : H ∈ blocks.handlers)
    : plan.Sheltered H blocks.entry ∧ plan.code blocks.entry ≠ [] := by
  obtain ⟨handlers, scope, s, hlabelled, ⟨u, live, t, hcode⟩, _⟩ := h.labelled
  have hpush : plan.Holds (u.goTo blocks.entry)
      (blocks.handlers.reverse.map (.effect <| .pushHandler ·)) := by
    cases hcode with
    | guardedLive hpush | guardedDead hpush => exact hpush
  have hentered :=
    (push_steps options 0 hpush hlabelled.stacked (Here.goTo hlabelled.entry)).2.stack
  have hpushed : ∀ {i : Nat}, i < blocks.handlers.length →
      ∃ ins block, (plan.code blocks.entry)[i]? = some ins ∧
        ins.command = .effect (.pushHandler block) := by
    intro i hi
    obtain ⟨block, hblock⟩ : ∃ block, blocks.handlers.reverse[i]? = some block :=
      ⟨_, List.getElem?_eq_getElem (by simpa using hi)⟩
    obtain ⟨span, hspan⟩ := hpush.getElem? (k := i) (by rw [List.getElem?_map, hblock, Option.map])
    simp only [Spot.goTo, Nat.zero_add] at hspan
    exact ⟨_, block, hspan, rfl⟩
  simp only [Spot.goTo, Spot.skip, Nat.zero_add] at hentered
  refine ⟨⟨?_, blocks.handlers.length, ?_, ?_⟩, ?_⟩
  . have := h.tries.numbered hmem
    lia
  . rw [hentered]
    exact List.mem_append_left _ hmem
  . intro i ins hi hins
    obtain ⟨_, block, hins', hcommand⟩ := hpushed hi
    rw [hins] at hins'
    cases hins'
    exact ⟨block, hcommand⟩
  . obtain ⟨_, _, hins, _⟩ := hpushed (List.length_pos_of_mem hmem)
    intro hempty
    simp [hempty] at hins

end Plan

namespace Graph.Coded

open Plan

variable {options : CompileOptions} {source : Form} {graph : Graph} {plan : Plan}
  {parts : TryParts} {blocks : TryBlocks} {H F b : BlockId} {i k : Nat} {ins ins' : Instruction}

theorem shifts (h : graph.Coded options source plan) (hi : (plan.code b)[i]? = some ins)
    : plan.Shifts options b i ins := by
  obtain ⟨_, hcode, hbound, _⟩ := h.main
  exact (hcode.shifts h.toOrderly trivial).each hi (hbound hi).1 (hbound hi).2

theorem attempts_of_popHandler (h : graph.Coded options source plan) {x : ValueId}
    (hF : plan.Takes F x) (hi : (plan.code b)[i]? = some ins)
    (hpop : ins.command = .effect (.popHandler F)) (hne : b ≠ F)
    : ∃ parts blocks, plan.Attempts options parts blocks ∧ blocks.cleanup = some F ∧
        blocks.entry + 1 = F ∧ ∀ c ∈ blocks.exit :: blocks.handlers, F ≤ c ∧ c ≤ F + 2 := by
  rcases (h.shifts hi).pop F hpop with hown | ⟨blocks, _, _, _, htries, _, _, _, hmem⟩
  . exact absurd hown.symm hne
  obtain ⟨parts, hattempts⟩ := htries.attempts
  have hrole : (plan.label F).role = .cleanup := by
    obtain ⟨_, htake⟩ := hF
    cases h.fits htake with
    | plain hplain => cases hplain
    | take hrole _ => exact hrole
  have hnumbered := hattempts.tries.numbered (List.mem_of_getElem? hmem)
  obtain ⟨_, hcleanup, hentry, hplaces⟩ := hnumbered.resolve_right (by simp [hrole])
  refine ⟨parts, blocks, hattempts, hcleanup, hentry, ?_⟩
  intro c hc
  simp only [TryBlocks.handlers, hcleanup, List.mem_cons, List.mem_append, Option.mem_toList] at hc
  lia

theorem covers_release (h : graph.Coded options source plan) {back : List BlockId} {t : Spot}
    {operand : Operand}
    (hholds : plan.Holds t (back.map (.effect <| .popHandler ·) ++
      [.handOver operand blocks.after]))
    (hback : ∀ block ∈ back, block ∈ blocks.handlers)
    (hstack : plan.stackAt t.block t.index = back ++ (plan.label blocks.entry).under)
    (hle : t.index ≤ i) (hi : (plan.code t.block)[i]? = some ins)
    : blocks.Covers plan H t.block i ins.command := by
  induction back generalizing t with
  | nil =>
    obtain ⟨⟨span, hspan⟩, _⟩ := hholds
    have hlength := h.last hspan rfl
    have hlt := (List.getElem?_eq_some_iff.1 hi).1
    obtain rfl : i = t.index := by lia
    rw [hi, Option.some.injEq] at hspan
    rw [hspan]
    exact .handOver hstack
  | cons block back ih =>
    rw [List.forall_mem_cons] at hback
    obtain ⟨⟨span, hspan⟩, hrest⟩ := hholds
    rcases Nat.eq_or_lt_of_le hle with rfl | hlt
    . rw [hi, Option.some.injEq] at hspan
      rw [hspan]
      exact .pop hback.1
    . refine ih (t := t.skip 1) hrest hback.2 ?_ hlt hi
      simp only [Spot.skip, stackAt_succ hspan, Command.stack, hstack, List.cons_append,
        List.head?_cons, if_true, List.tail_cons]

theorem covers (h : graph.Coded options source plan) (htries : plan.Tries options blocks)
    (hmem : H ∈ blocks.handlers) (hsheltered : plan.Sheltered H b)
    (hi : (plan.code b)[i]? = some ins)
    : blocks.Covers plan H b i ins.command := by
  obtain ⟨hne, j, hj, hpush⟩ := hsheltered
  rcases Nat.lt_or_ge i j with hlt | hge
  . obtain ⟨block, hcommand⟩ := hpush hlt hi
    rw [hcommand]
    exact .push
  by_cases hin : H ∈ plan.stackAt b i
  . exact .inside hin
  -- It was in force before, so it has been popped since.
  obtain ⟨k, popped, _, hki, hk, hpop⟩ := popped_of_stackAt hj hge hin
  rcases (h.shifts hk).pop H hpop with
    hown | ⟨blocks', t, operand, m, htries', hholds, rfl, rfl, hm⟩
  . exact absurd hown.symm hne
  obtain rfl := htries'.unique htries (List.mem_of_getElem? hm) hmem
  obtain ⟨hlt, rfl⟩ := List.getElem?_eq_some_iff.1 hm
  have hsplit : blocks'.handlers = blocks'.handlers.take m ++
      blocks'.handlers[m] :: blocks'.handlers.drop (m + 1) := by
    rw [← List.drop_eq_getElem_cons hlt, List.take_append_drop]
  have hlength : (blocks'.handlers.take m).length = m := List.length_take_of_le (Nat.le_of_lt hlt)
  have hfits := h.fits hk
  rw [hpop] at hfits
  obtain ⟨rest, hstack, rfl⟩ := hfits.pop_stackAt
  rw [hsplit, List.map_append, List.append_assoc, holds_append, List.length_map, hlength] at hholds
  refine h.covers_release (t := (t.skip m).skip 1) hholds.2.2 (fun _ => List.mem_of_mem_drop) ?_
    hki hi
  simp only [Spot.skip, stackAt_succ hk, hpop, Command.stack, hstack, List.head?_cons, if_true,
    List.tail_cons, htries.under _ _ hsplit]

theorem spared_of_sheltered (h : graph.Coded options source plan)
    (htries : plan.Tries options blocks) (hmem : H ∈ blocks.handlers)
    (hsheltered : plan.Sheltered H b)
    : plan.Spared (plan.label blocks.entry).under b := by
  intro i ins block hi hpop hbelow
  have hcovers := h.covers htries hmem hsheltered hi
  have hfits := h.fits hi
  rw [hpop] at hcovers hfits
  obtain ⟨rest, hstack, hunder⟩ := hfits.pop_stackAt
  have hlt := (h.blockFits H).under block (htries.mem_under hmem block hbelow)
  cases hcovers with
  | inside hin =>
    rw [hstack, List.mem_cons] at hin
    rcases hin with rfl | hin
    . exact Nat.lt_irrefl _ hlt
    . exact Nat.lt_asymm hlt ((h.blockFits block).under H (hunder ▸ hin))
  | pop hown =>
    exact Nat.lt_irrefl _ ((h.blockFits block).under block (htries.mem_under hown block hbelow))

theorem spared_of_inside (h : graph.Coded options source plan) (hF : F ∈ (plan.label b).inside)
    : plan.Spared (plan.label F).under b :=
  fun hi hpop hbelow => h.lt_of_mem_under hbelow (h.popped_inside hF hi hpop)

theorem inner_stackAt (h : graph.Coded options source plan) (hrole : (plan.label F).role = .cleanup)
    (hF : F ∈ (plan.label b).inside) {j : Nat} (hinner : plan.Inner F (plan.stackAt b j))
    (hle : j ≤ i) (hi : i < (plan.code b).length)
    : plan.Inner F (plan.stackAt b i) := by
  induction hle with
  | refl => exact hinner
  | @step i hle ih =>
    obtain ⟨ins, hins⟩ : ∃ ins, (plan.code b)[i]? = some ins :=
      ⟨_, List.getElem?_eq_getElem (Nat.lt_of_succ_lt hi)⟩
    have hinner' := ih (Nat.lt_of_succ_lt hi)
    have hfits := h.fits hins
    rw [stackAt_succ hins]
    generalize hcommand : ins.command = command at hfits ⊢
    cases command with
    | transfer => exact hinner'
    | effect e =>
      cases e with
      | pushHandler block =>
        cases hfits with
        | plain hplain => cases hplain
        | push hguards => exact h.inner_push hrole hinner' hF hguards
      | popHandler block => exact h.inner_pop hinner' (h.popped_inside hF hins hcommand)
      | _ => exact hinner'

theorem inner_of_enters (h : graph.Coded options source plan)
    (hrole : (plan.label F).role = .cleanup) {handlers : List BlockId}
    (henters : plan.Enters b handlers)
    (hbody : b = F ∨ b ≠ F ∧ F ∈ (plan.label b).inside ∧ plan.Inner F handlers)
    (hi : (plan.code b)[i]? = some ins) (hother : ¬ IsPrologue b i ins.command)
    : plan.Inner F (plan.stackAt b i) := by
  have hlt := (List.getElem?_eq_some_iff.1 hi).1
  rcases hbody with rfl | ⟨hne, hinside, hinner⟩
  . obtain ⟨outer, hinside, _⟩ := h.inside_cleanup hrole
    have hF : b ∈ (plan.label b).inside := hinside ▸ List.mem_cons_self ..
    have hle : 3 ≤ i :=
      Nat.le_of_not_lt fun hlt => hother ((h.blockFits b).prologue hrole hi hlt)
    obtain ⟨value, ⟨_, hreceive⟩, ⟨_, htake⟩, ⟨_, hpop⟩, _⟩ := (h.blockFits b).cleanup_code hrole
    simp only [Spot.skip] at htake hpop
    refine h.inner_stackAt hrole hF ?_ hle hlt
    have hstack : plan.stackAt b 3 = (plan.label b).under := by
      rw [stackAt_succ hpop, stackAt_succ htake, stackAt_succ hreceive, stackAt_zero, Label.enter,
        hrole]
      simp [Command.stack, Command.receive]
    exact ⟨[], hstack, by simp⟩
  . refine h.inner_stackAt hrole hinside ?_ (Nat.zero_le i) hlt
    rcases henters.mayHold with rfl | ⟨hcleanup, _, rfl⟩
    . exact hinner
    . obtain ⟨inner, heq, hall⟩ := hinner
      refine ⟨b :: inner, ?_, List.forall_mem_cons.2 ⟨⟨hinside, hne⟩, hall⟩⟩
      simp only [stackAt_zero, Label.enter, hcleanup, heq, List.cons_append]

theorem target_of_inside (h : graph.Coded options source plan)
    (htries : plan.Tries options blocks) (hcleanup : blocks.cleanup = some F)
    (hF : F ∈ (plan.label b).inside) (hi : (plan.code b)[i]? = some ins) {t : Transfer}
    (ht : ins.command = .transfer t) {target : BlockId} (htarget : target ∈ t.references)
    : target = blocks.exit ∨ F ∈ (plan.label target).inside ∧ target ≠ F := by
  have hmem := TryBlocks.mem_handlers_of_cleanup hcleanup
  have hrole := htries.role_cleanup hcleanup
  obtain ⟨value, ⟨_, hreceive⟩, ⟨_, htake⟩, _⟩ := (h.blockFits F).cleanup_code hrole
  have hx : plan.Takes F (value + 1) := ⟨_, htake⟩
  by_cases hpast : ∃ j before, i = j + 1 ∧ (plan.code b)[j]? = some before ∧
      before.command = .effect (.endFinally (.result (value + 1)))
  . obtain ⟨j, before, rfl, hj, hend⟩ := hpast
    obtain ⟨blocks', F', _, _, _, htries', hcleanup', htakes, _, hnext⟩ :=
      (h.spares (by simp [hrole]) ⟨_, hreceive⟩ hj).ends _ hend
    obtain rfl := h.takes_inj hx htakes
    obtain rfl := htries'.unique htries (TryBlocks.mem_handlers_of_cleanup hcleanup') hmem
    rw [hi, Option.some.injEq] at hnext
    subst hnext
    cases ht
    exact .inl (List.mem_singleton.1 htarget)
  . refine .inr (h.target_inside hrole hx hF ?_ hi ht htarget)
    exact fun hj hbefore hend => hpast ⟨_, _, hj, hbefore, hend⟩

end Graph.Coded

end Resumable
