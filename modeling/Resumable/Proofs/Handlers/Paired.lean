import Resumable.Proofs.Handlers.Discipline
import Resumable.Proofs.Lowering.Closed
import Resumable.Proofs.Lowering.Received

/-!
This module contains the pairing between the places that hand a value over and the blocks that it is
handed over to, as it can be seen in a graph.
-/

namespace Resumable

namespace Graph

def Receives (graph : Graph) (b : BlockId) : Prop :=
  ∃ ins, (graph.blocks.code b)[0]? = some ins ∧ ins.command = .receive

/--
Whether a block of a graph is a `finally` block: it starts by putting aside what is handed over and
what is in flight, and does not handle faults of its own.
-/
def IsFinally (graph : Graph) (b : BlockId) : Prop :=
  [.receive, .effect .takeException, .effect (.popHandler b)] <+:
    (graph.blocks.code b).map (·.command)

def Sole (graph : Graph) (b c : BlockId) (i : Nat) : Prop :=
  ∀ {c' : BlockId} {i' : Nat} {ins : Instruction}, (graph.blocks.code c')[i']? = some ins →
    b ∈ ins.targets → c' = c ∧ i' = i

inductive Entered (graph : Graph) (b : BlockId) : Prop where
  | meet :
    (∀ {c : BlockId} {i : Nat} {ins : Instruction}, (graph.blocks.code c)[i]? = some ins →
      b ∈ ins.targets → (∃ value, ins.command = .handOver value b) ∨
        graph.IsFinally b ∧ ins.command = .effect (.pushHandler b)) →
      Entered graph b
  | continuation {c : BlockId} {i : Nat} {ins : Instruction} {handler : String}
      {args : List Operand} :
    (graph.blocks.code c)[i]? = some ins → ins.command = .transfer (.suspend handler b args) →
      graph.Sole b c i → Entered graph b
  | clause {c : BlockId} {i : Nat} {ins : Instruction} {clauses : List (BlockId × CatchType)} :
    (graph.blocks.code c)[i]? = some ins → ins.command = .transfer (.dispatch clauses) →
      b ∈ clauses.map (·.1) → (clauses.map (·.1)).Nodup → graph.Sole b c i → Entered graph b

/--
Whether values are handed over to those blocks of a graph that put them aside, and to no others.
-/
structure HandsOver (graph : Graph) : Prop where
  reads : ∀ {b : BlockId} {i : Nat} {ins : Instruction}, (graph.blocks.code b)[i]? = some ins →
    .pending ∈ ins.operands → i = 0 ∧ ins.command = .receive
  jumps : ∀ {b target : BlockId} {i : Nat} {ins : Instruction} {value : Option Operand},
    (graph.blocks.code b)[i]? = some ins → ins.command = .transfer (.jump value target) →
      graph.blocks.get? target ≠ none → (value.isSome = true ↔ graph.Receives target)
  start : ¬ graph.Receives graph.start
  entered : ∀ {b : BlockId}, graph.Receives b → graph.Entered b

end Graph

namespace Graph.Coded

variable {options : CompileOptions} {source : Form} {graph : Graph} {plan : Plan}
  {arrival : BlockId → Arrival} {b target : BlockId} {i : Nat} {ins : Instruction}

theorem receives_iff (h : graph.Coded options source plan) (hpairs : plan.Pairs arrival)
    (hfilled : plan.Filled b)
    : graph.Receives b ↔ arrival b ≠ .bare := by
  obtain ⟨first, rest, hcode⟩ := List.exists_cons_of_ne_nil hfilled
  have hfirst : (plan.code b)[0]? = some first := by simp [hcode]
  rw [← hpairs.command_zero hfirst, Graph.Receives, h.code]
  constructor
  . rintro ⟨ins, hins, hcommand⟩
    rw [hfirst, Option.some.injEq] at hins
    rwa [hins]
  . exact fun hcommand => ⟨first, hfirst, hcommand⟩

theorem isFinally (h : graph.Coded options source plan) (hrole : (plan.label b).role = .cleanup)
    : graph.IsFinally b := by
  obtain ⟨value, ⟨_, hreceive⟩, ⟨_, htake⟩, ⟨_, hpop⟩, _⟩ := (h.blockFits b).cleanup_code hrole
  simp only [Spot.skip] at htake hpop
  rw [Graph.IsFinally, h.code, List.prefix_iff_getElem?]
  intro i hi
  change i < 3 at hi
  obtain rfl | rfl | rfl : i = 0 ∨ i = 1 ∨ i = 2 := by lia
  . simp [hreceive]
  . simp [htake]
  . simp [hpop]

theorem handsOver (h : graph.Coded options source plan) : graph.HandsOver := by
  obtain ⟨arrival, hpairs⟩ := h.exists_pairs
  constructor
  case reads =>
    intro b i ins hins hreads
    rw [h.code] at hins
    exact hpairs.of_pending hins hreads
  case jumps =>
    intro b target i ins value hins hcommand hblock
    rw [h.code] at hins
    obtain ⟨block, hblock⟩ := Option.ne_none_iff_exists'.1 hblock
    have hfilled : plan.Filled target := by
      rw [Plan.Filled, h.code_of_get? hblock]
      exact (h.filled hblock).1
    have htarget : target ∈ ins.targets := by
      simp [Instruction.targets, hcommand, Transfer.references]
    have hadmits := hpairs.admits hins htarget
    rw [h.receives_iff hpairs hfilled]
    cases value <;> simp only [Plan.Admits, hcommand] at hadmits <;> simp [hadmits]
  case start =>
    rw [h.start, h.receives_iff hpairs h.filled_start]
    exact fun hne => hne hpairs.start
  case entered =>
    intro b hreceives
    have hfilled : plan.Filled b := by
      obtain ⟨ins, hins, _⟩ := hreceives
      rw [h.code] at hins
      exact List.ne_nil_of_mem (List.mem_of_getElem? hins)
    have hne := (h.receives_iff hpairs hfilled).1 hreceives
    have harises := hpairs.arises b
    -- What may lead to a block follows from how control arrives there.
    cases harrival : arrival b with
    | bare => exact absurd harrival hne
    | handed =>
      refine .meet fun {c i ins} hins htarget => ?_
      rw [h.code] at hins
      rcases (hpairs.admits hins htarget).handed htarget harrival with hjump | ⟨hrole, hpush⟩
      . exact .inl hjump
      . exact .inr ⟨h.isFinally hrole, hpush⟩
    | resumed id =>
      rw [harrival] at harises
      obtain ⟨c, i, ins, handler, args, hins, rfl, hcommand⟩ := harises
      refine .continuation (by rwa [h.code]) hcommand fun {c' i' other} hother htarget => ?_
      rw [h.code] at hother
      exact h.unique hother hins ((hpairs.admits hother htarget).resumed harrival)
    | caught id =>
      rw [harrival] at harises
      obtain ⟨c, i, ins, clauses, hins, rfl, hcommand, hmem⟩ := harises
      have htarget : b ∈ ins.targets := by
        simpa only [Instruction.targets, hcommand, Transfer.references] using hmem
      have nodup := ((hpairs.admits hins htarget).caught harrival).2 clauses hcommand
      refine .clause (by rwa [h.code]) hcommand hmem nodup fun {c' i' other} hother htarget => ?_
      rw [h.code] at hother
      exact h.unique hother hins ((hpairs.admits hother htarget).caught harrival).1

end Graph.Coded

end Resumable
