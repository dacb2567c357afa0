import Resumable.Proofs.Handlers.Attempted

/-!
This module contains what a `try` form protects: a fault that is raised in its body finds the
handlers of the form in force, below those of the `try` forms inside of it, and its `finally` clause
is entered once before control leaves the form. The one instruction that the handlers are not in
force at hands the value of the body over.
-/

namespace Resumable

open Plan

namespace Program

structure Attempting (machines : Machines) (program : Program) (blocks : TryBlocks) (p : Process)
    (bs : List BlockId) (q : Process) (b : BlockId) : Prop where
  ran : ∃ past faults, program.Ran machines past faults p
  entry : p.state.status? = some (.running blocks.entry)
  within : program.Within machines p.state.handlers.length p bs q
  exit : blocks.exit ∉ bs
  block : q.state.status? = some (.running b)

end Program

inductive TryBlocks.Routes (plan : Plan) (blocks : TryBlocks) (around : List BlockId) (b : BlockId)
    (v : Value) (q : Process) : Prop where
  | own {inner rest : List BlockId} {first : BlockId} {q' : Process} :
    q.state.handlers = inner ++ (blocks.handlers ++ around) →
      inner ++ blocks.handlers = first :: rest → Run.route v q = .again q' →
      q'.state.status? = some (.running first) → q'.state.exception = v →
        blocks.Routes plan around b v q
  | lost :
    blocks.Loses plan b v q → q.state.handlers = around → blocks.Routes plan around b v q

def TryBlocks.Delivers (machines : Machines) (program : Program) (options : CompileOptions)
    (plan : Plan) (parts : TryParts) (blocks : TryBlocks) (around : List BlockId) (v : Value)
    (q : Process) : Prop :=
  ∃ D first k clause q', blocks.dispatch = some D ∧
    CatchClause.IsFirst q.store.heap v parts.catches k clause ∧
    plan.ClauseAt options D clause (first + k) ∧ Run.route v q = .again q' ∧
    q'.state.status? = some (.running D) ∧
    ∀ fuel, ∃ r, Run.turn machines (Program.run machines fuel) program D q' = .again r ∧
      r.Delivered (first + k) v (blocks.cleanup.toList ++ around)

/--
What a `try` form does about faults:

* Those that are raised in its body go to its handlers, unless a `try` form inside comes first.
* If one of its clauses takes all faults, such a fault starts a clause.
* Its `finally` clause is entered once before control leaves the form, by its exit or by a fault.
-/
structure Program.Protects (machines : Machines) (program : Program) (options : CompileOptions)
    (plan : Plan) (parts : TryParts) (blocks : TryBlocks) : Prop where
  routed : ∀ {p q q₁ : Process} {bs : List BlockId} {b : BlockId} {fuel : Nat} {v : Value},
    program.Attempting machines blocks p bs q b →
      (∀ c ∈ bs ++ [b], c ∉ blocks.exit :: blocks.handlers) →
      program.Raises machines fuel q v q₁ → blocks.Routes plan p.state.handlers b v q₁
  caught : ∀ {p q q₁ : Process} {bs : List BlockId} {b : BlockId} {fuel : Nat} {v : Value}
      {clause : CatchClause}, clause ∈ parts.catches → clause.type = .any →
    program.Attempting machines blocks p bs q b →
      (∀ c ∈ bs ++ [b], c ∉ blocks.exit :: blocks.handlers) →
      program.Raises machines fuel q v q₁ →
      q₁.state.handlers = blocks.handlers ++ p.state.handlers →
        blocks.Delivers machines program options plan parts p.state.handlers v q₁
  once : ∀ {F : BlockId}, blocks.cleanup = some F →
    ∀ {p q : Process} {bs : List BlockId} {b : BlockId},
      program.Attempting machines blocks p bs q b →
      (bs ++ [b]).count F ≤ 1 ∧ (b = blocks.exit → F ∈ bs) ∧
        ∀ {fuel : Nat} {v : Value} {q₁ : Process}, program.Raises machines fuel q v q₁ →
          q₁.state.handlers.length ≤ p.state.handlers.length →
            F ∈ bs ++ [b] ∨ blocks.Loses plan b v q₁

namespace Graph.Coded

variable {options : CompileOptions} {source : Form} {graph : Graph} {plan : Plan}
  {table : Table String Handler} {name : String} {program : Program} {machines : Machines}
  {kept : Nat → Prop} {parts : TryParts} {blocks : TryBlocks} {H F b : BlockId}
  {p q q₁ : Process} {bs : List BlockId} {fuel : Nat} {v : Value}

theorem not_shelters_exit (htries : plan.Tries options blocks) (hmem : H ∈ blocks.handlers)
    {around : List BlockId}
    : ¬ plan.Shelters graph.layout blocks around H blocks.exit p := by
  obtain ⟨_, _, handlers, scope, _, _, hlabelled⟩ := htries.labelled
  have hnumbered := htries.numbered hmem
  rintro ⟨_, top, hrests, hin | ⟨hentry, _⟩⟩
  . have henters := hrests.enters
    simp only [Enters, hlabelled.exit, hlabelled.entry, Label.plain] at henters
    rw [List.append_left_eq_self.1 henters] at hin
    cases hin
  . lia

theorem starts_attempting (h : graph.Coded options source plan) (hsmall : graph.IsSmall)
    (hprogram : Program.ofGraph graph table name = .ok program)
    (hhandlers : program.Supports machines table kept) (hstack : kept 4) (hflight : kept 5)
    (hfails : table.FailsInPlace) (htries : plan.Tries options blocks)
    (hran : ∃ past faults, program.Ran machines past faults p)
    (hentry : p.state.status? = some (.running blocks.entry))
    : (∀ g ∈ p.state.handlers, g ∈ (plan.label blocks.entry).under) ∧
        plan.RestsAt graph.layout (plan.label blocks.entry).under p.state.handlers blocks.entry
          p.state [] := by
  obtain ⟨past, faults, hran⟩ := hran
  have hgoes := h.ran_goes hsmall hprogram hhandlers hstack hflight hfails hran
  have hat := hgoes.running hentry
  obtain ⟨handlers, stack, hstacked, hsub, hchain, hholds⟩ := hat.slack
  have hrole : (plan.label blocks.entry).role = .plain := by
    obtain ⟨_, _, _, _, _, _, hlabelled⟩ := htries.labelled
    rw [hlabelled.entry]
    rfl
  have henters : plan.Enters blocks.entry (plan.label blocks.entry).under := by
    simp only [Enters, hrole]
  obtain rfl : stack = (plan.label blocks.entry).under := by
    rcases hholds with hstack | ⟨hcleanup, _⟩
    . rw [hstack, stackAt_zero, Label.enter, hrole]
    . rw [hrole] at hcleanup
      cases hcleanup
  rw [hstacked.handlers]
  exact ⟨fun g hg => hsub.subset hg, hat.block, hat.enterable.small, hgoes.agrees, hstacked, hchain,
    henters⟩

theorem shelters_attempting (h : graph.Coded options source plan) (hsmall : graph.IsSmall)
    (hprogram : Program.ofGraph graph table name = .ok program)
    (hhandlers : program.Supports machines table kept) (hstack : kept 4) (hflight : kept 5)
    (hfails : table.FailsInPlace) (hattempts : plan.Attempts options parts blocks)
    (hmem : H ∈ blocks.handlers) (hattempting : program.Attempting machines blocks p bs q b)
    : (∀ g ∈ p.state.handlers, g ∈ (plan.label blocks.entry).under) ∧
        (plan.Shelters graph.layout blocks p.state.handlers H b q ∧ H ∉ bs ∨
          ∃ front back c r, bs = front ++ back ∧ H ∉ front ∧
            plan.Unshelters graph.layout blocks p.state.handlers H c r ∧
            program.Within machines p.state.handlers.length r back q) := by
  obtain ⟨haround, hrests⟩ := h.starts_attempting hsmall hprogram hhandlers hstack hflight hfails
    hattempts.tries hattempting.ran hattempting.entry
  refine ⟨haround, ?_⟩
  rcases h.within_shelters hsmall hprogram hhandlers hstack hattempts hmem haround
    ⟨(hattempts.sheltered hmem).1.ne, [], hrests, .inr ⟨rfl, rfl⟩⟩ hattempting.within with
    ⟨⟨c, hshelters⟩, hout⟩ | hleft
  . obtain rfl : c = b := by
      obtain ⟨_, _, hat, _⟩ := hshelters
      have hsame := hat.status.symm.trans hattempting.block
      cases hsame
      rfl
    exact .inl ⟨hshelters, hout⟩
  . exact .inr hleft

theorem raises_attempting (h : graph.Coded options source plan) (hsmall : graph.IsSmall)
    (hprogram : Program.ofGraph graph table name = .ok program)
    (hhandlers : program.Supports machines table kept) (hstack : kept 4) (hflight : kept 5)
    (hfails : table.FailsInPlace) (hattempts : plan.Attempts options parts blocks)
    (hsome : blocks.handlers ≠ []) (hattempting : program.Attempting machines blocks p bs q b)
    (hinside : ∀ c ∈ bs ++ [b], c ∉ blocks.exit :: blocks.handlers)
    (hraises : program.Raises machines fuel q v q₁)
    : ∃ top, plan.RestsFaulted graph.layout (plan.label blocks.entry).under p.state.handlers
          q₁.state top ∧
        ((∃ inner, top = inner ++ blocks.handlers) ∨ top = [] ∧ blocks.Loses plan b v q₁) := by
  obtain ⟨H, rest, hcons⟩ := List.exists_cons_of_ne_nil hsome
  have hmem : H ∈ blocks.handlers := hcons ▸ List.mem_cons_self ..
  obtain ⟨haround, ⟨hshelters, _⟩ | ⟨_, back, c, r, rfl, _, hleft, hback⟩⟩ :=
    h.shelters_attempting hsmall hprogram hhandlers hstack hflight hfails hattempts hmem hattempting
  . obtain ⟨top, hfaulted, hin | hlost⟩ := h.raises_shelters hsmall hprogram hhandlers hstack
      hattempts hmem haround hshelters hraises
    . refine ⟨top, hfaulted, .inl ?_⟩
      obtain ⟨inner, tail, rfl⟩ := List.append_of_mem hin
      have hchain := hfaulted.chain
      rw [List.append_assoc] at hchain
      have hunder := hchain.append.2.1
      rw [hattempts.tries.under [] _ hcons] at hunder
      rw [hcons, List.append_cancel_right hunder]
      exact ⟨inner, rfl⟩
    . exact ⟨top, hfaulted, .inr hlost⟩
  . obtain ⟨hc, _, hrests⟩ := hleft
    have hvisited := hback.mem_of_status hrests.status hattempting.block
    refine absurd ?_ (hinside c (by
      rw [List.append_assoc]
      exact List.mem_append_right _ hvisited))
    rcases hc with rfl | rfl
    . exact List.mem_cons_of_mem _ hmem
    . unfold TryBlocks.after TryBlocks.handlers
      cases blocks.cleanup <;> simp

theorem routes_attempting (h : graph.Coded options source plan) (hsmall : graph.IsSmall)
    (hprogram : Program.ofGraph graph table name = .ok program)
    (hhandlers : program.Supports machines table kept) (hstack : kept 4) (hflight : kept 5)
    (hfails : table.FailsInPlace) (hattempts : plan.Attempts options parts blocks)
    (hsome : blocks.handlers ≠ []) (hattempting : program.Attempting machines blocks p bs q b)
    (hinside : ∀ c ∈ bs ++ [b], c ∉ blocks.exit :: blocks.handlers)
    (hraises : program.Raises machines fuel q v q₁)
    : blocks.Routes plan p.state.handlers b v q₁ := by
  obtain ⟨top, hfaulted, ⟨inner, rfl⟩ | ⟨rfl, hlost⟩⟩ := h.raises_attempting hsmall hprogram
    hhandlers hstack hflight hfails hattempts hsome hattempting hinside hraises
  . obtain ⟨first, rest, hcons⟩ := List.exists_cons_of_ne_nil (l := inner ++ blocks.handlers)
      (by simp [hsome])
    have hhandlers := hfaulted.stacked.handlers
    rw [List.append_assoc] at hhandlers
    rw [hcons] at hfaulted
    obtain ⟨q₂, hroute, hnext, hexception, _⟩ := hfaulted.route_cons graph.layout_apart v
    exact .own hhandlers hcons hroute hnext.status hexception
  . exact .lost hlost hfaulted.stacked.handlers

theorem delivers_attempting (h : graph.Coded options source plan) (hsmall : graph.IsSmall)
    (hprogram : Program.ofGraph graph table name = .ok program)
    (hattempts : plan.Attempts options parts blocks) {clause : CatchClause}
    (hclause : clause ∈ parts.catches) (hany : clause.type = .any) {around top : List BlockId}
    (hfaulted : plan.RestsFaulted graph.layout (plan.label blocks.entry).under around q.state top)
    (hown : q.state.handlers = blocks.handlers ++ around) (v : Value)
    : blocks.Delivers machines program options plan parts around v q := by
  obtain ⟨handlers, scope, s, hlabelled, _, t, live, u, hcode⟩ := hattempts.labelled
  obtain ⟨D, hD⟩ := hattempts.dispatch_of_mem hclause
  have hcatches := hcode.catches h.toOrderly hD (hlabelled.dispatch D hD)
  have hstacked := hfaulted.stacked
  rw [← hfaulted.stacked.handlers, hown, TryBlocks.handlers, hD, List.append_assoc] at hstacked
  have hstatus : ((q.state.setException v).resumeAt D).status? = some (.running D) :=
    State.status?_of_block (State.slot_setSlot ((hstacked.setException v).lt_size (by decide)) _)
      (hstacked.small D (List.mem_cons_self ..))
  rcases h.executes_dispatch hsmall hprogram machines hstacked hfaulted.agrees hcatches v with
    ⟨k, taken, hfirst, hdelivered⟩ | ⟨hnone, _⟩
  . refine ⟨D, t.fresh, k, taken, _, hD, hfirst, hcatches.clauses k taken hfirst.at_index,
      hstacked.route_cons v, hstatus, fun fuel => ?_⟩
    obtain ⟨f, hexec, hdelivered⟩ := hdelivered fuel
    exact ⟨f.toProcess, hexec.turn hstatus, hdelivered⟩
  . have htakes := hnone clause hclause
    rw [hany] at htakes
    cases htakes

theorem once_attempting (h : graph.Coded options source plan) (hsmall : graph.IsSmall)
    (hprogram : Program.ofGraph graph table name = .ok program)
    (hhandlers : program.Supports machines table kept) (hstack : kept 4) (hflight : kept 5)
    (hfails : table.FailsInPlace) (hattempts : plan.Attempts options parts blocks)
    (hcleanup : blocks.cleanup = some F) (hattempting : program.Attempting machines blocks p bs q b)
    : (bs ++ [b]).count F ≤ 1 ∧ (b = blocks.exit → F ∈ bs) ∧
        ∀ {fuel : Nat} {v : Value} {q₁ : Process}, program.Raises machines fuel q v q₁ →
          q₁.state.handlers.length ≤ p.state.handlers.length →
            F ∈ bs ++ [b] ∨ blocks.Loses plan b v q₁ := by
  have hmem := TryBlocks.mem_handlers_of_cleanup hcleanup
  have hne := hattempts.tries.exit_ne hcleanup
  obtain ⟨haround, ⟨hshelters, hout⟩ | ⟨front, back, c, r, rfl, hout, hleft, hback⟩⟩ :=
    h.shelters_attempting hsmall hprogram hhandlers hstack hflight hfails hattempts hmem hattempting
  . have hnot : F ∉ bs ++ [b] := by simpa [not_or] using ⟨hout, hshelters.ne.symm⟩
    refine ⟨by simp [List.count_eq_zero.2 hnot], ?_, ?_⟩
    . rintro rfl
      exact absurd hshelters (not_shelters_exit hattempts.tries hmem)
    . intro fuel v q₁ hraises hfew
      obtain ⟨top, hfaulted, hin | ⟨_, hlost⟩⟩ := h.raises_shelters hsmall hprogram hhandlers hstack
        hattempts hmem haround hshelters hraises
      . rw [hfaulted.stacked.handlers, List.length_append] at hfew
        have := List.length_pos_of_mem hin
        lia
      . exact .inr hlost
  . obtain rfl : c = F := by
      rcases hleft.left with rfl | rfl
      . rfl
      . simp [TryBlocks.after, hcleanup]
    obtain ⟨_, top, hrests⟩ := hleft
    have hunder := hattempts.tries.under_cleanup hcleanup
    rw [← hunder] at haround hrests
    have hexit := hattempting.exit
    rw [List.mem_append, not_or] at hexit
    obtain ⟨later, hsplit, hlater⟩ := h.within_tidies hsmall hprogram hhandlers hstack
      hattempts.tries hcleanup haround ⟨top, hrests, .inl rfl⟩ hback hexit.2 hattempting.block
    rw [List.append_assoc, hsplit]
    have hvisited : c ∈ front ++ c :: later := by simp
    refine ⟨?_, ?_, fun _ _ => .inl hvisited⟩
    . simp [List.count_append, List.count_eq_zero.2 hout, List.count_eq_zero.2 hlater]
    . rintro rfl
      rw [← hsplit, ← List.append_assoc, List.mem_append, List.mem_singleton] at hvisited
      exact hvisited.resolve_right hne

end Graph.Coded

/--
All handlers belong to `try` forms, and every such form with a clause protects its body, in every
run: a fault that is raised anywhere in the body, and that no `try` form inside has caught, goes to
the handlers of the form. The value of the body is handed over when they are out of force. All that
can go wrong there is that the value is to be that of a global variable which does not exist; such a
fault leaves the form.
-/
theorem Program.try_protects {options : CompileOptions} {source : Form} {graph : Graph}
    {table : Table String Handler} {name : String} {program : Program} {machines : Machines}
    (hgraph : Graph.ofForm options source = .ok graph) (hsmall : graph.IsSmall)
    (hprogram : Program.ofGraph graph table name = .ok program)
    (hhandlers : program.Supports machines table (fun slot => slot = 4 ∨ slot = 5))
    (hfails : table.FailsInPlace)
    : ∃ plan, graph.Coded options source plan ∧
        (∀ {b handler : BlockId} {i : Nat} {ins : Instruction}, (plan.code b)[i]? = some ins →
          ins.command = .effect (.pushHandler handler) →
            ∃ parts blocks, plan.Attempts options parts blocks ∧ handler ∈ blocks.handlers) ∧
        ∀ {parts : TryParts} {blocks : TryBlocks}, plan.Attempts options parts blocks →
          parts.catches ≠ [] ∨ parts.cleanup ≠ none →
            program.Protects machines options plan parts blocks := by
  obtain ⟨plan, hcoded⟩ := Graph.ofForm_coded hgraph
  refine ⟨plan, hcoded, ?_, ?_⟩
  . intro b handler i ins hi hpush
    obtain ⟨blocks, htries, hmem⟩ := (hcoded.shifts hi).push handler hpush
    obtain ⟨parts, hattempts⟩ := htries.attempts
    exact ⟨parts, blocks, hattempts, hmem⟩
  intro parts blocks hattempts hclauses
  have hsome := hattempts.handlers_ne_nil hclauses
  constructor
  case routed =>
    intro p q q₁ bs b fuel v hattempting hinside hraises
    exact hcoded.routes_attempting hsmall hprogram hhandlers (.inl rfl) (.inr rfl) hfails hattempts
      hsome hattempting hinside hraises
  case caught =>
    intro p q q₁ bs b fuel v clause hclause hany hattempting hinside hraises hown
    obtain ⟨top, hfaulted, _⟩ := hcoded.raises_attempting hsmall hprogram hhandlers (.inl rfl)
      (.inr rfl) hfails hattempts hsome hattempting hinside hraises
    exact hcoded.delivers_attempting hsmall hprogram hattempts hclause hany hfaulted hown v
  case once =>
    intro F hcleanup p q bs b hattempting
    exact hcoded.once_attempting hsmall hprogram hhandlers (.inl rfl) (.inr rfl) hfails hattempts
      hcleanup hattempting

def Form.faultAfterYield : Form :=
  .list [.symbol "try" .synthetic,
    .list [.symbol "yield" .synthetic, .atom (.int 1) .synthetic] .synthetic,
    .list [.symbol "f" .synthetic] .synthetic,
    .list [.symbol "catch" .synthetic, .atom (.keyword "default") .synthetic,
      .symbol "e" .synthetic, .symbol "e" .synthetic] .synthetic,
    .list [.symbol "finally" .synthetic, .atom (.int 2) .synthetic] .synthetic] .synthetic

def Instruction.takes (ins : Instruction) : Bool :=
  match ins.command with
  | .effect .takeException => true
  | _ => false

def Instruction.pops (block : BlockId) (ins : Instruction) : Bool :=
  match ins.command with
  | .effect (.popHandler b) => b == block
  | _ => false

def Program.faultsIn (program : Program) (graph : Graph) (n : Nat) (p : Process) : Bool :=
  match p.state.status? with
  | some (.running entry) =>
    (program.withins? 1 p.state.handlers.length n p).any fun (bs, q) =>
      match q.state.status? with
      | some (.running b) =>
        bs.length == n && (graph.blocks.code (entry + 1))[1]?.any (·.takes) &&
          (graph.blocks.code b).any (·.pops (entry + 1)) &&
          decide (∀ c ∈ bs ++ [b], c < entry + 1 ∨ entry + 3 < c) &&
          (program.throws? {} 1 q).isSome
      | _ => false
  | _ => false

theorem Program.exists_of_faultsIn {program : Program} {graph : Graph} {n : Nat} {p : Process}
    (h : program.faultsIn graph n p = true)
    : ∃ entry b bs q v q₁, p.state.status? = some (.running entry) ∧
        program.Within {} p.state.handlers.length p bs q ∧ bs.length = n ∧
        q.state.status? = some (.running b) ∧
        (∃ x span, (graph.blocks.code (entry + 1))[1]? =
          some ⟨x, .effect .takeException, span⟩) ∧
        (∃ (i : Nat) (ins : Instruction), (graph.blocks.code b)[i]? = some ins ∧
          ins.command = .effect (.popHandler (entry + 1))) ∧
        (∀ c ∈ bs ++ [b], c < entry + 1 ∨ entry + 3 < c) ∧ program.Raises {} 1 q v q₁ := by
  unfold faultsIn at h
  split at h
  . next entry hentry =>
    rw [Option.any_eq_true] at h
    obtain ⟨⟨bs, q⟩, hwithins, h⟩ := h
    simp only at h
    split at h
    . next b hb =>
      simp only [Bool.and_eq_true, Option.any_eq_true, List.any_eq_true, decide_eq_true_eq,
        Option.isSome_iff_exists, beq_iff_eq] at h
      obtain ⟨⟨⟨⟨hlength, take, htake, htakes⟩, pop, hpop, hpops⟩, hout⟩, ⟨v, q₁⟩, hthrows⟩ := h
      refine ⟨entry, b, bs, q, v, q₁, hentry, .of_withins? hwithins, hlength, hb, ?_, ?_, hout,
        Program.raises_of_throws? hthrows⟩
      . obtain ⟨x, command, span⟩ := take
        unfold Instruction.takes at htakes
        split at htakes
        . next hcommand =>
          cases hcommand
          exact ⟨x, span, htake⟩
        . cases htakes
      . obtain ⟨i, hi⟩ := List.mem_iff_getElem?.1 hpop
        refine ⟨i, pop, hi, ?_⟩
        unfold Instruction.pops at hpops
        split at hpops
        . next block hcommand => rw [hcommand, eq_of_beq hpops]
        . cases hpops
    . cases h
  . cases h

theorem Program.try_protects_faultAfterYield
    : ∃ graph program p q q₁ bs b v,
        Graph.ofForm .yielding .faultAfterYield = .ok graph ∧ graph.IsSmall ∧
        Program.ofGraph graph (.ofList [("yield", Handler.yield)]) "main" = .ok program ∧
        program.Supports {} (.ofList [("yield", Handler.yield)]) (fun slot => slot = 4 ∨ slot = 5) ∧
        Table.FailsInPlace (.ofList [("yield", Handler.yield)]) ∧
        ∃ plan parts blocks, graph.Coded .yielding .faultAfterYield plan ∧
          plan.Attempts .yielding parts blocks ∧ parts.cleanup ≠ none ∧
          program.Attempting {} blocks p bs q b ∧ bs.length = 1 ∧
          (∀ c ∈ bs ++ [b], c ∉ blocks.exit :: blocks.handlers) ∧ program.Raises {} 1 q v q₁ ∧
          blocks.Routes plan p.state.handlers b v q₁ := by
  obtain ⟨graph, program, hgraph, hprogram, hcheck⟩ := Graph.exists_of_check .yielding
    .faultAfterYield (.ofList [("yield", Handler.yield)]) "main"
    (fun graph program => decide graph.IsSmall && (program.create .nil []).toOption.any fun s =>
      (program.withins? 1 0 1 ⟨s, {}⟩).any fun way => program.faultsIn graph 1 way.2)
    (by decide +kernel)
  simp only [Bool.and_eq_true, decide_eq_true_eq, Option.any_eq_true] at hcheck
  obtain ⟨hsmall, s, hs, ⟨_, p⟩, hstart, hfaults⟩ := hcheck
  obtain ⟨entry, b, bs, q, v, q₁, hentry, hwithin, hlength, hb, ⟨x, span, htake⟩,
    ⟨i, ins, hi, hpop⟩, hout, hraises⟩ := Program.exists_of_faultsIn hfaults
  have hhandlers := Program.supports_yield {} program (fun slot => slot = 4 ∨ slot = 5) (by decide)
    (by decide)
  obtain ⟨plan, hcoded, _, hprotects⟩ := Program.try_protects hgraph hsmall hprogram hhandlers
    Table.failsInPlace_yield
  rw [hcoded.code] at htake hi
  have hb' : b ≠ entry + 1 := by
    have := hout b (by simp)
    lia
  obtain ⟨parts, blocks, hattempts, hcleanup, hfirst, hplaces⟩ :=
    hcoded.attempts_of_popHandler ⟨span, htake⟩ hi hpop hb'
  obtain rfl : blocks.entry = entry := Nat.succ.inj hfirst
  have hparts : parts.cleanup ≠ none := by
    obtain ⟨_, _, _, _, _, _, rfl⟩ := hattempts
    rintro hnone
    simp [TryBlocks.number, hnone] at hcleanup
  have hinside : ∀ c ∈ bs ++ [b], c ∉ blocks.exit :: blocks.handlers := by
    intro c hc hin
    have hlow := hout c hc
    have hhigh := hplaces c hin
    lia
  have hcreated : program.Ran {} [] [] ⟨s, {}⟩ := .create (Except.eq_ok_of_toOption hs)
  have hattempting : program.Attempting {} blocks p bs q b := {
    ran := hcreated.within (.of_withins? hstart)
    entry := hentry
    within := hwithin
    exit := fun hin => hinside _ (List.mem_append_left _ hin) (List.mem_cons_self ..)
    block := hb }
  exact ⟨graph, program, p, q, q₁, bs, b, v, hgraph, hsmall, hprogram, hhandlers,
    Table.failsInPlace_yield, plan, parts, blocks, hcoded, hattempts, hparts, hattempting, hlength,
    hinside, hraises, (hprotects hattempts (.inr hparts)).routed hattempting hinside hraises⟩

end Resumable
