import Resumable.Proofs.Faults.Rethrown
import Resumable.Proofs.Lowering.Released

/-!
This module contains what a `finally` clause does with what it finds in flight, and with what is
handed over to it, in runs up to the first fault that is handed back: whatever its body does, both
are still there at its end.
-/

namespace Resumable

namespace Program

variable {machines : Machines} {program : Program} {p q : Process}

theorem Reached.advances (h : program.Reached machines p)
    (hadvances : program.Advances machines p q)
    : program.Reached machines q := by
  cases hadvances with
  | @next fuel f hexec =>
    obtain ⟨b', code, hb', hcode, hblock⟩ := hexec
    refine h.turn hb' (?_ : Run.turn machines (Program.run machines fuel) program b' p = _)
    simp only [Run.turn, hcode, hblock]
  | @«continue» fuel handler resume args f s hexec hreply =>
    obtain ⟨b', code, hb', hcode, hblock⟩ := hexec
    refine h.turn hb' (?_ : Run.turn machines (Program.run machines fuel) program b' p = _)
    simp only [Run.turn, hcode, hblock, Run.answer, hreply, Run.obey]
  | @resume fuel handler resume args f s s' store hexec hreply hstate =>
    obtain ⟨b', code, hb', hcode, hblock⟩ := hexec
    have hturn : Run.turn machines (Program.run machines fuel) program b' p
        = .ended (.ok .suspended ⟨s, f.store⟩) := by
      simp only [Run.turn, hcode, hblock, Run.answer, hreply, Run.obey]
    exact h.resume hb' hturn hstate
  | drive hexec hreply =>
    obtain ⟨b', code, hb', hcode, hblock⟩ := hexec
    exact h.drive hb' hcode hblock hreply

theorem Reached.within {around : Nat} {bs : List BlockId} (h : program.Reached machines p)
    (hwithin : program.Within machines around p bs q)
    : program.Reached machines q := by
  induction hwithin with
  | here => exact h
  | advance _ hadvances _ ih => exact ih (h.advances hadvances)
  | caught hstatus hraises _ hroute _ ih =>
    exact ih (h.turn hstatus ((hraises.turn hstatus).trans hroute))

end Program

namespace Graph.Coded

open Plan

variable {options : CompileOptions} {source : Form} {graph : Graph} {plan : Plan}
  {table : Table String Handler} {name : String} {program : Program} {machines : Machines}
  {p : Process} {b : BlockId}

theorem slack_of_reached (h : graph.Coded options source plan) (hsmall : graph.IsSmall)
    (hprogram : Program.ofGraph graph table name = .ok program) {kept : Nat → Prop}
    (hhandlers : program.Supports machines table kept) (hkept : kept 4)
    (hreached : program.Reached machines p) (hstatus : p.state.status? = some (.running b))
    : ∃ handlers values, graph.layout.Agrees values p.state ∧ plan.At b p.state handlers ∧
        plan.Slack b 0 p.state := by
  obtain ⟨handlers, values, hagrees, hat⟩ :=
    (h.good_reached hsmall hprogram hhandlers hkept hreached).running hstatus
  exact ⟨handlers, values, hagrees, hat, handlers, handlers, hat.stacked, .refl _, hat.chain,
    hat.enters.mayHold⟩

theorem exists_tries (h : graph.Coded options source plan) {F : BlockId}
    (hrole : (plan.label F).role = .cleanup) {fuel : Nat}
    (hcompletes : program.Completes machines graph plan F fuel p b)
    : ∃ blocks, plan.Tries options blocks ∧ blocks.cleanup = some F := by
  obtain ⟨done, ins, rest, x, _, _, _, hsplit, hend, htakes, _⟩ := hcompletes
  obtain ⟨_, _, _, hreceives⟩ := h.exists_takes hrole
  have hi : (plan.code b)[done.length]? = some ins := by simp [hsplit]
  obtain ⟨blocks, F, _, _, _, htries, hcleanup, htakes', _⟩ :=
    (h.spares (by simp [hrole]) hreceives hi).ends _ hend
  obtain rfl := h.takes_inj htakes htakes'
  exact ⟨blocks, htries, hcleanup⟩

end Graph.Coded

/--
The body of a `finally` clause may throw and catch faults, suspend and be resumed with any values,
and run loops. Once it has come to its end, what was in flight when the clause was entered is thrown
again. If nothing was, the `try` form is left through its exit, with what was pending at the time.
-/
theorem Program.finally_preserves {options : CompileOptions} {source : Form} {graph : Graph}
    {table : Table String Handler} {name : String} {program : Program} {machines : Machines}
    (hgraph : Graph.ofForm options source = .ok graph) (hsmall : graph.IsSmall)
    (hprogram : Program.ofGraph graph table name = .ok program)
    (hhandlers : program.Supports machines table graph.KeepsAsideIn)
    : ∃ plan, graph.Coded options source plan ∧
        ∀ {blocks F p}, plan.Tries options blocks → blocks.cleanup = some F →
          program.Reached machines p → p.state.status? = some (.running F) →
          ∀ {bs q fuel b},
            program.Within machines (p.state.popHandler F).handlers.length p bs q →
            (∀ d ∈ bs, ¬ plan.EndsIn F d) → program.Completes machines graph plan F fuel q b →
              (p.state.exception.isNil = false → ∃ g,
                program.Executes machines fuel q (.error (.thrown p.state.exception) g) ∧
                g.state.handlers = (p.state.popHandler F).handlers) ∧
              (p.state.exception.isNil = true → ∃ g,
                program.Executes machines fuel q (.ok .next g) ∧
                g.state.status? = some (.running blocks.exit) ∧
                g.state.pending = p.state.pending ∧
                g.state.handlers = (p.state.popHandler F).handlers) := by
  obtain ⟨plan, hcoded⟩ := Graph.ofForm_coded hgraph
  refine ⟨plan, hcoded, ?_⟩
  intro blocks F p htries hcleanup hreached hstatus bs q fuel b hwithin hbefore hcompletes
  obtain ⟨_, values, hagrees, hat, hslack⟩ :=
    hcoded.slack_of_reached hsmall hprogram hhandlers (.inl rfl) hreached hstatus
  -- From here on, it only matters what the clause has put aside.
  obtain ⟨c, rfl, hthrown, hhanded, haround, hbegins⟩ :=
    hcoded.exists_clause (htries.role_cleanup hcleanup) hslack
  rw [← hthrown, ← hhanded, ← haround]
  rw [← haround] at hwithin
  obtain ⟨b', hgoing⟩ := hcoded.within_clause hsmall hprogram hhandlers
    ⟨hat.block, hat.small, values, hagrees, hbegins values⟩ hwithin hbefore
  obtain ⟨_, _, _, _, hslack'⟩ := hcoded.slack_of_reached hsmall hprogram hhandlers (.inl rfl)
    (hreached.within hwithin) hgoing.status
  obtain ⟨hnil, hnonnil⟩ := hcoded.completes_clause hsmall hprogram hgoing hslack' hcompletes
  refine ⟨hnonnil, ?_⟩
  intro hnone
  obtain ⟨blocks', g, htries', hcleanup', hexec, hexit, hpending, hhandlers'⟩ := hnil hnone
  obtain rfl := htries'.unique htries (TryBlocks.mem_handlers_of_cleanup hcleanup')
    (TryBlocks.mem_handlers_of_cleanup hcleanup)
  exact ⟨g, hexec, hexit, hpending, hhandlers'⟩

def Form.faultsAround : Form :=
  .list [.symbol "try" .synthetic, .list [.symbol "f" .synthetic] .synthetic,
    .list [.symbol "finally" .synthetic,
      .list [.symbol "yield" .synthetic, .atom (.int 2) .synthetic] .synthetic,
      .list [.symbol "try" .synthetic, .list [.symbol "g" .synthetic] .synthetic,
        .list [.symbol "catch" .synthetic, .atom (.keyword "default") .synthetic,
          .symbol "e" .synthetic, .symbol "e" .synthetic] .synthetic] .synthetic] .synthetic]
    .synthetic

namespace Program

variable {program : Program} {fuel around : Nat} {p q : Process}

def preserves? (program : Program) (graph : Graph) (n : Nat) (p : Process) : Bool :=
  match p.state.status? with
  | some (.running F) =>
    !p.state.exception.isNil && (p.state.popHandler F).handlers.isEmpty &&
      (program.withins? 1 0 n p).any fun rest => rest.1.length == n &&
        rest.1.all (fun d => (graph.blocks.code d).all (!endsBody ·)) &&
        program.completes? graph F 1 rest.2
  | _ => false

theorem exists_of_preserves? {graph : Graph} {n : Nat} (h : program.preserves? graph n p = true)
    : ∃ F bs q, p.state.status? = some (.running F) ∧ p.state.exception.isNil = false ∧
        (p.state.popHandler F).handlers.length = 0 ∧ program.withins? 1 0 n p = some (bs, q) ∧
        bs.length = n ∧ (∀ d ∈ bs, ∀ i ∈ graph.blocks.code d, endsBody i = false) ∧
        program.completes? graph F 1 q = true := by
  unfold preserves? at h
  split at h
  . next F hstatus =>
    simp only [Bool.and_eq_true, Option.any_eq_true, List.all_eq_true, Bool.not_eq_true',
      beq_iff_eq, List.isEmpty_iff] at h
    obtain ⟨⟨hthrown, haround⟩, ⟨bs, q⟩, hwithins, ⟨hlength, hbodies⟩, hends⟩ := h
    exact ⟨F, bs, q, hstatus, hthrown, by rw [haround]; rfl, hwithins, hlength, hbodies, hends⟩
  . cases h

end Program

theorem Graph.Coded.not_endsIn {options : CompileOptions} {source : Form} {graph : Graph}
    {plan : Plan} (h : graph.Coded options source plan) {F : BlockId} {bs : List BlockId}
    (hbodies : ∀ d ∈ bs, ∀ i ∈ graph.blocks.code d, Program.endsBody i = false)
    : ∀ d ∈ bs, ¬ plan.EndsIn F d := by
  rintro d hd ⟨ins, x, hins, hcommand, _⟩
  rw [← h.code] at hins
  exact absurd (hbodies d hd ins hins) (by simp [Program.endsBody, hcommand])

theorem Program.finally_preserves_faultsAround
    : ∃ graph program p q bs g,
        Graph.ofForm .yielding .faultsAround = .ok graph ∧
        Program.ofGraph graph (.ofList [("yield", Handler.yield)]) "main" = .ok program ∧
        program.Reached {} p ∧ p.state.exception.isNil = false ∧ bs.length = 5 ∧
        program.Within {} 0 p bs q ∧
        program.Executes {} 1 q (.error (.thrown p.state.exception) g) := by
  obtain ⟨graph, program, hgraph, hprogram, hcheck⟩ := Graph.exists_of_check .yielding
    .faultsAround (.ofList [("yield", Handler.yield)]) "main"
    (fun graph program => decide graph.IsSmall && (program.create .nil []).toOption.any fun s =>
      (program.after {} 1 2 ⟨s, {}⟩).any (program.preserves? graph 5))
    (by decide +kernel)
  simp only [Bool.and_eq_true, decide_eq_true_eq, Option.any_eq_true] at hcheck
  obtain ⟨hsmall, s, hs, p, hp, hcheck⟩ := hcheck
  obtain ⟨F, bs, q, hstatus, hthrown, haround, hwithins, hlength, hbodies, hends⟩ :=
    Program.exists_of_preserves? hcheck
  have hhandlers := graph.supports_yield_keepsAsideIn {} program
  obtain ⟨plan, hcoded, hpreserves⟩ := Program.finally_preserves hgraph hsmall hprogram hhandlers
  have hreached := (Program.Reached.create (Except.eq_ok_of_toOption hs)).after hp
  obtain ⟨b, hrole, hcompletes⟩ := Program.Completes.of_completes? hcoded hends
  have hwithin := Program.Within.of_withins? hwithins
  obtain ⟨blocks, htries, hcleanup⟩ := hcoded.exists_tries hrole hcompletes
  obtain ⟨hnonnil, _⟩ := hpreserves htries hcleanup hreached hstatus (haround ▸ hwithin)
    (hcoded.not_endsIn hbodies) hcompletes
  obtain ⟨g, hexec, _⟩ := hnonnil hthrown
  exact ⟨graph, program, p, q, bs, g, hgraph, hprogram, hreached, hthrown, hlength, hwithin, hexec⟩

def Handler.failForgetting : Handler := fun state _ _ => .fault (.keyword "closed") state.forget

def Form.yieldInCleanup : Form :=
  .list [.symbol "try" .synthetic, .list [.symbol "f" .synthetic] .synthetic,
    .list [.symbol "finally" .synthetic,
      .list [.symbol "try" .synthetic,
        .list [.symbol "yield" .synthetic, .atom (.int 2) .synthetic] .synthetic,
        .list [.symbol "catch" .synthetic, .atom (.keyword "default") .synthetic,
          .symbol "e" .synthetic, .symbol "e" .synthetic] .synthetic] .synthetic] .synthetic]
    .synthetic

theorem Program.not_finally_preserves_yieldInCleanup
    : ∃ graph program p q bs,
        Graph.ofForm .yielding .yieldInCleanup = .ok graph ∧ graph.IsSmall ∧
        Program.ofGraph graph (.ofList [("yield", Handler.failForgetting)]) "main" = .ok program ∧
        program.SupportsUnlessFailing {} (.ofList [("yield", Handler.failForgetting)]) (4 ≤ ·) ∧
        program.Reached {} p ∧ p.state.exception.isNil = false ∧
        (∃ g, program.Executes {} 1 q (.ok .next g)) ∧
        ∀ plan, graph.Coded .yielding .yieldInCleanup plan →
          ∃ blocks F b, plan.Tries .yielding blocks ∧ blocks.cleanup = some F ∧
            p.state.status? = some (.running F) ∧
            program.Within {} (p.state.popHandler F).handlers.length p bs q ∧
            (∀ d ∈ bs, ¬ plan.EndsIn F d) ∧ program.Completes {} graph plan F 1 q b := by
  obtain ⟨graph, program, hgraph, hprogram, hcheck⟩ := Graph.exists_of_check .yielding
    .yieldInCleanup (.ofList [("yield", Handler.failForgetting)]) "main"
    (fun graph program => decide graph.IsSmall && (program.create .nil []).toOption.any fun s =>
      (program.after {} 1 2 ⟨s, {}⟩).any fun p => program.preserves? graph 4 p &&
        (program.withins? 1 0 4 p).all fun way => (program.next? {} 1 way.2).isSome)
    (by decide +kernel)
  simp only [Bool.and_eq_true, decide_eq_true_eq, Option.any_eq_true] at hcheck
  obtain ⟨hsmall, s, hs, p, hp, hpreserves, hleft⟩ := hcheck
  obtain ⟨F, bs, q, hstatus, hthrown, haround, hwithins, _, hbodies, hends⟩ :=
    Program.exists_of_preserves? hpreserves
  rw [hwithins, Option.all_some, Option.isSome_iff_exists] at hleft
  obtain ⟨r, hnext⟩ := hleft
  obtain ⟨g, _, hexec⟩ := Program.executes_of_next? hnext
  have hsupports : program.SupportsUnlessFailing {}
      (.ofList [("yield", Handler.failForgetting)]) (4 ≤ ·) := by
    intro name handler hhandler s resume args _
    obtain rfl := Table.eq_of_get?_single hhandler
    exact .inr ⟨_, _, rfl⟩
  have hreached := (Program.Reached.create (Except.eq_ok_of_toOption hs)).after hp
  refine ⟨graph, program, p, q, bs, hgraph, hsmall, hprogram, hsupports, hreached, hthrown,
    ⟨g, hexec⟩, ?_⟩
  intro plan hcoded
  obtain ⟨b, hrole, hcompletes⟩ := Program.Completes.of_completes? hcoded hends
  obtain ⟨blocks, htries, hcleanup⟩ := hcoded.exists_tries hrole hcompletes
  exact ⟨blocks, F, b, htries, hcleanup, hstatus, haround ▸ Program.Within.of_withins? hwithins,
    hcoded.not_endsIn hbodies, hcompletes⟩

end Resumable
