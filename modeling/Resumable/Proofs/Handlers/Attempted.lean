import Resumable.Proofs.Handlers.Sheltered
import Resumable.Proofs.Handlers.Within

/-!
This module contains what becomes of the handlers of a `try` form from one block to the next: each
of them stays in force up to where its own block is entered or the value of the protected body is
handed over, and a `finally` clause that has been entered is run to the exit of the form.
-/

namespace Resumable

open Plan

namespace Plan

structure Shelters (plan : Plan) (layout : Layout) (blocks : TryBlocks) (around : List BlockId)
    (H b : BlockId) (p : Process) : Prop where
  ne : b ≠ H
  rests : ∃ top, plan.RestsAt layout (plan.label blocks.entry).under around b p.state top ∧
    (H ∈ top ∨ b = blocks.entry ∧ top = [])

structure Unshelters (plan : Plan) (layout : Layout) (blocks : TryBlocks) (around : List BlockId)
    (H b : BlockId) (p : Process) : Prop where
  left : b = H ∨ b = blocks.after
  rests : ∃ top, plan.RestsAt layout (plan.label blocks.entry).under around b p.state top

structure Tidies (plan : Plan) (layout : Layout) (around : List BlockId) (F b : BlockId)
    (p : Process) : Prop where
  rests : ∃ top, plan.RestsAt layout (plan.label F).under around b p.state top ∧
    (b = F ∨ b ≠ F ∧ F ∈ (plan.label b).inside ∧ plan.Inner F (top ++ (plan.label F).under))

end Plan

structure TryBlocks.Loses (plan : Plan) (blocks : TryBlocks) (b : BlockId) (v : Value)
    (q : Process) : Prop where
  undefined : ∃ ins ∈ plan.code b, ∃ name, ins.command = .handOver (.global name) blocks.after ∧
    q.store.globals.get? name = none ∧ v = (Fault.undefined name).toValue

namespace Graph.Coded

variable {options : CompileOptions} {source : Form} {graph : Graph} {plan : Plan}
  {table : Table String Handler} {name : String} {program : Program} {machines : Machines}
  {kept : Nat → Prop} {parts : TryParts} {blocks : TryBlocks} {around : List BlockId}
  {H F b : BlockId} {p q q' : Process} {fuel : Nat} {v : Value}

theorem not_mem_around (h : graph.Coded options source plan) (htries : plan.Tries options blocks)
    (hmem : H ∈ blocks.handlers)
    : H ∉ (plan.label blocks.entry).under :=
  fun hunder => Nat.lt_irrefl _ ((h.blockFits H).under H (htries.mem_under hmem H hunder))

theorem sheltered_of_shelters (hattempts : plan.Attempts options parts blocks)
    (hmem : H ∈ blocks.handlers) (hshelters : plan.Shelters graph.layout blocks around H b p)
    : plan.Sheltered H b := by
  obtain ⟨hne, top, hrests, hin | ⟨rfl, _⟩⟩ := hshelters
  . exact hrests.enters.sheltered (List.mem_append_left _ hin) hne
  . exact (hattempts.sheltered hmem).1

theorem advances_shelters (h : graph.Coded options source plan) (hsmall : graph.IsSmall)
    (hprogram : Program.ofGraph graph table name = .ok program)
    (hhandlers : program.Supports machines table kept) (hkept : kept 4)
    (hattempts : plan.Attempts options parts blocks) (hmem : H ∈ blocks.handlers)
    (haround : ∀ g ∈ around, g ∈ (plan.label blocks.entry).under)
    (hshelters : plan.Shelters graph.layout blocks around H b p)
    (hadvances : program.Advances machines p q)
    : ∃ b', plan.Shelters graph.layout blocks around H b' q ∨
        plan.Unshelters graph.layout blocks around H b' q := by
  have hsheltered := sheltered_of_shelters hattempts hmem hshelters
  obtain ⟨_, _, hrests, _⟩ := hshelters
  obtain ⟨i, ins, t, target, top, hi, ht, htarget, hstack, hnext⟩ := h.advances_rests hsmall
    hprogram hhandlers hkept (h.spared_of_sheltered hattempts.tries hmem hsheltered) haround hrests
    hadvances
  refine ⟨target, ?_⟩
  by_cases hne : target = H
  . exact .inr ⟨.inl hne, top, hnext⟩
  have hcovers := h.covers hattempts.tries hmem hsheltered hi
  rw [ht] at hcovers
  cases hcovers with
  | inside hin =>
    rw [hstack, List.mem_append] at hin
    exact .inl ⟨hne, top, hnext,
      .inl (hin.resolve_right (h.not_mem_around hattempts.tries hmem))⟩
  | handOver => exact .inr ⟨.inr (List.mem_singleton.1 htarget), top, hnext⟩

theorem raises_shelters (h : graph.Coded options source plan) (hsmall : graph.IsSmall)
    (hprogram : Program.ofGraph graph table name = .ok program)
    (hhandlers : program.Supports machines table kept) (hkept : kept 4)
    (hattempts : plan.Attempts options parts blocks) (hmem : H ∈ blocks.handlers)
    (haround : ∀ g ∈ around, g ∈ (plan.label blocks.entry).under)
    (hshelters : plan.Shelters graph.layout blocks around H b p)
    (hraises : program.Raises machines fuel p v q)
    : ∃ top,
        plan.RestsFaulted graph.layout (plan.label blocks.entry).under around q.state top ∧
        (H ∈ top ∨ top = [] ∧ blocks.Loses plan b v q) := by
  have hsheltered := sheltered_of_shelters hattempts hmem hshelters
  obtain ⟨_, top, hrests, hin⟩ := hshelters
  obtain ⟨top', hfaulted, ⟨hempty, rfl⟩ | ⟨i, ins, hi, hstack, hthrows⟩⟩ := h.raises_rests hsmall
    hprogram hhandlers hkept (h.spared_of_sheltered hattempts.tries hmem hsheltered) haround hrests
    hraises
  . refine ⟨_, hfaulted, .inl (hin.resolve_right ?_)⟩
    rintro ⟨rfl, _⟩
    exact (hattempts.sheltered hmem).2 hempty
  refine ⟨top', hfaulted, ?_⟩
  have hcovers := h.covers hattempts.tries hmem hsheltered hi
  generalize hcommand : ins.command = command at hcovers
  cases hcovers with
  | inside hin =>
    rw [hstack, List.mem_append] at hin
    exact .inl (hin.resolve_right (h.not_mem_around hattempts.tries hmem))
  | push => exact absurd hcommand (hthrows.ne_pushHandler _)
  | pop => exact absurd hcommand (hthrows.ne_popHandler _)
  | handOver hunder =>
    rw [hstack] at hunder
    obtain ⟨name, rfl, hglobal, hv⟩ := hthrows.handOver hcommand
    exact .inr ⟨List.append_left_eq_self.1 hunder,
      ⟨ins, List.mem_of_getElem? hi, name, hcommand, hglobal, hv⟩⟩

theorem proceeds_shelters (h : graph.Coded options source plan) (hsmall : graph.IsSmall)
    (hprogram : Program.ofGraph graph table name = .ok program)
    (hhandlers : program.Supports machines table kept) (hkept : kept 4)
    (hattempts : plan.Attempts options parts blocks) (hmem : H ∈ blocks.handlers)
    (haround : ∀ g ∈ around, g ∈ (plan.label blocks.entry).under)
    (hshelters : plan.Shelters graph.layout blocks around H b p)
    (hproceeds : program.Proceeds machines around.length p q)
    : ∃ c, plan.Shelters graph.layout blocks around H c q ∨
        plan.Unshelters graph.layout blocks around H c q := by
  cases hproceeds with
  | advance hadvances =>
    exact h.advances_shelters hsmall hprogram hhandlers hkept hattempts hmem haround hshelters
      hadvances
  | caught hraises hmore hroute =>
    obtain ⟨top, hfaulted, hin⟩ := h.raises_shelters hsmall hprogram hhandlers hkept hattempts hmem
      haround hshelters hraises
    rw [hfaulted.stacked.handlers, List.length_append] at hmore
    cases top with
    | nil => exact absurd hmore (by simp)
    | cons g top =>
      obtain ⟨_, hroute', hnext, _⟩ := hfaulted.route_cons graph.layout_apart _
      rw [hroute] at hroute'
      cases hroute'
      refine ⟨g, ?_⟩
      by_cases hne : g = H
      . exact .inr ⟨.inl hne, _, hnext⟩
      . exact .inl ⟨hne, _, hnext, .inl (hin.resolve_right (by simp))⟩

theorem within_shelters (h : graph.Coded options source plan) (hsmall : graph.IsSmall)
    (hprogram : Program.ofGraph graph table name = .ok program)
    (hhandlers : program.Supports machines table kept) (hkept : kept 4)
    (hattempts : plan.Attempts options parts blocks) (hmem : H ∈ blocks.handlers)
    (haround : ∀ g ∈ around, g ∈ (plan.label blocks.entry).under)
    (hshelters : plan.Shelters graph.layout blocks around H b p) {bs : List BlockId}
    (hwithin : program.Within machines around.length p bs q)
    : (∃ c, plan.Shelters graph.layout blocks around H c q) ∧ H ∉ bs ∨
        ∃ front back c r, bs = front ++ back ∧ H ∉ front ∧
          plan.Unshelters graph.layout blocks around H c r ∧
          program.Within machines around.length r back q := by
  have hout : ∀ {bs : List BlockId},
      (∀ c ∈ bs, ∃ r, plan.Shelters graph.layout blocks around H c r) → H ∉ bs := by
    intro bs hall hin
    obtain ⟨_, hshelters⟩ := hall H hin
    exact hshelters.ne rfl
  rcases hwithin.follow (J := plan.Unshelters graph.layout blocks around H)
    (fun hI hproceeds => h.proceeds_shelters hsmall hprogram hhandlers hkept hattempts hmem haround
      hI hproceeds)
    (fun ⟨_, _, hrests, _⟩ => hrests.status) hshelters with
    ⟨hlast, hall⟩ | ⟨front, back, c, r, hsplit, hall, hleft, hback⟩
  . exact .inl ⟨hlast, hout hall⟩
  . exact .inr ⟨front, back, c, r, hsplit, hout hall, hleft, hback⟩

end Graph.Coded

namespace Graph.Coded

variable {options : CompileOptions} {source : Form} {graph : Graph} {plan : Plan}
  {table : Table String Handler} {name : String} {program : Program} {machines : Machines}
  {kept : Nat → Prop} {blocks : TryBlocks} {around top : List BlockId} {F b : BlockId}
  {p q q' : Process} {fuel : Nat} {v : Value}

theorem inside_of_tidies (h : graph.Coded options source plan)
    (hrole : (plan.label F).role = .cleanup) (htidies : plan.Tidies graph.layout around F b p)
    : F ∈ (plan.label b).inside := by
  obtain ⟨_, _, rfl | ⟨_, hinside, _⟩⟩ := htidies
  . obtain ⟨outer, hinside, _⟩ := h.inside_cleanup hrole
    exact hinside ▸ List.mem_cons_self ..
  . exact hinside

theorem advances_tidies (h : graph.Coded options source plan) (hsmall : graph.IsSmall)
    (hprogram : Program.ofGraph graph table name = .ok program)
    (hhandlers : program.Supports machines table kept) (hkept : kept 4)
    (htries : plan.Tries options blocks) (hcleanup : blocks.cleanup = some F)
    (haround : ∀ g ∈ around, g ∈ (plan.label F).under)
    (htidies : plan.Tidies graph.layout around F b p) (hadvances : program.Advances machines p q)
    : ∃ b', (plan.Tidies graph.layout around F b' q ∧ b' ≠ F) ∨
        b' = blocks.exit ∧ q.state.status? = some (.running b') := by
  have hrole := htries.role_cleanup hcleanup
  have hinside := h.inside_of_tidies hrole htidies
  obtain ⟨_, hrests, hbody⟩ := htidies
  obtain ⟨i, ins, t, target, top, hi, ht, htarget, hstack, hnext⟩ := h.advances_rests hsmall
    hprogram hhandlers hkept (h.spared_of_inside hinside) haround hrests hadvances
  refine ⟨target, ?_⟩
  rcases h.target_of_inside htries hcleanup hinside hi ht htarget with hexit | ⟨hin, hne⟩
  . exact .inr ⟨hexit, hnext.status⟩
  . have hinner := h.inner_of_enters hrole hrests.enters hbody hi
      (by simp [IsPrologue, ht, Command.receive])
    rw [hstack] at hinner
    exact .inl ⟨⟨top, hnext, .inr ⟨hne, hin, hinner⟩⟩, hne⟩

theorem caught_tidies (h : graph.Coded options source plan) (hsmall : graph.IsSmall)
    (hprogram : Program.ofGraph graph table name = .ok program)
    (hhandlers : program.Supports machines table kept) (hkept : kept 4)
    (hrole : (plan.label F).role = .cleanup) (haround : ∀ g ∈ around, g ∈ (plan.label F).under)
    (htidies : plan.Tidies graph.layout around F b p)
    (hraises : program.Raises machines fuel p v q) (hmore : around.length < q.state.handlers.length)
    (hroute : Run.route v q = .again q')
    : ∃ b', plan.Tidies graph.layout around F b' q' ∧ b' ≠ F := by
  have hinside := h.inside_of_tidies hrole htidies
  obtain ⟨top, hrests, hbody⟩ := htidies
  obtain ⟨top', hfaulted, hraised⟩ := h.raises_rests hsmall hprogram hhandlers hkept
    (h.spared_of_inside hinside) haround hrests hraises
  have hinner : plan.Inner F (top' ++ (plan.label F).under) := by
    rcases hraised with ⟨hempty, rfl⟩ | ⟨i, ins, hi, hstack, hthrows⟩
    . refine (hbody.resolve_left ?_).2.2
      rintro rfl
      obtain ⟨_, ⟨_, hreceive⟩, _⟩ := (h.blockFits b).cleanup_code hrole
      rw [hempty] at hreceive
      cases hreceive
    . rw [← hstack]
      exact h.inner_of_enters hrole hrests.enters hbody hi (hthrows.not_isPrologue b i)
  rw [hfaulted.stacked.handlers, List.length_append] at hmore
  cases top' with
  | nil => exact absurd hmore (by simp)
  | cons g top' =>
    obtain ⟨_, hroute', hnext, _⟩ := hfaulted.route_cons graph.layout_apart v
    rw [hroute] at hroute'
    cases hroute'
    obtain ⟨inner, hsplit, hall⟩ := hinner
    obtain rfl := List.append_cancel_right hsplit
    obtain ⟨hin, hne⟩ := hall g (List.mem_cons_self ..)
    exact ⟨g, ⟨_, hnext, .inr ⟨hne, hin, _, rfl, hall⟩⟩, hne⟩

theorem proceeds_tidies (h : graph.Coded options source plan) (hsmall : graph.IsSmall)
    (hprogram : Program.ofGraph graph table name = .ok program)
    (hhandlers : program.Supports machines table kept) (hkept : kept 4)
    (htries : plan.Tries options blocks) (hcleanup : blocks.cleanup = some F)
    (haround : ∀ g ∈ around, g ∈ (plan.label F).under)
    (htidies : plan.Tidies graph.layout around F b p)
    (hproceeds : program.Proceeds machines around.length p q)
    : ∃ c, (plan.Tidies graph.layout around F c q ∧ c ≠ F) ∨
        c = blocks.exit ∧ q.state.status? = some (.running c) := by
  cases hproceeds with
  | advance hadvances =>
    exact h.advances_tidies hsmall hprogram hhandlers hkept htries hcleanup haround htidies
      hadvances
  | caught hraises hmore hroute =>
    obtain ⟨c, hnext⟩ := h.caught_tidies hsmall hprogram hhandlers hkept
      (htries.role_cleanup hcleanup) haround htidies hraises hmore hroute
    exact ⟨c, .inl hnext⟩

theorem within_tidies (h : graph.Coded options source plan) (hsmall : graph.IsSmall)
    (hprogram : Program.ofGraph graph table name = .ok program)
    (hhandlers : program.Supports machines table kept) (hkept : kept 4)
    (htries : plan.Tries options blocks) (hcleanup : blocks.cleanup = some F)
    (haround : ∀ g ∈ around, g ∈ (plan.label F).under)
    (htidies : plan.Tidies graph.layout around F F p) {bs : List BlockId}
    (hwithin : program.Within machines around.length p bs q) (hexit : blocks.exit ∉ bs)
    (hstatus : q.state.status? = some (.running b))
    : ∃ later, bs ++ [b] = F :: later ∧ F ∉ later := by
  have hat : ∀ {b p}, plan.Tidies graph.layout around F b p →
      p.state.status? = some (.running b) := fun ⟨_, hrests, _⟩ => hrests.status
  have hends : ∀ {r bs}, program.Within machines around.length r bs q → blocks.exit ∉ bs →
      r.state.status? = some (.running blocks.exit) → F ∉ bs ++ [b] := by
    intro r bs hwithin hexit hr
    obtain ⟨rfl, rfl⟩ := hwithin.here_of_not_mem hr hexit
    rw [hstatus] at hr
    cases hr
    simpa using htries.exit_ne hcleanup
  rcases hwithin.split with ⟨rfl, rfl⟩ | ⟨_, rest, r, rfl, hat', hproceeds, hrest⟩
  . rw [hat htidies] at hstatus
    cases hstatus
    exact ⟨[], rfl, by simp⟩
  rw [hat htidies] at hat'
  cases hat'
  refine ⟨rest ++ [b], rfl, ?_⟩
  rw [List.mem_cons, not_or] at hexit
  have hstep : ∀ {b p q}, plan.Tidies graph.layout around F b p ∧ b ≠ F →
      program.Proceeds machines around.length p q →
        ∃ c, (plan.Tidies graph.layout around F c q ∧ c ≠ F) ∨
          c = blocks.exit ∧ q.state.status? = some (.running c) :=
    fun hI hproceeds => h.proceeds_tidies hsmall hprogram hhandlers hkept htries hcleanup haround
      hI.1 hproceeds
  have hout : ∀ {bs : List BlockId},
      (∀ c ∈ bs, ∃ r, plan.Tidies graph.layout around F c r ∧ c ≠ F) → F ∉ bs := by
    intro bs hall hin
    obtain ⟨_, _, hne⟩ := hall F hin
    exact hne rfl
  obtain ⟨c, hbody | ⟨rfl, hr⟩⟩ := h.proceeds_tidies hsmall hprogram hhandlers hkept htries hcleanup
    haround htidies hproceeds
  . rcases hrest.follow hstep (fun hI => hat hI.1) hbody with
      ⟨⟨_, hlast, hne⟩, hall⟩ | ⟨front, back, _, r, rfl, hall, ⟨rfl, hr⟩, hback⟩
    . rw [hat hlast] at hstatus
      cases hstatus
      simpa [not_or] using ⟨hout hall, hne.symm⟩
    . rw [List.mem_append, not_or] at hexit
      rw [List.append_assoc, List.mem_append, not_or]
      exact ⟨hout hall, hends hback hexit.2.2 hr⟩
  . exact hends hrest hexit.2 hr

end Graph.Coded

end Resumable
