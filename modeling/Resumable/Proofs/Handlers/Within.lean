import Resumable.Proofs.Handlers.Course
import Resumable.Proofs.Running.History

/-!
This module contains the ways that a machine takes inside of some handlers, from one block to
another: what is kept by every step, and how such a way can be found by running the machine.
-/

namespace Resumable

namespace Program

inductive Proceeds (machines : Machines) (program : Program) (around : Nat) (p : Process) :
    Process → Prop where
  | advance {q : Process} :
    program.Advances machines p q → program.Proceeds machines around p q
  | caught {fuel : Nat} {v : Value} {q q' : Process} :
    program.Raises machines fuel p v q → around < q.state.handlers.length →
      Run.route v q = .again q' → program.Proceeds machines around p q'

variable {machines : Machines} {program : Program} {around : Nat} {I J : BlockId → Process → Prop}
  {b : BlockId} {p q : Process} {bs : List BlockId}

theorem Within.split (h : program.Within machines around p bs q)
    : bs = [] ∧ q = p ∨ ∃ b rest r, bs = b :: rest ∧ p.state.status? = some (.running b) ∧
        program.Proceeds machines around p r ∧ program.Within machines around r rest q := by
  cases h with
  | here => exact .inl ⟨rfl, rfl⟩
  | advance hstatus hadvances hrest =>
    exact .inr ⟨_, _, _, rfl, hstatus, .advance hadvances, hrest⟩
  | caught hstatus hraises hmore hroute hrest =>
    exact .inr ⟨_, _, _, rfl, hstatus, .caught hraises hmore hroute, hrest⟩

theorem Within.follow
    (hstep : ∀ {b p q}, I b p → program.Proceeds machines around p q → ∃ c, I c q ∨ J c q)
    (hat : ∀ {b p}, I b p → p.state.status? = some (.running b))
    (hwithin : program.Within machines around p bs q) (h : I b p)
    : (∃ c, I c q) ∧ (∀ c ∈ bs, ∃ r, I c r) ∨
        ∃ front back c r, bs = front ++ back ∧ (∀ c ∈ front, ∃ r, I c r) ∧ J c r ∧
          program.Within machines around r back q := by
  induction bs generalizing b p with
  | nil =>
    rcases hwithin.split with ⟨_, rfl⟩ | ⟨_, _, _, hcons, _⟩
    . exact .inl ⟨⟨b, h⟩, by simp⟩
    . cases hcons
  | cons b' bs ih =>
    rcases hwithin.split with ⟨hnil, _⟩ | ⟨_, _, r, hcons, hstatus, hproceeds, hrest⟩
    . cases hnil
    cases hcons
    rw [hat h] at hstatus
    cases hstatus
    obtain ⟨c, hI | hJ⟩ := hstep h hproceeds
    . rcases ih hrest hI with ⟨hlast, hall⟩ | ⟨front, back, d, r, rfl, hall, hJ, hback⟩
      . exact .inl ⟨hlast, List.forall_mem_cons.2 ⟨⟨p, h⟩, hall⟩⟩
      . exact .inr ⟨_ :: front, back, d, r, rfl, List.forall_mem_cons.2 ⟨⟨p, h⟩, hall⟩, hJ, hback⟩
    . exact .inr ⟨[_], bs, c, r, rfl, List.forall_mem_singleton.2 ⟨p, h⟩, hJ, hrest⟩

theorem Within.here_of_not_mem (hwithin : program.Within machines around p bs q)
    (hstatus : p.state.status? = some (.running b)) (hout : b ∉ bs)
    : bs = [] ∧ q = p := by
  rcases hwithin.split with hhere | ⟨_, _, _, rfl, hb, _⟩
  . exact hhere
  . rw [hstatus] at hb
    cases hb
    exact absurd (List.mem_cons_self ..) hout

theorem Within.mem_of_status {r : Process} {c : BlockId}
    (hwithin : program.Within machines around r bs q)
    (hr : r.state.status? = some (.running c)) (hq : q.state.status? = some (.running b))
    : c ∈ bs ++ [b] := by
  by_cases hmem : c ∈ bs
  . exact List.mem_append_left _ hmem
  . obtain ⟨rfl, rfl⟩ := hwithin.here_of_not_mem hr hmem
    rw [hq] at hr
    cases hr
    exact List.mem_singleton.2 rfl

theorem Ran.within {past : List Op} {faults : List Value}
    (h : program.Ran machines past faults p) (hwithin : program.Within machines around p bs q)
    : ∃ past' faults', program.Ran machines past' faults' q := by
  induction hwithin generalizing past faults with
  | here => exact ⟨past, faults, h⟩
  | advance _ hadvances _ ih =>
    cases hadvances with
    | next hexec => exact ih (h.move (.next hexec))
    | «continue» hexec hreply => exact ih (h.move (.control hexec hreply))
    | resume hexec hreply hstate =>
      have hsuspended := h.move (.control hexec hreply)
      rcases hstate with rfl | ⟨value, rfl⟩
      . exact ih (hsuspended.touch .store)
      . exact ih ((hsuspended.touch .pending).touch .store)
    | drive hexec hreply => exact ih (h.move (.drive hexec hreply))
  | caught _ hraises _ hroute _ ih =>
    have hraised := h.move (.raise hraises)
    rw [hroute] at hraised
    exact ih hraised

end Program

namespace Program

variable {program : Program} {fuel around : Nat} {p q : Process}

def caught? (around : Nat) (value : Value) (p : Process) : Option Process :=
  match Run.route value p with
  | .again q => if around < p.state.handlers.length then some q else none
  | .ended _ => none

def within? (program : Program) (fuel around : Nat) (p : Process) : Option (BlockId × Process) :=
  match p.state.status? with
  | some (.running b) =>
    match program.blocks.get? b with
    | some code =>
      match Exec.block (Run.call {} (Program.run {} fuel)) code { toProcess := p } with
      | .ok .next f => some (b, f.toProcess)
      | .ok (.suspend handler resume args) f =>
        match handler f.state resume args with
        | .control .suspend s => some (b, ⟨s, f.store⟩)
        | .fault value s => (caught? around value ⟨s, f.store⟩).map (b, ·)
        | _ => none
      | .error (.thrown value) f => (caught? around value f.toProcess).map (b, ·)
      | _ => none
    | none => none
  | _ => none

def withins? (program : Program) (fuel around : Nat) :
    Nat → Process → Option (List BlockId × Process)
  | 0, p => some ([], p)
  | n + 1, p =>
    match program.within? fuel around p with
    | some (b, p') => (program.withins? fuel around n p').map fun rest => (b :: rest.1, rest.2)
    | none => none

theorem Within.of_caught? {bs : List BlockId} {r r' : Process} {value : Value}
    (hrest : program.Within {} around q bs r) (hstatus : p.state.status? = some (.running b))
    (hraises : program.Raises {} fuel p value r') (h : caught? around value r' = some q)
    : program.Within {} around p (b :: bs) r := by
  unfold caught? at h
  split at h
  . next q hroute =>
    split at h
    . next hmore =>
      cases h
      exact .caught hstatus hraises hmore hroute hrest
    . cases h
  . cases h

theorem Within.of_within? {bs : List BlockId} {r : Process}
    (hrest : program.Within {} around q bs r) (h : program.within? fuel around p = some (b, q))
    : program.Within {} around p (b :: bs) r := by
  unfold within? at h
  split at h
  . next b' hstatus =>
    split at h
    . next code hcode =>
      split at h
      . next f hexec =>
        cases h
        exact .advance hstatus (.next ⟨_, _, hstatus, hcode, hexec⟩) hrest
      . next handler resume args f hexec =>
        split at h
        . next s hreply =>
          cases h
          exact .advance hstatus
            (.resume ⟨_, _, hstatus, hcode, hexec⟩ hreply (.inl rfl)) hrest
        . next value s hreply =>
          obtain ⟨_, hcaught, hsame⟩ := Option.map_eq_some_iff.1 h
          cases hsame
          exact hrest.of_caught? hstatus
            (.answered ⟨_, _, hstatus, hcode, hexec⟩ hreply) hcaught
        . cases h
      . next value f hexec =>
        obtain ⟨_, hcaught, hsame⟩ := Option.map_eq_some_iff.1 h
        cases hsame
        exact hrest.of_caught? hstatus (.thrown ⟨_, _, hstatus, hcode, hexec⟩) hcaught
      . cases h
    . cases h
  . cases h

theorem Within.of_withins? {n : Nat} {bs : List BlockId}
    (h : program.withins? fuel around n p = some (bs, q))
    : program.Within {} around p bs q := by
  induction n generalizing p bs with
  | zero =>
    cases h
    exact .here
  | succ n ih =>
    unfold withins? at h
    split at h
    . next b p' hfirst =>
      obtain ⟨⟨bs', q'⟩, hrest, hsame⟩ := Option.map_eq_some_iff.1 h
      cases hsame
      exact (ih hrest).of_within? hfirst
    . cases h

def endsBody (i : Instruction) : Bool :=
  match i.command with
  | .effect (.endFinally _) => true
  | _ => false

def completes? (program : Program) (graph : Graph) (F : BlockId) (fuel : Nat) (p : Process) :
    Bool :=
  match p.state.status? with
  | some (.running b) =>
    let code := graph.blocks.code b
    match program.blocks.get? b, code.dropWhile (!endsBody ·), (graph.blocks.code F).drop 1 with
    | some blockProgram, ⟨_, .effect (.endFinally (.result x)), _⟩ :: _,
        ⟨y, .effect .takeException, _⟩ :: _ =>
      x == y && match (do
        Exec.load blockProgram.loads
        Exec.ops (Run.call {} (Program.run {} fuel))
          ((code.takeWhile (!endsBody ·)).flatMap (Emit.instruction graph.layout))
          : Exec Unit) { toProcess := p } with
        | .ok _ _ => true
        | .error _ _ => false
    | _, _, _ => false
  | _ => false

theorem Completes.of_completes? {options : CompileOptions} {source : Form} {graph : Graph}
    {plan : Plan} (h : graph.Coded options source plan) {F : BlockId}
    (hcompletes : program.completes? graph F fuel p = true)
    : ∃ b, (plan.label F).role = .cleanup ∧ program.Completes {} graph plan F fuel p b := by
  unfold completes? at hcompletes
  split at hcompletes
  . next b hstatus =>
    simp only at hcompletes
    split at hcompletes
    . next code id x span rest y span' rest' hcode hends hfirst =>
      rw [Bool.and_eq_true, beq_iff_eq] at hcompletes
      obtain ⟨rfl, hruns⟩ := hcompletes
      rw [h.code] at hends hfirst hruns
      have htake : (plan.code F)[1]? = some ⟨x, .effect .takeException, span'⟩ := by
        rw [← List.head?_drop, hfirst]
        rfl
      split at hruns
      . next f hexec =>
        refine ⟨b, ?_, _, ⟨id, .effect (.endFinally (.result x)), span⟩, rest, x, code, f, hstatus,
          ?_, rfl, ⟨span', htake⟩, hcode, hexec⟩
        . cases h.fits htake with
          | plain hplain => cases hplain
          | take hrole _ => exact hrole
        . rw [← hends]
          exact List.takeWhile_append_dropWhile.symm
      . cases hruns
    . cases hcompletes
  . cases hcompletes

end Program

def Program.throws? (machines : Machines) (program : Program) (fuel : Nat) (p : Process) :
    Option (Value × Process) :=
  match p.state.status? with
  | some (.running b) =>
    match program.blocks.get? b with
    | some code =>
      match Exec.block (Run.call machines (Program.run machines fuel)) code { toProcess := p } with
      | .error (.thrown value) f => some (value, f.toProcess)
      | _ => none
    | none => none
  | _ => none

theorem Program.executes_of_throws? {machines : Machines} {program : Program} {fuel : Nat}
    {p q : Process} {v : Value} (h : program.throws? machines fuel p = some (v, q))
    : ∃ f : Frame, f.toProcess = q ∧ program.Executes machines fuel p (.error (.thrown v) f) := by
  unfold Program.throws? at h
  split at h
  . next b hstatus =>
    split at h
    . next code hcode =>
      split at h
      . next f hexec =>
        cases h
        exact ⟨f, rfl, b, code, hstatus, hcode, hexec⟩
      . cases h
    . cases h
  . cases h

theorem Program.raises_of_throws? {machines : Machines} {program : Program} {fuel : Nat}
    {p q : Process} {v : Value} (h : program.throws? machines fuel p = some (v, q))
    : program.Raises machines fuel p v q := by
  obtain ⟨f, rfl, hexec⟩ := Program.executes_of_throws? h
  exact .thrown hexec

def Program.next? (machines : Machines) (program : Program) (fuel : Nat) (p : Process) :
    Option Process :=
  match p.state.status? with
  | some (.running b) =>
    match program.blocks.get? b with
    | some code =>
      match Exec.block (Run.call machines (Program.run machines fuel)) code { toProcess := p } with
      | .ok .next f => some f.toProcess
      | _ => none
    | none => none
  | _ => none

theorem Program.executes_of_next? {machines : Machines} {program : Program} {fuel : Nat}
    {p q : Process} (h : program.next? machines fuel p = some q)
    : ∃ f : Frame, f.toProcess = q ∧ program.Executes machines fuel p (.ok .next f) := by
  unfold Program.next? at h
  split at h
  . next b hstatus =>
    split at h
    . next code hcode =>
      split at h
      . next f hexec =>
        cases h
        exact ⟨f, rfl, b, code, hstatus, hcode, hexec⟩
      . cases h
    . cases h
  . cases h

end Resumable
