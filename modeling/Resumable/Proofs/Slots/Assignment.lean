import Resumable.Proofs.Monad
import Resumable.Proofs.Slots.Simulation

/-!
This module contains the parallel assignment of loop variables. The moves that it comes to, some of
them by way of staged registers, give every variable the value that its argument had before.
-/

namespace Resumable

section

variable {κ α : Type} [DecidableEq κ]

def updateAll (g : κ → α) (pairs : List (κ × α)) : κ → α :=
  pairs.foldl (fun g pair => update g pair.1 pair.2) g

theorem updateAll_cons (g : κ → α) (pair : κ × α) (pairs : List (κ × α))
    : updateAll g (pair :: pairs) = updateAll (update g pair.1 pair.2) pairs := rfl

theorem updateAll_of_not_mem {g : κ → α} {pairs : List (κ × α)} {key : κ}
    (h : key ∉ pairs.map (·.1))
    : updateAll g pairs key = g key := by
  induction pairs generalizing g with
  | nil => rfl
  | cons pair pairs ih =>
    rw [List.map_cons, List.mem_cons, not_or] at h
    rw [updateAll_cons, ih h.2, update, if_neg h.1]

theorem updateAll_of_mem {g : κ → α} {pairs : List (κ × α)} (nodup : (pairs.map (·.1)).Nodup)
    {key : κ} {a : α} (h : (key, a) ∈ pairs)
    : updateAll g pairs key = a := by
  induction pairs generalizing g with
  | nil => cases h
  | cons pair pairs ih =>
    rw [List.map_cons, List.nodup_cons] at nodup
    rw [updateAll_cons]
    rcases List.mem_cons.1 h with rfl | h
    . rw [updateAll_of_not_mem nodup.1]
      simp [update]
    . exact ih nodup.2 h

theorem map_updateAll {g : κ → α} {keys : List κ} {values : List α}
    (nodup : keys.Nodup) (hlength : keys.length = values.length)
    : keys.map (updateAll g (keys.zip values)) = values := by
  have hkeys : (keys.zip values).map (·.1) = keys := List.map_fst_zip (Nat.le_of_eq hlength)
  apply List.ext_getElem
  . simpa using hlength
  . intro i hi hi'
    have hzip : i < (keys.zip values).length := by
      rw [List.length_zip]
      lia
    rw [List.getElem_map]
    apply updateAll_of_mem (by rwa [hkeys])
    rw [← List.getElem_zip]
    exact List.getElem_mem hzip

end

def Source.fault? (store : Store) : Source → Option Stop
  | .global name =>
    match store.globals.get? name with
    | some _ => none
    | none => some (.thrown (Fault.undefined name).toValue)
  | _ => none

def Frame.look (f : Frame) : Source → Value
  | .register r => f.registers.get r
  | .value v => v
  | .global name => (f.store.globals.get? name).getD .nil
  | .pending => f.state.pending

def Plain.look (p : Plain) : Operand → Value
  | .result id => p.values id
  | .literal v => v
  | .global name => (p.store.globals.get? name).getD .nil
  | .pending => p.state.pending

theorem Action.global_eq (name : String) (store : Store)
    : Action.global name store =
        match (Source.global name).fault? store with
        | some stop => .error stop store
        | none => .ok ((store.globals.get? name).getD .nil) store := by
  simp only [Source.fault?]
  cases h : store.globals.get? name with
  | some value => exact Action.global_ok h
  | none => exact Action.global_undefined h

theorem Exec.eval_eq (source : Source) (f : Frame)
    : Exec.eval source f =
        match source.fault? f.store with
        | some stop => .error stop f
        | none => .ok (f.look source) f := by
  cases source with
  | register | value | pending => rfl
  | global name =>
    simp only [Exec.eval, Exec.onStore, Action.global_eq, Frame.look]
    cases (Source.global name).fault? f.store <;> rfl

theorem Plain.read_eq (operand : Operand) (p : Plain)
    : Plain.read operand p =
        match operand.source.fault? p.store with
        | some stop => .error stop p
        | none => .ok (p.look operand) p := by
  cases operand with
  | result | literal | pending => rfl
  | global name =>
    simp only [Plain.read, Plain.onStore, Action.global_eq, Plain.look, Operand.source]
    cases (Source.global name).fault? p.store <;> rfl

theorem Plain.readAll_eq (operands : List Operand) (p : Plain)
    : Plain.readAll operands p =
        match operands.findSome? (·.source.fault? p.store) with
        | some stop => .error stop p
        | none => .ok (operands.map p.look) p := by
  induction operands with
  | nil => rfl
  | cons operand operands ih =>
    simp only [Plain.readAll, Bind.bind, EStateM.bind, List.findSome?_cons, read_eq]
    cases operand.source.fault? p.store with
    | some stop => rfl
    | none =>
      simp only [ih]
      cases operands.findSome? (·.source.fault? p.store) <;> rfl

theorem Plain.writeAll_eq (pairs : List (ValueId × Value)) (p : Plain)
    : Plain.writeAll pairs p = .ok () { p with values := updateAll p.values pairs } := by
  induction pairs generalizing p with
  | nil => rfl
  | cons pair pairs ih => exact ih _

namespace Exec

variable {f : Frame} {moves : List (Register × Source)}

def putAll (f : Frame) (pairs : List (Register × Value)) : Frame :=
  { f with registers := pairs.foldl (fun rs pair => rs.set pair.1 pair.2) f.registers }

theorem putAll_get (f : Frame) (pairs : List (Register × Value))
    : (putAll f pairs).registers.get = updateAll f.registers.get pairs := by
  unfold putAll
  generalize f.registers = rs
  induction pairs generalizing rs with
  | nil => rfl
  | cons pair pairs ih => rw [List.foldl_cons, ih, Registers.get_set, updateAll_cons]

def moved (f : Frame) (moves : List (Register × Source)) : Frame :=
  putAll f (moves.map fun m => (m.1, f.look m.2))

theorem moved_get_of_not_mem {f : Frame} {moves : List (Register × Source)} {r : Register}
    (h : ∀ m ∈ moves, m.1 ≠ r)
    : (moved f moves).registers.get r = f.registers.get r := by
  unfold moved
  rw [putAll_get]
  apply updateAll_of_not_mem
  intro hmem
  obtain ⟨pair, hpair, hr⟩ := List.mem_map.1 hmem
  obtain ⟨m, hm, rfl⟩ := List.mem_map.1 hpair
  exact h m hm hr

theorem moved_get_of_mem {f : Frame} {moves : List (Register × Source)}
    (nodup : (moves.map (·.1)).Nodup) {m : Register × Source} (h : m ∈ moves)
    : (moved f moves).registers.get m.1 = f.look m.2 := by
  unfold moved
  rw [putAll_get]
  apply updateAll_of_mem
  . simpa [Function.comp_def] using nodup
  . exact List.mem_map_of_mem h

theorem op_move (call : Caller) (target : Register) (source : Source) (f : Frame)
    : op call (.move target source) f =
        match source.fault? f.store with
        | some stop => .error stop f
        | none => .ok () { f with registers := f.registers.set target (f.look source) } := by
  simp only [op, Bind.bind, EStateM.bind, eval_eq]
  cases source.fault? f.store <;> rfl

theorem look_set {source : Source} {r : Register} (h : source ≠ .register r) (value : Value)
    : { f with registers := f.registers.set r value }.look source = f.look source := by
  cases source with
  | value | global | pending => rfl
  | register q =>
    have hne : q ≠ r := fun heq => h (by rw [heq])
    simp [Frame.look, Registers.get_set, update, hne]

theorem ops_moves (call : Caller) (apart : moves.Pairwise fun m m' => m'.2 ≠ .register m.1)
    (h : moves.findSome? (·.2.fault? f.store) = none)
    : ops call (moves.map fun m => .move m.1 m.2) f
        = .ok () (moved f moves) := by
  induction moves generalizing f with
  | nil => rfl
  | cons m moves ih =>
    rw [List.pairwise_cons] at apart
    rw [List.findSome?_cons] at h
    split at h
    . contradiction
    . next hfault =>
      have hlook : (moves.map fun m' => (m'.1,
            { f with registers := f.registers.set m.1 (f.look m.2) }.look m'.2))
          = moves.map fun m' => (m'.1, f.look m'.2) := by
        apply List.map_congr_left
        intro m' hm'
        rw [look_set (apart.1 m' hm')]
      simp only [List.map_cons, ops_cons, Bind.bind, EStateM.bind, op_move, hfault]
      have hrest := ih (f := { f with registers := f.registers.set m.1 (f.look m.2) }) apart.2 h
      unfold moved at hrest
      rw [hlook] at hrest
      exact hrest

theorem ops_moves_error (call : Caller) {stop : Stop} (h : moves.findSome? (·.2.fault? f.store) = some stop)
    : ∃ rs, ops call (moves.map fun m => .move m.1 m.2) f
        = .error stop { f with registers := rs } := by
  induction moves generalizing f with
  | nil => cases h
  | cons m moves ih =>
    rw [List.findSome?_cons] at h
    simp only [List.map_cons, ops_cons, Bind.bind, EStateM.bind, op_move]
    split at h
    . next hfault =>
      cases h
      rw [hfault]
      exact ⟨f.registers, rfl⟩
    . next hfault =>
      rw [hfault]
      exact ih h

end Exec

namespace Emit

variable {targets : List ValueId} {index : Nat} {pairs : List (ValueId × Operand)}

theorem mem_parts {part : Part} (h : part ∈ parts targets index pairs)
    : index ≤ part.index ∧ ∃ arg, (part.target, arg) ∈ pairs ∧ part.source = arg.source ∧
        part.staged = isHazard targets part.target arg := by
  induction pairs generalizing index with
  | nil => cases h
  | cons pair pairs ih =>
    rcases List.mem_cons.1 h with rfl | h
    . exact ⟨Nat.le_refl _, pair.2, List.mem_cons_self, rfl, rfl⟩
    . obtain ⟨hle, arg, hmem, hpart⟩ := ih h
      exact ⟨by omega, arg, List.mem_cons_of_mem _ hmem, hpart⟩

theorem parts_target : (parts targets index pairs).map (·.target) = pairs.map (·.1) := by
  induction pairs generalizing index with
  | nil => rfl
  | cons pair pairs ih => simp [parts, ih]

theorem parts_source : (parts targets index pairs).map (·.source) = pairs.map (·.2.source) := by
  induction pairs generalizing index with
  | nil => rfl
  | cons pair pairs ih => simp [parts, ih]

theorem parts_index_nodup : ((parts targets index pairs).map (·.index)).Nodup := by
  induction pairs generalizing index with
  | nil => exact .nil
  | cons pair pairs ih =>
    rw [parts, List.map_cons, List.nodup_cons]
    refine ⟨?_, ih⟩
    intro hmem
    obtain ⟨part, hpart, heq⟩ := List.mem_map.1 hmem
    have := (mem_parts hpart).1
    simp only at heq
    omega

theorem staged_source {part : Part} (h : part ∈ parts targets index pairs)
    (hstaged : part.staged = true)
    : ∃ id, part.source = .register (.result id) := by
  obtain ⟨_, arg, _, hsource, hpart⟩ := mem_parts h
  rw [hstaged] at hpart
  cases arg with
  | result id => exact ⟨id, hsource⟩
  | literal | global | pending => cases hpart

theorem direct_source {part : Part} (h : part ∈ parts targets index pairs)
    (hdirect : part.staged = false) {r : Register} (hr : part.source = .register r)
    : ∃ id, r = .result id ∧ (id ∈ targets → id = part.target) := by
  obtain ⟨_, arg, _, hsource, hpart⟩ := mem_parts h
  rw [hdirect] at hpart
  rw [hsource] at hr
  cases arg with
  | result id =>
    cases hr
    refine ⟨id, rfl, ?_⟩
    intro hmem
    simpa [isHazard, hmem] using hpart.symm
  | literal | global | pending => cases hr

theorem findSome?_filter_of_none {α β : Type} {keep : α → Bool} {g : α → Option β} {l : List α}
    (h : ∀ a ∈ l, keep a = false → g a = none)
    : (l.filter keep).findSome? g = l.findSome? g := by
  induction l with
  | nil => rfl
  | cons a l ih =>
    rw [List.forall_mem_cons] at h
    cases hkeep : keep a with
    | true => simp [hkeep, List.findSome?_cons, ih h.2]
    | false => simp [hkeep, ih h.2, h.1 hkeep]

def stagings (parts : List Part) : List (Register × Source) :=
  (parts.filter (·.staged)).map fun p => (.staged p.index, p.source)

def directs (parts : List Part) : List (Register × Source) :=
  (parts.filter (!·.staged)).map fun p => (.result p.target, p.source)

def settlings (parts : List Part) : List (Register × Source) :=
  (parts.filter (·.staged)).map fun p => (.result p.target, .register (.staged p.index))

theorem assignment_eq (targets : List ValueId) (args : List Operand)
    : assignment targets args =
        (stagings (parts targets 0 (targets.zip args))).map (fun m => .move m.1 m.2) ++
        (directs (parts targets 0 (targets.zip args))).map (fun m => .move m.1 m.2) ++
        (settlings (parts targets 0 (targets.zip args))).map (fun m => .move m.1 m.2) := by
  simp [assignment, stagings, directs, settlings, Function.comp_def]

theorem stagings_apart
    : (stagings (parts targets index pairs)).Pairwise fun m m' => m'.2 ≠ .register m.1 := by
  unfold stagings
  rw [List.pairwise_map]
  apply List.pairwise_of_forall_mem_list
  intro part _ part' hpart' heq
  have ⟨hmem, hstaged⟩ := List.mem_filter.1 hpart'
  obtain ⟨id, hid⟩ := staged_source hmem hstaged
  simp [hid] at heq

theorem settlings_apart (parts : List Part)
    : (settlings parts).Pairwise fun m m' => m'.2 ≠ .register m.1 := by
  unfold settlings
  rw [List.pairwise_map]
  apply List.pairwise_of_forall_mem_list
  intro part _ part' _ heq
  simp at heq

theorem directs_apart (htargets : pairs.map (·.1) = targets) (nodup : targets.Nodup)
    : (directs (parts targets index pairs)).Pairwise fun m m' => m'.2 ≠ .register m.1 := by
  have hdistinct : (parts targets index pairs).Pairwise fun p q => p.target ≠ q.target := by
    rw [← List.pairwise_map (f := Part.target) (R := (· ≠ ·)), parts_target, htargets]
    exact nodup
  unfold directs
  rw [List.pairwise_map]
  apply List.Pairwise.imp_of_mem _ (hdistinct.filter _)
  intro part part' hpart hpart' hne heq
  have ⟨hmem, _⟩ := List.mem_filter.1 hpart
  have ⟨hmem', hdirect⟩ := List.mem_filter.1 hpart'
  obtain ⟨id, hid, htarget⟩ := direct_source hmem' (by simpa using hdirect) heq
  have hin : part.target ∈ targets := by
    rw [← htargets, ← @parts_target targets index pairs]
    exact List.mem_map_of_mem hmem
  cases hid
  exact hne (htarget hin)

theorem stagings_fault (store : Store)
    : (stagings (parts targets index pairs)).findSome? (·.2.fault? store) = none := by
  rw [List.findSome?_eq_none_iff]
  intro m hm
  obtain ⟨part, hpart, rfl⟩ := List.mem_map.1 hm
  have ⟨hmem, hstaged⟩ := List.mem_filter.1 hpart
  obtain ⟨id, hid⟩ := staged_source hmem hstaged
  simp [hid, Source.fault?]

theorem settlings_fault (parts : List Part) (store : Store)
    : (settlings parts).findSome? (·.2.fault? store) = none := by
  rw [List.findSome?_eq_none_iff]
  intro m hm
  obtain ⟨part, _, rfl⟩ := List.mem_map.1 hm
  rfl

theorem directs_fault (store : Store)
    : (directs (parts targets index pairs)).findSome? (·.2.fault? store)
        = pairs.findSome? (·.2.source.fault? store) := by
  have hall : (directs (parts targets index pairs)).findSome? (·.2.fault? store)
      = (parts targets index pairs).findSome? (·.source.fault? store) := by
    unfold directs
    rw [List.findSome?_map]
    apply findSome?_filter_of_none
    intro part hmem hstaged
    obtain ⟨id, hid⟩ := staged_source hmem (by simpa using hstaged)
    simp [hid, Source.fault?]
  have hsources := congrArg (List.findSome? (·.fault? store))
    (@parts_source targets index pairs)
  rw [List.findSome?_map, List.findSome?_map] at hsources
  exact hall.trans hsources

def assigned (f : Frame) (parts : List Part) : Frame :=
  Exec.moved (Exec.moved (Exec.moved f (stagings parts)) (directs parts)) (settlings parts)

theorem directs_fault_zip {args : List Operand} (hlength : targets.length = args.length)
    (store : Store)
    : (directs (parts targets 0 (targets.zip args))).findSome? (·.2.fault? store)
        = args.findSome? (·.source.fault? store) := by
  have hargs : (targets.zip args).map (·.2) = args := List.map_snd_zip (by omega)
  rw [directs_fault]
  conv => rhs; rw [← hargs, List.findSome?_map]
  rfl

theorem ops_assignment {call : Caller} {f : Frame} {args : List Operand} (nodup : targets.Nodup)
    (hlength : targets.length = args.length)
    (h : args.findSome? (·.source.fault? f.store) = none)
    : Exec.ops call (assignment targets args) f
        = .ok () (assigned f (parts targets 0 (targets.zip args))) := by
  have htargets : (targets.zip args).map (·.1) = targets := List.map_fst_zip (by omega)
  rw [assignment_eq, Exec.ops_append, Exec.ops_append]
  have hdirects := Exec.ops_moves call (f := Exec.moved f (stagings (parts targets 0 (targets.zip args))))
    (directs_apart htargets nodup) ((directs_fault_zip hlength _).trans h)
  rw [bind_of_ok ((bind_of_ok (Exec.ops_moves call stagings_apart (stagings_fault _))).trans hdirects)]
  exact Exec.ops_moves call (settlings_apart _) (settlings_fault _ _)

theorem ops_assignment_error (call : Caller) {f : Frame} {args : List Operand} {stop : Stop}
    (hlength : targets.length = args.length)
    (h : args.findSome? (·.source.fault? f.store) = some stop)
    : ∃ rs, Exec.ops call (assignment targets args) f = .error stop { f with registers := rs } := by
  obtain ⟨rs, hrs⟩ := Exec.ops_moves_error call (f := Exec.moved f (stagings (parts targets 0 (targets.zip args))))
    ((directs_fault_zip hlength _).trans h)
  refine ⟨rs, ?_⟩
  rw [assignment_eq, Exec.ops_append, Exec.ops_append]
  apply bind_of_error
  rw [bind_of_ok (Exec.ops_moves call stagings_apart (stagings_fault _))]
  exact hrs

theorem assigned_get_of_not_mem {f : Frame} {id : ValueId} (htargets : pairs.map (·.1) = targets)
    (h : id ∉ targets)
    : (assigned f (parts targets index pairs)).registers.get (.result id)
        = f.registers.get (.result id) := by
  have hne : ∀ part ∈ parts targets index pairs, part.target ≠ id := by
    intro part hpart heq
    apply h
    rw [← htargets, ← @parts_target targets index pairs, ← heq]
    exact List.mem_map_of_mem hpart
  unfold assigned
  rw [Exec.moved_get_of_not_mem, Exec.moved_get_of_not_mem, Exec.moved_get_of_not_mem]
  . intro m hm
    obtain ⟨part, _, rfl⟩ := List.mem_map.1 hm
    simp
  . intro m hm
    obtain ⟨part, hpart, rfl⟩ := List.mem_map.1 hm
    simpa using hne part (List.mem_filter.1 hpart).1
  . intro m hm
    obtain ⟨part, hpart, rfl⟩ := List.mem_map.1 hm
    simpa using hne part (List.mem_filter.1 hpart).1

theorem look_moved_stagings {f : Frame} {part : Part} (h : part ∈ parts targets index pairs)
    (hdirect : part.staged = false) (parts' : List Part)
    : (Exec.moved f (stagings parts')).look part.source = f.look part.source := by
  cases hsource : part.source with
  | value | global | pending => rfl
  | register r =>
    obtain ⟨id, rfl, _⟩ := direct_source h hdirect hsource
    apply Exec.moved_get_of_not_mem
    intro m hm
    obtain ⟨part', _, rfl⟩ := List.mem_map.1 hm
    simp

theorem nodup_of_key {α : Type} {parts : List Part} {key : Part → Nat} {g : Part → α}
    (h : (parts.map key).Nodup) (hinj : ∀ {p q : Part}, g p = g q → key p = key q)
    (keep : Part → Bool)
    : ((parts.filter keep).map g).Nodup := by
  have hkept : (parts.filter keep).Pairwise fun p q => key p ≠ key q :=
    (List.pairwise_map.1 h).filter keep
  apply List.pairwise_map.2
  apply hkept.imp
  intro p q hne heq
  exact hne (hinj heq)

theorem eq_of_key {parts : List Part} {key : Part → Nat} (h : (parts.map key).Nodup) {p q : Part}
    (hp : p ∈ parts) (hq : q ∈ parts) (heq : key p = key q)
    : p = q := by
  have hdistinct : parts.Pairwise fun p q => key p = key q → p = q := by
    apply (List.pairwise_map.1 h).imp
    intro p q hne heq
    contradiction
  have hflip : parts.Pairwise (flip fun p q => key p = key q → p = q) := by
    apply hdistinct.imp
    intro p q hpq heq
    exact (hpq heq.symm).symm
  exact hdistinct.forall_of_forall_of_flip (fun _ _ _ => rfl) hflip hp hq heq

theorem assigned_get {f : Frame} {part : Part} (htargets : pairs.map (·.1) = targets)
    (nodup : targets.Nodup) (h : part ∈ parts targets index pairs)
    : (assigned f (parts targets index pairs)).registers.get (.result part.target)
        = f.look part.source := by
  have hdistinct : ((parts targets index pairs).map (·.target)).Nodup := by
    rw [parts_target, htargets]
    exact nodup
  unfold assigned
  cases hstaged : part.staged with
  | true =>
    have hmem : part ∈ (parts targets index pairs).filter (·.staged) :=
      List.mem_filter.2 ⟨h, hstaged⟩
    have hsettled := fun g => @Exec.moved_get_of_mem g (settlings (parts targets index pairs))
      (by
        unfold settlings
        rw [List.map_map]
        exact nodup_of_key hdistinct (by simp) _)
      _ (List.mem_map_of_mem hmem)
    have hput := @Exec.moved_get_of_mem f (stagings (parts targets index pairs))
      (by
        unfold stagings
        rw [List.map_map]
        exact nodup_of_key parts_index_nodup (by simp) _)
      _ (List.mem_map_of_mem hmem)
    refine (hsettled _).trans (Eq.trans ?_ hput)
    -- Moving the other values leaves what was put aside alone.
    apply Exec.moved_get_of_not_mem
    intro m hm
    obtain ⟨part', _, rfl⟩ := List.mem_map.1 hm
    simp
  | false =>
    have hmem : part ∈ (parts targets index pairs).filter (!·.staged) :=
      List.mem_filter.2 ⟨h, by simp [hstaged]⟩
    have hmoved := fun g => @Exec.moved_get_of_mem g (directs (parts targets index pairs))
      (by
        unfold directs
        rw [List.map_map]
        exact nodup_of_key hdistinct (by simp) _)
      _ (List.mem_map_of_mem hmem)
    rw [Exec.moved_get_of_not_mem]
    . exact (hmoved _).trans (look_moved_stagings h hstaged _)
    . intro m hm heq
      obtain ⟨part', hpart', rfl⟩ := List.mem_map.1 hm
      have ⟨hin, hstaged'⟩ := List.mem_filter.1 hpart'
      have hsame := eq_of_key hdistinct hin h (by simpa using heq)
      subst hsame
      simp [hstaged] at hstaged'

end Emit

theorem Linked.look {layout : Layout} {unsaved : List ValueId} {live : ValueId → Prop} {f : Frame}
    {p : Plain} (h : Linked layout unsaved live f p) {operand : Operand}
    (hlive : ∀ id, operand = .result id → live id)
    : f.look operand.source = p.look operand := by
  cases operand with
  | result id => exact h.registers (hlive id rfl)
  | literal value => rfl
  | global name => simp [Frame.look, Plain.look, Operand.source, h.store]
  | pending => exact h.header.slot (by decide)

theorem Linked.sim_recur {layout : Layout} {live : ValueId → Prop} {f : Frame} {p : Plain}
    (h : Linked layout [] live f p) (call : Caller) (id : ValueId) {targets : List ValueId}
    {args : List Operand} (nodup : targets.Nodup) (hlength : targets.length = args.length)
    (hlive : ∀ id, .result id ∈ args → live id)
    : Sim layout (After layout targets fun i => i ∈ targets ∨ live i)
        (Exec.ops call (Emit.effect id (.recur targets args)) f)
        (Plain.effect call id (.recur targets args) p) := by
  have htargets : (targets.zip args).map (·.1) = targets := List.map_fst_zip (by omega)
  have hkeys : (targets.zip (args.map p.look)).map (·.1) = targets :=
    List.map_fst_zip (by simp [hlength])
  simp only [Emit.effect, Plain.effect, Bind.bind, EStateM.bind, Plain.readAll_eq]
  cases hfault : args.findSome? (·.source.fault? p.store) with
  | some stop =>
    obtain ⟨rs, hrs⟩ := Emit.ops_assignment_error call hlength (h.store ▸ hfault)
    rw [hrs]
    exact .error { h.forget with registers := False.elim }
  | none =>
    have hother : ∀ i ∉ targets,
        updateAll p.values (targets.zip (args.map p.look)) i = p.values i := by
      intro i hi
      exact updateAll_of_not_mem (by rwa [hkeys])
    have hown : ∀ part ∈ Emit.parts targets 0 (targets.zip args),
        updateAll p.values (targets.zip (args.map p.look)) part.target = f.look part.source := by
      intro part hpart
      obtain ⟨_, arg, harg, hsource, _⟩ := Emit.mem_parts hpart
      have hvalue : (part.target, p.look arg) ∈ targets.zip (args.map p.look) := by
        rw [List.zip_map_right]
        exact List.mem_map.2 ⟨_, harg, rfl⟩
      rw [updateAll_of_mem (by rwa [hkeys]) hvalue, hsource]
      apply Eq.symm
      apply h.look
      intro i hi
      exact hlive i (hi ▸ (List.of_mem_zip harg).2)
    rw [Emit.ops_assignment nodup hlength (h.store ▸ hfault)]
    simp only [Plain.writeAll_eq]
    apply Sim.ok
    exact {
      store := h.store
      header := h.header
      room := h.room
      saved := fun hslot hi => (h.saved hslot List.not_mem_nil).trans (hother _ hi).symm
      registers := by
        intro i hi
        by_cases hmem : i ∈ targets
        . rw [← htargets, ← @Emit.parts_target targets 0] at hmem
          obtain ⟨part, hpart, rfl⟩ := List.mem_map.1 hmem
          exact (Emit.assigned_get htargets nodup hpart).trans (hown part hpart).symm
        . rw [Emit.assigned_get_of_not_mem htargets hmem]
          exact (h.registers (hi.resolve_left hmem)).trans (hother i hmem).symm }

end Resumable
