import Resumable.Proofs.Running.History
import Resumable.Proofs.Running.Supplied

/-!
This module contains what the operations of instructions read and fill: an instruction fills the
registers of the results it writes and saves those that have slots, and reads no register that it
has not filled itself except for those of the results it reads.
-/

namespace Resumable

/--
Whether an operation writes a result.
-/
def Op.Writes (o : Op) (v : ValueId) : Prop :=
  o.target? = some (.result v)

namespace Emit

variable {layout : Layout} {known : Register → Prop}

theorem source_reads {operand : Operand} {r : Register} (h : r ∈ operand.source.reads)
    : ∃ v, r = .result v ∧ operand = .result v := by
  cases operand with
  | result v => exact ⟨v, List.mem_singleton.1 h, rfl⟩
  | literal | global | pending => cases h

theorem known_of_source {operands : List Operand}
    (h : ∀ v, .result v ∈ operands → known (.result v)) {operand : Operand}
    (hmem : operand ∈ operands) {r : Register} (hr : r ∈ operand.source.reads)
    : known r := by
  obtain ⟨v, rfl, rfl⟩ := source_reads hr
  exact h v hmem

theorem known_of_sources {operands : List Operand}
    (h : ∀ v, .result v ∈ operands → known (.result v)) {args : List Operand}
    (hsub : ∀ arg ∈ args, arg ∈ operands) {r : Register}
    (hr : r ∈ (args.map Operand.source).flatMap Source.reads)
    : known r := by
  obtain ⟨_, hsource, hr⟩ := List.mem_flatMap.1 hr
  obtain ⟨arg, harg, rfl⟩ := List.mem_map.1 hsource
  exact known_of_source h (hsub arg harg) hr

theorem assignment_supplied {targets : List ValueId} {args : List Operand}
    (h : ∀ v, .result v ∈ args → known (.result v))
    : Op.Supplied known (assignment targets args) := by
  have hsource : ∀ part ∈ parts targets 0 (targets.zip args), ∀ r ∈ part.source.reads, known r := by
    intro part hpart r hr
    have hmem : part.source ∈ (targets.zip args).map (·.2.source) :=
      parts_source ▸ List.mem_map_of_mem hpart
    obtain ⟨pair, hpair, heq⟩ := List.mem_map.1 hmem
    exact known_of_source h (List.of_mem_zip hpair).2 (heq ▸ hr)
  refine .append (.append (.all ?_) (.all ?_)) (.all ?_)
  . rintro _ ho r hr
    obtain ⟨part, hpart, rfl⟩ := List.mem_map.1 ho
    exact hsource part (List.mem_filter.1 hpart).1 r hr
  . rintro _ ho r hr
    obtain ⟨part, hpart, rfl⟩ := List.mem_map.1 ho
    exact .inl (hsource part (List.mem_filter.1 hpart).1 r hr)
  . rintro _ ho r hr
    obtain ⟨part, hpart, rfl⟩ := List.mem_map.1 ho
    cases List.mem_singleton.1 hr
    exact .inr ⟨_, List.mem_append_left _ (List.mem_map_of_mem hpart), rfl⟩

theorem effect_supplied {e : Effect} {id : ValueId}
    (h : ∀ v, .result v ∈ e.operands → known (.result v))
    : Op.Supplied known (effect id e) := by
  cases e with
  | const value => exact ⟨fun r hr => known_of_source h (by simp [Effect.operands]) hr, trivial⟩
  | call callee args =>
    refine ⟨fun r hr => ?_, trivial⟩
    rcases List.mem_append.1 hr with hr | hr
    . exact known_of_source h (by simp [Effect.operands]) hr
    . exact known_of_sources h (fun arg harg => List.mem_cons_of_mem _ harg) hr
  | recur targets args => exact assignment_supplied h
  | lambda code captured =>
    exact ⟨fun r hr => known_of_sources h (fun _ harg => harg) hr, trivial⟩
  | field target name args =>
    exact ⟨fun r hr => known_of_source h (by simp [Effect.operands]) hr, trivial⟩
  | method target name args =>
    refine ⟨fun r hr => ?_, trivial⟩
    rcases List.mem_append.1 hr with hr | hr
    . exact known_of_source h (by simp [Effect.operands]) hr
    . exact known_of_sources h (fun arg harg => List.mem_cons_of_mem _ harg) hr
  | setLocal target value =>
    refine ⟨fun r hr => known_of_source h (by simp [Effect.operands]) hr, ?_, trivial⟩
    intro r hr
    cases List.mem_singleton.1 hr
    exact .inr rfl
  | setGlobal name value =>
    exact ⟨fun r hr => known_of_source h (by simp [Effect.operands]) hr, trivial⟩
  | setField object name value =>
    refine ⟨fun r hr => ?_, trivial⟩
    rcases List.mem_append.1 hr with hr | hr
    . exact known_of_source h (by simp [Effect.operands]) hr
    . exact known_of_source h (by simp [Effect.operands]) hr
  | pushHandler block => exact ⟨by simp [Op.reads], trivial⟩
  | popHandler block => exact ⟨by simp [Op.reads], trivial⟩
  | takeException => exact ⟨by simp [Op.reads], trivial⟩
  | endFinally exception =>
    exact ⟨fun r hr => known_of_source h (by simp [Effect.operands]) hr, trivial⟩

theorem effect_writes {e : Effect} {id v : ValueId}
    (hrecur : ∀ targets args, e = .recur targets args →
      targets.Nodup ∧ targets.length = args.length)
    (hv : v ∈ e.writes id)
    : ∃ o ∈ effect id e, o.Writes v := by
  cases e with
  | recur targets args =>
    have hlength := (hrecur targets args rfl).2
    have hmem : v ∈ (parts targets 0 (targets.zip args)).map (·.target) := by
      rw [parts_target, List.map_fst_zip (Nat.le_of_eq hlength)]
      exact hv
    obtain ⟨part, hpart, rfl⟩ := List.mem_map.1 hmem
    cases hstaged : part.staged with
    | true =>
      refine ⟨_, List.mem_append_right _ (List.mem_map_of_mem (List.mem_filter.2 ⟨hpart, hstaged⟩)),
        rfl⟩
    | false =>
      refine ⟨_, List.mem_append_left _ (List.mem_append_right _ (List.mem_map_of_mem
        (List.mem_filter.2 ⟨hpart, by simp [hstaged]⟩))), rfl⟩
  | setLocal target value =>
    rcases List.mem_cons.1 hv with rfl | hv
    . exact ⟨_, List.mem_cons_self .., rfl⟩
    . cases List.mem_singleton.1 hv
      exact ⟨_, List.mem_cons_of_mem _ (List.mem_cons_self ..), rfl⟩
  | pushHandler | popHandler | endFinally => cases hv
  | _ =>
    cases List.mem_singleton.1 hv
    exact ⟨_, List.mem_cons_self .., rfl⟩

theorem mem_saves {ids : List ValueId} {o : Op}
    : o ∈ saves layout ids ↔
        ∃ v ∈ ids, ∃ slot, layout.slots.get? v = some slot ∧ o = .save (.result v) slot := by
  simp only [saves, List.mem_filterMap, Option.map_eq_some_iff]
  constructor
  . rintro ⟨v, hv, slot, hslot, rfl⟩
    exact ⟨v, hv, slot, hslot, rfl⟩
  . rintro ⟨v, hv, slot, hslot, rfl⟩
    exact ⟨v, hv, slot, hslot, rfl⟩

theorem instruction_supplied {ins : Instruction} {e : Effect} (he : ins.command = .effect e)
    (hrecur : ∀ targets args, e = .recur targets args →
      targets.Nodup ∧ targets.length = args.length)
    (h : ∀ v ∈ ins.reads, known (.result v))
    : Op.Supplied known (instruction layout ins) := by
  simp only [instruction, Instruction.writes, he]
  refine .append (effect_supplied fun v hv => h v ?_) (.all ?_)
  . apply Instruction.mem_reads.2
    simpa only [Instruction.operands, he] using hv
  . intro o ho r hr
    obtain ⟨v, hv, slot, _, rfl⟩ := mem_saves.1 ho
    cases List.mem_singleton.1 hr
    exact .inr (effect_writes hrecur hv)

theorem instruction_writes {ins : Instruction} {v : ValueId} (hregular : ins.IsRegular)
    (hv : v ∈ ins.writes)
    : (∃ o ∈ instruction layout ins, o.Writes v) ∧ ∀ slot, layout.slots.get? v = some slot →
        .save (.result v) slot ∈ instruction layout ins := by
  obtain ⟨e, he, hrecur⟩ := hregular
  have hwrites : v ∈ e.writes ins.id := by simpa only [Instruction.writes, he] using hv
  simp only [instruction, Instruction.writes, he]
  obtain ⟨o, ho, hwritten⟩ := effect_writes hrecur hwrites
  refine ⟨⟨o, List.mem_append_left _ ho, hwritten⟩, ?_⟩
  intro slot hslot
  exact List.mem_append_right _ (mem_saves.2 ⟨v, hwrites, slot, hslot, rfl⟩)

theorem instruction_push {ins : Instruction} {b : BlockId}
    (h : .pushHandler b ∈ instruction layout ins)
    : ins.command = .effect (.pushHandler b) := by
  unfold instruction at h
  cases he : ins.command with
  | transfer t =>
    rw [he] at h
    cases h
  | effect e =>
    simp only [he] at h
    rcases List.mem_append.1 h with h | h
    . cases e with
      | pushHandler block =>
        cases List.mem_singleton.1 h
        rfl
      | recur targets args => simp [effect, assignment] at h
      | _ => simp [effect] at h
    . obtain ⟨_, _, _, _, heq⟩ := mem_saves.1 h
      cases heq

theorem instruction_tame {ins : Instruction} (apart : layout.Apart)
    (hsmall : ∀ b ∈ ins.references, b < State.blockLimit) {o : Op}
    (h : o ∈ instruction layout ins)
    : o.IsTame := by
  cases o with
  | pushHandler b =>
    apply hsmall
    simp [Instruction.references, instruction_push h, Effect.references]
  | save source slot =>
    unfold instruction at h
    cases he : ins.command with
    | transfer t =>
      rw [he] at h
      cases h
    | effect e =>
      simp only [he] at h
      rcases List.mem_append.1 h with h | h
      . cases e with
        | recur targets args => simp [effect, assignment] at h
        | _ => simp [effect] at h
      . obtain ⟨_, _, _, hslot, heq⟩ := mem_saves.1 h
        cases heq
        exact apart.header hslot
  | _ => trivial

theorem split_instructions {instructions : List Instruction} {done rest : List Op} {o : Op}
    (h : instructions.flatMap (instruction layout) = done ++ o :: rest)
    : ∃ before ins after front, instructions = before ++ ins :: after ∧
        o ∈ instruction layout ins ∧ done = before.flatMap (instruction layout) ++ front := by
  induction instructions generalizing done with
  | nil => simp at h
  | cons ins instructions ih =>
    rw [List.flatMap_cons] at h
    have hlater : ∀ {done' : List Op}, instructions.flatMap (instruction layout) =
        done' ++ o :: rest → done = instruction layout ins ++ done' →
        ∃ before ins' after front, ins :: instructions = before ++ ins' :: after ∧
          o ∈ instruction layout ins' ∧ done = before.flatMap (instruction layout) ++ front := by
      rintro done' hsplit rfl
      obtain ⟨before, ins', after, front, rfl, ho, rfl⟩ := ih hsplit
      exact ⟨ins :: before, ins', after, front, rfl, ho, by simp⟩
    rcases List.append_eq_append_iff.1 h with ⟨done', rfl, hrest⟩ | ⟨front, hins, hrest⟩
    . exact hlater hrest rfl
    . cases front with
      | nil =>
        rw [List.append_nil] at hins
        exact @hlater [] hrest.symm (by rw [List.append_nil, hins])
      | cons o' front =>
        cases hrest
        exact ⟨[], ins, instructions, done, rfl, by simp [hins], by simp⟩

theorem mem_readFirst_of_reads {code : List Instruction} {i : Nat} {ins : Instruction}
    {v : ValueId} (hi : code[i]? = some ins) (hv : v ∈ ins.reads)
    (hbefore : ∀ k < i, ∀ before, code[k]? = some before → v ∉ before.writes)
    {seen : List ValueId} (hseen : v ∉ seen)
    : v ∈ readFirst seen code := by
  induction code generalizing i seen with
  | nil => cases hi
  | cons first code ih =>
    rw [readFirst_cons]
    by_cases hnew : v ∈ first.reads
    . apply List.mem_append_left
      simp [Layout.mem_distinct, hnew, hseen]
    . apply List.mem_append_right
      cases i with
      | zero =>
        cases hi
        exact absurd hv hnew
      | succ i =>
        apply ih hi fun k hk => hbefore (k + 1) (Nat.succ_lt_succ hk)
        have hwrites := hbefore 0 (Nat.succ_pos _) first rfl
        simp [knownAfter, Layout.mem_distinct, hseen, hnew, hwrites]

theorem exit_targets {handlers : Table String Handler} {t : Transfer} {exit : Exit}
    (h : Emit.exit handlers t = .ok exit)
    : exit.targets = t.references := by
  cases t with
  | suspend name resume args =>
    unfold Emit.exit at h
    cases hhandler : handlers.get? name with
    | none => simp [hhandler] at h
    | some handler =>
      simp only [hhandler] at h
      cases h
      rfl
  | _ =>
    cases h
    rfl

theorem mem_of_suspend {handlers : Table String Handler} {b : BlockId} {code : List Instruction}
    {program : BlockProgram} (h : block layout handlers b code = .ok program) {handler : Handler}
    {resume : BlockId} {sources : List Source}
    (hexit : program.exit = .suspend handler resume sources)
    : ∃ name, handlers.get? name = some handler := by
  obtain ⟨_, _, t, _, _, ht, _, _⟩ := block_ok h
  rw [hexit] at ht
  cases t with
  | suspend name resume args =>
    unfold Emit.exit at ht
    cases hhandler : handlers.get? name with
    | none => simp [hhandler] at ht
    | some handler =>
      simp only [hhandler] at ht
      cases ht
      exact ⟨name, hhandler⟩
  | _ => cases ht

theorem exit_reads {handlers : Table String Handler} {t : Transfer} {exit : Exit}
    (h : Emit.exit handlers t = .ok exit) {r : Register} (hr : r ∈ exit.reads)
    : ∃ v, r = .result v ∧ .result v ∈ t.operands := by
  cases t with
  | suspend name resume args =>
    unfold Emit.exit at h
    cases hhandler : handlers.get? name with
    | none => simp [hhandler] at h
    | some handler =>
      simp only [hhandler] at h
      cases h
      obtain ⟨_, hsource, hr⟩ := List.mem_flatMap.1 hr
      obtain ⟨arg, harg, rfl⟩ := List.mem_map.1 hsource
      obtain ⟨v, rfl, rfl⟩ := source_reads hr
      exact ⟨v, rfl, harg⟩
  | jump value target =>
    cases h
    cases value with
    | none => cases hr
    | some value =>
      obtain ⟨v, rfl, rfl⟩ := @source_reads value r (by simpa [Exit.reads] using hr)
      exact ⟨v, rfl, List.mem_singleton.2 rfl⟩
  | finish value | branch value _ _ | case value _ _ _ =>
    cases h
    obtain ⟨v, rfl, rfl⟩ := @source_reads value r hr
    exact ⟨v, rfl, List.mem_singleton.2 rfl⟩
  | dispatch clauses =>
    cases h
    cases hr

end Emit

end Resumable
