import Resumable.Program.Emit
import Resumable.Proofs.Lowering.Sound

/-!
This module contains what the layout of a graph's state ensures: slots are apart from each other and
from the header, and whatever a block reads before writing it has a slot.
-/

namespace Resumable

namespace Layout

theorem mem_distinct {a : Nat} {l : List Nat} : a ∈ distinct l ↔ a ∈ l := by
  induction l with
  | nil => simp [distinct]
  | cons b l ih =>
    simp only [distinct, List.mem_cons, List.mem_filter, ih]
    by_cases h : a = b <;> simp [h]

theorem mem_number {id : ValueId} {slot first : Nat} {ids : List ValueId}
    : (id, slot) ∈ number first ids ↔ ∃ k, ids[k]? = some id ∧ slot = first + k := by
  induction ids generalizing first with
  | nil => simp [number]
  | cons id' ids ih =>
    simp only [number, List.mem_cons, Prod.mk.injEq, ih]
    constructor
    . intro h
      rcases h with ⟨rfl, rfl⟩ | ⟨k, hk, rfl⟩
      . exact ⟨0, rfl, rfl⟩
      . exact ⟨k + 1, hk, by omega⟩
    . intro ⟨k, hk, hslot⟩
      cases k with
      | zero => exact .inl ⟨(Option.some.inj hk).symm, hslot⟩
      | succ k => exact .inr ⟨k, hk, by omega⟩

end Layout

namespace Graph

def kept (graph : Graph) : List ValueId :=
  graph.params.map (·.2) ++ (Layout.distinct (graph.accesses.map (·.id))).filter fun id =>
    !(graph.params.map (·.2)).contains id && Layout.persists graph.accesses id

theorem layout_slots (graph : Graph)
    : graph.layout.slots = .ofList (Layout.number headerSize graph.kept) := rfl

theorem layout_size (graph : Graph) : graph.layout.size = headerSize + graph.kept.length := by
  simp [layout, kept, Nat.add_assoc]

theorem kept_of_slot {graph : Graph} {id : ValueId} {slot : Nat}
    (h : graph.layout.slots.get? id = some slot)
    : ∃ k, graph.kept[k]? = some id ∧ slot = headerSize + k := by
  apply Layout.mem_number.1
  apply Table.mem_of_mem_ofList
  apply Table.mem_of_get?
  exact h

theorem headerSize_le_slot {graph : Graph} {id : ValueId} {slot : Nat}
    (h : graph.layout.slots.get? id = some slot)
    : headerSize ≤ slot := by
  obtain ⟨k, _, rfl⟩ := kept_of_slot h
  omega

theorem headerSize_le_size (graph : Graph) : headerSize ≤ graph.layout.size := by
  unfold layout
  lia

theorem slot_lt_size {graph : Graph} {id : ValueId} {slot : Nat}
    (h : graph.layout.slots.get? id = some slot)
    : slot < graph.layout.size := by
  obtain ⟨k, hk, rfl⟩ := kept_of_slot h
  have := (List.getElem?_eq_some_iff.1 hk).1
  rw [layout_size]
  omega

theorem slot_inj {graph : Graph} {id id' : ValueId} {slot : Nat}
    (h : graph.layout.slots.get? id = some slot) (h' : graph.layout.slots.get? id' = some slot)
    : id = id' := by
  obtain ⟨k, hk, rfl⟩ := kept_of_slot h
  obtain ⟨k', hk', heq⟩ := kept_of_slot h'
  have : k = k' := by omega
  subst this
  exact Option.some.inj (hk.symm.trans hk')

theorem slot_of_kept {graph : Graph} {id : ValueId} (h : id ∈ graph.kept)
    : ∃ slot, graph.layout.slots.get? id = some slot := by
  obtain ⟨k, hk⟩ := List.mem_iff_getElem?.1 h
  have hmem : (id, headerSize + k) ∈ Layout.number headerSize graph.kept :=
    Layout.mem_number.2 ⟨k, hk, rfl⟩
  rw [layout_slots, Table.get?_ofList]
  cases hgo : Table.get?.go id (Layout.number headerSize graph.kept).reverse with
  | some slot => exact ⟨slot, rfl⟩
  | none =>
    have := Table.get?.go_ne_none (List.mem_reverse.2 hmem)
    contradiction

end Graph

namespace Graph.Coded

variable {options : CompileOptions} {source : Form} {graph : Graph} {plan : Plan}

theorem get?_block (h : graph.Coded options source plan) {b : BlockId} {i : Nat}
    {ins : Instruction} (hi : (plan.code b)[i]? = some ins)
    : ∃ block, graph.blocks.get? b = some block ∧ block.code = plan.code b := by
  have hcode := h.code b
  unfold Table.code at hcode
  cases hblock : graph.blocks.get? b with
  | none => simp [← hcode, hblock] at hi
  | some block => exact ⟨block, rfl, by simpa [hblock] using hcode⟩

theorem access_mem (h : graph.Coded options source plan) {b : BlockId} {i : Nat}
    {ins : Instruction} (hi : (plan.code b)[i]? = some ins) {access : Access}
    (haccess : access ∈ ins.accesses b)
    : access ∈ graph.accesses := by
  obtain ⟨block, hblock, hcode⟩ := h.get?_block hi
  unfold Graph.accesses
  apply List.mem_flatMap.2
  refine ⟨(b, block), Table.mem_of_get? hblock, ?_⟩
  apply List.mem_flatMap.2
  refine ⟨ins, ?_, haccess⟩
  rw [hcode]
  exact List.mem_of_getElem? hi

theorem exists_reader (h : graph.Coded options source plan) {id : ValueId} {b : BlockId}
    (hread : ⟨id, b, true⟩ ∈ graph.accesses)
    : ∃ ins ∈ plan.code b, id ∈ ins.reads := by
  unfold Graph.accesses at hread
  obtain ⟨⟨b', block⟩, hmem, hblock⟩ := List.mem_flatMap.1 hread
  obtain ⟨ins, hins, haccess⟩ := List.mem_flatMap.1 hblock
  simp only [Instruction.accesses, List.mem_append, List.mem_map, Access.mk.injEq,
    Bool.false_eq_true, and_false, exists_false, or_false] at haccess
  obtain ⟨_, hid, rfl, rfl, _⟩ := haccess
  have hcode := h.code b'
  rw [Table.code, h.ascending.mem_iff.1 hmem] at hcode
  exact ⟨ins, hcode ▸ hins, hid⟩

theorem read_mem (h : graph.Coded options source plan) {b : BlockId} {i : Nat} {ins : Instruction}
    (hi : (plan.code b)[i]? = some ins) {id : ValueId} (hid : id ∈ ins.reads)
    : ⟨id, b, true⟩ ∈ graph.accesses := by
  apply h.access_mem hi
  simp [Instruction.accesses, hid]

theorem write_mem (h : graph.Coded options source plan) {b : BlockId} {i : Nat} {ins : Instruction}
    (hi : (plan.code b)[i]? = some ins) {id : ValueId} (hid : id ∈ ins.writes)
    : ⟨id, b, false⟩ ∈ graph.accesses := by
  apply h.access_mem hi
  simp [Instruction.accesses, hid]

end Graph.Coded

namespace Layout

theorem mem_blocksOf {accesses : List Access} {isRead : Bool} {id : ValueId} {b : BlockId}
    : b ∈ blocksOf accesses isRead id ↔ ⟨id, b, isRead⟩ ∈ accesses := by
  simp only [blocksOf, List.mem_map, List.mem_filter, Bool.and_eq_true, beq_iff_eq]
  constructor
  . intro ⟨access, ⟨hmem, hid, hread⟩, hb⟩
    subst hid hread hb
    exact hmem
  . intro hmem
    exact ⟨_, ⟨hmem, rfl, rfl⟩, rfl⟩

theorem persists_of_unread {accesses : List Access} {id : ValueId} {writer : BlockId}
    (hwrite : ⟨id, writer, false⟩ ∈ accesses) (hread : ⟨id, writer, true⟩ ∉ accesses)
    : persists accesses id = true := by
  simp only [persists, Bool.or_eq_true, Bool.not_eq_true', Bool.and_eq_false_iff]
  refine .inl (.inr ?_)
  apply List.all_eq_false.2
  exact ⟨writer, mem_blocksOf.2 hwrite, by simpa using mt mem_blocksOf.1 hread⟩

theorem persists_of_apart {accesses : List Access} {id : ValueId} {reader writer : BlockId}
    (hread : ⟨id, reader, true⟩ ∈ accesses) (hwrite : ⟨id, writer, false⟩ ∈ accesses)
    (apart : writer ≠ reader)
    : persists accesses id = true := by
  by_cases hboth : ⟨id, writer, true⟩ ∈ accesses
  -- A result that is also read where it is written is read in two blocks.
  . simp only [persists, Bool.or_eq_true, List.any_eq_true]
    exact .inr ⟨reader, mem_blocksOf.2 hread, writer, mem_blocksOf.2 hboth, by simpa using apart⟩
  . exact persists_of_unread hwrite hboth

end Layout

namespace Graph.Coded

variable {options : CompileOptions} {source : Form} {graph : Graph} {plan : Plan}

theorem param_slot (h : graph.Coded options source plan) {id : ValueId}
    (hid : id < options.params.length)
    : graph.layout.slots.get? id = some (headerSize + id) := by
  have hparams : graph.params.map (·.2) = List.range' 0 options.params.length := by
    rw [h.params, List.map_snd_zip (by simp)]
  have hmem : id ∈ graph.params.map (·.2) := by
    rw [hparams]
    exact List.mem_range'_1.2 ⟨Nat.zero_le _, by simpa using hid⟩
  obtain ⟨slot, hslot⟩ := slot_of_kept (List.mem_append_left _ hmem)
  obtain ⟨k, hk, rfl⟩ := kept_of_slot hslot
  rw [hslot]
  unfold kept at hk
  rw [List.getElem?_append] at hk
  split at hk
  . rw [hparams, List.getElem?_eq_some_iff] at hk
    obtain ⟨_, hk⟩ := hk
    rw [List.getElem_range', Nat.one_mul, Nat.zero_add] at hk
    rw [hk]
  -- No parameter is kept a second time.
  . have hfilter := (List.mem_filter.1 (List.mem_of_getElem? hk)).2
    simp only [Bool.and_eq_true, Bool.not_eq_true', List.contains_eq_mem,
      decide_eq_false_iff_not] at hfilter
    exact absurd hmem hfilter.1

theorem persists_slot (h : graph.Coded options source plan) {access : Access}
    (haccess : access ∈ graph.accesses)
    (hpersists : Layout.persists graph.accesses access.id = true)
    : ∃ slot, graph.layout.slots.get? access.id = some slot := by
  by_cases hparam : access.id < options.params.length
  . exact ⟨_, h.param_slot hparam⟩
  . apply slot_of_kept
    apply List.mem_append_right
    simp only [List.mem_filter, Layout.mem_distinct, Bool.and_eq_true, Bool.not_eq_true',
      List.mem_map, List.contains_eq_mem, decide_eq_false_iff_not]
    refine ⟨⟨_, haccess, rfl⟩, ?_, hpersists⟩
    intro ⟨param, hmem, hid⟩
    rw [h.params] at hmem
    have := List.mem_range'_1.1 (List.of_mem_zip hmem).2
    lia

theorem apart_slot (h : graph.Coded options source plan) {id : ValueId} {reader writer : BlockId}
    (hread : ⟨id, reader, true⟩ ∈ graph.accesses) (hwrite : ⟨id, writer, false⟩ ∈ graph.accesses)
    (apart : writer ≠ reader)
    : ∃ slot, graph.layout.slots.get? id = some slot :=
  h.persists_slot hread (Layout.persists_of_apart hread hwrite apart)

theorem unread_slot (h : graph.Coded options source plan) {id : ValueId} {writer : BlockId}
    (hwrite : ⟨id, writer, false⟩ ∈ graph.accesses) (hread : ⟨id, writer, true⟩ ∉ graph.accesses)
    : ∃ slot, graph.layout.slots.get? id = some slot :=
  h.persists_slot hwrite (Layout.persists_of_unread hwrite hread)

end Graph.Coded

namespace Emit

theorem mem_readFirst {id : ValueId} {known : List ValueId} {code : List Instruction}
    (h : id ∈ readFirst known code)
    : id ∉ known ∧ ∃ (j : Nat) (ins : Instruction), code[j]? = some ins ∧ id ∈ ins.reads ∧
        ∀ {k : Nat} {before : Instruction}, k < j → code[k]? = some before →
          id ∉ before.writes := by
  induction code generalizing known with
  | nil => simp [readFirst] at h
  | cons ins code ih =>
    simp only [readFirst, List.mem_append, List.mem_filter, Layout.mem_distinct] at h
    rcases h with ⟨hread, hnew⟩ | hlater
    . refine ⟨by simpa using hnew, 0, ins, rfl, hread, ?_⟩
      intro k _ hk
      omega
    . obtain ⟨hknown, j, ins', hj, hread, hbefore⟩ := ih hlater
      simp only [List.mem_append, not_or] at hknown
      refine ⟨hknown.1.1, j + 1, ins', hj, hread, ?_⟩
      intro k before hk hat
      cases k with
      | zero =>
        cases hat
        exact hknown.2
      | succ k => exact hbefore (Nat.lt_of_succ_lt_succ hk) hat

end Emit

theorem Instruction.mem_reads {ins : Instruction} {id : ValueId}
    : id ∈ ins.reads ↔ .result id ∈ ins.operands := by
  unfold reads
  rw [List.mem_filterMap]
  constructor
  . intro ⟨operand, hmem, hid⟩
    cases operand with
    | result id' =>
      cases hid
      exact hmem
    | literal | global | pending => cases hid
  . intro hmem
    exact ⟨_, hmem, rfl⟩

theorem Effect.mem_writes {e : Effect} (h : e.isNameable = true) (id : ValueId)
    : id ∈ e.writes id := by
  cases e <;> simp_all [isNameable, isPlain, writes]

namespace Plan

variable {plan : Plan} {params : Nat} {reader id : ValueId}

def Written (plan : Plan) (params : Nat) (reader id : ValueId) : Prop :=
  id < params ∨ id < reader ∧ ∃ (b : BlockId) (i : Nat) (ins : Instruction),
    (plan.code b)[i]? = some ins ∧ ins.id = id ∧ id ∈ ins.writes

theorem Ready.written (h : plan.Ready params reader id) : plan.Written params reader id := by
  obtain ⟨hlt, hparam | ⟨b, i, effect, span, hi, hname⟩⟩ := h
  . exact .inl hparam
  . exact .inr ⟨hlt, b, i, _, hi, rfl, Effect.mem_writes hname id⟩

theorem Fits.written {b : BlockId} {i : Nat} {ins : Instruction}
    (h : plan.Fits params b i ins.id ins.command) (hread : id ∈ ins.reads)
    : plan.Written params ins.id id := by
  have hmem := Instruction.mem_reads.1 hread
  unfold Instruction.operands at hmem
  generalize ins.id = reader at h
  generalize ins.command = command at h hmem
  cases h with
  | plain _ ready => exact (ready id hmem).written
  | setLocal _ ready => exact (ready id hmem).written
  | recur _ _ _ ready => exact (ready id hmem).written
  | push | pop | popOwn | take => cases hmem
  | @endFinally block _ _ htake hlt _ _ =>
    obtain ⟨span, htake⟩ := htake
    simp only [Effect.operands, List.mem_singleton] at hmem
    cases hmem
    exact .inr ⟨hlt, block, 1, _, htake, rfl, List.mem_singleton.2 rfl⟩
  | finish ready => exact (ready id hmem).written
  | leave ready _ _ => exact (ready id hmem).written
  | leaveFinally _ _ _ _ ready _ _ => exact (ready id hmem).written

end Plan

theorem Graph.Coded.readFirst_slot {options : CompileOptions} {source : Form} {graph : Graph}
    {plan : Plan} (h : graph.Coded options source plan) {b : BlockId} {id : ValueId}
    (hid : id ∈ Emit.readFirst [] (plan.code b))
    : ∃ slot, graph.layout.slots.get? id = some slot := by
  obtain ⟨_, j, ins, hj, hread, hbefore⟩ := Emit.mem_readFirst hid
  rcases (h.fits hj).written hread with hparam | ⟨hlt, b', i, writer, hi, rfl, hwrite⟩
  . exact ⟨_, h.param_slot hparam⟩
  . apply h.apart_slot (h.read_mem hj hread) (h.write_mem hi hwrite)
    intro hsame
    subst hsame
    -- In the block itself the result would be written after it is read.
    have hle : j ≤ i := by
      apply Nat.le_of_not_lt
      intro hij
      exact hbefore hij hi hwrite
    rcases Nat.eq_or_lt_of_le hle with heq | hji
    . subst heq
      rw [hj] at hi
      cases hi
      lia
    . have := h.ordered hj hi hji
      lia

end Resumable
