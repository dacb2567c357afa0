import Mathlib.Data.Set.Basic
import Mathlib.Data.Set.Subsingleton
import Resumable.Proofs.Slots.Unaliased

/-!
This module contains the proof that the layout of a graph's state is tight: the parameters have the
first slots, the results that are used in more than one block have the others, in the order in which
they occur, and no slot is left over or used twice.
-/

namespace Resumable

structure Occurrence where
  block : BlockId
  index : Nat
  position : Nat

namespace Occurrence

def Before (o p : Occurrence) : Prop :=
  o.block < p.block ∨
    o.block = p.block ∧ (o.index < p.index ∨ o.index = p.index ∧ o.position < p.position)

theorem Before.asymm {o p : Occurrence} (h : o.Before p) : ¬ p.Before o := by
  unfold Before at h ⊢
  lia

theorem Before.irrefl (o : Occurrence) : ¬ o.Before o :=
  fun h => h.asymm h

def IsFirst (P : Occurrence → Prop) (o : Occurrence) : Prop :=
  P o ∧ ∀ p, P p → p = o ∨ o.Before p

theorem IsFirst.unique {P : Occurrence → Prop} {o p : Occurrence} (h : IsFirst P o)
    (h' : IsFirst P p)
    : o = p := by
  rcases h.2 p h'.1 with heq | hbefore
  . exact heq.symm
  . rcases h'.2 o h.1 with heq | hafter
    . exact heq
    . exact absurd hafter hbefore.asymm

end Occurrence

namespace Table

variable {κ α : Type} [DecidableEq κ] [LT κ] [DecidableLT κ]

theorem insert.go_length {key : κ} {a : α} {l : List (κ × α)} (h : key ∉ l.map (·.1))
    : (insert.go key a l).length = l.length + 1 := by
  induction l with
  | nil => rfl
  | cons entry l ih =>
    rw [List.map_cons, List.mem_cons, not_or] at h
    unfold insert.go
    rw [if_neg (Ne.symm h.1)]
    split
    . rfl
    . simp [ih h.2]

theorem size_ofList {entries : List (κ × α)} (h : (entries.map (·.1)).Nodup)
    : (ofList entries).size = entries.length := by
  have hfold : ∀ (l : List (κ × α)) (table : Table κ α), (l.map (·.1)).Nodup →
      (∀ k ∈ l.map (·.1), k ∉ table.entries.map (·.1)) →
        (l.foldl (fun table entry => table.insert entry.1 entry.2) table).entries.length
          = table.entries.length + l.length := by
    intro l
    induction l with
    | nil => exact fun _ _ _ => rfl
    | cons entry l ih =>
      intro table hl hnew
      rw [List.map_cons, List.nodup_cons] at hl
      rw [List.map_cons, List.forall_mem_cons] at hnew
      rw [List.foldl_cons, ih _ hl.2]
      . simp only [insert, insert.go_length hnew.1, List.length_cons]
        omega
      . intro k hk hmem
        obtain ⟨old, hold, rfl⟩ := List.mem_map.1 hmem
        rcases insert.go_mem hold with rfl | hold
        . exact hl.1 hk
        . exact hnew.2 _ hk (List.mem_map_of_mem hold)
  exact (hfold entries {} h (by simp)).trans (Nat.zero_add _)

end Table

namespace Layout

theorem nodup_distinct (l : List Nat) : (distinct l).Nodup := by
  induction l with
  | nil => exact .nil
  | cons a l ih => exact List.nodup_cons.2 ⟨by simp, ih.filter _⟩

theorem map_fst_number (first : Nat) (ids : List ValueId)
    : (number first ids).map (·.1) = ids := by
  induction ids generalizing first with
  | nil => rfl
  | cons id ids ih => rw [number, List.map_cons, ih]

theorem distinct_ordered {l : List (Occurrence × ValueId)}
    (h : l.Pairwise (fun x y => x.1.Before y.1))
    : (distinct (l.map (·.2))).Pairwise fun a b => ∀ o p,
        Occurrence.IsFirst (fun place => (place, a) ∈ l) o →
        Occurrence.IsFirst (fun place => (place, b) ∈ l) p → o.Before p := by
  induction l with
  | nil => exact .nil
  | cons entry l ih =>
    obtain ⟨start, id⟩ := entry
    obtain ⟨hstart, hl⟩ := List.pairwise_cons.1 h
    have hlater : ∀ {a : ValueId} {o : Occurrence}, a ≠ id → (o, a) ∈ (start, id) :: l →
        (o, a) ∈ l := by
      intro a o ha hmem
      rcases List.mem_cons.1 hmem with heq | hmem
      . cases heq
        exact absurd rfl ha
      . exact hmem
    -- Only the head has its first place at the start.
    have htail : ∀ {a : ValueId} {o : Occurrence}, a ≠ id →
        Occurrence.IsFirst (fun place => (place, a) ∈ (start, id) :: l) o →
          Occurrence.IsFirst (fun place => (place, a) ∈ l) o :=
      fun ha hfirst =>
        ⟨hlater ha hfirst.1, fun p hp => hfirst.2 p (List.mem_cons_of_mem _ hp)⟩
    simp only [List.map_cons, distinct]
    refine List.pairwise_cons.2 ⟨?_, ?_⟩
    . intro b hb o p ho hp
      have hne : b ≠ id := by simpa using (List.mem_filter.1 hb).2
      have hbefore := hstart _ (hlater hne hp.1)
      rcases ho.2 start (List.mem_cons_self ..) with rfl | hearly
      . exact hbefore
      . rcases List.mem_cons.1 ho.1 with heq | hmem
        . cases heq
          exact hbefore
        . exact absurd hearly (hstart _ hmem).asymm
    . refine ((ih hl).filter _).imp_of_mem ?_
      intro a b ha hb hordered o p ho hp
      have hne : ∀ {c : ValueId}, c ∈ (distinct (l.map (·.2))).filter (· != id) → c ≠ id :=
        fun hc => by simpa using (List.mem_filter.1 hc).2
      exact hordered o p (htail (hne ha) ho) (htail (hne hb) hp)

end Layout

namespace Graph

variable (graph : Graph)

def readers (id : ValueId) : Set BlockId :=
  {b | ∃ ins ∈ graph.blocks.code b, id ∈ ins.reads}

def writers (id : ValueId) : Set BlockId :=
  {b | ∃ ins ∈ graph.blocks.code b, id ∈ ins.writes}

def OccursAt (id : ValueId) (o : Occurrence) : Prop :=
  ∃ ins, (graph.blocks.code o.block)[o.index]? = some ins ∧
    (ins.reads ++ ins.writes)[o.position]? = some id

def occurrences : List (Occurrence × ValueId) :=
  graph.blocks.entries.flatMap fun (b, block) =>
    block.code.zipIdx.flatMap fun (ins, i) =>
      (ins.reads ++ ins.writes).zipIdx.map fun (id, j) => (⟨b, i, j⟩, id)

theorem map_snd_occurrences : graph.occurrences.map (·.2) = graph.accesses.map (·.id) := by
  have hinstruction : ∀ (b : BlockId) (ins : Instruction) (i : Nat),
      ((ins.reads ++ ins.writes).zipIdx.map fun (id, j) =>
        ((⟨b, i, j⟩, id) : Occurrence × ValueId)).map (·.2) = (ins.accesses b).map (·.id) := by
    intro b ins i
    rw [List.map_map]
    change (ins.reads ++ ins.writes).zipIdx.map Prod.fst = _
    rw [List.zipIdx_map_fst]
    simp [Instruction.accesses, Function.comp_def]
  have hcode : ∀ (b : BlockId) (code : List Instruction) (n : Nat),
      ((code.zipIdx n).flatMap fun (ins, i) => (ins.reads ++ ins.writes).zipIdx.map fun (id, j) =>
        ((⟨b, i, j⟩, id) : Occurrence × ValueId)).map (·.2)
          = (code.flatMap (·.accesses b)).map (·.id) := by
    intro b code
    induction code with
    | nil => exact fun _ => rfl
    | cons ins code ih =>
      intro n
      rw [List.zipIdx_cons, List.flatMap_cons, List.flatMap_cons, List.map_append,
        List.map_append, hinstruction, ih]
  simp only [occurrences, accesses, List.map_flatMap]
  congr 1
  funext entry
  rw [← List.map_flatMap, ← List.map_flatMap]
  exact hcode entry.1 entry.2.code 0

variable {graph}

theorem code_of_entry (h : graph.blocks.Ascending) {b : BlockId} {block : Block}
    (hblock : (b, block) ∈ graph.blocks.entries)
    : graph.blocks.code b = block.code := by
  rw [Table.code, h.mem_iff.1 hblock]
  rfl

theorem exists_entry {b : BlockId} {ins : Instruction} (hins : ins ∈ graph.blocks.code b)
    : ∃ block, (b, block) ∈ graph.blocks.entries ∧ graph.blocks.code b = block.code := by
  unfold Table.code at hins ⊢
  cases hblock : graph.blocks.get? b with
  | none => simp [hblock] at hins
  | some block => exact ⟨block, Table.mem_of_get? hblock, rfl⟩

theorem mem_occurrences (h : graph.blocks.Ascending) {o : Occurrence} {id : ValueId}
    : (o, id) ∈ graph.occurrences ↔ graph.OccursAt id o := by
  simp only [occurrences, List.mem_flatMap, List.mem_map, OccursAt, Prod.exists,
    List.mem_zipIdx_iff_getElem?, Prod.mk.injEq]
  constructor
  . rintro ⟨b, block, hblock, ins, i, hins, _, j, hj, rfl, rfl⟩
    exact ⟨ins, by rwa [code_of_entry h hblock], hj⟩
  . rintro ⟨ins, hins, hid⟩
    obtain ⟨block, hblock, hcode⟩ := exists_entry (List.mem_of_getElem? hins)
    rw [hcode] at hins
    exact ⟨o.block, block, hblock, ins, o.index, hins, id, o.position, hid, rfl, rfl⟩

theorem occurrences_ordered (h : graph.blocks.Ascending)
    : graph.occurrences.Pairwise fun x y => x.1.Before y.1 := by
  have hindex : ∀ {α : Type} (l : List α) (n : Nat),
      (l.zipIdx n).Pairwise fun x y => x.2 < y.2 := by
    intro α l
    induction l with
    | nil => exact fun _ => .nil
    | cons a l ih =>
      intro n
      rw [List.zipIdx_cons]
      refine List.pairwise_cons.2 ⟨fun entry hentry => ?_, ih (n + 1)⟩
      exact (List.mem_zipIdx hentry).1
  refine List.pairwise_flatMap.2 ⟨fun entry _ => ?_, ?_⟩
  . refine List.pairwise_flatMap.2 ⟨fun line _ => ?_, ?_⟩
    . refine List.pairwise_map.2 ((hindex _ 0).imp fun hlt => ?_)
      exact .inr ⟨rfl, .inr ⟨rfl, hlt⟩⟩
    . refine (hindex _ 0).imp fun hlt x hx y hy => ?_
      obtain ⟨_, _, rfl⟩ := List.mem_map.1 hx
      obtain ⟨_, _, rfl⟩ := List.mem_map.1 hy
      exact .inr ⟨rfl, .inl hlt⟩
  . refine (List.pairwise_map.1 h).imp fun hlt x hx y hy => ?_
    obtain ⟨_, _, hx⟩ := List.mem_flatMap.1 hx
    obtain ⟨_, _, hy⟩ := List.mem_flatMap.1 hy
    obtain ⟨_, _, rfl⟩ := List.mem_map.1 hx
    obtain ⟨_, _, rfl⟩ := List.mem_map.1 hy
    exact .inl hlt

theorem mem_accesses (h : graph.blocks.Ascending) {access : Access}
    : access ∈ graph.accesses ↔
        ∃ ins ∈ graph.blocks.code access.block, access ∈ ins.accesses access.block := by
  simp only [accesses, List.mem_flatMap]
  constructor
  . rintro ⟨⟨b, block⟩, hblock, ins, hins, haccess⟩
    have hb : access.block = b := by
      simp only [Instruction.accesses, List.mem_append, List.mem_map] at haccess
      rcases haccess with ⟨_, _, rfl⟩ | ⟨_, _, rfl⟩ <;> rfl
    subst hb
    exact ⟨ins, by rwa [code_of_entry h hblock], haccess⟩
  . rintro ⟨ins, hins, haccess⟩
    obtain ⟨block, hblock, hcode⟩ := exists_entry hins
    exact ⟨_, hblock, ins, hcode ▸ hins, haccess⟩

theorem mem_readers (h : graph.blocks.Ascending) {id : ValueId} {b : BlockId}
    : b ∈ graph.readers id ↔ b ∈ Layout.blocksOf graph.accesses true id := by
  rw [Layout.mem_blocksOf, mem_accesses h]
  simp [readers, Instruction.accesses]

theorem mem_writers (h : graph.blocks.Ascending) {id : ValueId} {b : BlockId}
    : b ∈ graph.writers id ↔ b ∈ Layout.blocksOf graph.accesses false id := by
  rw [Layout.mem_blocksOf, mem_accesses h]
  simp [writers, Instruction.accesses]

theorem persists_iff (h : graph.blocks.Ascending) {id : ValueId}
    : Layout.persists graph.accesses id = true ↔
        graph.readers id ≠ graph.writers id ∨ (graph.readers id).Nontrivial := by
  have hsame : graph.readers id = graph.writers id ↔
      (∀ b ∈ Layout.blocksOf graph.accesses true id,
        b ∈ Layout.blocksOf graph.accesses false id) ∧
      ∀ b ∈ Layout.blocksOf graph.accesses false id,
        b ∈ Layout.blocksOf graph.accesses true id := by
    rw [Set.Subset.antisymm_iff]
    simp only [Set.subset_def, mem_readers h, mem_writers h]
  have hmany : (graph.readers id).Nontrivial ↔
      ∃ b ∈ Layout.blocksOf graph.accesses true id,
        ∃ b' ∈ Layout.blocksOf graph.accesses true id, b' ≠ b := by
    simp only [Set.Nontrivial, mem_readers h, ne_comm (b := (_ : BlockId))]
  rw [ne_eq, hsame, hmany]
  simp [Layout.persists, imp_iff_not_or]

theorem nodup_kept (h : (graph.params.map (·.2)).Nodup) : graph.kept.Nodup := by
  refine List.nodup_append.2 ⟨h, (Layout.nodup_distinct _).filter _, ?_⟩
  rintro id hparam _ hkept rfl
  have hnew := (List.mem_filter.1 hkept).2
  simp only [Bool.and_eq_true, Bool.not_eq_true', List.contains_eq_mem,
    decide_eq_false_iff_not] at hnew
  exact hnew.1 hparam

theorem slot_iff (h : (graph.params.map (·.2)).Nodup) {id : ValueId} {k : Nat}
    : graph.layout.slots.get? id = some (headerSize + k) ↔ graph.kept[k]? = some id := by
  constructor
  . intro hslot
    obtain ⟨k', hk', heq⟩ := kept_of_slot hslot
    obtain rfl : k = k' := by omega
    exact hk'
  . intro hk
    obtain ⟨slot, hslot⟩ := slot_of_kept (List.mem_of_getElem? hk)
    obtain ⟨k', hk', rfl⟩ := kept_of_slot hslot
    have hlt := (List.getElem?_eq_some_iff.1 hk).1
    rw [(List.getElem?_inj hlt (nodup_kept h)).1 (hk.trans hk'.symm)]
    exact hslot

theorem mem_kept (h : graph.blocks.Ascending) {id : ValueId}
    (hparam : id ∉ graph.params.map (·.2))
    : id ∈ graph.kept ↔ graph.readers id ≠ graph.writers id ∨ (graph.readers id).Nontrivial := by
  rw [← persists_iff h]
  simp only [kept, List.mem_append, hparam, false_or, List.mem_filter, Layout.mem_distinct,
    List.contains_eq_mem, decide_false, Bool.not_false, Bool.true_and]
  refine ⟨And.right, fun hpersists => ⟨?_, hpersists⟩⟩
  -- A result that is not named anywhere is neither read nor written.
  by_contra hnot
  have hnone : ∀ isRead, Layout.blocksOf graph.accesses isRead id = [] := by
    intro isRead
    refine List.eq_nil_iff_forall_not_mem.2 fun b hb => hnot ?_
    exact List.mem_map.2 ⟨_, Layout.mem_blocksOf.1 hb, rfl⟩
  simp [Layout.persists, hnone] at hpersists

theorem exists_first (h : graph.blocks.Ascending) {id : ValueId}
    (hid : id ∈ graph.accesses.map (·.id))
    : ∃ o, Occurrence.IsFirst (graph.OccursAt id) o := by
  rw [← map_snd_occurrences] at hid
  have hfirst : ∀ {l : List (Occurrence × ValueId)}, l.Pairwise (fun x y => x.1.Before y.1) →
      id ∈ l.map (·.2) → ∃ o, Occurrence.IsFirst (fun place => (place, id) ∈ l) o := by
    intro l hl hmem
    induction l with
    | nil => simp at hmem
    | cons entry l ih =>
      obtain ⟨start, first⟩ := entry
      obtain ⟨hstart, hl⟩ := List.pairwise_cons.1 hl
      by_cases heq : first = id
      . subst heq
        refine ⟨start, List.mem_cons_self .., fun p hp => ?_⟩
        rcases List.mem_cons.1 hp with hp | hp
        . cases hp
          exact .inl rfl
        . exact .inr (hstart _ hp)
      . have hmem : id ∈ l.map (·.2) := by
          rcases List.mem_cons.1 hmem with hmem | hmem
          . exact absurd hmem.symm heq
          . exact hmem
        obtain ⟨o, ho, hleast⟩ := ih hl hmem
        refine ⟨o, List.mem_cons_of_mem _ ho, fun p hp => ?_⟩
        rcases List.mem_cons.1 hp with hp | hp
        . cases hp
          exact absurd rfl heq
        . exact hleast p hp
  obtain ⟨o, ho⟩ := hfirst (occurrences_ordered h) hid
  simp only [mem_occurrences h] at ho
  exact ⟨o, ho⟩

theorem kept_ordered (h : graph.blocks.Ascending)
    : (graph.kept.drop graph.params.length).Pairwise fun a b => ∀ o p,
        Occurrence.IsFirst (graph.OccursAt a) o → Occurrence.IsFirst (graph.OccursAt b) p →
          o.Before p := by
  have hordered := Layout.distinct_ordered (occurrences_ordered h)
  rw [map_snd_occurrences] at hordered
  simp only [mem_occurrences h] at hordered
  rw [kept, List.drop_append_of_le_length (by simp), List.drop_eq_nil_of_le (by simp),
    List.nil_append]
  exact hordered.filter _

theorem slots_size (h : (graph.params.map (·.2)).Nodup)
    : graph.layout.slots.size = graph.kept.length := by
  have hfst := Layout.map_fst_number headerSize graph.kept
  rw [layout_slots, Table.size_ofList (by rw [hfst]; exact nodup_kept h), ← List.length_map (·.1),
    hfst]

/--
Whether a graph's state is laid out without gaps, and without slots for what need not be kept.
-/
structure Tight (graph : Graph) : Prop where
  params {i : Nat} {id : ValueId} : (graph.params.map (·.2))[i]? = some id →
    graph.layout.slots.get? id = some (headerSize + i)
  persistent {id : ValueId} : id ∉ graph.params.map (·.2) →
    ((graph.layout.slots.get? id).isSome ↔
      graph.readers id ≠ graph.writers id ∨ (graph.readers id).Nontrivial)
  apart {id : ValueId} {reader writer : BlockId} : id ∉ graph.params.map (·.2) →
    graph.writers id = {writer} → reader ∈ graph.readers id → reader ≠ writer →
      (graph.layout.slots.get? id).isSome
  confined {id : ValueId} {b : BlockId} : id ∉ graph.params.map (·.2) →
    graph.writers id = {b} → graph.readers id = {b} → graph.layout.slots.get? id = none
  first {id : ValueId} : id ∉ graph.params.map (·.2) → (graph.layout.slots.get? id).isSome →
    ∃ o, Occurrence.IsFirst (graph.OccursAt id) o
  ordered {a b : ValueId} {i j : Nat} {o p : Occurrence} : a ∉ graph.params.map (·.2) →
    b ∉ graph.params.map (·.2) → graph.layout.slots.get? a = some i →
      graph.layout.slots.get? b = some j → Occurrence.IsFirst (graph.OccursAt a) o →
        Occurrence.IsFirst (graph.OccursAt b) p → (i < j ↔ o.Before p)
  dense {slot : Nat} : (∃ id, graph.layout.slots.get? id = some slot) ↔
    headerSize ≤ slot ∧ slot < graph.layout.size
  unique {a b : ValueId} {slot : Nat} : graph.layout.slots.get? a = some slot →
    graph.layout.slots.get? b = some slot → a = b
  counted : graph.layout.slots.size = graph.layout.paramCount + graph.layout.persistedCount
  sized : graph.layout.size = headerSize + graph.layout.slots.size

section

variable {a b : ValueId} {i j : Nat}

theorem exists_of_slot (ha : a ∉ graph.params.map (·.2))
    (hslot : graph.layout.slots.get? a = some i)
    : ∃ k, (graph.kept.drop graph.params.length)[k]? = some a ∧
        i = headerSize + graph.params.length + k := by
  obtain ⟨k, hk, rfl⟩ := kept_of_slot hslot
  have hle : graph.params.length ≤ k := by
    by_contra hlt
    rw [kept, List.getElem?_append_left (by simpa using hlt)] at hk
    exact ha (List.mem_of_getElem? hk)
  refine ⟨k - graph.params.length, ?_, by omega⟩
  rw [List.getElem?_drop, Nat.add_sub_cancel' hle]
  exact hk

theorem before_of_slot_lt (hblocks : graph.blocks.Ascending) (ha : a ∉ graph.params.map (·.2))
    (hb : b ∉ graph.params.map (·.2)) (hi : graph.layout.slots.get? a = some i)
    (hj : graph.layout.slots.get? b = some j) (hlt : i < j) {o p : Occurrence}
    (ho : Occurrence.IsFirst (graph.OccursAt a) o) (hp : Occurrence.IsFirst (graph.OccursAt b) p)
    : o.Before p := by
  obtain ⟨k, hk, rfl⟩ := exists_of_slot ha hi
  obtain ⟨k', hk', rfl⟩ := exists_of_slot hb hj
  obtain ⟨hklt, rfl⟩ := List.getElem?_eq_some_iff.1 hk
  obtain ⟨hklt', rfl⟩ := List.getElem?_eq_some_iff.1 hk'
  exact List.pairwise_iff_getElem.1 (kept_ordered hblocks) k k' hklt hklt' (by omega) o p ho hp

end

theorem tight (hparams : (graph.params.map (·.2)).Nodup) (hblocks : graph.blocks.Ascending)
    : graph.Tight := by
  have hpersistent : ∀ {id : ValueId}, id ∉ graph.params.map (·.2) →
      ((graph.layout.slots.get? id).isSome ↔
        graph.readers id ≠ graph.writers id ∨ (graph.readers id).Nontrivial) := by
    intro id hid
    rw [← mem_kept hblocks hid, Option.isSome_iff_exists]
    constructor
    . intro hslot
      obtain ⟨k, hk, _⟩ := kept_of_slot hslot.choose_spec
      exact List.mem_of_getElem? hk
    . exact slot_of_kept
  have hsize := slots_size hparams
  refine
    { params := ?params, persistent := hpersistent, apart := ?apart, confined := ?confined,
      first := ?first, ordered := ?ordered, dense := ?dense, unique := slot_inj,
      counted := ?counted, sized := by rw [layout_size, hsize] }
  case params =>
    intro i id hi
    rw [slot_iff hparams, kept, List.getElem?_append_left (List.getElem?_eq_some_iff.1 hi).1]
    exact hi
  case apart =>
    intro id reader writer hid hwriters hreader hne
    refine (hpersistent hid).2 (.inl fun heq => hne ?_)
    rw [heq, hwriters] at hreader
    exact hreader
  case confined =>
    intro id b hid hwriters hreaders
    rw [← Option.not_isSome_iff_eq_none, hpersistent hid, hreaders, hwriters]
    simp
  case first =>
    intro id hid hslot
    obtain ⟨slot, hslot⟩ := Option.isSome_iff_exists.1 hslot
    obtain ⟨k, hk, _⟩ := kept_of_slot hslot
    rcases List.mem_append.1 (List.mem_of_getElem? hk) with hparam | hkept
    . exact absurd hparam hid
    . exact exists_first hblocks (Layout.mem_distinct.1 (List.mem_filter.1 hkept).1)
  case ordered =>
    intro a b i j o p ha hb hi hj ho hp
    refine ⟨fun hlt => before_of_slot_lt hblocks ha hb hi hj hlt ho hp, fun hbefore => ?_⟩
    rcases Nat.lt_trichotomy i j with hlt | rfl | hgt
    . exact hlt
    . cases slot_inj hi hj
      cases ho.unique hp
      exact absurd hbefore (Occurrence.Before.irrefl o)
    . exact absurd hbefore
        (before_of_slot_lt hblocks hb ha hj hi hgt hp ho).asymm
  case dense =>
    intro slot
    constructor
    . intro hused
      exact ⟨headerSize_le_slot hused.choose_spec, slot_lt_size hused.choose_spec⟩
    . intro hbounds
      have hk : slot - headerSize < graph.kept.length := by
        rw [layout_size] at hbounds
        omega
      have hid := List.getElem?_eq_getElem hk
      rw [← slot_iff hparams, Nat.add_sub_cancel' hbounds.1] at hid
      exact ⟨_, hid⟩
  case counted =>
    have hle : graph.layout.paramCount ≤ graph.layout.slots.size := by
      rw [hsize]
      simp [layout, kept]
    rw [Layout.persistedCount, Nat.add_sub_cancel' hle]

end Graph

/--
Whether a state has a slot for whatever a program fetches and keeps.
-/
def Program.HasRoom (program : Program) (state : State) : Prop :=
  ∀ {b : BlockId} {code : BlockProgram}, program.blocks.get? b = some code →
    (∀ load ∈ code.loads, load.2 < state.slots.size) ∧
      ∀ source slot, .save source slot ∈ code.ops → slot < state.slots.size

theorem Emit.slot_of_save {layout : Layout} {code : List Instruction} {source : Register}
    {slot : Nat} (h : .save source slot ∈ code.flatMap (instruction layout))
    : ∃ id, layout.slots.get? id = some slot := by
  obtain ⟨ins, _, hop⟩ := List.mem_flatMap.1 h
  unfold instruction at hop
  cases hcommand : ins.command with
  | transfer t => simp [hcommand] at hop
  | effect e =>
    rw [hcommand] at hop
    rcases List.mem_append.1 hop with heffect | hsave
    . exact absurd rfl (effect_not_save heffect source slot)
    . obtain ⟨id, _, slot', hslot, heq⟩ := mem_saves.1 hsave
      cases heq
      exact ⟨id, hslot⟩

theorem Program.hasRoom {graph : Graph} {handlers : Table String Handler} {name : String}
    {program : Program} (hprogram : Program.ofGraph graph handlers name = .ok program)
    {self : Value} {args : List Value} {state : State}
    (hcreate : program.create self args = .ok state)
    : program.HasRoom state := by
  obtain ⟨_, rfl⟩ := Program.create_ok hcreate
  obtain ⟨blocks, hblocks, rfl⟩ := Program.ofGraph_ok hprogram
  have hroom : ∀ {id : ValueId} {slot : Nat}, graph.layout.slots.get? id = some slot →
      slot < (State.initial self graph.start args graph.layout.size).slots.size :=
    fun hslot => Nat.lt_of_lt_of_le (Graph.slot_lt_size hslot) (State.size_initial self _)
  intro b code hcode
  rcases Emit.get?_blocks hblocks b with ⟨_, hnone⟩ | ⟨block, code', _, hsome, hemit⟩
  . rw [Table.get?, hnone] at hcode
    cases hcode
  . rw [Table.get?, hsome] at hcode
    cases hcode
    obtain ⟨effects, _, _, _, _, _, hloads, hops⟩ := Emit.block_ok hemit
    refine ⟨fun load hload => hroom (Emit.slot_of_mem_loads (hloads ▸ hload)), ?_⟩
    intro source slot hsave
    obtain ⟨id, hslot⟩ := Emit.slot_of_save (hops ▸ hsave)
    exact hroom hslot

/--
The state of a graph with distinct parameters is laid out without gaps, and a new state has room for
all that its program fetches and keeps.
-/
theorem Graph.layout_tight {graph : Graph} (hparams : (graph.params.map (·.2)).Nodup)
    (hblocks : graph.blocks.Ascending)
    : graph.Tight ∧
        ∀ {handlers : Table String Handler} {name : String} {program : Program} {self : Value}
          {args : List Value} {state : State},
          Program.ofGraph graph handlers name = .ok program →
            program.create self args = .ok state → program.HasRoom state :=
  ⟨tight hparams hblocks, fun hprogram hcreate => Program.hasRoom hprogram hcreate⟩

def Graph.handingOn : Graph where
  blocks := .ofList [
    (0, { code := [
      ⟨1, .effect (.const (.result 0)), .synthetic⟩,
      ⟨2, .effect (.call (.result 1) []), .synthetic⟩,
      ⟨3, .effect (.const (.result 2)), .synthetic⟩,
      ⟨4, .transfer (.jump none 1), .synthetic⟩] }),
    (1, { code := [⟨5, .transfer (.finish (.result 2)), .synthetic⟩] })]
  start := 0
  params := [("a", 0)]

theorem Graph.layout_tight_handingOn
    : (handingOn.params.map (·.2)).Nodup ∧ handingOn.blocks.Ascending ∧ handingOn.Tight ∧
        (handingOn.layout.slots.entries = [(0, 6), (2, 7), (3, 8)] ∧ handingOn.layout.size = 9) ∧
        ∃ program state, Program.ofGraph handingOn {} "main" = .ok program ∧
          program.create .nil [.int 1] = .ok state ∧ program.HasRoom state := by
  have hparams : (handingOn.params.map (·.2)).Nodup := by decide
  have hblocks : handingOn.blocks.Ascending := by
    unfold Table.Ascending
    decide
  obtain ⟨htight, hroom⟩ := Graph.layout_tight hparams hblocks
  refine ⟨hparams, hblocks, htight, ⟨by decide, by decide⟩, ?_⟩
  obtain ⟨program, hprogram⟩ : ∃ program, Program.ofGraph handingOn {} "main" = .ok program :=
    ⟨_, rfl⟩
  obtain ⟨state, hcreate⟩ : ∃ state, program.create .nil [.int 1] = .ok state := by
    obtain ⟨_, _, rfl⟩ := Program.ofGraph_ok hprogram
    exact ⟨_, rfl⟩
  exact ⟨program, state, hprogram, hcreate, hroom hprogram hcreate⟩

end Resumable
