import Resumable.Proofs.Values.Inherited

/-!
This module contains the proof that primitives keep to a kind of values: from arguments of a kind that
takes in whatever is made of its values, they give and throw values of that kind, and they put no
others into records.
-/

namespace Resumable

section

variable {ε α β : Type}

theorem exists_of_bind_ok {x : Except ε α} {k : α → Except ε β} {b : β} (h : x >>= k = .ok b)
    : ∃ a, x = .ok a ∧ k a = .ok b := by
  cases x with
  | error e => cases h
  | ok a => exact ⟨a, rfl, h⟩

theorem foldlM_ok {Q : β → Prop} {f : β → α → Except ε β} {items : List α} {start result : β}
    (h : items.foldlM f start = .ok result) (hstart : Q start)
    (hstep : ∀ b, Q b → ∀ a ∈ items, ∀ b', f b a = .ok b' → Q b')
    : Q result := by
  induction items generalizing start with
  | nil =>
    cases h
    exact hstart
  | cons a items ih =>
    rw [List.foldlM_cons] at h
    obtain ⟨next, hnext, hrest⟩ := exists_of_bind_ok h
    exact ih hrest (hstep start hstart a List.mem_cons_self next hnext)
      fun b hb a' ha' => hstep b hb a' (List.mem_cons_of_mem _ ha')

end

/--
Whether all that can be read from a store is of a kind.
-/
structure Store.Holds (P : Value → Prop) (store : Store) : Prop where
  fields : ∀ record ∈ store.heap.records, ∀ field ∈ record.fields, P field.2
  globals : ∀ name value, store.globals.get? name = some value → P value

/--
Whether an action keeps values of other kinds out of the store, leaves global variables alone, gives
results that fulfil a condition, and throws values of the kind if it ends early.
-/
def Action.Passes (P : Value → Prop) {α : Type} (post : α → Prop) (x : Action α) : Prop :=
  ∀ s : Store, s.Holds P → match x s with
    | .ok a s' => post a ∧ s'.Holds P ∧ s'.globals = s.globals
    | .error stop s' => (∃ value, stop = .thrown value ∧ P value) ∧ s'.Holds P

variable {P : Value → Prop} (hP : Value.Inherited P)

section

include hP

namespace Store.Holds

variable {store : Store}

omit hP in
theorem field (h : store.Holds P) {ref : Nat} {name : String} {value : Value}
    (hfield : (store.heap.record ref).field? name = some value)
    : P value := by
  rw [Heap.record, Array.getD_eq_getD_getElem?] at hfield
  cases hrecord : store.heap.records[ref]? with
  | none =>
    rw [hrecord] at hfield
    cases hfield
  | some record =>
    rw [hrecord] at hfield
    obtain ⟨before, after, hfields, _⟩ := List.lookup_eq_some_iff.1 hfield
    refine h.fields record (Array.mem_of_getElem? hrecord) (name, value) ?_
    rw [show record.fields = _ from hfields]
    simp

theorem get (h : store.Holds P) {collection key : Value} (hcollection : P collection)
    (hkey : P key)
    : P (store.heap.get collection key) := by
  have helement : ∀ {items : List Value} {i : Nat}, (∀ item ∈ items, P item) →
      P (items.getD i .nil) := by
    intro items i hitems
    rw [List.getD_eq_getElem?_getD]
    exact hP.getD fun value hvalue => hitems value (List.mem_of_getElem? hvalue)
  unfold Heap.get
  split
  . next entries key =>
    refine hP.getD ?_
    intro value hvalue
    obtain ⟨entry, hentry, rfl⟩ := Option.map_eq_some_iff.1 hvalue
    exact (hP.entry hcollection entry (List.mem_of_find?_eq_some hentry)).2
  . exact hP.getD fun value hvalue => h.field hvalue
  . exact hP.getD fun value hvalue => h.field hvalue
  . split
    . exact hP.nil
    . exact helement (hP.parts hcollection)
  . split
    . exact hP.nil
    . exact helement (hP.parts hcollection)
  . split
    . exact hkey
    . exact hP.nil
  . exact hP.nil

end Store.Holds

end

namespace Action.Passes

variable {α β : Type} {post : α → Prop} {post' : β → Prop}

theorem pure {a : α} (h : post a) : Passes P post (Pure.pure a) :=
  fun _ hs => ⟨h, hs, rfl⟩

theorem throwValue {value : Value} (h : P value) : Passes P post (Action.throwValue value) :=
  fun _ hs => ⟨⟨value, rfl, h⟩, hs⟩

include hP in
theorem raise (fault : Fault) : Passes P post (Action.raise fault) :=
  throwValue (hP.fault fault)

include hP in
theorem ofExcept {x : Except Fault α} (h : ∀ a, x = .ok a → post a)
    : Passes P post (Action.ofExcept x) := by
  cases x with
  | error fault => exact raise hP fault
  | ok a => exact pure (h a rfl)

theorem bind {x : Action α} {k : α → Action β} (hx : Passes P post x)
    (hk : ∀ a, post a → Passes P post' (k a))
    : Passes P post' (x >>= k) := by
  intro s hs
  have hxs := hx s hs
  cases hr : x s with
  | error stop t =>
    rw [bind_of_error hr]
    rw [hr] at hxs
    exact hxs
  | ok a t =>
    rw [bind_of_ok hr]
    rw [hr] at hxs
    obtain ⟨ha, ht, hglobals⟩ := hxs
    have hks := hk a ha t ht
    rwa [hglobals] at hks

theorem withHeap {k : Heap → Action β}
    (hk : ∀ store : Store, store.Holds P → Passes P post' (k store.heap))
    : Passes P post' (Action.heap >>= k) :=
  fun s hs => hk s hs s hs

include hP in
theorem newRecord {record : Record} (h : ∀ field ∈ record.fields, P field.2)
    : Passes P P (Action.newRecord record) := by
  intro s hs
  refine ⟨hP.scalar trivial, ⟨?_, hs.globals⟩, rfl⟩
  intro record' hrecord
  rcases Array.mem_push.1 hrecord with hrecord | rfl
  . exact hs.fields record' hrecord
  . exact h

theorem printLine (line : String) : Passes P (fun _ => True) (Action.printLine line) :=
  fun _ hs => ⟨trivial, ⟨hs.fields, hs.globals⟩, rfl⟩

end Action.Passes

include hP

namespace Operation

theorem inherited_apply {operation : Operation} {a b value : Value}
    (h : operation.apply a b = .ok value)
    : P value := by
  unfold apply at h
  split at h
  . cases h
  . split at h
    . split at h <;> cases h
      exact hP.scalar trivial
    . obtain ⟨x, -, h⟩ := exists_of_bind_ok h
      obtain ⟨y, -, h⟩ := exists_of_bind_ok h
      cases h
      exact hP.scalar trivial

theorem inherited_fold {operation : Operation} {start value : Value} {values : List Value}
    (hstart : P start) (h : operation.fold start values = .ok value)
    : P value :=
  foldlM_ok h hstart fun _ _ _ _ _ hnext => inherited_apply hP hnext

end Operation

theorem Value.inherited_negate {value result : Value} (h : value.negate = .ok result)
    : P result := by
  unfold negate at h
  split at h
  . split at h <;> cases h
    exact hP.scalar trivial
  . cases h
    exact hP.scalar trivial
  . cases hx : Value.number "-" value with
    | error => simp [hx, Except.map] at h
    | ok x =>
      simp only [hx, Except.map] at h
      cases h
      exact hP.scalar trivial

namespace Primitive

theorem inherited_hashMapOf {args : List Value} {value : Value} (hargs : ∀ arg ∈ args, P arg)
    (h : hashMapOf args = .ok value)
    : P value := by
  unfold hashMapOf at h
  split at h <;> cases h
  exact hP.pairs hargs

theorem inherited_size {value result : Value} (h : size value = .ok result) : P result := by
  unfold size at h
  split at h
  case h_4 => split at h <;> cases h; exact hP.scalar trivial
  all_goals cases h; exact hP.scalar trivial

theorem inherited_sequence {caller : String} {value : Value} {items : List Value}
    (hvalue : P value) (h : sequence caller value = .ok items)
    : ∀ item ∈ items, P item := by
  unfold sequence at h
  split at h
  . cases h
    exact List.forall_mem_nil _
  . split at h
    . next hitems =>
      cases h
      exact hP.elements hvalue hitems
    . cases h

theorem inherited_conjEntry {entries entries' : List (Value × Value)} {item : Value}
    (hentries : ∀ entry ∈ entries, P entry.1 ∧ P entry.2) (hitem : P item)
    (h : conjEntry entries item = .ok entries')
    : ∀ entry ∈ entries', P entry.1 ∧ P entry.2 := by
  unfold conjEntry at h
  split at h
  . next key value helements =>
    cases h
    have hpair := hP.elements hitem helements
    refine List.forall_mem_append.2 ⟨fun entry hentry => ?_, List.forall_mem_singleton.2 ⟨?_, ?_⟩⟩
    . exact hentries entry (List.mem_filter.1 hentry).1
    . exact hpair key (by simp)
    . exact hpair value (by simp)
  . cases h

theorem inherited_conjTo {collection value : Value} {items : List Value}
    (hcollection : P collection) (hitems : ∀ item ∈ items, P item)
    (h : conjTo collection items = .ok value)
    : P value := by
  have hreverse : ∀ item ∈ items.reverse, P item :=
    fun item hitem => hitems item (List.mem_reverse.1 hitem)
  unfold conjTo at h
  split at h
  . cases h
    exact hP.list hreverse
  . cases h
    exact hP.vector (List.forall_mem_append.2 ⟨hP.parts hcollection, hitems⟩)
  . cases h
    exact hP.list (List.forall_mem_append.2 ⟨hreverse, hP.parts hcollection⟩)
  . cases h
    exact hP.members (List.forall_mem_append.2 ⟨hP.parts hcollection, hitems⟩)
  . next existing =>
    obtain ⟨entries, hentries, h⟩ := exists_of_bind_ok h
    cases h
    exact hP.entries (foldlM_ok hentries (hP.entry hcollection)
      fun _ hdone item hitem _ hnext => inherited_conjEntry hP hdone (hitems item hitem) hnext)
  . cases h

theorem inherited_makeError {heap : Heap} {kind data value : Value} {message : Option Value}
    (hdata : P data) (h : makeError heap kind message data = .ok value)
    : P value := by
  unfold makeError at h
  split at h <;> cases h
  exact hP.error hdata

theorem inherited_errorParts {caller : String} {value : Value} {parts : String × String × Value}
    (hvalue : P value) (h : errorParts caller value = .ok parts)
    : P parts.2.2 := by
  unfold errorParts at h
  split at h <;> cases h
  exact hP.parts hvalue _ (List.mem_singleton_self _)

omit hP in
theorem forall_recordFields {values : List Value} {fields : List (String × Value)}
    (hvalues : ∀ value ∈ values, P value) (h : recordFields values = .ok fields)
    : ∀ field ∈ fields, P field.2 := by
  induction values using recordFields.induct generalizing fields with
  | case1 first value more name hname ih =>
    simp only [List.forall_mem_cons] at hvalues
    rw [recordFields, hname] at h
    obtain ⟨rest, hmore, h⟩ := exists_of_bind_ok h
    cases h
    exact List.forall_mem_cons.2 ⟨hvalues.2.1, ih hvalues.2.2 hmore⟩
  | case2 first value more hname =>
    rw [recordFields, hname] at h
    cases h
  | case3 values hshort =>
    unfold recordFields at h
    split at h
    . exact (hshort _ _ _ rfl).elim
    . cases h
      exact List.forall_mem_nil _

omit hP in
theorem forall_makeRecord {type : Value} {values : List Value} {record : Record}
    (hvalues : ∀ value ∈ values, P value) (h : makeRecord type values = .ok record)
    : ∀ field ∈ record.fields, P field.2 := by
  unfold makeRecord at h
  split at h
  . cases h
  . split at h
    . cases h
    . obtain ⟨fields, hfields, h⟩ := exists_of_bind_ok h
      cases h
      exact forall_recordFields hvalues hfields

theorem inherited_difference {args : List Value} {value : Value} (hargs : ∀ arg ∈ args, P arg)
    (h : difference args = .ok value)
    : P value := by
  unfold difference at h
  split at h
  . cases h
  . exact Value.inherited_negate hP h
  . exact Operation.inherited_fold hP (hargs _ (by simp)) h

theorem inherited_quotient {args : List Value} {value : Value} (hargs : ∀ arg ∈ args, P arg)
    (h : quotient args = .ok value)
    : P value := by
  unfold quotient at h
  split at h
  . cases h
  . exact Operation.inherited_apply hP h
  . exact Operation.inherited_fold hP (hargs _ (by simp)) h

theorem passes_apply (p : Primitive) {args : List Value} (hargs : ∀ arg ∈ args, P arg)
    : Action.Passes P P (p.apply args) := by
  have hscalar : ∀ {value : Value}, value.IsScalar → P value := hP.scalar
  unfold apply
  split
  case h_1 => exact .ofExcept hP fun _ => Operation.inherited_fold hP (hscalar trivial)
  case h_2 => exact .ofExcept hP fun _ => inherited_difference hP hargs
  case h_3 => exact .ofExcept hP fun _ => Operation.inherited_fold hP (hscalar trivial)
  case h_4 => exact .ofExcept hP fun _ => inherited_quotient hP hargs
  case h_5 | h_6 | h_7 => exact .ofExcept hP fun _ => Operation.inherited_apply hP
  case h_8 => exact .pure (hP.vector hargs)
  case h_9 => exact .pure (hP.list hargs)
  case h_10 => exact .ofExcept hP fun _ => inherited_hashMapOf hP hargs
  case h_11 => exact .pure (hP.members hargs)
  case h_12 collection key =>
    exact .withHeap fun _ hs =>
      .pure (hs.get hP (hargs collection (by simp)) (hargs key (by simp)))
  case h_13 collection key default =>
    refine .withHeap fun _ hs => .pure ?_
    split
    . exact hargs default (by simp)
    . exact hs.get hP (hargs collection (by simp)) (hargs key (by simp))
  case h_14 => exact .ofExcept hP fun _ => inherited_size hP
  case h_15 collection items =>
    rw [List.forall_mem_cons] at hargs
    exact .ofExcept hP fun _ => inherited_conjTo hP hargs.1 hargs.2
  case h_16 a =>
    refine .bind (.ofExcept hP fun _ => inherited_sequence hP (hargs a (by simp))) ?_
    intro items hitems
    refine .pure ?_
    cases items with
    | nil => exact hP.nil
    | cons first rest => exact hitems first (by simp)
  case h_17 a =>
    refine .bind (.ofExcept hP fun _ => inherited_sequence hP (hargs a (by simp))) ?_
    intro items hitems
    exact .pure (hP.list fun item hitem => hitems item (List.mem_of_mem_tail hitem))
  case h_18 | h_19 => exact .pure (hscalar trivial)
  case h_20 | h_21 | h_22 | h_23 =>
    exact .bind (.ofExcept hP fun _ _ => trivial) fun _ _ => .pure (hscalar trivial)
  case h_24 a =>
    split
    . exact .raise hP _
    . exact .throwValue (hargs a (by simp))
  case h_25 | h_26 => exact .withHeap fun _ _ => .ofExcept hP fun _ => inherited_makeError hP hP.nil
  case h_27 kind message data =>
    exact .withHeap fun _ _ => .ofExcept hP fun _ =>
      inherited_makeError hP (hargs data (by simp))
  case h_28 | h_29 =>
    exact .bind (.ofExcept hP fun _ _ => trivial) fun _ _ => .pure (hscalar trivial)
  case h_30 a =>
    exact .bind (.ofExcept hP fun _ => inherited_errorParts hP (hargs a (by simp)))
      fun _ h => .pure h
  case h_31 => exact .withHeap fun _ _ => .pure (hscalar trivial)
  case h_32 | h_33 | h_34 => exact .pure (hscalar trivial)
  case h_35 type fields =>
    rw [List.forall_mem_cons] at hargs
    exact .bind (.ofExcept hP fun _ => forall_makeRecord hargs.2) fun _ h => .newRecord hP h
  case h_36 =>
    exact .withHeap fun _ _ => .bind (.printLine _) fun _ _ => .pure (hscalar trivial)
  case h_37 => exact .raise hP _

theorem passes_call (p : Primitive) {args : List Value} (hargs : ∀ arg ∈ args, P arg)
    : Action.Passes P P (p.call args) :=
  .bind (.ofExcept hP fun _ _ => trivial) fun _ _ => passes_apply hP p hargs

end Primitive

end Resumable
