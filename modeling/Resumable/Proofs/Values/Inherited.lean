import Resumable.Proofs.Monad
import Resumable.Proofs.Source.Form
import Resumable.Proofs.Values.Parts
import Resumable.Run.Step

/-!
This module contains kinds of values that take in whatever is made of their values. What primitives
give and throw, and what they put into records, is of such a kind if their arguments are.
-/

namespace Resumable

namespace Value

def IsScalar : Value → Prop
  | .nil | .bool _ | .int _ | .float _ | .string _ | .keyword _ | .symbol _ | .record _ => True
  | _ => False

structure Inherited (P : Value → Prop) : Prop where
  scalar : ∀ {value : Value}, value.IsScalar → P value
  parts : ∀ {value : Value}, P value → ∀ part ∈ value.parts, P part
  list : ∀ {items : List Value}, (∀ item ∈ items, P item) → P (.list items)
  vector : ∀ {items : List Value}, (∀ item ∈ items, P item) → P (.vector items)
  entries : ∀ {entries : List (Value × Value)}, (∀ entry ∈ entries, P entry.1 ∧ P entry.2) →
    P (.ofEntries entries)
  members : ∀ {items : List Value}, (∀ item ∈ items, P item) → P (.ofMembers items)
  error : ∀ {kind message : String} {data : Value}, P data → P (.error kind message data)

section

variable {P : Value → Prop} {entries : List (Value × Value)} {items : List Value}

theorem forall_mem_setEntry {Q : Value → Prop} {key value : Value}
    (h : ∀ entry ∈ entries, P entry.1 ∧ Q entry.2) (hkey : P key) (hvalue : Q value)
    : ∀ entry ∈ setEntry entries key value, P entry.1 ∧ Q entry.2 := by
  induction entries with
  | nil => exact List.forall_mem_singleton.2 ⟨hkey, hvalue⟩
  | cons entry entries ih =>
    obtain ⟨hfirst, hrest⟩ := List.forall_mem_cons.1 h
    unfold setEntry
    split
    . exact List.forall_mem_cons.2 ⟨⟨hfirst.1, hvalue⟩, hrest⟩
    . exact List.forall_mem_cons.2 ⟨hfirst, ih hrest⟩

theorem forall_mem_addMember {value : Value} (h : ∀ item ∈ items, P item) (hvalue : P value)
    : ∀ member ∈ addMember items value, P member := by
  unfold addMember
  split
  . exact h
  . exact List.forall_mem_append.2 ⟨h, List.forall_mem_singleton.2 hvalue⟩

theorem forall_parts_ofEntries (h : ∀ entry ∈ entries, P entry.1 ∧ P entry.2)
    : ∀ part ∈ (ofEntries entries).parts, P part :=
  List.foldlRecOn (motive := fun done => ∀ part ∈ (map done).parts, P part) entries _
    (List.forall_mem_nil _) fun _ hdone _ hentry =>
      forall_parts_map.2 (forall_mem_setEntry (forall_parts_map.1 hdone) (h _ hentry).1 (h _ hentry).2)

theorem forall_parts_ofMembers (h : ∀ item ∈ items, P item)
    : ∀ part ∈ (ofMembers items).parts, P part :=
  show ∀ part ∈ items.foldl addMember [], P part from
    List.foldlRecOn (motive := fun done => ∀ part ∈ done, P part) items _
      (List.forall_mem_nil _) fun _ hdone item hitem => forall_mem_addMember hdone (h item hitem)

theorem forall_mem_pairUp (h : ∀ item ∈ items, P item) (hnil : P .nil)
    : ∀ entry ∈ pairUp .nil items, P entry.1 ∧ P entry.2 := by
  induction items using pairUp.induct with
  | case1 => exact List.forall_mem_nil _
  | case2 value => exact List.forall_mem_singleton.2 ⟨h value List.mem_cons_self, hnil⟩
  | case3 key value rest ih =>
    simp only [List.forall_mem_cons] at h
    rw [pairUp, List.forall_mem_cons]
    exact ⟨⟨h.1, h.2.1⟩, ih h.2.2⟩

end

theorem inherited_throughout {P : Value → Prop} (hscalar : ∀ {value : Value}, value.IsScalar → P value)
    (hlist : ∀ items, P (.list items)) (hvector : ∀ items, P (.vector items))
    (hentries : ∀ entries, P (.ofEntries entries)) (hmembers : ∀ items, P (.ofMembers items))
    (herror : ∀ kind message data, P (.error kind message data))
    : Inherited (Throughout P) where
  scalar {value} h := by
    refine throughout_iff.2 ⟨hscalar h, fun part hpart => ?_⟩
    cases value <;> first | exact False.elim h | cases hpart
  parts h := (throughout_iff.1 h).2
  list h := throughout_iff.2 ⟨hlist _, h⟩
  vector h := throughout_iff.2 ⟨hvector _, h⟩
  entries h := throughout_iff.2 ⟨hentries _, forall_parts_ofEntries h⟩
  members h := throughout_iff.2 ⟨hmembers _, forall_parts_ofMembers h⟩
  error h := throughout_iff.2 ⟨herror _ _ _, List.forall_mem_singleton.2 h⟩

namespace Inherited

variable {P : Value → Prop} (hP : Inherited P)

include hP

theorem nil : P .nil :=
  hP.scalar trivial

theorem entry {entries : List (Value × Value)} (h : P (.map entries))
    : ∀ entry ∈ entries, P entry.1 ∧ P entry.2 :=
  forall_parts_map.1 (hP.parts h)

theorem pairs {items : List Value} (h : ∀ item ∈ items, P item) : P (.ofEntries (pairUp .nil items)) :=
  hP.entries (forall_mem_pairUp h hP.nil)

theorem elements {value : Value} {items : List Value} (h : P value)
    (hitems : value.elements? = some items)
    : ∀ item ∈ items, P item := by
  cases value with
  | list | vector | set =>
    cases hitems
    exact hP.parts h
  | _ => cases hitems

theorem getD {found : Option Value} (h : ∀ value, found = some value → P value)
    : P (found.getD .nil) := by
  cases found with
  | none => exact hP.nil
  | some value => exact h value rfl

theorem fault (fault : Fault) : P fault.toValue :=
  hP.error hP.nil

end Inherited

end Value

section

variable {P : Value → Prop} (hP : Value.Inherited P)

include hP

theorem Atom.inherited_toValue (atom : Atom) : P atom.toValue :=
  hP.scalar (by cases atom <;> trivial)

namespace Form

omit hP in
theorem toValues_eq_map (forms : List Form) : toValues forms = forms.map toValue := by
  induction forms with
  | nil => rfl
  | cons form forms ih => rw [toValues, ih, List.map_cons]

theorem inherited_toValue (form : Form) : P form.toValue := by
  induction form using Form.induction with
  | atom value span =>
    rw [toValue]
    exact value.inherited_toValue hP
  | group bracket items span ih =>
    have hitems : ∀ value ∈ toValues items, P value := by
      rw [toValues_eq_map]
      exact List.forall_mem_map.2 ih
    rw [toValue]
    cases bracket with
    | list => exact hP.list hitems
    | vector => exact hP.vector hitems
    | map => exact hP.pairs hitems
    | set => exact hP.members hitems
  | quote inner span ih =>
    rw [toValue]
    refine hP.list (List.forall_mem_cons.2 ⟨hP.scalar trivial, ?_⟩)
    exact List.forall_mem_singleton.2 ih

end Form

end

end Resumable
