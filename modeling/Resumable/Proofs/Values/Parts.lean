import Resumable.Value.Equality

/-!
This module contains the parts of values, and what it means that something holds of a value at any
depth.
-/

namespace Resumable.Value

def parts : Value → List Value
  | .list items | .vector items | .set items => items
  | .map entries => entries.flatMap fun entry => [entry.1, entry.2]
  | .error _ _ data => [data]
  | _ => []

theorem forall_parts_map {P : Value → Prop} {entries : List (Value × Value)}
    : (∀ part ∈ (map entries).parts, P part) ↔ ∀ entry ∈ entries, P entry.1 ∧ P entry.2 := by
  simp only [parts, List.forall_mem_flatMap, List.forall_mem_cons, List.not_mem_nil, false_imp_iff,
    implies_true, and_true]

theorem sizeOf_parts_lt (value : Value) : ∀ part ∈ value.parts, sizeOf part < sizeOf value := by
  cases value with
  | list items | vector items | set items =>
    intro part hpart
    have hsize := List.sizeOf_lt_of_mem (show part ∈ items from hpart)
    simp only [list.sizeOf_spec, vector.sizeOf_spec, set.sizeOf_spec]
    omega
  | map entries =>
    refine forall_parts_map.2 fun ⟨key, value⟩ hentry => ?_
    have hsize := List.sizeOf_lt_of_mem hentry
    simp only [map.sizeOf_spec, Prod.mk.sizeOf_spec] at hsize ⊢
    omega
  | error kind message data =>
    refine List.forall_mem_singleton.2 ?_
    simp only [error.sizeOf_spec]
    omega
  | _ => exact List.forall_mem_nil _

@[elab_as_elim]
theorem induction {motive : Value → Prop}
    (step : ∀ value, (∀ part ∈ value.parts, motive part) → motive value) (value : Value)
    : motive value := by
  refine step value fun part hpart => ?_
  have hsize := sizeOf_parts_lt value part hpart
  exact induction step part
termination_by sizeOf value

inductive PartOf : Value → Value → Prop where
  | self {value : Value} : PartOf value value
  | part {inner part value : Value} :
    part ∈ value.parts → PartOf inner part → PartOf inner value

def Throughout (P : Value → Prop) (value : Value) : Prop :=
  ∀ inner : Value, inner.PartOf value → P inner

theorem throughout_iff {P : Value → Prop} {value : Value}
    : value.Throughout P ↔ P value ∧ ∀ part ∈ value.parts, part.Throughout P := by
  constructor
  . exact fun h => ⟨h value .self, fun part hpart inner hinner => h inner (.part hpart hinner)⟩
  . rintro ⟨hvalue, hparts⟩ inner hinner
    cases hinner with
    | self => exact hvalue
    | part hpart hinner => exact hparts _ hpart inner hinner

end Resumable.Value
