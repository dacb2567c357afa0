import Resumable.Proofs.Values.Equality
import Resumable.Proofs.Values.Primitives

/-!
This module contains the proof that no value is built in which a map has two equal keys or a set two
equal members, and that equality is an equivalence on the values that are built.
-/

namespace Resumable

namespace Value

theorem unrepeated_setEntry {entries : List (Value × Value)} {key value : Value}
    (h : (map entries).Unrepeated)
    : (map (setEntry entries key value)).Unrepeated := by
  induction entries with
  | nil => exact List.pairwise_singleton _ _
  | cons entry entries ih =>
    obtain ⟨hfirst, hrest⟩ := List.pairwise_cons.1 h
    unfold setEntry
    split
    . exact .cons hfirst hrest
    . next hother =>
      refine .cons (fun later hlater => ?_) (ih hrest)
      exact (forall_mem_setEntry (P := fun k => (entry.1 == k) = false) (Q := fun _ => True)
        (fun e he => ⟨hfirst e he, trivial⟩) (Bool.eq_false_iff.2 hother) trivial later hlater).1

theorem unrepeated_addMember {members : List Value} {value : Value} (h : (set members).Unrepeated)
    : (set (addMember members value)).Unrepeated := by
  unfold addMember
  split
  . exact h
  . next hother =>
    refine List.pairwise_append.2 ⟨h, List.pairwise_singleton _ _, fun member hmember new hnew => ?_⟩
    rw [List.mem_singleton.1 hnew, Bool.eq_false_iff]
    exact fun heq => hother (List.any_eq_true.2 ⟨member, hmember, heq⟩)

theorem unrepeated_ofEntries (entries : List (Value × Value)) : (ofEntries entries).Unrepeated :=
  List.foldlRecOn (motive := fun done => (map done).Unrepeated) entries _ .nil
    fun _ hdone _ _ => unrepeated_setEntry hdone

theorem unrepeated_ofMembers (members : List Value) : (ofMembers members).Unrepeated :=
  List.foldlRecOn (motive := fun done => (set done).Unrepeated) members _ .nil
    fun _ hdone _ _ => unrepeated_addMember hdone

theorem inherited_distinct : Inherited Distinct := by
  refine inherited_throughout ?_ (fun _ => trivial) (fun _ => trivial) unrepeated_ofEntries
    unrepeated_ofMembers fun _ _ _ => trivial
  intro value h
  cases value <;> first | exact False.elim h | trivial

end Value

theorem Primitive.call_equal {args : List Value} (hargs : args ≠ []) (store : Store)
    : ∃ answer, Primitive.equal.call args store = .ok (.bool answer) store ∧
        (answer = true ↔ args.Pairwise fun a b => (a == b) = true) := by
  refine ⟨betweenNeighbours (· == ·) args, ?_, betweenNeighbours_beq_iff⟩
  have hcheck : Primitive.equal.signature.arity.check Primitive.equal.name args.length = .ok () :=
    if_pos (decide_eq_true (List.length_pos_iff.2 hargs))
  rw [call, hcheck]
  rfl

/--
Equality of values is an equivalence: it is symmetric on values in which nothing is repeated,
transitive, and reflexive on values without a NaN, and what has an identity equals itself alone. So
the primitive `=`, which compares neighbours only, tells whether all of its arguments are equal to
each other. What is quoted or given by a primitive repeats nothing, if the arguments of the primitive
and what it finds in the store do not.
-/
theorem Value.equality_equivalence
    : (∀ a b : Value, a.Distinct → (a == b) = true → (b == a) = true) ∧
      (∀ a b c : Value, (a == b) = true → (b == c) = true → (a == c) = true) ∧
      (∀ a : Value, a.Numeric → (a == a) = true) ∧
      (∀ (a b : Value) (label : Label), a.label? = some label →
        ((a == b) = true ↔ b.label? = some label)) ∧
      (∀ (args : List Value) (store : Store), args ≠ [] →
        ∃ answer, Primitive.equal.call args store = .ok (.bool answer) store ∧
          (answer = true ↔ args.Pairwise fun a b => (a == b) = true)) ∧
      (∀ form : Form, form.toValue.Distinct) ∧
      ∀ (p : Primitive) (args : List Value), (∀ arg ∈ args, arg.Distinct) →
        Action.Passes Distinct Distinct (p.call args) :=
  ⟨fun _ _ => beq_symm, fun _ _ _ => beq_trans, fun _ => beq_refl, fun _ _ _ => label_beq_iff,
    fun _ store hargs => Primitive.call_equal hargs store,
    fun form => form.inherited_toValue inherited_distinct,
    fun p _ hargs => p.passes_call inherited_distinct hargs⟩

theorem Value.equality_equivalence_reordered
    : ∃ a b : Value, a = .set [.int 1, .vector [.int 2]] ∧ b = .set [.list [.int 2], .int 1] ∧
        a.Distinct ∧ (a == b) = true ∧ (b == a) = true ∧
        ∀ store, Primitive.equal.call [a, b, a] store = .ok (.bool true) store := by
  obtain ⟨hsymm, htrans, -, -, hcall, -, -⟩ := equality_equivalence
  have hleaf : ∀ n, (int n).Distinct := fun _ => throughout_iff.2 ⟨trivial, List.forall_mem_nil _⟩
  have ha : (set [int 1, vector [int 2]]).Distinct := by
    refine throughout_iff.2 ⟨by simp [Unrepeated, BEq.beq, beq], ?_⟩
    refine List.forall_mem_cons.2 ⟨hleaf 1, List.forall_mem_singleton.2 ?_⟩
    exact throughout_iff.2 ⟨trivial, List.forall_mem_singleton.2 (hleaf 2)⟩
  have hab : (set [int 1, vector [int 2]] == set [list [int 2], int 1]) = true := by
    simp [BEq.beq, beq, membersWithin, beqItems]
  have hba := hsymm _ _ ha hab
  refine ⟨_, _, rfl, rfl, ha, hab, hba, fun store => ?_⟩
  obtain ⟨answer, hanswer, hequal⟩ := hcall [_, _, _] store (List.cons_ne_nil _ _)
  rw [hanswer, hequal.2]
  simpa using ⟨⟨hab, htrans _ _ _ hab hba⟩, hba⟩

end Resumable
