import Resumable.Table

/-!
This module contains the laws of tables: looking an entry up after an insertion, and the order of
the entries.
-/

namespace Resumable.Table

section

variable {κ α : Type} [DecidableEq κ]

theorem get?.go_append (key : κ) (l m : List (κ × α))
    : get?.go key (l ++ m) = (get?.go key l).or (get?.go key m) := by
  induction l with
  | nil => simp [get?.go]
  | cons entry l ih =>
    obtain ⟨k, a⟩ := entry
    by_cases hk : k = key <;> simp [get?.go, hk, ih]

theorem get?.go_ne_none {key : κ} {a : α} {l : List (κ × α)} (h : (key, a) ∈ l)
    : get?.go key l ≠ none := by
  induction l with
  | nil => simp at h
  | cons entry l ih =>
    obtain ⟨k, b⟩ := entry
    simp only [get?.go]
    split
    . simp
    . next hk =>
      rcases List.mem_cons.1 h with h | h
      . cases h
        contradiction
      . exact ih h

theorem get?.go_insert [LT κ] [DecidableLT κ] (key : κ) (a : α) (key' : κ) (l : List (κ × α))
    : get?.go key' (insert.go key a l) = if key = key' then some a else get?.go key' l := by
  induction l with
  | nil => simp [get?.go, insert.go]
  | cons entry l ih =>
    obtain ⟨k, b⟩ := entry
    unfold insert.go
    split
    . next hk =>
      subst hk
      by_cases h : k = key' <;> simp [get?.go, h]
    . split
      . simp [get?.go]
      . simp only [get?.go]
        rw [ih]
        by_cases h : k = key'
        . subst h
          simp_all [eq_comm]
        . simp [h]

@[simp]
theorem get?_insert [LT κ] [DecidableLT κ] (table : Table κ α) (key : κ) (a : α) (key' : κ)
    : (table.insert key a).get? key' = if key = key' then some a else table.get? key' := by
  unfold get? insert
  apply get?.go_insert

@[simp]
theorem get?_empty (key : κ) : ({} : Table κ α).get? key = none := rfl

theorem mem_of_get? {table : Table κ α} {key : κ} {a : α} (h : table.get? key = some a)
    : (key, a) ∈ table.entries := by
  unfold get? at h
  generalize table.entries = l at h
  induction l with
  | nil => simp [get?.go] at h
  | cons entry l ih =>
    obtain ⟨k, b⟩ := entry
    simp only [get?.go] at h
    split at h
    . next hk =>
      cases h
      simp [hk]
    . simp [ih h]

theorem get?_of_mem {table : Table κ α} (nodup : (table.entries.map (·.1)).Nodup) {key : κ} {a : α}
    (h : (key, a) ∈ table.entries)
    : table.get? key = some a := by
  unfold get?
  generalize table.entries = l at nodup h
  induction l with
  | nil => simp at h
  | cons entry l ih =>
    obtain ⟨k, b⟩ := entry
    simp only [List.map_cons, List.nodup_cons] at nodup
    simp only [get?.go]
    rcases List.mem_cons.1 h with h | h
    . cases h
      simp
    . have hk : k ≠ key := by
        rintro rfl
        exact nodup.1 (List.mem_map.2 ⟨_, h, rfl⟩)
      rw [if_neg hk, ih nodup.2 h]

theorem foldl_insert_get? [LT κ] [DecidableLT κ] (entries : List (κ × α)) (table : Table κ α)
    (key : κ)
    : (entries.foldl (fun table (key, a) => table.insert key a) table).get? key
        =
      (get?.go key entries.reverse).or (table.get? key) := by
  induction entries generalizing table with
  | nil => simp [get?.go]
  | cons entry entries ih =>
    obtain ⟨k, a⟩ := entry
    rw [List.foldl_cons, ih, List.reverse_cons, get?.go_append, Option.or_assoc]
    by_cases hk : k = key <;> simp [get?.go, hk]

theorem get?_ofList [LT κ] [DecidableLT κ] (entries : List (κ × α)) (key : κ)
    : (ofList entries).get? key = get?.go key entries.reverse := by
  unfold ofList
  rw [foldl_insert_get?]
  simp

theorem eq_of_get?_single [LT κ] [DecidableLT κ] {key key' : κ} {a a' : α}
    (h : (ofList [(key, a)]).get? key' = some a')
    : a' = a := by
  simp only [get?_ofList, List.reverse_singleton, get?.go] at h
  split at h
  . exact (Option.some.inj h).symm
  . cases h

theorem insert.go_mem [LT κ] [DecidableLT κ] {key : κ} {a : α} {l : List (κ × α)} {entry : κ × α}
    (h : entry ∈ insert.go key a l)
    : entry = (key, a) ∨ entry ∈ l := by
  induction l with
  | nil => exact .inl (List.mem_singleton.1 h)
  | cons first l ih =>
    obtain ⟨k, b⟩ := first
    unfold insert.go at h
    split at h
    . exact (List.mem_cons.1 h).imp_right (List.mem_cons_of_mem _)
    . split at h
      . exact List.mem_cons.1 h
      . rcases List.mem_cons.1 h with rfl | h
        . exact .inr (List.mem_cons_self ..)
        . exact (ih h).imp_right (List.mem_cons_of_mem _)

theorem mem_of_mem_ofList [LT κ] [DecidableLT κ] {entries : List (κ × α)} {entry : κ × α}
    (h : entry ∈ (ofList entries).entries)
    : entry ∈ entries := by
  have hfold : ∀ (l : List (κ × α)) (table : Table κ α),
      entry ∈ (l.foldl (fun table (key, a) => table.insert key a) table).entries →
        entry ∈ l ∨ entry ∈ table.entries := by
    intro l
    induction l with
    | nil => exact fun _ h => .inr h
    | cons first l ih =>
      intro table h
      rcases ih _ h with hl | htable
      . exact .inl (List.mem_cons_of_mem _ hl)
      . rcases insert.go_mem htable with rfl | hold
        . exact .inl (List.mem_cons_self ..)
        . exact .inr hold
  rcases hfold entries {} h with hmem | hmem
  . exact hmem
  . cases hmem

end

section

variable {κ α : Type} [DecidableEq κ] [LT κ] [DecidableLT κ]

theorem insert.go_lower {key low : κ} {a : α} {l : List (κ × α)} (h : low < key)
    (hl : ∀ k ∈ l.map (·.1), low < k)
    : ∀ k ∈ (insert.go key a l).map (·.1), low < k := by
  induction l with
  | nil => simpa [insert.go] using h
  | cons entry l ih =>
    obtain ⟨k, b⟩ := entry
    rw [List.map_cons, List.forall_mem_cons] at hl
    unfold insert.go
    split
    . rw [List.map_cons, List.forall_mem_cons]
      exact ⟨h, hl.2⟩
    . split
      . rw [List.map_cons, List.forall_mem_cons, List.map_cons, List.forall_mem_cons]
        exact ⟨h, hl⟩
      . rw [List.map_cons, List.forall_mem_cons]
        exact ⟨hl.1, ih hl.2⟩

variable [Trans (α := κ) (· < ·) (· < ·) (· < ·)] [Std.Trichotomous (α := κ) (· < ·)]

theorem insert.go_pairwise {key : κ} {a : α} {l : List (κ × α)}
    (h : (l.map (·.1)).Pairwise (· < ·))
    : ((insert.go key a l).map (·.1)).Pairwise (· < ·) := by
  induction l with
  | nil => simp [insert.go]
  | cons entry l ih =>
    obtain ⟨k, b⟩ := entry
    simp only [List.map_cons, List.pairwise_cons] at h
    unfold insert.go
    split
    . next hk =>
      subst hk
      simpa using h
    . next hne =>
      split
      . next hk =>
        simp only [List.map_cons, List.pairwise_cons]
        refine ⟨?_, h⟩
        intro k' hk'
        rcases List.mem_cons.1 hk' with rfl | hk'
        . exact hk
        . exact Trans.trans hk (h.1 k' hk')
      . next hnot =>
        have hlow : k < key := Decidable.byContradiction fun hlow =>
          hne (Std.Trichotomous.trichotomous k key hlow hnot)
        simp only [List.map_cons, List.pairwise_cons]
        exact ⟨insert.go_lower hlow h.1, ih h.2⟩

theorem pairwise_ofList (entries : List (κ × α))
    : ((ofList entries).entries.map (·.1)).Pairwise (· < ·) := by
  have hfold : ∀ (entries : List (κ × α)) (table : Table κ α),
      (table.entries.map (·.1)).Pairwise (· < ·) →
        ((entries.foldl (fun table (key, a) => table.insert key a) table).entries.map
          (·.1)).Pairwise (· < ·) := by
    intro entries
    induction entries with
    | nil => exact fun _ h => h
    | cons entry entries ih => exact fun table h => ih _ (insert.go_pairwise h)
  exact hfold entries {} List.Pairwise.nil

theorem nodup_ofList [Std.Irrefl (α := κ) (· < ·)] (entries : List (κ × α))
    : ((ofList entries).entries.map (·.1)).Nodup := by
  refine (pairwise_ofList entries).imp ?_
  rintro a b hlt rfl
  exact Std.Irrefl.irrefl a hlt

end

section

variable {α : Type}

/--
Whether the keys of a table ascend.
-/
def Ascending (table : Table Nat α) : Prop :=
  (table.entries.map (·.1)).Pairwise (· < ·)

theorem Ascending.insert {table : Table Nat α} (h : table.Ascending) (key : Nat) (a : α)
    : (table.insert key a).Ascending :=
  insert.go_pairwise h

theorem Ascending.nodup {table : Table Nat α} (h : table.Ascending)
    : (table.entries.map (·.1)).Nodup :=
  h.imp Nat.ne_of_lt

theorem Ascending.mem_iff {table : Table Nat α} (h : table.Ascending) {key : Nat} {a : α}
    : (key, a) ∈ table.entries ↔ table.get? key = some a :=
  ⟨get?_of_mem h.nodup, mem_of_get?⟩

theorem Ascending.filter {table : Table Nat α} (h : table.Ascending) (p : Nat × α → Bool)
    : Ascending ⟨table.entries.filter p⟩ :=
  List.Pairwise.sublist (List.filter_sublist.map _) h

end

end Resumable.Table
