import Mathlib
import Resumable.Proofs.Table
import Resumable.Scope.Aliases

/-!
This module contains what names resolve to. The names that are met when aliases are followed from a
name are a tail, none of whose names comes again, and a cycle that is entered behind it. Where
the aliases come to an end, the cycle is the last name alone, and the name resolves to it. Otherwise
the result is some name of the cycle, which one depends on the number of all aliases.
-/

namespace Resumable.Aliases

open Function (iterate_add_apply iterate_succ_apply iterate_succ_apply')

def next (aliases : Aliases) (name : String) : String :=
  (aliases.table.get? name).getD name

/--
Whether no alias leads on from a name: it has none, or itself for one.
-/
def IsLast (aliases : Aliases) (name : String) : Prop :=
  aliases.table.get? name = none ∨ aliases.table.get? name = some name

def addAll (aliases : Aliases) (entries : List (String × String)) : Aliases :=
  entries.foldl (fun aliases (name, target) => aliases.add name target) aliases

/--
Whether the names behind a name are a tail and a cycle of some lengths. They are all different, and
then the first name of the cycle is met again: it is the first name that is visited twice.
-/
structure Winds (aliases : Aliases) (name : String) (tail cycle : Nat) : Prop where
  positive : 0 < cycle
  distinct : Set.InjOn (fun i => aliases.next^[i] name) (Set.Iio (tail + cycle))
  closed : aliases.next^[tail + cycle] name = aliases.next^[tail] name

section

variable {aliases : Aliases} {name : String}

theorem isLast_iff : aliases.IsLast name ↔ aliases.next name = name := by
  unfold IsLast next
  cases aliases.table.get? name with
  | none => simp
  | some target => simp

theorem resolve_go_eq (rounds : Nat)
    : resolve.go aliases rounds name = aliases.next^[rounds] name := by
  induction rounds generalizing name with
  | zero => rfl
  | succ rounds ih =>
    rw [iterate_succ_apply, resolve.go]
    cases h : aliases.table.get? name with
    | none =>
      have hnext : aliases.next name = name := isLast_iff.1 (.inl h)
      rw [hnext, Function.iterate_fixed hnext]
    | some target =>
      have hnext : aliases.next name = target := by simp [next, h]
      dsimp only
      split
      . next hself => rw [hnext, hself, Function.iterate_fixed (hself ▸ hnext)]
      . rw [hnext, ih]

theorem resolve_eq : aliases.resolve name = aliases.next^[aliases.table.size + 1] name :=
  resolve_go_eq _

theorem le_size {n : Nat} (hdistinct : Set.InjOn (fun i => aliases.next^[i] name) (Set.Iio n))
    (hgoes : ∀ i < n, aliases.next^[i + 1] name ≠ aliases.next^[i] name)
    : n ≤ aliases.table.size := by
  let keys := (aliases.table.entries.map (·.1)).toFinset
  have hkey : ∀ i < n, aliases.next^[i] name ∈ keys := by
    intro i hi
    cases htarget : aliases.table.get? (aliases.next^[i] name) with
    | none =>
      have hlast := isLast_iff.1 (.inl htarget)
      exact absurd (iterate_succ_apply' .. ▸ hlast) (hgoes i hi)
    | some target =>
      have hmem := Table.mem_of_get? htarget
      exact List.mem_toFinset.2 (List.mem_map_of_mem hmem)
  calc
    n = (Finset.range n).card := (Finset.card_range n).symm
    _ ≤ keys.card := by
      refine Finset.card_le_card_of_injOn (fun i => aliases.next^[i] name) ?_ ?_
      . exact fun i hi => hkey i (Finset.mem_range.1 hi)
      . simpa using hdistinct
    _ ≤ aliases.table.size := by
      simpa [Table.size] using List.toFinset_card_le (aliases.table.entries.map (·.1))

theorem not_distinct (aliases : Aliases) (name : String)
    : ¬ Set.InjOn (fun i => aliases.next^[i] name) (Set.Iio (aliases.table.size + 2)) := by
  intro hdistinct
  have hle : aliases.table.size + 1 ≤ aliases.table.size := by
    refine le_size (hdistinct.mono (Set.Iio_subset_Iio (Nat.le_succ _))) fun i hi heq => ?_
    have hsame := hdistinct (Set.mem_Iio.2 (Nat.succ_lt_succ hi))
      (Set.mem_Iio.2 (Nat.lt_succ_of_lt hi)) heq
    exact Nat.succ_ne_self i hsame
  exact Nat.not_succ_le_self _ hle

theorem exists_winds (aliases : Aliases) (name : String)
    : ∃ tail cycle, aliases.Winds name tail cycle := by
  classical
  have hrepeats : ∃ n, ¬ Set.InjOn (fun i => aliases.next^[i] name) (Set.Iio n) :=
    ⟨_, not_distinct aliases name⟩
  -- `n` is where a name is visited for the second time
  obtain ⟨n, hn⟩ : ∃ n, Nat.find hrepeats = n + 1 := by
    refine Nat.exists_eq_succ_of_ne_zero fun hzero => Nat.find_spec hrepeats ?_
    simp [hzero]
  have hdistinct : Set.InjOn (fun i => aliases.next^[i] name) (Set.Iio n) :=
    not_not.1 (Nat.find_min hrepeats (hn ▸ Nat.lt_succ_self n))
  have hagain : aliases.next^[n] name ∈ (fun i => aliases.next^[i] name) '' Set.Iio n := by
    have hspec := Nat.find_spec hrepeats
    rw [hn, ← Order.succ_eq_add_one, Order.Iio_succ_eq_insert,
      Set.injOn_insert (Set.self_notMem_Iio)] at hspec
    exact not_not.1 fun h => hspec ⟨hdistinct, h⟩
  obtain ⟨tail, htail, heq⟩ := hagain
  have hlt : tail < n := htail
  refine ⟨tail, n - tail, Nat.sub_pos_of_lt hlt, ?_, ?_⟩
  . rwa [Nat.add_sub_cancel' hlt.le]
  . rw [Nat.add_sub_cancel' hlt.le]
    exact heq.symm

namespace Winds

variable {tail cycle : Nat} (h : aliases.Winds name tail cycle)

include h

theorem le_size : tail + cycle ≤ aliases.table.size + 1 := by
  refine Nat.le_of_not_lt fun hlt => not_distinct aliases name ?_
  exact h.distinct.mono (Set.Iio_subset_Iio hlt)

theorem periodic (i : Nat)
    : Function.IsPeriodicPt aliases.next cycle (aliases.next^[i] (aliases.next^[tail] name)) := by
  have hclosed : Function.IsPeriodicPt aliases.next cycle (aliases.next^[tail] name) := by
    refine (iterate_add_apply ..).symm.trans ?_
    rw [Nat.add_comm]
    exact h.closed
  exact hclosed.apply_iterate i

theorem iterate_eq_iff {i j : Nat}
    : aliases.next^[tail + i] name = aliases.next^[tail + j] name ↔ i ≡ j [MOD cycle] := by
  have hmod : ∀ i,
      aliases.next^[tail + i] name = aliases.next^[tail + i % cycle] name := fun i => by
    rw [Nat.add_comm, iterate_add_apply, Nat.add_comm, iterate_add_apply]
    exact ((h.periodic 0).iterate_mod_apply i).symm
  have hlt : ∀ i, tail + i % cycle < tail + cycle := fun i =>
    Nat.add_lt_add_left (Nat.mod_lt i h.positive) tail
  rw [hmod i, hmod j]
  constructor
  . exact fun heq => Nat.add_left_cancel (h.distinct (hlt i) (hlt j) heq)
  . exact fun heq => congrArg (fun k => aliases.next^[tail + k] name) heq

theorem resolve
    : aliases.resolve name
        = aliases.next^[tail + (aliases.table.size + 1 - tail) % cycle] name := by
  have hle : tail ≤ aliases.table.size + 1 := Nat.le_trans (Nat.le_add_right ..) h.le_size
  rw [resolve_eq, h.iterate_eq_iff.2 (Nat.mod_modEq ..), Nat.add_sub_cancel' hle]

theorem resolve_eq_first_iff
    : aliases.resolve name = aliases.next^[tail] name ↔ cycle ∣ aliases.table.size + 1 - tail := by
  rw [h.resolve]
  refine (h.iterate_eq_iff (j := 0)).trans ?_
  rw [Nat.modEq_zero_iff_dvd, Nat.dvd_mod_iff (Nat.dvd_refl cycle)]

theorem resolve_resolve_iff
    : aliases.resolve (aliases.resolve name) = aliases.resolve name ↔
        cycle ∣ aliases.table.size + 1 := by
  rw [h.resolve, resolve_eq, ← iterate_add_apply, Nat.add_comm, Nat.add_assoc, h.iterate_eq_iff]
  refine Iff.trans ?_ (Nat.modEq_zero_iff_dvd (n := cycle))
  exact ⟨fun h => Nat.ModEq.add_left_cancel' _ h, fun h => h.add_left _⟩

theorem cycle_eq_one_iff : cycle = 1 ↔ ∃ i, aliases.IsLast (aliases.next^[i] name) := by
  constructor
  . rintro rfl
    exact ⟨tail, isLast_iff.2 ((iterate_succ_apply' ..).symm.trans h.closed)⟩
  . rintro ⟨i, hlast⟩
    have hfixed : ∀ j, aliases.next^[i + j] name = aliases.next^[i] name := fun j => by
      rw [Nat.add_comm, iterate_add_apply, Function.iterate_fixed (isLast_iff.1 hlast)]
    have hsame : aliases.next^[tail + i] name = aliases.next^[tail + (i + 1)] name := by
      rw [Nat.add_left_comm, Nat.add_comm, hfixed, hfixed]
    have hzero : 0 ≡ 1 [MOD cycle] := Nat.ModEq.add_left_cancel' i (h.iterate_eq_iff.1 hsame)
    exact Nat.dvd_one.1 (Nat.modEq_zero_iff_dvd.1 hzero.symm)

end Winds

theorem resolve_of_isLast {i : Nat} (hlast : aliases.IsLast (aliases.next^[i] name))
    : aliases.resolve name = aliases.next^[i] name := by
  obtain ⟨tail, cycle, h⟩ := exists_winds aliases name
  obtain rfl := h.cycle_eq_one_iff.2 ⟨i, hlast⟩
  calc
    aliases.resolve name
    _ = aliases.next^[tail] name := h.resolve_eq_first_iff.2 (Nat.one_dvd _)
    _ = aliases.next^[tail + i] name := h.iterate_eq_iff.2 (Nat.modEq_one (a := 0) (b := i))
    _ = aliases.next^[i] name := by
      rw [iterate_add_apply, Function.iterate_fixed (isLast_iff.1 hlast)]

variable {entries : List (String × String)}

theorem next_addAll (h : ∀ entry ∈ entries, entry.1 ≠ name)
    : (aliases.addAll entries).next name = aliases.next name := by
  induction entries generalizing aliases with
  | nil => rfl
  | cons entry entries ih =>
    obtain ⟨hentry, hentries⟩ := List.forall_mem_cons.1 h
    refine (ih hentries).trans ?_
    simp [next, add, hentry]

theorem iterate_addAll (h : ∀ i, ∀ entry ∈ entries, entry.1 ≠ aliases.next^[i] name) (i : Nat)
    : (aliases.addAll entries).next^[i] name = aliases.next^[i] name := by
  induction i with
  | zero => rfl
  | succ i ih => rw [iterate_succ_apply', ih, next_addAll (h i), iterate_succ_apply']

theorem Winds.resolve_addAll_iff {tail cycle : Nat} (hwinds : aliases.Winds name tail cycle)
    (h : ∀ i, ∀ entry ∈ entries, entry.1 ≠ aliases.next^[i] name)
    : (aliases.addAll entries).resolve name = aliases.resolve name ↔
        (aliases.addAll entries).table.size ≡ aliases.table.size [MOD cycle] := by
  have hmore : (aliases.addAll entries).Winds name tail cycle :=
    { positive := hwinds.positive
      distinct := by simpa only [iterate_addAll h] using hwinds.distinct
      closed := by simpa only [iterate_addAll h] using hwinds.closed }
  -- the steps inside of the cycle are those that are left when the tail is taken from all steps
  have hsteps : ∀ {table : Aliases}, table.Winds name tail cycle →
      table.table.size + 1 - tail + tail = table.table.size + 1 := fun h =>
    Nat.sub_add_cancel (Nat.le_trans (Nat.le_add_right ..) h.le_size)
  rw [hmore.resolve, hwinds.resolve, iterate_addAll h, hwinds.iterate_eq_iff]
  calc
    _ ↔ (aliases.addAll entries).table.size + 1 - tail
          ≡ aliases.table.size + 1 - tail [MOD cycle] := by
      unfold Nat.ModEq
      rw [Nat.mod_mod, Nat.mod_mod]
    _ ↔ (aliases.addAll entries).table.size + 1 ≡ aliases.table.size + 1 [MOD cycle] := by
      rw [← Nat.ModEq.add_iff_right (.refl tail), hsteps hmore, hsteps hwinds]
    _ ↔ _ := Nat.ModEq.add_iff_right (.refl 1)

end

/--
Resolving follows aliases. Where they come to an end, a name resolves to the last one that is met,
which resolves to itself, and aliases for other names change nothing. Where they do not, the
result is the name of the cycle that so many steps lead to as there are aliases, and one more. So it
is the first name that is visited twice only if the cycle divides the number of steps behind the
tail, resolving again gives the same name only if it divides the number of all steps, and aliases
for other names change the result unless their number is made up of rounds.
-/
theorem resolve_follows (aliases : Aliases) (name : String)
    : (∀ i, aliases.IsLast (aliases.next^[i] name) →
        aliases.resolve name = aliases.next^[i] name ∧
        aliases.resolve (aliases.next^[i] name) = aliases.next^[i] name) ∧
      (∃ tail cycle, aliases.Winds name tail cycle) ∧
      ∀ tail cycle, aliases.Winds name tail cycle →
        (cycle = 1 ↔ ∃ i, aliases.IsLast (aliases.next^[i] name)) ∧
        aliases.resolve name
          = aliases.next^[tail + (aliases.table.size + 1 - tail) % cycle] name ∧
        (aliases.resolve name = aliases.next^[tail] name ↔ cycle ∣ aliases.table.size + 1 - tail) ∧
        (aliases.resolve (aliases.resolve name) = aliases.resolve name ↔
          cycle ∣ aliases.table.size + 1) ∧
        ∀ entries : List (String × String),
          (∀ i, ∀ entry ∈ entries, entry.1 ≠ aliases.next^[i] name) →
            ((aliases.addAll entries).resolve name = aliases.resolve name ↔
              (aliases.addAll entries).table.size ≡ aliases.table.size [MOD cycle]) := by
  refine ⟨fun i hlast => ?_, exists_winds aliases name, fun tail cycle h => ?_⟩
  . exact ⟨resolve_of_isLast hlast, resolve_of_isLast (i := 0) hlast⟩
  . exact ⟨h.cycle_eq_one_iff, h.resolve, h.resolve_eq_first_iff, h.resolve_resolve_iff,
      fun _ hentries => h.resolve_addAll_iff hentries⟩

theorem resolve_follows_swapped
    : let aliases := ofList [("a", "b"), ("b", "a")]
      aliases.Winds "a" 0 2 ∧ aliases.resolve "a" ≠ "a" ∧
        aliases.resolve (aliases.resolve "a") ≠ aliases.resolve "a" ∧
        (aliases.addAll [("c", "d")]).resolve "a" ≠ aliases.resolve "a" := by
  intro aliases
  have ha : aliases.next "a" = "b" := by decide +kernel
  have hb : aliases.next "b" = "a" := by decide +kernel
  have hwinds : aliases.Winds "a" 0 2 := by
    refine ⟨Nat.two_pos, fun i hi j hj heq => ?_, by simp [ha, hb]⟩
    rw [Set.mem_Iio] at hi hj
    interval_cases i <;> interval_cases j <;> simp [ha] at heq <;> rfl
  have hmet : ∀ i, aliases.next^[i] "a" ∈ ["a", "b"] := fun i => by
    induction i with
    | zero => simp
    | succ i ih =>
      rw [iterate_succ_apply']
      rcases (List.mem_pair.1 ih) with h | h <;> simp [h, ha, hb]
  obtain ⟨-, -, hfirst, hagain, hmore⟩ := (resolve_follows aliases "a").2.2 0 2 hwinds
  refine ⟨hwinds, fun h => ?_, fun h => ?_, fun h => ?_⟩
  . exact absurd (hfirst.1 h) (by decide)
  . exact absurd (hagain.1 h) (by decide)
  . refine absurd ((hmore [("c", "d")] fun i entry hentry hname => ?_).1 h) (by decide)
    have hc := hname ▸ hmet i
    rw [List.mem_singleton.1 hentry] at hc
    exact absurd hc (by decide)

end Resumable.Aliases
