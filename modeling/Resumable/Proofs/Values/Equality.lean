import Mathlib
import Resumable.Primitive.Comparison
import Resumable.Proofs.Values.Parts

/-!
This module contains the proof that equality of values is an equivalence: it is transitive, symmetric
on values whose maps and sets hold nothing twice, and reflexive on values without a NaN.
-/

namespace Resumable

theorem exists_partner {α β : Type} {R : α → β → Prop} {as : List α} {bs : List β}
    (hpartner : ∀ a ∈ as, ∃ b ∈ bs, R a b)
    (hapart : as.Pairwise fun a a' => ∀ b ∈ bs, R a b → ¬ R a' b) (hlength : bs.length ≤ as.length)
    : ∀ b ∈ bs, ∃ a ∈ as, R a b := by
  induction as generalizing bs with
  | nil =>
    rw [List.eq_nil_of_length_eq_zero (Nat.le_zero.1 hlength)]
    exact List.forall_mem_nil _
  | cons a as ih =>
    obtain ⟨⟨b, hb, hab⟩, hrest⟩ := List.forall_mem_cons.1 hpartner
    obtain ⟨hfirst, hothers⟩ := List.pairwise_cons.1 hapart
    obtain ⟨before, after, rfl⟩ := List.append_of_mem hb
    -- the partner of the first element is taken out: no other element has it
    have hsub : ∀ b' ∈ before ++ after, b' ∈ before ++ b :: after := fun b' hb' => by
      simp only [List.mem_append, List.mem_cons] at hb' ⊢
      exact hb'.imp_right .inr
    have hleft : ∀ b' ∈ before ++ after, ∃ a ∈ as, R a b' := by
      refine ih (fun a' ha' => ?_) (hothers.imp fun h b' hb' => h b' (hsub b' hb')) ?_
      . obtain ⟨b', hb', hab'⟩ := hrest a' ha'
        simp only [List.mem_append, List.mem_cons] at hb'
        rcases hb' with hb' | rfl | hb'
        . exact ⟨b', List.mem_append_left _ hb', hab'⟩
        . exact absurd hab' (hfirst a' ha' b' hb hab)
        . exact ⟨b', List.mem_append_right _ hb', hab'⟩
      . simpa [← Nat.add_assoc] using hlength
    intro b' hb'
    by_cases hsame : b' = b
    . exact ⟨a, List.mem_cons_self, hsame ▸ hab⟩
    . simp only [List.mem_append, List.mem_cons, hsame, false_or] at hb'
      obtain ⟨a', ha', hab'⟩ := hleft b' (List.mem_append.2 hb')
      exact ⟨a', List.mem_cons_of_mem _ ha', hab'⟩

namespace Double

open Float.Model (UnpackedFloat)

variable {x y z : Float}

theorem beq_iff
    : (x == y) = true ↔ x.isNaN = false ∧ y.isNaN = false ∧
        (x.toModel.unpack = y.toModel.unpack ∨
          (∃ s, x.toModel.unpack = .zero s) ∧ ∃ s, y.toModel.unpack = .zero s) := by
  have hnan : ∀ x : Float, x.isNaN = false ↔ x.toModel.unpack ≠ .notANumber := fun x => by
    show x.toModel.unpack.isNaN = false ↔ _
    cases x.toModel.unpack <;> simp [UnpackedFloat.isNaN]
  rw [hnan, hnan]
  refine (UnpackedFloat.beq_iff_ne_notANumber_and_eq _ _).trans ?_
  refine and_congr_right fun _ => and_congr_right fun _ => ⟨?_, ?_⟩
  . rintro (h | ⟨hx, hy⟩ | ⟨hx, hy⟩)
    . exact .inl h
    . exact .inr ⟨⟨_, hx⟩, _, hy⟩
    . exact .inr ⟨⟨_, hx⟩, _, hy⟩
  . rintro (h | ⟨⟨s, hx⟩, s', hy⟩)
    . exact .inl h
    . rw [hx, hy]
      cases s <;> cases s' <;> simp

theorem beq_symm (h : (x == y) = true) : (y == x) = true := by
  obtain ⟨hx, hy, hsame | ⟨hzero, hzero'⟩⟩ := beq_iff.1 h
  . exact beq_iff.2 ⟨hy, hx, .inl hsame.symm⟩
  . exact beq_iff.2 ⟨hy, hx, .inr ⟨hzero', hzero⟩⟩

theorem beq_trans (h : (x == y) = true) (h' : (y == z) = true) : (x == z) = true := by
  obtain ⟨hx, -, hxy⟩ := beq_iff.1 h
  obtain ⟨-, hz, hyz⟩ := beq_iff.1 h'
  refine beq_iff.2 ⟨hx, hz, ?_⟩
  rcases hxy with hxy | ⟨hxzero, hyzero⟩
  . rwa [hxy]
  . rcases hyz with hyz | ⟨-, hzzero⟩
    . exact .inr ⟨hxzero, hyz ▸ hyzero⟩
    . exact .inr ⟨hxzero, hzzero⟩

theorem beq_refl (h : x.isNaN = false) : (x == x) = true :=
  beq_iff.2 ⟨h, h, .inl rfl⟩

end Double

namespace Value

inductive Label where
  | nil
  | bool (b : Bool)
  | int (n : Int64)
  | string (text : String)
  | keyword (name : String)
  | symbol (name : String)
  | record (ref : Nat)
  | native (tag : Nat)
  | closure (tag : Nat)
  | machine (ref : Nat)

def label? : Value → Option Label
  | .nil => some .nil
  | .bool b => some (.bool b)
  | .int n => some (.int n)
  | .string text => some (.string text)
  | .keyword name => some (.keyword name)
  | .symbol name => some (.symbol name)
  | .record ref => some (.record ref)
  | .native tag _ => some (.native tag)
  | .closure tag _ _ => some (.closure tag)
  | .machine ref _ => some (.machine ref)
  | _ => none

def sequence? : Value → Option (List Value)
  | .list items | .vector items => some items
  | _ => none

theorem label_beq_iff {a b : Value} {l : Label} (h : a.label? = some l)
    : (a == b) = true ↔ b.label? = some l := by
  show beq a b = true ↔ _
  cases a <;> cases h <;> cases b <;> simp [beq, label?] <;> exact eq_comm

theorem beqItems_iff {as bs : List Value}
    : beqItems as bs = true ↔ List.Forall₂ (fun a b => (a == b) = true) as bs := by
  induction as generalizing bs with
  | nil => cases bs <;> simp [beqItems]
  | cons a as ih =>
    cases bs with
    | nil => simp [beqItems]
    | cons b bs =>
      rw [beqItems, Bool.and_eq_true, ih, List.forall₂_cons]
      rfl

theorem entriesWithin_iff {as bs : List (Value × Value)}
    : entriesWithin as bs = true ↔
        ∀ a ∈ as, ∃ b ∈ bs, (a.1 == b.1) = true ∧ (a.2 == b.2) = true := by
  induction as with
  | nil => simp [entriesWithin]
  | cons a as ih =>
    rw [entriesWithin, Bool.and_eq_true, ih, List.forall_mem_cons, List.any_eq_true]
    simp only [Bool.and_eq_true]
    rfl

theorem membersWithin_iff {as bs : List Value}
    : membersWithin as bs = true ↔ ∀ a ∈ as, ∃ b ∈ bs, (a == b) = true := by
  induction as with
  | nil => simp [membersWithin]
  | cons a as ih =>
    rw [membersWithin, Bool.and_eq_true, ih, List.forall_mem_cons, List.any_eq_true]
    rfl

section

variable {a b : Value}

theorem sequence_beq_iff {as : List Value} (ha : a.sequence? = some as)
    : (a == b) = true ↔
        ∃ bs, b.sequence? = some bs ∧ List.Forall₂ (fun a b => (a == b) = true) as bs := by
  show beq a b = true ↔ _
  cases a <;> cases ha <;> cases b <;> simp [beq, sequence?, beqItems_iff]

theorem float_beq_iff {x : Float}
    : (float x == b) = true ↔ ∃ y, b = float y ∧ (x == y) = true := by
  show beq _ b = true ↔ _
  cases b <;> simp [beq]

theorem map_beq_iff {as : List (Value × Value)}
    : (map as == b) = true ↔ ∃ bs, b = map bs ∧ as.length = bs.length ∧
        ∀ a ∈ as, ∃ b ∈ bs, (a.1 == b.1) = true ∧ (a.2 == b.2) = true := by
  show beq _ b = true ↔ _
  cases b <;> simp [beq, entriesWithin_iff]

theorem set_beq_iff {as : List Value}
    : (set as == b) = true ↔ ∃ bs, b = set bs ∧ as.length = bs.length ∧
        ∀ a ∈ as, ∃ b ∈ bs, (a == b) = true := by
  show beq _ b = true ↔ _
  cases b <;> simp [beq, membersWithin_iff]

theorem error_beq_iff {kind message : String} {data : Value}
    : (error kind message data == b) = true ↔
        ∃ data', b = error kind message data' ∧ (data == data') = true := by
  show beq _ b = true ↔ _
  cases b with
  | error kind' message' data' =>
    simp only [beq, Bool.and_eq_true, beq_iff_eq, and_assoc]
    constructor
    . rintro ⟨rfl, rfl, h⟩
      exact ⟨data', rfl, h⟩
    . rintro ⟨_, heq, h⟩
      cases heq
      exact ⟨rfl, rfl, h⟩
  | _ => simp [beq]

end

theorem forall₂_trans {as bs cs : List Value}
    (hab : List.Forall₂ (fun a b => (a == b) = true) as bs)
    (hbc : List.Forall₂ (fun b c => (b == c) = true) bs cs)
    (htrans : ∀ a ∈ as, ∀ {b c : Value}, (a == b) = true → (b == c) = true → (a == c) = true)
    : List.Forall₂ (fun a c => (a == c) = true) as cs := by
  induction hab generalizing cs with
  | nil => exact hbc
  | cons h _ ih =>
    obtain ⟨hfirst, hothers⟩ := List.forall_mem_cons.1 htrans
    cases hbc with
    | cons h' hbc => exact .cons (hfirst h h') (ih hbc hothers)

theorem beq_trans {a b c : Value} (hab : (a == b) = true) (hbc : (b == c) = true)
    : (a == c) = true := by
  induction a using induction generalizing b c with
  | step a ih =>
    cases a with
    | float x =>
      obtain ⟨y, rfl, hxy⟩ := float_beq_iff.1 hab
      obtain ⟨z, rfl, hyz⟩ := float_beq_iff.1 hbc
      exact float_beq_iff.2 ⟨z, rfl, Double.beq_trans hxy hyz⟩
    | list as | vector as =>
      obtain ⟨bs, hb, habs⟩ := (sequence_beq_iff rfl).1 hab
      obtain ⟨cs, hc, hbcs⟩ := (sequence_beq_iff hb).1 hbc
      exact (sequence_beq_iff rfl).2 ⟨cs, hc, forall₂_trans habs hbcs fun a ha => ih a ha⟩
    | map as =>
      obtain ⟨bs, rfl, hlength, hwithin⟩ := map_beq_iff.1 hab
      obtain ⟨cs, rfl, hlength', hwithin'⟩ := map_beq_iff.1 hbc
      refine map_beq_iff.2 ⟨cs, rfl, hlength.trans hlength', fun a ha => ?_⟩
      obtain ⟨b, hb, hkey, hvalue⟩ := hwithin a ha
      obtain ⟨c, hc, hkey', hvalue'⟩ := hwithin' b hb
      obtain ⟨htransKey, htransValue⟩ := forall_parts_map.1 ih a ha
      exact ⟨c, hc, htransKey hkey hkey', htransValue hvalue hvalue'⟩
    | set as =>
      obtain ⟨bs, rfl, hlength, hwithin⟩ := set_beq_iff.1 hab
      obtain ⟨cs, rfl, hlength', hwithin'⟩ := set_beq_iff.1 hbc
      refine set_beq_iff.2 ⟨cs, rfl, hlength.trans hlength', fun a ha => ?_⟩
      obtain ⟨b, hb, hab⟩ := hwithin a ha
      obtain ⟨c, hc, hbc⟩ := hwithin' b hb
      exact ⟨c, hc, ih a ha hab hbc⟩
    | error kind message data =>
      obtain ⟨data', rfl, hdata⟩ := error_beq_iff.1 hab
      obtain ⟨data'', rfl, hdata'⟩ := error_beq_iff.1 hbc
      exact error_beq_iff.2 ⟨data'', rfl, ih data (List.mem_singleton_self _) hdata hdata'⟩
    | _ => exact (label_beq_iff rfl).2 ((label_beq_iff ((label_beq_iff rfl).1 hab)).1 hbc)

def Unrepeated : Value → Prop
  | .map entries => entries.Pairwise fun first second => (first.1 == second.1) = false
  | .set members => members.Pairwise fun first second => (first == second) = false
  | _ => True

/--
Whether no map in a value has two equal keys and no set in it two equal members, at any depth.
-/
def Distinct : Value → Prop :=
  Throughout Unrepeated

/--
Whether no NaN is in a value, at any depth.
-/
def Numeric : Value → Prop :=
  Throughout fun inner => ∀ x, inner = .float x → x.isNaN = false

theorem beq_symm {a b : Value} (ha : a.Distinct) (hab : (a == b) = true) : (b == a) = true := by
  induction a using induction generalizing b with
  | step a ih =>
    obtain ⟨hunrepeated, hparts⟩ := throughout_iff.1 ha
    have hsymm : ∀ part ∈ a.parts, ∀ {b : Value}, (part == b) = true → (b == part) = true :=
      fun part hpart _ => ih part hpart (hparts part hpart)
    cases a with
    | float x =>
      obtain ⟨y, rfl, hxy⟩ := float_beq_iff.1 hab
      exact float_beq_iff.2 ⟨x, rfl, Double.beq_symm hxy⟩
    | list as | vector as =>
      obtain ⟨bs, hb, habs⟩ := (sequence_beq_iff rfl).1 hab
      refine (sequence_beq_iff hb).2 ⟨as, rfl, .flip ?_⟩
      exact ((List.forall₂_and_left as bs).2 ⟨fun a ha => ha, habs⟩).imp
        fun a b ⟨ha, hab⟩ => hsymm a ha hab
    | map as =>
      obtain ⟨bs, rfl, hlength, hwithin⟩ := map_beq_iff.1 hab
      have hapart : as.Pairwise fun a a' => ∀ b ∈ bs,
          (a.1 == b.1) = true ∧ (a.2 == b.2) = true →
            ¬ ((a'.1 == b.1) = true ∧ (a'.2 == b.2) = true) := by
        refine List.Pairwise.imp_of_mem ?_ hunrepeated
        intro a a' _ ha' hne b _ ⟨hab, _⟩ ⟨hab', _⟩
        rw [beq_trans hab ((forall_parts_map.1 hsymm a' ha').1 hab')] at hne
        cases hne
      refine map_beq_iff.2 ⟨as, rfl, hlength.symm, fun b hb => ?_⟩
      obtain ⟨a, ha, hkey, hvalue⟩ := exists_partner hwithin hapart hlength.ge b hb
      obtain ⟨hsymmKey, hsymmValue⟩ := forall_parts_map.1 hsymm a ha
      exact ⟨a, ha, hsymmKey hkey, hsymmValue hvalue⟩
    | set as =>
      obtain ⟨bs, rfl, hlength, hwithin⟩ := set_beq_iff.1 hab
      have hapart : as.Pairwise fun a a' => ∀ b ∈ bs, (a == b) = true → ¬ (a' == b) = true := by
        refine List.Pairwise.imp_of_mem ?_ hunrepeated
        intro a a' _ ha' hne b _ hab hab'
        rw [beq_trans hab (hsymm a' ha' hab')] at hne
        cases hne
      refine set_beq_iff.2 ⟨as, rfl, hlength.symm, fun b hb => ?_⟩
      obtain ⟨a, ha, hab⟩ := exists_partner hwithin hapart hlength.ge b hb
      exact ⟨a, ha, hsymm a ha hab⟩
    | error kind message data =>
      obtain ⟨data', rfl, hdata⟩ := error_beq_iff.1 hab
      exact error_beq_iff.2 ⟨data, rfl, hsymm data (List.mem_singleton_self data) hdata⟩
    | _ => exact (label_beq_iff ((label_beq_iff rfl).1 hab)).2 rfl

theorem beq_refl {a : Value} (h : a.Numeric) : (a == a) = true := by
  induction a using induction with
  | step a ih =>
    obtain ⟨hnumber, hparts⟩ := throughout_iff.1 h
    have hself : ∀ part ∈ a.parts, (part == part) = true := fun part hpart =>
      ih part hpart (hparts part hpart)
    cases a with
    | float x => exact float_beq_iff.2 ⟨x, rfl, Double.beq_refl (hnumber x rfl)⟩
    | list as | vector as => exact (sequence_beq_iff rfl).2 ⟨as, rfl, List.forall₂_same.2 hself⟩
    | map as =>
      exact map_beq_iff.2 ⟨as, rfl, rfl, fun a ha => ⟨a, ha, forall_parts_map.1 hself a ha⟩⟩
    | set as => exact set_beq_iff.2 ⟨as, rfl, rfl, fun a ha => ⟨a, ha, hself a ha⟩⟩
    | error kind message data =>
      exact error_beq_iff.2 ⟨data, rfl, hself data (List.mem_singleton_self data)⟩
    | _ => exact (label_beq_iff rfl).2 rfl

end Value

theorem betweenNeighbours_iff {test : Value → Value → Bool} {values : List Value}
    : betweenNeighbours test values = true ↔ values.IsChain fun a b => test a b = true := by
  induction values with
  | nil => exact iff_of_true rfl .nil
  | cons a values ih =>
    cases values with
    | nil => exact iff_of_true rfl (.singleton a)
    | cons b rest => rw [betweenNeighbours, Bool.and_eq_true, ih, List.isChain_cons_cons]

theorem betweenNeighbours_beq_iff {values : List Value}
    : betweenNeighbours (· == ·) values = true ↔ values.Pairwise fun a b => (a == b) = true := by
  let : Trans (fun a b : Value => (a == b) = true) (fun b c : Value => (b == c) = true)
    (fun a c : Value => (a == c) = true) := ⟨Value.beq_trans⟩
  rw [betweenNeighbours_iff, List.isChain_iff_pairwise]

end Resumable
