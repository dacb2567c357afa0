import Resumable.Source.Token

/-!
This module contains the parts of a form, what is left of it without the spans that it was read from,
and the tokens that write it.
-/

namespace Resumable.Form

@[elab_as_elim]
theorem induction {motive : Form → Prop} (atom : ∀ value span, motive (.atom value span))
    (group : ∀ bracket items span, (∀ form ∈ items, motive form) →
      motive (.group bracket items span))
    (quote : ∀ inner span, motive inner → motive (.quote inner span)) (form : Form)
    : motive form :=
  @Form.rec motive (fun items => ∀ form ∈ items, motive form) atom group quote
    (List.forall_mem_nil _) (fun _ _ hform hitems => List.forall_mem_cons.2 ⟨hform, hitems⟩) form

def children : Form → List Form
  | .atom _ _ => []
  | .group _ items _ => items
  | .quote inner _ => [inner]

inductive Inside : Form → Form → Prop where
  | item {form : Form} {bracket : Bracket} {items : List Form} {span : Span} :
    form ∈ items → Inside form (.group bracket items span)
  | quoted {form : Form} {span : Span} : Inside form (.quote form span)
  | trans {form middle outer : Form} : Inside form middle → Inside middle outer → Inside form outer

def Within (form : Form) (forms : List Form) : Prop :=
  ∃ outer ∈ forms, form = outer ∨ form.Inside outer

namespace Within

variable {form : Form} {forms : List Form}

theorem of_mem (h : form ∈ forms) : form.Within forms :=
  ⟨form, h, .inl rfl⟩

theorem of_inside {outer : Form} (h : form.Inside outer) (houter : outer ∈ forms)
    : form.Within forms :=
  ⟨outer, houter, .inr h⟩

theorem mono {more : List Form} (h : form.Within forms) (hsub : forms ⊆ more)
    : form.Within more := by
  obtain ⟨outer, houter, hform⟩ := h
  exact ⟨outer, hsub houter, hform⟩

theorem inside (h : form.Within forms) (bracket : Bracket) (span : Span)
    : form.Inside (.group bracket forms span) := by
  obtain ⟨outer, houter, rfl | hinside⟩ := h
  . exact .item houter
  . exact .trans hinside (.item houter)

end Within

mutual

def withAtoms (f : Atom → Atom) : Form → Form
  | .atom value _ => .atom (f value) .synthetic
  | .group bracket items _ => .group bracket (withAtomsAll f items) .synthetic
  | .quote inner _ => .quote (inner.withAtoms f) .synthetic

def withAtomsAll (f : Atom → Atom) : List Form → List Form
  | [] => []
  | form :: rest => form.withAtoms f :: withAtomsAll f rest

end

def bare : Form → Form :=
  withAtoms id

mutual

def atoms : Form → List Atom
  | .atom value _ => [value]
  | .group _ items _ => itemAtoms items
  | .quote inner _ => inner.atoms

def itemAtoms : List Form → List Atom
  | [] => []
  | form :: rest => form.atoms ++ itemAtoms rest

end

mutual

def tokens : Form → List Token
  | .atom value _ => [.atom value]
  | .group bracket items _ => .opening bracket :: (itemTokens items ++ [.closing bracket.closer])
  | .quote inner _ => .quote :: inner.tokens

def itemTokens : List Form → List Token
  | [] => []
  | form :: rest => form.tokens ++ itemTokens rest

end

@[simp]
theorem withAtomsAll_eq_map {f : Atom → Atom} {items : List Form}
    : withAtomsAll f items = items.map (withAtoms f) := by
  induction items with
  | nil => rfl
  | cons form rest ih => rw [withAtomsAll, ih, List.map_cons]

@[simp]
theorem itemAtoms_eq_flatMap {items : List Form} : itemAtoms items = items.flatMap atoms := by
  induction items with
  | nil => rfl
  | cons form rest ih => rw [itemAtoms, ih, List.flatMap_cons]

@[simp]
theorem itemTokens_eq_flatMap {items : List Form} : itemTokens items = items.flatMap tokens := by
  induction items with
  | nil => rfl
  | cons form rest ih => rw [itemTokens, ih, List.flatMap_cons]

theorem bare_withAtoms {f : Atom → Atom} (form : Form)
    : (form.withAtoms f).bare = form.withAtoms f := by
  induction form using induction with
  | atom value span => rfl
  | group bracket items span ih =>
    simp only [bare, withAtoms, withAtomsAll_eq_map, List.map_map]
    congr 1
    exact List.map_congr_left ih
  | quote inner span ih =>
    simp only [bare, withAtoms]
    congr 1

theorem withAtoms_eq_iff {f g : Atom → Atom} (form : Form)
    : form.withAtoms f = form.withAtoms g ↔ ∀ a ∈ form.atoms, f a = g a := by
  induction form using induction with
  | atom value span => simp [withAtoms, atoms]
  | group bracket items span ih =>
    simp only [withAtoms, withAtomsAll_eq_map, atoms, itemAtoms_eq_flatMap, List.mem_flatMap,
      group.injEq, true_and, and_true]
    constructor
    . rintro hmap a ⟨form, hform, ha⟩
      exact (ih form hform).1 (List.map_inj_left.1 hmap form hform) a ha
    . intro hatoms
      exact List.map_congr_left fun form hform =>
        (ih form hform).2 fun a ha => hatoms a ⟨form, hform, ha⟩
  | quote inner span ih => simp [withAtoms, atoms, ih]

/--
Whether every map in a form has a value for every key.
-/
inductive Paired : Form → Prop where
  | atom {value : Atom} {span : Span} : Paired (.atom value span)
  | group {bracket : Bracket} {items : List Form} {span : Span}
      (hitems : ∀ form ∈ items, Paired form) (hpairs : bracket = .map → items.length % 2 = 0)
      : Paired (.group bracket items span)
  | quote {inner : Form} {span : Span} (hinner : Paired inner) : Paired (.quote inner span)

theorem tokens_bare (form : Form) : form.bare.tokens = form.tokens := by
  induction form using induction with
  | atom value span => rfl
  | group bracket items span ih =>
    have hitems : items.map (tokens ∘ withAtoms id) = items.map tokens := List.map_congr_left ih
    simp only [bare, withAtoms, withAtomsAll_eq_map, tokens, itemTokens_eq_flatMap,
      List.flatMap_def, List.map_map, hitems]
  | quote inner span ih => exact congrArg (.quote :: ·) ih

theorem Paired.withAtoms {f : Atom → Atom} {form : Form} (h : form.Paired)
    : (form.withAtoms f).Paired := by
  induction h with
  | atom => exact .atom
  | @group bracket items span hitems hpairs ih =>
    rw [Form.withAtoms, withAtomsAll_eq_map]
    exact .group (List.forall_mem_map.2 ih) (by rwa [List.length_map])
  | quote hinner ih => exact .quote ih

theorem Paired.of_bare {form : Form} (h : form.bare.Paired) : form.Paired := by
  induction form using induction with
  | atom value span => exact .atom
  | group bracket items span ih =>
    rw [bare, Form.withAtoms, withAtomsAll_eq_map] at h
    cases h with
    | group hitems hpairs =>
      rw [List.length_map] at hpairs
      exact .group (fun form hform => ih form hform (List.forall_mem_map.1 hitems form hform)) hpairs
  | quote inner span ih =>
    cases h with
    | quote hinner => exact .quote (ih hinner)

section

variable {forms others : List Form} (h : forms.map bare = others.map bare)

include h

theorem flatMap_tokens_of_bare : forms.flatMap tokens = others.flatMap tokens := by
  have hbare : ∀ forms : List Form, (forms.map bare).map tokens = forms.map tokens := fun forms => by
    rw [List.map_map]
    exact List.map_congr_left fun form _ => tokens_bare form
  rw [List.flatMap_def, List.flatMap_def, ← hbare forms, ← hbare others, h]

theorem paired_of_bare (hpaired : ∀ form ∈ forms, form.Paired) : ∀ form ∈ others, form.Paired := by
  intro form hform
  obtain ⟨read, hread, hbare⟩ := List.mem_map.1 (h.symm ▸ List.mem_map_of_mem hform)
  exact .of_bare (hbare ▸ (hpaired read hread).withAtoms)

end

end Resumable.Form
