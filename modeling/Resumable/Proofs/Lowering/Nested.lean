import Resumable.Proofs.Lowering.Founded

/-!
This module contains how stretches of code lie inside of each other. What is laid out for a form
leads to blocks that are opened for it, or to few others that were there before, and it writes
results of its own, or variables. So nothing but the code of a row of operands has to do with the
blocks and results inside of it.
-/

namespace Resumable

def Given (r : Option (List Operand)) (v : ValueId) : Prop :=
  ∃ operands, r = some operands ∧ .result v ∈ operands

/--
Whether an instruction is there for the values of forms: a call, a jump back to a loop, an access, an
assignment, a suspension, or a copy.
-/
def Command.Uses : Command → Prop
  | .effect (.const value) => value ≠ .pending
  | .effect (.call _ _) | .effect (.recur _ _) | .effect (.field _ _ _) | .effect (.method _ _ _)
  | .effect (.setLocal _ _) | .effect (.setGlobal _ _) | .effect (.setField _ _ _) => True
  | .transfer (.suspend _ _ _) => True
  | _ => False

def Spot.Same (s t : Spot) : Prop :=
  t.block = s.block ∧ t.index = s.index ∧ t.value = s.value

namespace Plan

structure Bounds where
  goals : BlockId → Prop
  under : BlockId → Prop
  home : BlockId → Nat → Prop
  known : ValueId → Prop
  onwards : ∀ {b : BlockId} {i j : Nat}, home b i → i ≤ j → home b j

namespace Bounds

structure Older (bounds : Bounds) (s : Spot) : Prop where
  goals : ∀ b, bounds.goals b → b < s.fresh
  under : ∀ b, bounds.under b → b < s.fresh
  home : ∀ b i, bounds.home b i → b < s.fresh
  known : ∀ v, bounds.known v → v < s.value

structure Keeps (bounds : Bounds) (s t : Spot) (b : BlockId) (i : Nat) (ins : Instruction) :
    Prop where
  leads : ∀ target ∈ ins.targets, bounds.goals target ∨ s.fresh ≤ target ∧ target < t.fresh
  sits : bounds.home b i ∨ s.fresh ≤ b ∧ b < t.fresh
  writes : ∀ v ∈ ins.writes, bounds.known v ∨ s.value ≤ v ∧ v < t.value

def widen (bounds : Bounds) (s : Spot) (count : Nat) : Bounds where
  goals b := bounds.goals b ∨ s.fresh ≤ b ∧ b < s.fresh + count
  under b := bounds.under b ∨ s.fresh ≤ b ∧ b < s.fresh + count
  home b i := bounds.home b i ∨ s.fresh ≤ b ∧ b < s.fresh + count
  known := bounds.known
  onwards h hle := h.imp_left fun h => bounds.onwards h hle

structure Follows (bounds' bounds : Bounds) (m : Spot) (r : Option (List Operand)) : Prop where
  goals : ∀ b, bounds'.goals b → bounds.goals b
  under : ∀ b, bounds'.under b → bounds.under b
  home : ∀ b i, bounds'.home b i → bounds.home b i ∨ r ≠ none ∧ b = m.block ∧ m.index ≤ i
  known : ∀ v, bounds'.known v → bounds.known v ∨ Given r v

end Bounds

def Ahead (plan : Plan) (s : Spot) : Prop :=
  ∀ {i : Nat} {ins : Instruction}, (plan.code s.block)[i]? = some ins → s.index ≤ i →
    s.value ≤ ins.id

def Starts (plan : Plan) (s : Spot) : Prop :=
  ∃ ins, (plan.code s.block)[s.index]? = some ins ∧ ins.id = s.value

/--
Whether nothing in a stretch of code, but a row of operands inside of it, has to do with the blocks
and results of that row.
-/
structure Secludes (plan : Plan) (s t a w : Spot) : Prop where
  low : s.value ≤ a.value ∧ s.fresh ≤ a.fresh
  high : w.value ≤ t.value ∧ w.fresh ≤ t.fresh
  apart : ∀ {b : BlockId} {i : Nat} {ins : Instruction}, (plan.code b)[i]? = some ins →
    s.value ≤ ins.id → ins.id < t.value → ¬ (a.value ≤ ins.id ∧ ins.id < w.value) →
      (∀ target ∈ ins.targets, ¬ (a.fresh ≤ target ∧ target < w.fresh)) ∧
        ∀ v ∈ ins.writes, ¬ (a.value ≤ v ∧ v < w.value)
  labels : ∀ b, s.fresh ≤ b → b < t.fresh → ¬ (a.fresh ≤ b ∧ b < w.fresh) →
    ∀ h ∈ (plan.label b).under, ¬ (a.fresh ≤ h ∧ h < w.fresh)
  sits : ∀ {b : BlockId} {i : Nat} {ins : Instruction}, (plan.code b)[i]? = some ins →
    s.value ≤ ins.id → ins.id < t.value → ¬ (a.value ≤ ins.id ∧ ins.id < w.value) →
      a.fresh ≤ b → b < w.fresh → w.value ≤ ins.id ∧ b = w.block

def OutOf (r : Option (List Operand)) (t a w : Spot) : Prop :=
  r ≠ none → a.fresh ≤ t.block → t.block < w.fresh → t.block = w.block

/--
Whether the code between two spots keeps within bounds, with every instruction that uses values of
forms in a row of operands. The bounds are what was there before and may be led to, run under, gone
on with or written. Some instructions may have their row yet to come, in the code around.
-/
structure Nested (plan : Plan) (rows : BlockId → Nat → Instruction → Spot → Spot → Prop)
    (bounds : Bounds) (yet : ValueId → Prop) (s : Spot) (r : Option (List Operand)) (t : Spot) :
    Prop where
  fresh : s.fresh ≤ t.fresh
  keeps : plan.Between (bounds.Keeps s t) s.value t.value
  labels : ∀ b, s.fresh ≤ b → b < t.fresh → ∀ h ∈ (plan.label b).under,
    bounds.under h ∨ s.fresh ≤ h ∧ h < t.fresh
  ends : r ≠ none → (bounds.home t.block t.index ∨ s.fresh ≤ t.block ∧ t.block < t.fresh) ∧
    (s.Same t ∨ plan.Ahead t)
  gives : ∀ v, Given r v → bounds.known v ∨ s.value ≤ v ∧ v < t.value
  rows : ∀ {b : BlockId} {i : Nat} {ins : Instruction}, (plan.code b)[i]? = some ins →
    s.value ≤ ins.id → ins.id < t.value → ins.command.Uses → yet ins.id ∨
      ∃ a w, rows b i ins a w ∧ plan.Secludes s t a w ∧ OutOf r t a w ∧
        ∀ v, Given r v → ¬ (a.value ≤ v ∧ v < w.value)

variable {plan : Plan} {rows : BlockId → Nat → Instruction → Spot → Spot → Prop}
  {bounds bounds' : Bounds} {yet : ValueId → Prop} {s t m a w : Spot}
  {r r' r'' : Option (List Operand)}

theorem Bounds.Older.widen (h : bounds.Older s) (count : Nat)
    : (bounds.widen s count).Older (s.opened count) where
  goals b hb := hb.elim (fun hb => Nat.lt_add_right count (h.goals b hb)) And.right
  under b hb := hb.elim (fun hb => Nat.lt_add_right count (h.under b hb)) And.right
  home b i hb := hb.elim (fun hb => Nat.lt_add_right count (h.home b i hb)) And.right
  known := h.known

theorem Bounds.Older.mono (h : bounds.Older s) (hvalue : s.value ≤ t.value)
    (hfresh : s.fresh ≤ t.fresh)
    : bounds.Older t where
  goals b hb := Nat.lt_of_lt_of_le (h.goals b hb) hfresh
  under b hb := Nat.lt_of_lt_of_le (h.under b hb) hfresh
  home b i hb := Nat.lt_of_lt_of_le (h.home b i hb) hfresh
  known v hv := Nat.lt_of_lt_of_le (h.known v hv) hvalue

theorem Bounds.Older.goTo (h : bounds.Older s) (b : BlockId) : bounds.Older (s.goTo b) :=
  ⟨h.goals, h.under, h.home, h.known⟩

theorem Bounds.Older.follow (h : bounds.Older m) (hfollows : bounds'.Follows bounds m r)
    (hblock : r ≠ none → m.block < m.fresh) (hgiven : ∀ v, Given r v → v < m.value)
    : bounds'.Older m where
  goals b hb := h.goals b (hfollows.goals b hb)
  under b hb := h.under b (hfollows.under b hb)
  home b i hb := by
    rcases hfollows.home b i hb with hb | ⟨hr, rfl, _⟩
    . exact h.home b i hb
    . exact hblock hr
  known v hv := (hfollows.known v hv).elim (h.known v) (hgiven v)

theorem Bounds.Follows.refl : bounds.Follows bounds m r where
  goals _ := id
  under _ := id
  home _ _ := .inl
  known _ := .inl

theorem Given.none {v : ValueId} : ¬ Given none v := by
  rintro ⟨_, hr, _⟩
  cases hr

theorem Given.nil {v : ValueId} : ¬ Given (some []) v := by
  rintro ⟨_, hr, hmem⟩
  cases hr
  cases hmem

theorem Ahead.congr (h : plan.Ahead s) (hsame : s.Same t) : plan.Ahead t := by
  obtain ⟨hblock, hindex, hvalue⟩ := hsame
  intro i ins hins hle
  rw [hblock] at hins
  rw [hvalue]
  exact h hins (hindex ▸ hle)

namespace Holds

variable {commands : List Command}

theorem stands (horderly : Orderly plan.code) (h : plan.Holds s commands) {b : BlockId} {i : Nat}
    {ins : Instruction} (hins : (plan.code b)[i]? = some ins) (hlow : s.value ≤ ins.id)
    (hhigh : ins.id < s.value + commands.length)
    : ∃ k, commands[k]? = some ins.command ∧ b = s.block ∧ i = s.index + k ∧
        ins.id = s.value + k := by
  obtain ⟨k, hk⟩ := Nat.exists_eq_add_of_le hlow
  have hlt : k < commands.length := by lia
  obtain ⟨span, hspan⟩ := h.getElem? (List.getElem?_eq_getElem hlt)
  obtain ⟨rfl, rfl⟩ := horderly.unique hins hspan hk
  cases hins.symm.trans hspan
  exact ⟨k, List.getElem?_eq_getElem hlt, rfl, rfl, rfl⟩

theorem opened (h : plan.Holds s commands) (count : Nat)
    : plan.Holds (s.opened count) commands := by
  induction commands generalizing s with
  | nil => trivial
  | cons command commands ih => exact ⟨h.1, ih h.2⟩

theorem ahead (horderly : Orderly plan.code) (h : plan.Holds s commands)
    : s.Same (s.skip commands.length) ∨ plan.Ahead (s.skip commands.length) := by
  rcases List.eq_nil_or_concat commands with rfl | ⟨front, last, rfl⟩
  . exact .inl ⟨rfl, rfl, rfl⟩
  . right
    rw [List.concat_eq_append] at h ⊢
    obtain ⟨span, hspan⟩ := h.getElem? List.getElem?_concat_length
    intro i ins hins hle
    rw [List.length_append, List.length_singleton] at hle ⊢
    exact horderly.ordered hspan hins hle

theorem starts (h : plan.Holds s commands) (hne : commands ≠ []) : plan.Starts s := by
  cases commands with
  | nil => exact absurd rfl hne
  | cons command commands =>
    obtain ⟨span, hspan⟩ := h.1
    exact ⟨_, hspan, rfl⟩

theorem ahead_next {command : Command} (horderly : Orderly plan.code) (h : plan.Holds s [command])
    : plan.Ahead (s.skip 1) :=
  (h.ahead horderly).resolve_left fun hsame => absurd hsame.2.2 (Nat.succ_ne_self _)

end Holds

theorem Starts.ahead (horderly : Orderly plan.code) (h : plan.Starts s) : plan.Ahead s := by
  obtain ⟨first, hfirst, hid⟩ := h
  intro i ins hins hle
  rcases Nat.eq_or_lt_of_le hle with rfl | hlt
  . cases hfirst.symm.trans hins
    exact Nat.le_of_eq hid.symm
  . exact hid ▸ Nat.le_of_lt (horderly.ordered hfirst hins hlt)

theorem Starts.index_le (horderly : Orderly plan.code) (h : plan.Starts s) {i : Nat}
    {ins : Instruction} (hins : (plan.code s.block)[i]? = some ins) (hid : s.value ≤ ins.id)
    : s.index ≤ i := by
  obtain ⟨first, hfirst, hfirst'⟩ := h
  refine Nat.le_of_not_lt fun hlt => ?_
  have := horderly.ordered hins hfirst hlt
  lia

namespace Secludes

theorem refl (s t : Spot) : plan.Secludes s t s t where
  low := ⟨Nat.le_refl _, Nat.le_refl _⟩
  high := ⟨Nat.le_refl _, Nat.le_refl _⟩
  apart _ hlow hhigh hout := absurd ⟨hlow, hhigh⟩ hout
  labels _ hlow hhigh hout := absurd ⟨hlow, hhigh⟩ hout
  sits _ hlow hhigh hout := absurd ⟨hlow, hhigh⟩ hout

theorem append (h : plan.Secludes s m a w) (h' : plan.Nested rows bounds' yet m r' t)
    (hbounds : bounds.Older s) (hfollows : bounds'.Follows bounds m r) (hout : OutOf r m a w)
    (hgiven : ∀ v, bounds'.known v → Given r v → ¬ (a.value ≤ v ∧ v < w.value))
    : plan.Secludes s t a w where
  low := h.low
  high := ⟨Nat.le_trans h.high.1 h'.keeps.le, Nat.le_trans h.high.2 h'.fresh⟩
  apart {b i ins} hins hlow hhigh hout := by
    have hlow' := h.low
    have hhigh' := h.high
    by_cases hid : ins.id < m.value
    . exact h.apart hins hlow hid hout
    have hkeeps := h'.keeps.each hins (Nat.not_lt.1 hid) hhigh
    constructor
    . intro target htarget hin
      rcases hkeeps.leads target htarget with hgoal | hopened
      . have := hbounds.goals target (hfollows.goals target hgoal)
        lia
      . lia
    . intro v hv hin
      rcases hkeeps.writes v hv with hknown | hnew
      . rcases hfollows.known v hknown with hold | hgave
        . have := hbounds.known v hold
          lia
        . exact hgiven v hknown hgave hin
      . lia
  labels b hlow hhigh hout target htarget hin := by
    have hlow' := h.low
    have hhigh' := h.high
    by_cases hb : b < m.fresh
    . exact h.labels b hlow hb hout target htarget hin
    rcases h'.labels b (Nat.not_lt.1 hb) hhigh target htarget with hunder | hopened
    . have := hbounds.under target (hfollows.under target hunder)
      lia
    . lia
  sits {b i ins} hins hlow hhigh hapart hb hb' := by
    have hlow' := h.low
    have hhigh' := h.high
    by_cases hid : ins.id < m.value
    . exact h.sits hins hlow hid hapart hb hb'
    rcases (h'.keeps.each hins (Nat.not_lt.1 hid) hhigh).sits with hhome | hopened
    . rcases hfollows.home b i hhome with hhome | ⟨hr, rfl, _⟩
      . have := hbounds.home b i hhome
        lia
      . exact ⟨Nat.le_trans hhigh'.1 (Nat.not_lt.1 hid), hout hr hb hb'⟩
    . lia

theorem prepend (h : plan.Secludes m t a w) (h' : plan.Nested rows bounds yet s r m)
    (hbounds : bounds.Older s)
    : plan.Secludes s t a w where
  low := ⟨Nat.le_trans h'.keeps.le h.low.1, Nat.le_trans h'.fresh h.low.2⟩
  high := h.high
  apart {b i ins} hins hlow hhigh hout := by
    have hlow' := h.low
    have hle := h'.keeps.le
    have hfresh := h'.fresh
    by_cases hid : m.value ≤ ins.id
    . exact h.apart hins hid hhigh hout
    have hkeeps := h'.keeps.each hins hlow (Nat.not_le.1 hid)
    constructor
    . intro target htarget hin
      rcases hkeeps.leads target htarget with hgoal | hopened
      . have := hbounds.goals target hgoal
        lia
      . lia
    . intro v hv hin
      rcases hkeeps.writes v hv with hknown | hnew
      . have := hbounds.known v hknown
        lia
      . lia
  labels b hlow hhigh hout target htarget hin := by
    have hlow' := h.low
    have hfresh := h'.fresh
    by_cases hb : m.fresh ≤ b
    . exact h.labels b hb hhigh hout target htarget hin
    rcases h'.labels b hlow (Nat.not_le.1 hb) target htarget with hunder | hopened
    . have := hbounds.under target hunder
      lia
    . lia
  sits {b i ins} hins hlow hhigh hapart hb hb' := by
    have hlow' := h.low
    have hle := h'.keeps.le
    by_cases hid : m.value ≤ ins.id
    . exact h.sits hins hid hhigh hapart hb hb'
    rcases (h'.keeps.each hins hlow (Nat.not_le.1 hid)).sits with hhome | hopened
    . have := hbounds.home b i hhome
      have := h'.fresh
      lia
    . lia

end Secludes

theorem OutOf.step (h : OutOf r m a w) (hbounds : bounds.Older s)
    (h' : plan.Nested rows bounds' yet m r' t) (hfollows : bounds'.Follows bounds m r)
    (hlow : s.fresh ≤ a.fresh) (hhigh : w.fresh ≤ m.fresh)
    : OutOf r' t a w := by
  intro hr' hb hb'
  rcases (h'.ends hr').1 with hhome | hopened
  . rcases hfollows.home _ _ hhome with hhome | ⟨hr, heq, _⟩
    . have := hbounds.home _ _ hhome
      lia
    . rw [heq] at hb hb' ⊢
      exact h hr hb hb'
  . lia

namespace Nested

theorem refl (hhome : r ≠ none → bounds.home s.block s.index)
    (hgives : ∀ v, Given r v → bounds.known v)
    : plan.Nested rows bounds yet s r s where
  fresh := Nat.le_refl _
  keeps := .refl _
  labels _ hlow hhigh := absurd hhigh (Nat.not_lt.2 hlow)
  ends hr := ⟨.inl (hhome hr), .inl ⟨rfl, rfl, rfl⟩⟩
  gives v hv := .inl (hgives v hv)
  rows _ hlow hhigh := absurd hhigh (Nat.not_lt.2 hlow)

theorem row {commands : List Command} (horderly : Orderly plan.code)
    (hholds : plan.Holds s commands) (hhome : bounds.home s.block s.index)
    (hleads : ∀ command ∈ commands, ∀ id span, ∀ target ∈ (Instruction.mk id command span).targets,
      bounds.goals target)
    (hwrites : ∀ command ∈ commands, ∀ id span, ∀ v ∈ (Instruction.mk id command span).writes,
      bounds.known v ∨ v = id)
    (huses : ∀ {k : Nat} {command : Command}, commands[k]? = some command → command.Uses →
      yet (s.value + k))
    (hgives : ∀ v, Given r v → bounds.known v ∨ s.value ≤ v ∧ v < s.value + commands.length)
    : plan.Nested rows bounds yet s r (s.skip commands.length) where
  fresh := Nat.le_refl _
  keeps := by
    refine ⟨Nat.le_add_right _ _, fun {b i ins} hins hlow hhigh => ?_⟩
    obtain ⟨k, hk, rfl, rfl, _⟩ := hholds.stands horderly hins hlow hhigh
    have hmem := List.mem_of_getElem? hk
    refine ⟨fun target htarget => .inl ?_, .inl (bounds.onwards hhome (Nat.le_add_right _ _)), ?_⟩
    . exact hleads _ hmem ins.id ins.span target htarget
    . intro v hv
      refine (hwrites _ hmem ins.id ins.span v hv).imp_right ?_
      rintro rfl
      exact ⟨hlow, hhigh⟩
  labels _ hlow hhigh := absurd hhigh (Nat.not_lt.2 hlow)
  ends _ := ⟨.inl (bounds.onwards hhome (Nat.le_add_right _ _)), hholds.ahead horderly⟩
  gives := hgives
  rows hins hlow hhigh huse := by
    obtain ⟨k, hk, _, _, hid⟩ := hholds.stands horderly hins hlow hhigh
    exact .inl (hid ▸ huses hk huse)

theorem mono {yet' : ValueId → Prop} (h : plan.Nested rows bounds yet s r t)
    (hyet : ∀ id, yet id → yet' id)
    : plan.Nested rows bounds yet' s r t :=
  { h with rows := fun hins hlow hhigh huse => (h.rows hins hlow hhigh huse).imp_left (hyet _) }

theorem ofGoTo {b : BlockId} (h : plan.Nested rows bounds yet (s.goTo b) r t)
    (hahead : r ≠ none → plan.Ahead t)
    : plan.Nested rows bounds yet s r t where
  fresh := h.fresh
  keeps := ⟨h.keeps.le, fun hins hlow hhigh =>
    have hkeeps := h.keeps.each hins hlow hhigh
    ⟨hkeeps.leads, hkeeps.sits, hkeeps.writes⟩⟩
  labels := h.labels
  ends hr := ⟨(h.ends hr).1, .inr (hahead hr)⟩
  gives := h.gives
  rows hins hlow hhigh huse := by
    refine (h.rows hins hlow hhigh huse).imp_right ?_
    rintro ⟨a, w, hrow, hsecludes, hgiven⟩
    exact ⟨a, w, hrow, ⟨hsecludes.low, hsecludes.high, hsecludes.apart, hsecludes.labels,
      hsecludes.sits⟩, hgiven⟩

theorem weaken (h : plan.Nested rows bounds' yet s r t) (hfollows : bounds'.Follows bounds s none)
    : plan.Nested rows bounds yet s r t := by
  have hhome : ∀ b i, bounds'.home b i → bounds.home b i :=
    fun b i hb => (hfollows.home b i hb).resolve_right fun hr => hr.1 rfl
  have hknown : ∀ v, bounds'.known v → bounds.known v :=
    fun v hv => (hfollows.known v hv).resolve_right Given.none
  refine ⟨h.fresh, ⟨h.keeps.le, ?_⟩, ?_, ?_, ?_, h.rows⟩
  . intro b i ins hins hlow hhigh
    have hkeeps := h.keeps.each hins hlow hhigh
    exact ⟨fun target htarget => (hkeeps.leads target htarget).imp_left (hfollows.goals target),
      hkeeps.sits.imp_left (hhome b i), fun v hv => (hkeeps.writes v hv).imp_left (hknown v)⟩
  . exact fun b hlow hhigh target htarget =>
      (h.labels b hlow hhigh target htarget).imp_left (hfollows.under target)
  . exact fun hr => ⟨(h.ends hr).1.imp_left (hhome _ _), (h.ends hr).2⟩
  . exact fun v hv => (h.gives v hv).imp_left (hknown v)

theorem block_lt (h : plan.Nested rows bounds yet s r t) (hbounds : bounds.Older s) (hr : r ≠ none)
    : t.block < t.fresh :=
  (h.ends hr).1.elim (fun hhome => Nat.lt_of_lt_of_le (hbounds.home _ _ hhome) h.fresh) And.right

theorem given_lt (h : plan.Nested rows bounds yet s r t) (hbounds : bounds.Older s) {v : ValueId}
    (hv : Given r v)
    : v < t.value :=
  (h.gives v hv).elim (fun hknown => Nat.lt_of_lt_of_le (hbounds.known v hknown) h.keeps.le)
    And.right

theorem follow (h : plan.Nested rows bounds yet s r m) (hbounds : bounds.Older s)
    (hfollows : bounds'.Follows bounds m r)
    : bounds'.Older m :=
  (hbounds.mono h.keeps.le h.fresh).follow hfollows (h.block_lt hbounds) fun _ => h.given_lt hbounds

theorem within (hbounds : bounds.Older s) (hfollows : bounds'.Follows bounds s none)
    (h : bounds'.Older s → plan.Nested rows bounds' yet s r t)
    : plan.Nested rows bounds yet s r t :=
  (h (hbounds.follow hfollows (absurd rfl) fun _ hv => absurd hv Given.none)).weaken hfollows

theorem home_of_follows (h : plan.Nested rows bounds yet s r m)
    (h' : plan.Nested rows bounds' yet m r' t) (hfollows : bounds'.Follows bounds m r) {b : BlockId}
    {i : Nat} (hb : bounds'.home b i)
    : bounds.home b i ∨ s.fresh ≤ b ∧ b < t.fresh := by
  rcases hfollows.home b i hb with hb | ⟨hr, rfl, hi⟩
  . exact .inl hb
  . refine (h.ends hr).1.imp (fun hb => bounds.onwards hb hi) fun hopened => ?_
    exact ⟨hopened.1, Nat.lt_of_lt_of_le hopened.2 h'.fresh⟩

theorem known_of_follows (h : plan.Nested rows bounds yet s r m)
    (hfollows : bounds'.Follows bounds m r) {v : ValueId} (hv : bounds'.known v)
    : bounds.known v ∨ s.value ≤ v ∧ v < m.value :=
  (hfollows.known v hv).elim .inl (h.gives v)

theorem keeps_join (h : plan.Nested rows bounds yet s r m)
    (h' : plan.Nested rows bounds' yet m r' t) (hfollows : bounds'.Follows bounds m r)
    : plan.Between (bounds.Keeps s t) s.value t.value := by
  have hle := h.keeps.le
  have hle' := h'.keeps.le
  have hfresh := h.fresh
  have hfresh' := h'.fresh
  refine ⟨Nat.le_trans hle hle', fun {b i ins} hins hlow hhigh => ?_⟩
  by_cases hid : ins.id < m.value
  . obtain ⟨hleads, hsits, hwrites⟩ := h.keeps.each hins hlow hid
    refine ⟨fun target htarget => (hleads target htarget).imp_right ?_, hsits.imp_right ?_,
      fun v hv => (hwrites v hv).imp_right ?_⟩
    all_goals
      intro hrange
      lia
  . obtain ⟨hleads, hsits, hwrites⟩ := h'.keeps.each hins (Nat.not_lt.1 hid) hhigh
    constructor
    . intro target htarget
      refine (hleads target htarget).imp (hfollows.goals target) fun hrange => ?_
      lia
    . refine hsits.elim (h.home_of_follows h' hfollows) fun hrange => .inr ?_
      lia
    . intro v hv
      rcases hwrites v hv with hknown | hrange
      . refine (h.known_of_follows hfollows hknown).imp_right fun hrange => ?_
        lia
      . right
        lia

theorem ends_join (h : plan.Nested rows bounds yet s r m)
    (h' : plan.Nested rows bounds' yet m r' t) (hfollows : bounds'.Follows bounds m r) (hr' : r' ≠ none)
    (hahead : r = none → plan.Ahead t)
    : (bounds.home t.block t.index ∨ s.fresh ≤ t.block ∧ t.block < t.fresh) ∧
        (s.Same t ∨ plan.Ahead t) := by
  obtain ⟨hends', hsame⟩ := h'.ends hr'
  constructor
  . refine hends'.elim (h.home_of_follows h' hfollows) fun hrange => .inr ?_
    exact ⟨Nat.le_trans h.fresh hrange.1, hrange.2⟩
  by_cases hr : r = none
  . exact .inr (hahead hr)
  rcases hsame with hsame | hahead'
  . rcases (h.ends hr).2 with hsame' | hahead'
    . obtain ⟨hblock, hindex, hvalue⟩ := hsame
      obtain ⟨hblock', hindex', hvalue'⟩ := hsame'
      exact .inl ⟨hblock.trans hblock', hindex.trans hindex', hvalue.trans hvalue'⟩
    . exact .inr (hahead'.congr hsame)
  . exact .inr hahead'

theorem join (h : plan.Nested rows bounds yet s r m) (h' : plan.Nested rows bounds' yet m r' t)
    (hbounds : bounds.Older s) (hfollows : bounds'.Follows bounds m r)
    (hends : r'' ≠ none → r' ≠ none ∧ (r = none → plan.Ahead t))
    (hgiven : ∀ v, Given r'' v → Given r v ∨ Given r' v)
    : plan.Nested rows bounds yet s r'' t where
  fresh := Nat.le_trans h.fresh h'.fresh
  keeps := h.keeps_join h' hfollows
  labels b hlow hhigh target htarget := by
    have hfresh := h.fresh
    have hfresh' := h'.fresh
    by_cases hb : b < m.fresh
    . refine (h.labels b hlow hb target htarget).imp_right fun hrange => ?_
      lia
    . refine (h'.labels b (Nat.not_lt.1 hb) hhigh target htarget).imp (hfollows.under target)
        fun hrange => ?_
      lia
  ends hr'' := h.ends_join h' hfollows (hends hr'').1 (hends hr'').2
  gives v hv := by
    have hle := h.keeps.le
    have hle' := h'.keeps.le
    rcases hgiven v hv with hv | hv
    . refine (h.gives v hv).imp_right fun hrange => ?_
      lia
    . rcases h'.gives v hv with hknown | hrange
      . refine (h.known_of_follows hfollows hknown).imp_right fun hrange => ?_
        lia
      . right
        lia
  rows {b i ins} hins hlow hhigh huse := by
    have hle := h.keeps.le
    have hle' := h'.keeps.le
    -- A row of either part stays secluded: the other part has only what is older, or newer.
    by_cases hid : ins.id < m.value
    . refine (h.rows hins hlow hid huse).imp_right ?_
      rintro ⟨a, w, hrow, hsecludes, hout, hapart⟩
      have hlow := hsecludes.low
      have hhigh := hsecludes.high
      refine ⟨a, w, hrow, hsecludes.append h' hbounds hfollows hout fun v _ hv => hapart v hv,
        fun hr'' => hout.step hbounds h' hfollows hlow.2 hhigh.2 (hends hr'').1, ?_⟩
      intro v hv hin
      rcases hgiven v hv with hv | hv
      . exact hapart v hv hin
      . rcases h'.gives v hv with hknown | hrange
        . rcases hfollows.known v hknown with hknown | hv
          . have := hbounds.known v hknown
            lia
          . exact hapart v hv hin
        . lia
    . refine (h'.rows hins (Nat.not_lt.1 hid) hhigh huse).imp_right ?_
      rintro ⟨a, w, hrow, hsecludes, hout, hapart⟩
      have hlow := hsecludes.low
      refine ⟨a, w, hrow, hsecludes.prepend h hbounds, fun hr'' => hout (hends hr'').1, ?_⟩
      intro v hv hin
      rcases hgiven v hv with hv | hv
      . rcases h.gives v hv with hknown | hrange
        . have := hbounds.known v hknown
          lia
        . lia
      . exact hapart v hv hin

theorem trans (h : plan.Nested rows bounds yet s r m) (h' : plan.Nested rows bounds' yet m r' t)
    (hbounds : bounds.Older s) (hfollows : bounds'.Follows bounds m r)
    (hahead : r = none → r' ≠ none → plan.Ahead t)
    : plan.Nested rows bounds yet s r' t :=
  h.join h' hbounds hfollows (fun hr' => ⟨hr', fun hr => hahead hr hr'⟩) fun _ => .inr

theorem andThen (h : plan.Nested rows bounds yet s r m) (hbounds : bounds.Older s)
    (hfollows : bounds'.Follows bounds m r)
    (h' : bounds'.Older m → plan.Nested rows bounds' yet m r' t)
    (hahead : r = none → r' ≠ none → plan.Ahead t)
    : plan.Nested rows bounds yet s r' t :=
  h.trans (h' (h.follow hbounds hfollows)) hbounds hfollows hahead

theorem next {operands : List Operand} (h : plan.Nested rows bounds yet s (some operands) m)
    (hbounds : bounds.Older s) (hfollows : bounds'.Follows bounds m (some operands))
    (h' : bounds'.Older m → plan.Nested rows bounds' yet m r' t)
    : plan.Nested rows bounds yet s r' t :=
  h.andThen hbounds hfollows h' fun hr => absurd hr (Option.some_ne_none operands)

theorem opened {count : Nat}
    (h : plan.Nested rows (bounds.widen s count) yet (s.opened count) r t)
    (hbounds : bounds.Older s)
    (hlabels : ∀ b, s.fresh ≤ b → b < s.fresh + count → ∀ h ∈ (plan.label b).under,
      bounds.under h ∨ s.fresh ≤ h ∧ h < s.fresh + count)
    : plan.Nested rows bounds yet s r t := by
  have hfresh : s.fresh + count ≤ t.fresh := h.fresh
  have hwide : ∀ {P : Prop} {b : BlockId}, P ∨ s.fresh ≤ b ∧ b < s.fresh + count →
      P ∨ s.fresh ≤ b ∧ b < t.fresh :=
    fun h => h.imp_right fun ⟨hlow, hhigh⟩ => ⟨hlow, Nat.lt_of_lt_of_le hhigh hfresh⟩
  have hnew : ∀ {P : Prop} {b : BlockId}, P ∨ (s.opened count).fresh ≤ b ∧ b < t.fresh →
      P ∨ s.fresh ≤ b ∧ b < t.fresh :=
    fun h => h.imp_right fun ⟨hlow, hhigh⟩ => ⟨Nat.le_trans (Nat.le_add_right _ _) hlow, hhigh⟩
  have hboth : ∀ {P : Prop} {b : BlockId},
      (P ∨ s.fresh ≤ b ∧ b < s.fresh + count) ∨ (s.opened count).fresh ≤ b ∧ b < t.fresh →
        P ∨ s.fresh ≤ b ∧ b < t.fresh :=
    fun h => (hnew h).elim hwide .inr
  refine ⟨Nat.le_trans (Nat.le_add_right _ _) hfresh, ⟨h.keeps.le, ?_⟩, ?_, ?_, h.gives, ?_⟩
  . intro b i ins hins hlow hhigh
    have hkeeps := h.keeps.each hins hlow hhigh
    exact ⟨fun target htarget => hboth (hkeeps.leads target htarget), hboth hkeeps.sits,
      hkeeps.writes⟩
  . intro b hlow hhigh target htarget
    by_cases hb : b < s.fresh + count
    . exact hwide (hlabels b hlow hb target htarget)
    . exact hboth (h.labels b (Nat.not_lt.1 hb) hhigh target htarget)
  . intro hr
    obtain ⟨hends, hsame⟩ := h.ends hr
    exact ⟨hboth hends, hsame⟩
  . intro b i ins hins hlow hhigh huse
    refine (h.rows hins hlow hhigh huse).imp_right ?_
    rintro ⟨a, w, hrow, hsecludes, hgiven⟩
    have hlow' : s.fresh + count ≤ a.fresh := hsecludes.low.2
    refine ⟨a, w, hrow, ⟨⟨hsecludes.low.1, by lia⟩, hsecludes.high, hsecludes.apart, ?_,
      hsecludes.sits⟩, hgiven⟩
    intro b hlow hhigh hout target htarget hin
    by_cases hb : b < s.fresh + count
    . rcases hlabels b hlow hb target htarget with hunder | hrange
      . have := hbounds.under target hunder
        lia
      . lia
    . exact hsecludes.labels b (Nat.not_lt.1 hb) hhigh hout target htarget hin

theorem used {operands : List Operand}
    (h : plan.Nested rows bounds (fun _ => False) s (some operands) m)
    (h' : plan.Nested rows bounds' yet m r t) (hbounds : bounds.Older s)
    (hfollows : bounds'.Follows bounds m (some operands))
    (hknown : ∀ v, bounds'.known v → bounds.known v)
    (hrow : ∀ {b : BlockId} {i : Nat} {ins : Instruction}, (plan.code b)[i]? = some ins →
      yet ins.id → m.value ≤ ins.id ∧ rows b i ins s m)
    : plan.Nested rows bounds (fun _ => False) s r t := by
  have hwhole : plan.Nested rows bounds yet s r t :=
    (h.mono fun _ => False.elim).trans h' hbounds hfollows fun hr =>
      absurd hr (Option.some_ne_none operands)
  refine { hwhole with rows := ?_ }
  intro b i ins hins hlow hhigh huse
  right
  by_cases hyet : yet ins.id
  . have hout : OutOf (some operands) m s m := fun _ _ _ => rfl
    refine ⟨s, m, (hrow hins hyet).2, ?_, ?_, ?_⟩
    . refine (Secludes.refl s m).append h' hbounds hfollows hout ?_
      intro v hv _ hin
      have := hbounds.known v (hknown v hv)
      lia
    . exact hout.step hbounds h' hfollows (Nat.le_refl _) (Nat.le_refl _)
    . intro v hv hin
      rcases h'.gives v hv with hv | hrange
      . have := hbounds.known v (hknown v hv)
        lia
      . lia
  . exact (hwhole.rows hins hlow hhigh huse).resolve_left hyet

end Nested

end Plan

end Resumable
