import Resumable.Proofs.Lowering.Onward
import Resumable.Proofs.Lowering.Secluded

/-!
This module contains what there is between an operand and the instruction that uses it: the code of
the operands behind it. Control gets into that code from the operand only, and nothing in its blocks
writes results of the operands before, unless they are variables.
-/

namespace Resumable

namespace Spot

def Opens (u w : Spot) (b : BlockId) : Prop :=
  u.fresh ≤ b ∧ b < w.fresh

def Covers (u w : Spot) (b : BlockId) (i : Nat) : Prop :=
  u.Opens w b ∨ b = u.block ∧ u.index ≤ i

end Spot

namespace Plan

structure Within (u w : Spot) (b : BlockId) (i : Nat) (ins : Instruction) : Prop where
  low : u.value ≤ ins.id
  high : ins.id < w.value
  covers : u.Covers w b i

/--
What is known of the code between the values of operands and the instruction that uses them.
-/
structure Encloses (plan : Plan) (scope : Scope) (operands : List Operand) (u w : Spot) :
    Prop where
  start : ¬ u.Opens w 0
  block : ¬ u.Opens w u.block
  ends : u.Covers w w.block w.index
  starts : plan.Starts w
  leads : ∀ {b : BlockId} {i : Nat} {ins : Instruction}, (plan.code b)[i]? = some ins →
    ∀ target ∈ ins.targets, u.Opens w target → Within u w b i ins
  entered : ∀ b, ∀ h ∈ plan.stackAt b 0, u.Opens w h → u.Opens w b
  stack : ∀ {b : BlockId} {i : Nat} {ins : Instruction}, (plan.code b)[i]? = some ins →
    ∀ h ∈ plan.stackAt b i, u.Opens w h → Within u w b i ins
  low : ∀ {b : BlockId} {i : Nat} {ins : Instruction}, (plan.code b)[i]? = some ins →
    u.Covers w b i → u.value ≤ ins.id
  writes : ∀ {b : BlockId} {i : Nat} {ins : Instruction}, (plan.code b)[i]? = some ins →
    u.Covers w b i → ∀ v ∈ ins.writes, .result v ∈ operands → scope.binds v = true

theorem mem_stackAt {plan : Plan} {b h : BlockId} {i j : Nat} (hle : i ≤ j)
    (hmem : h ∈ plan.stackAt b j)
    : h ∈ plan.stackAt b i ∨ ∃ k ins, i ≤ k ∧ k < j ∧ (plan.code b)[k]? = some ins ∧
        ins.command = .effect (.pushHandler h) := by
  induction j with
  | zero =>
    cases Nat.le_zero.1 hle
    exact .inl hmem
  | succ j ih =>
    rcases Nat.eq_or_lt_of_le hle with rfl | hle
    . exact .inl hmem
    have hle := Nat.le_of_lt_succ hle
    have hlater : h ∈ plan.stackAt b j → h ∈ plan.stackAt b i ∨
        ∃ k ins, i ≤ k ∧ k < j + 1 ∧ (plan.code b)[k]? = some ins ∧
          ins.command = .effect (.pushHandler h) := by
      refine fun hmem => (ih hle hmem).imp_right ?_
      rintro ⟨k, ins, hk, hlt, hpushed⟩
      exact ⟨k, ins, hk, Nat.lt_succ_of_lt hlt, hpushed⟩
    cases hins : (plan.code b)[j]? with
    | none =>
      refine hlater ?_
      have hend := List.getElem?_eq_none_iff.1 hins
      unfold stackAt at hmem ⊢
      rwa [List.take_of_length_le (Nat.le_succ_of_le hend), ← List.take_of_length_le hend] at hmem
    | some ins =>
      rw [stackAt_succ hins] at hmem
      cases hcommand : ins.command with
      | transfer t =>
        rw [hcommand] at hmem
        exact hlater hmem
      | effect e =>
        rw [hcommand] at hmem
        cases e with
        | pushHandler target =>
          rcases List.mem_cons.1 hmem with rfl | hmem
          . exact .inr ⟨j, ins, hle, Nat.lt_succ_self j, hins, hcommand⟩
          . exact hlater hmem
        | popHandler target =>
          refine hlater ?_
          simp only [Command.stack] at hmem
          split at hmem
          . exact List.mem_of_mem_tail hmem
          . exact hmem
        | _ => exact hlater hmem

end Plan

open Plan

variable {options : CompileOptions} {plan : Plan} {handlers : List BlockId} {scope : Scope}
  {a u w : Spot}

theorem Code.operands_append {front after : List Form} {operands : List Operand}
    (h : Code options plan handlers scope a (.operands (front ++ after)) (some operands) w)
    : ∃ first rest u, operands = first ++ rest ∧
        Code options plan handlers scope a (.operands front) (some first) u ∧
        Code options plan handlers scope u (.operands after) (some rest) w := by
  induction front generalizing a operands with
  | nil => exact ⟨[], operands, a, rfl, .operandsNil, h⟩
  | cons form front ih =>
    cases h with
    | operandsCons hform hrest =>
      obtain ⟨first, rest, u, rfl, hfront, hafter⟩ := ih hrest
      exact ⟨_ :: first, rest, u, rfl, .operandsCons hform hfront, hafter⟩

namespace Plan

/--
A row of operands in the code of a graph, cut in two behind one of them.
-/
structure Cut (plan : Plan) (handlers : List BlockId) (scope : Scope) (s t a u w : Spot)
    (first : List Operand) : Prop where
  orderly : Orderly plan.code
  all : ∀ {b : BlockId} {i : Nat} {ins : Instruction}, (plan.code b)[i]? = some ins →
    s.value ≤ ins.id ∧ ins.id < t.value
  outside : ∀ b, b < s.fresh ∨ t.fresh ≤ b → (plan.label b).under = []
  positive : 0 < s.fresh
  secludes : plan.Secludes s t a w
  older : ((Part.operands []).bounds handlers scope a).Older a
  before : ∃ rows, plan.Nested rows ((Part.operands []).bounds handlers scope a) (fun _ => False) a
    (some first) u
  later : ∃ rows rest, plan.Nested rows ((Part.operands []).bounds handlers scope u)
    (fun _ => False) u (some rest) w
  onward : plan.Onward handlers a u
  onward' : plan.Onward handlers u w
  starts : plan.Starts w

namespace Cut

variable {s t : Spot} {first : List Operand} {b : BlockId} {i : Nat} {ins : Instruction}

theorem value_le (h : plan.Cut handlers scope s t a u w first)
    : a.value ≤ u.value ∧ u.value ≤ w.value :=
  ⟨h.onward.value, h.onward'.value⟩

theorem fresh_le (h : plan.Cut handlers scope s t a u w first)
    : s.fresh ≤ a.fresh ∧ a.fresh ≤ u.fresh ∧ u.fresh ≤ w.fresh ∧ w.fresh ≤ t.fresh := by
  obtain ⟨_, hbefore⟩ := h.before
  obtain ⟨_, _, hlater⟩ := h.later
  exact ⟨h.secludes.low.2, hbefore.fresh, hlater.fresh, h.secludes.high.2⟩

theorem block_lt (h : plan.Cut handlers scope s t a u w first)
    : a.block < a.fresh ∧ u.block < u.fresh := by
  obtain ⟨_, hbefore⟩ := h.before
  exact ⟨h.older.home _ _ ⟨rfl, Nat.le_refl _⟩, hbefore.block_lt h.older nofun⟩

theorem ahead (h : plan.Cut handlers scope s t a u w first) : plan.Ahead u := by
  rcases h.onward'.starts with ⟨hblock, hindex, hvalue⟩ | hstarts
  . refine Ahead.congr ?_ ⟨hblock.symm, hindex.symm, hvalue.symm⟩
    exact h.starts.ahead h.orderly
  . exact hstarts.ahead h.orderly

theorem low (h : plan.Cut handlers scope s t a u w first) (hins : (plan.code b)[i]? = some ins)
    (hcovers : u.Covers w b i)
    : u.value ≤ ins.id := by
  rcases hcovers with hopens | ⟨rfl, hi⟩
  . refine Nat.le_of_not_lt fun hlt => ?_
    obtain ⟨hlow, hhigh⟩ := h.all hins
    obtain ⟨_, hau, _⟩ := h.fresh_le
    by_cases hid : a.value ≤ ins.id
    . obtain ⟨_, hbefore⟩ := h.before
      rcases (hbefore.keeps.each hins hid hlt).sits with ⟨rfl, _⟩ | hrange
      . have := h.block_lt.1
        have := hopens.1
        lia
      . have := hopens.1
        lia
    . have hsits := h.secludes.sits hins hlow hhigh (by lia) (Nat.le_trans hau hopens.1) hopens.2
      have := h.value_le
      lia
  . exact h.ahead hins hi

theorem leads (h : plan.Cut handlers scope s t a u w first) (hins : (plan.code b)[i]? = some ins)
    {target : BlockId} (htarget : target ∈ ins.targets) (hopens : u.Opens w target)
    : Within u w b i ins := by
  obtain ⟨hlow, hhigh⟩ := h.all hins
  obtain ⟨_, hau, _⟩ := h.fresh_le
  obtain ⟨_, hbefore⟩ := h.before
  obtain ⟨_, _, hlater⟩ := h.later
  have hin : a.value ≤ ins.id ∧ ins.id < w.value := by
    refine Decidable.byContradiction fun hout => ?_
    exact (h.secludes.apart hins hlow hhigh hout).1 target htarget
      ⟨Nat.le_trans hau hopens.1, hopens.2⟩
  have hid : u.value ≤ ins.id := by
    refine Nat.le_of_not_lt fun hlt => ?_
    rcases (hbefore.keeps.each hins hin.1 hlt).leads target htarget with hgoal | hrange
    . have := h.older.goals target hgoal
      have := hopens.1
      lia
    . have := hopens.1
      lia
  exact ⟨hid, hin.2, ((hlater.keeps.each hins hid hin.2).sits).symm⟩

theorem under (h : plan.Cut handlers scope s t a u w first) {target : BlockId}
    (hmem : target ∈ (plan.label b).under) (hopens : u.Opens w target)
    : u.Opens w b := by
  obtain ⟨hsa, hau, huw, hwt⟩ := h.fresh_le
  obtain ⟨_, hbefore⟩ := h.before
  have hrange : s.fresh ≤ b ∧ b < t.fresh := by
    refine Decidable.byContradiction fun hout => ?_
    rw [h.outside b (by lia)] at hmem
    cases hmem
  have hin : a.fresh ≤ b ∧ b < w.fresh := by
    refine Decidable.byContradiction fun hout => ?_
    exact h.secludes.labels b hrange.1 hrange.2 hout target hmem
      ⟨Nat.le_trans hau hopens.1, hopens.2⟩
  refine ⟨Nat.le_of_not_lt fun hlt => ?_, hin.2⟩
  rcases hbefore.labels b hin.1 hlt target hmem with hunder | hrange
  . have := h.older.under target hunder
    have := hopens.1
    lia
  . have := hopens.1
    lia

theorem entered (h : plan.Cut handlers scope s t a u w first) {target : BlockId}
    (hmem : target ∈ plan.stackAt b 0) (hopens : u.Opens w target)
    : u.Opens w b := by
  rw [stackAt_zero] at hmem
  unfold Label.enter at hmem
  split at hmem
  . exact h.under hmem hopens
  all_goals
    rcases List.mem_cons.1 hmem with rfl | hmem
    . exact hopens
    . exact h.under hmem hopens

theorem block_of_behind (h : plan.Cut handlers scope s t a u w first)
    (hins : (plan.code b)[i]? = some ins) (hcovers : u.Covers w b i) (hid : w.value ≤ ins.id)
    : b = w.block := by
  obtain ⟨hlow, hhigh⟩ := h.all hins
  obtain ⟨_, hau, huw, _⟩ := h.fresh_le
  have hsits : a.fresh ≤ b → b < w.fresh → b = w.block :=
    fun hb hb' => (h.secludes.sits hins hlow hhigh (by lia) hb hb').2
  rcases hcovers with hopens | ⟨rfl, _⟩
  . exact hsits (Nat.le_trans hau hopens.1) hopens.2
  . by_cases hold : a.fresh ≤ u.block
    . exact hsits hold (Nat.lt_of_lt_of_le h.block_lt.2 huw)
    . rcases h.onward'.goes with ⟨hblock, _⟩ | ⟨hclosed, _⟩
      . exact hblock.symm
      . have := hclosed.id_lt h.orderly hins
        lia

theorem not_mem_stackAt (h : plan.Cut handlers scope s t a u w first) {target : BlockId}
    (hopens : u.Opens w target)
    : target ∉ plan.stackAt w.block w.index := by
  obtain ⟨_, hau, _⟩ := h.fresh_le
  have hlow := hopens.1
  -- The handlers at the end of the row are those at its start, and these are older.
  rcases (h.onward.trans h.onward').goes with ⟨_, _, hstack⟩ | ⟨_, hstack⟩
  . rw [hstack]
    intro hmem
    have hblock := h.block_lt.1
    rcases mem_stackAt (Nat.zero_le _) hmem with hmem | ⟨k, ins, _, hk, hins, hpush⟩
    . have := (h.entered hmem hopens).1
      lia
    . obtain ⟨hid, _, hcovers⟩ := h.leads hins (by simp [Instruction.targets, hpush]) hopens
      rcases hcovers with hopens' | ⟨hb, hk'⟩
      . have := hopens'.1
        lia
      . rcases h.onward.goes with ⟨_, hindex, _⟩ | ⟨hclosed, _⟩
        . lia
        . have := hclosed.id_lt h.orderly hins
          lia
  . rw [hstack]
    intro hmem
    have := h.older.under target (List.mem_append_right _ hmem)
    lia

theorem stack (h : plan.Cut handlers scope s t a u w first) (hins : (plan.code b)[i]? = some ins)
    {target : BlockId} (hmem : target ∈ plan.stackAt b i) (hopens : u.Opens w target)
    : Within u w b i ins := by
  have hcovers : u.Covers w b i := by
    rcases mem_stackAt (Nat.zero_le _) hmem with hmem | ⟨k, pusher, _, hk, hpusher, hpush⟩
    . exact .inl (h.entered hmem hopens)
    . have hwithin := h.leads hpusher (by simp [Instruction.targets, hpush]) hopens
      exact hwithin.covers.imp_right (.imp_right fun hk' => Nat.le_trans hk' (Nat.le_of_lt hk))
  refine ⟨h.low hins hcovers, Nat.lt_of_not_le fun hid => ?_, hcovers⟩
  obtain rfl := h.block_of_behind hins hcovers hid
  have hindex := h.starts.index_le h.orderly hins hid
  rcases mem_stackAt hindex hmem with hmem | ⟨k, pusher, hk, _, hpusher, hpush⟩
  . exact h.not_mem_stackAt hopens hmem
  . have hwithin := h.leads hpusher (by simp [Instruction.targets, hpush]) hopens
    have := h.starts.ahead h.orderly hpusher hk
    have := hwithin.high
    lia

theorem writes (h : plan.Cut handlers scope s t a u w first)
    (hins : (plan.code b)[i]? = some ins) (hcovers : u.Covers w b i) {v : ValueId}
    (hv : v ∈ ins.writes) (hgiven : .result v ∈ first)
    : scope.binds v = true := by
  obtain ⟨hlow, hhigh⟩ := h.all hins
  obtain ⟨_, hbefore⟩ := h.before
  obtain ⟨_, _, hlater⟩ := h.later
  have hid := h.low hins hcovers
  have hle := h.value_le
  rcases hbefore.gives v ⟨_, rfl, hgiven⟩ with hknown | hown
  . exact Part.binds_of_known rfl hknown
  by_cases hbehind : ins.id < w.value
  . rcases (hlater.keeps.each hins hid hbehind).writes v hv with hknown | hrange
    . exact Part.binds_of_known rfl hknown
    . lia
  . have := (h.secludes.apart hins hlow hhigh (by lia)).2 v hv
    lia

theorem encloses (h : plan.Cut handlers scope s t a u w first)
    : plan.Encloses scope first u w where
  start hopens := by
    have := h.fresh_le
    have := h.positive
    have := hopens.1
    lia
  block hopens := Nat.not_le.2 h.block_lt.2 hopens.1
  ends := by
    obtain ⟨_, _, hlater⟩ := h.later
    exact (hlater.ends nofun).1.symm
  starts := h.starts
  leads hins target htarget hopens := h.leads hins htarget hopens
  entered b target hmem hopens := h.entered hmem hopens
  stack hins target hmem hopens := h.stack hins hmem hopens
  low := h.low
  writes hins hcovers v hv hgiven := h.writes hins hcovers hv hgiven

end Cut

end Plan

theorem Part.follows_operands {first : List Operand} {forms forms' : List Form}
    : ((Part.operands forms').bounds handlers scope u).Follows
        ((Part.operands forms).bounds handlers scope a) u (some first) :=
  follows rfl (.inr nofun) (fun point hpoint => .inl (.inr ⟨point, hpoint, rfl⟩))
    (fun _ hb => List.mem_append_right _ hb) fun _ hv => .inl hv

theorem Code.cut {s t : Spot} {front after : List Form} {first rest : List Operand}
    (horderly : Orderly plan.code)
    (hall : ∀ {b : BlockId} {i : Nat} {ins : Instruction}, (plan.code b)[i]? = some ins →
      s.value ≤ ins.id ∧ ins.id < t.value)
    (houtside : ∀ b, b < s.fresh ∨ t.fresh ≤ b → (plan.label b).under = [])
    (hpositive : 0 < s.fresh) (hsecludes : plan.Secludes s t a w) (hstarts : plan.Starts w)
    (hfit : (Part.operands front).Fit handlers scope a)
    (hfront : Code options plan handlers scope a (.operands front) (some first) u)
    (hafter : Code options plan handlers scope u (.operands after) (some rest) w)
    : plan.Cut handlers scope s t a u w first := by
  have hbefore := hfront.nests horderly hfit .refl
  have hfit' : (Part.operands after).Fit handlers scope u :=
    ⟨hbefore.follow hfit.older Part.follows_operands, hfit.sorted.mono hbefore.keeps.le, trivial⟩
  have hlater := hafter.nests horderly hfit' .refl
  exact {
    orderly := horderly
    all := hall
    outside := houtside
    positive := hpositive
    secludes := hsecludes
    older := hfit.older
    before := ⟨_, hbefore⟩
    later := ⟨_, rest, hlater⟩
    onward := hfront.onward nofun
    onward' := hafter.onward nofun
    starts := hstarts }

/--
A cut through the operands of an instruction, right behind one of them. The code of the operands
before, of the operand itself, and of those behind it follows one after the other.
-/
structure Operand.Evaluated (options : CompileOptions) (plan : Plan) (q : Place) (w : Spot)
    (before : List Form) (form : Form) (after : List Form) (operands : List Operand)
    (operand : Operand) (u : Spot) : Prop where
  codes : ∃ first rest t, operands = first ++ operand :: rest ∧
    Code options plan q.handlers q.scope q.spot (.operands before) (some first) t ∧
    Code options plan q.handlers q.scope t (.form form) (some [operand]) u ∧
    Code options plan q.handlers q.scope u (.operands after) (some rest) w
  encloses : plan.Encloses q.scope [operand] u w

theorem Plan.Encloses.subset {first operands : List Operand}
    (h : plan.Encloses scope operands u w) (hsub : ∀ operand ∈ first, operand ∈ operands)
    : plan.Encloses scope first u w :=
  { h with writes := fun hins hcovers v hv hgiven => h.writes hins hcovers v hv (hsub _ hgiven) }

theorem Graph.Coded.operands {source : Form} {graph : Graph} (h : graph.Coded options source plan)
    {b : BlockId} {i : Nat} {ins : Instruction} (hins : (plan.code b)[i]? = some ins)
    (huse : ins.command.Uses)
    : ∃ q forms operands w k, Comprises options plan (.root options source) q ∧
        q.Feeds options plan forms operands w k ins.command ∧ b = w.block ∧ i = w.index + k ∧
        ins.id = w.value + k ∧ ∀ before form after, forms = before ++ form :: after →
          ∃ operand u, Operand.Evaluated options plan q w before form after operands operand u := by
  obtain ⟨t, hcode, hall, hlabels⟩ := h.main
  -- There is nothing around the root but the parameters.
  have hfit : (Part.shape (.finish [source])).Fit [] (.ofParams options.params)
      (.start options.params) := by
    refine ⟨⟨?_, ?_, ?_, ?_⟩, Scope.sorted_ofParams options.params, ?_⟩
    . rintro _ ((hb | ⟨point, hpoint, _⟩) | hb)
      . cases hb
      . cases hpoint
      . cases hb
    . exact fun _ hb => nomatch hb
    . rintro _ _ ⟨rfl, _⟩
      exact Nat.zero_lt_one
    . exact fun v hv => (Scope.sorted_ofParams options.params).locals v (Part.binds_of_known rfl hv)
    . refine ⟨trivial, fun _ hid => absurd hid List.not_mem_nil, ?_⟩
      rintro _ ⟨⟩
      exact Nat.le_refl _
  obtain ⟨hlow, hhigh⟩ := hall hins
  have hroot : Comprises options plan (.root options source) (.root options source) := .refl
  have hnested := hcode.nests h.toOrderly hfit hroot
  obtain ⟨a, w, hrow, hsecludes, _⟩ := (hnested.rows hins hlow hhigh huse).resolve_left id
  obtain @⟨q, forms, operands, k, hcomprises, hfeeds, rfl, hb, hi, hid, hstarts, hfit'⟩ := hrow
  refine ⟨q, forms, operands, w, k, hcomprises, hfeeds, hb, hi, hid, ?_⟩
  rintro before form after rfl
  have hoperands := hfeeds.code
  rw [List.append_cons] at hoperands
  obtain ⟨given, rest, u, rfl, hfront, hafter⟩ := hoperands.operands_append
  obtain ⟨first, last, m, rfl, hbefore, hlast⟩ := hfront.operands_append
  cases hlast with
  | @operandsCons _ _ _ _ _ _ _ operand _ hform hnil =>
    cases hnil
    refine ⟨operand, u, ⟨first, rest, m, by simp, hbefore, hform, hafter⟩, ?_⟩
    have houtside : ∀ b, b < (Spot.start options.params).fresh ∨ t.fresh ≤ b →
        (plan.label b).under = [] := by
      rintro b (hb | hb)
      . cases Nat.lt_one_iff.1 hb
        rw [h.outermost]
        rfl
      . rw [hlabels b hb]
        rfl
    have hfit'' : (Part.operands (before ++ [form])).Fit q.handlers q.scope q.spot :=
      ⟨hfit'.older, hfit'.sorted, trivial⟩
    have hcut := Code.cut h.toOrderly hall houtside Nat.zero_lt_one hsecludes hstarts hfit'' hfront
      hafter
    exact hcut.encloses.subset fun _ hmem => List.mem_append_right _ hmem

end Resumable
