import Resumable.Proofs.Lowering.Fits

/-!
This module contains the proof that all instructions and blocks of lowered code are as they have to
be. It goes through the code of a form once, keeping track of what is in scope and which handlers
are in force.
-/

namespace Resumable

namespace Plan

def Checked (plan : Plan) (params : Nat) (low high : ValueId) : Prop :=
  ∀ id, low ≤ id → id < high → ∃ (b : BlockId) (i : Nat) (command : Command) (span : Span),
    (plan.code b)[i]? = some { id, command, span } ∧ plan.Fits params b i id command

def BlocksChecked (options : CompileOptions) (plan : Plan) (low high : BlockId) : Prop :=
  ∀ b, low ≤ b → b < high → plan.BlockFits options b

structure Around (plan : Plan) (params : Nat) (handlers : List BlockId) (scope : Scope)
    (s : Spot) : Prop where
  locals : ∀ entry ∈ scope.locals, plan.Ready params s.value entry.2
  carried : ∀ point ∈ scope.loops.head?, point.carried.Nodup ∧
    ∀ id ∈ point.carried, plan.Ready params s.value id
  depth : ∀ point ∈ scope.loops.head?, point.tryDepth ≤ scope.tryDepth
  header : ∀ point ∈ scope.loops.head?, point.tryDepth = scope.tryDepth →
    plan.label point.header = .plain handlers scope
  handlers : ∀ h ∈ handlers, h < s.fresh
  inside : ∀ g ∈ scope.finallys, g < s.fresh

structure Here (plan : Plan) (handlers inside : List BlockId) (s : Spot) : Prop where
  stack : plan.stackAt s.block s.index = handlers
  inside : (plan.label s.block).inside = inside

structure Covered (options : CompileOptions) (plan : Plan) (params : Nat) (s t : Spot) : Prop where
  value : s.value ≤ t.value
  fresh : s.fresh ≤ t.fresh
  checked : plan.Checked params s.value t.value
  blocks : plan.BlocksChecked options s.fresh t.fresh

variable {options : CompileOptions} {plan : Plan} {params : Nat} {handlers inside : List BlockId}
  {scope : Scope} {s t u : Spot}

theorem Ready.mono {reader reader' id : ValueId} (h : plan.Ready params reader id)
    (hle : reader ≤ reader')
    : plan.Ready params reader' id :=
  ⟨Nat.lt_of_lt_of_le h.1 hle, h.2⟩

theorem AllReady.mono {reader reader' : ValueId} {operands : List Operand}
    (h : plan.AllReady params reader operands) (hle : reader ≤ reader')
    : plan.AllReady params reader' operands :=
  fun id hid => (h id hid).mono hle

theorem Around.mono (h : plan.Around params handlers scope s) (hvalue : s.value ≤ t.value)
    (hfresh : s.fresh ≤ t.fresh)
    : plan.Around params handlers scope t where
  locals entry hentry := (h.locals entry hentry).mono hvalue
  carried point hpoint :=
    ⟨(h.carried point hpoint).1, fun id hid => ((h.carried point hpoint).2 id hid).mono hvalue⟩
  depth := h.depth
  header := h.header
  handlers b hb := Nat.lt_of_lt_of_le (h.handlers b hb) hfresh
  inside b hb := Nat.lt_of_lt_of_le (h.inside b hb) hfresh

theorem Around.covered (h : plan.Around params handlers scope s)
    (hcovered : plan.Covered options params s t)
    : plan.Around params handlers scope t :=
  h.mono hcovered.value hcovered.fresh

theorem Covered.refl (hvalue : s.value = t.value) (hfresh : s.fresh = t.fresh)
    : plan.Covered options params s t where
  value := Nat.le_of_eq hvalue
  fresh := Nat.le_of_eq hfresh
  checked id hlow hhigh := by lia
  blocks b hlow hhigh := by lia

theorem Covered.trans (h : plan.Covered options params s t) (h' : plan.Covered options params t u)
    : plan.Covered options params s u where
  value := Nat.le_trans h.value h'.value
  fresh := Nat.le_trans h.fresh h'.fresh
  checked id hlow hhigh := by
    by_cases hid : id < t.value
    . exact h.checked id hlow hid
    . exact h'.checked id (Nat.not_lt.1 hid) hhigh
  blocks b hlow hhigh := by
    by_cases hb : b < t.fresh
    . exact h.blocks b hlow hb
    . exact h'.blocks b (Nat.not_lt.1 hb) hhigh

theorem Covered.skip {command : Command} (hholds : plan.Holds s [command])
    (hfits : plan.Fits params s.block s.index s.value command)
    : plan.Covered options params s (s.skip 1) where
  value := Nat.le_succ _
  fresh := Nat.le_refl _
  checked id hlow hhigh := by
    obtain ⟨⟨span, hspan⟩, _⟩ := hholds
    obtain rfl : id = s.value := Nat.le_antisymm (Nat.le_of_lt_succ hhigh) hlow
    exact ⟨_, _, _, span, hspan, hfits⟩
  blocks b hlow hhigh := absurd (Nat.lt_of_le_of_lt hlow hhigh) (Nat.lt_irrefl _)

theorem Covered.opened {count : Nat}
    (hblocks : ∀ b, s.fresh ≤ b → b < s.fresh + count → plan.BlockFits options b)
    : plan.Covered options params s (s.opened count) where
  value := Nat.le_refl _
  fresh := Nat.le_add_right _ _
  checked _ hlow hhigh := absurd (Nat.lt_of_le_of_lt hlow hhigh) (Nat.lt_irrefl _)
  blocks := hblocks

theorem Around.plainFits (h : plan.Around params handlers scope s) {b : BlockId}
    (hlabel : plan.label b = .plain handlers scope) (hb : s.fresh ≤ b)
    : plan.BlockFits options b where
  under g hg := by
    rw [hlabel] at hg
    exact Nat.lt_of_lt_of_le (h.handlers g hg) hb
  inside g hg := by
    rw [hlabel] at hg
    exact Nat.le_of_lt (Nat.lt_of_lt_of_le (h.inside g hg) hb)
  dispatch hrole := by
    rw [hlabel] at hrole
    cases hrole
  cleanup hrole := by
    rw [hlabel] at hrole
    cases hrole

theorem Around.cleanupFits (h : plan.Around params handlers scope s) {b : BlockId}
    (hlabel : plan.label b = { under := handlers, role := .cleanup, inside := b :: scope.finallys })
    (hb : s.fresh ≤ b)
    (hcode : ∃ s blocks forms live t,
      Code options plan handlers scope s (.cleanup blocks (some forms) live) none t ∧
        blocks.cleanup = some b)
    : plan.BlockFits options b where
  under g hg := by
    rw [hlabel] at hg
    exact Nat.lt_of_lt_of_le (h.handlers g hg) hb
  inside g hg := by
    rw [hlabel] at hg
    rcases List.mem_cons.1 hg with rfl | hg
    . exact Nat.le_refl _
    . exact Nat.le_of_lt (Nat.lt_of_lt_of_le (h.inside g hg) hb)
  dispatch hrole := by
    rw [hlabel] at hrole
    cases hrole
  cleanup _ := by
    obtain ⟨s, blocks, forms, live, t, hcode, hblock⟩ := hcode
    exact ⟨handlers, scope, s, blocks, forms, live, t, hcode, hblock,
      fun g hg => Nat.lt_of_lt_of_le (h.inside g hg) hb, hlabel⟩

theorem Around.dispatchFits (h : plan.Around params handlers scope s) {b : BlockId}
    {cleanup : Option BlockId}
    (hlabel : plan.label b =
      { under := cleanup.toList ++ handlers, role := .dispatch, inside := scope.finallys })
    (hb : s.fresh ≤ b) (hcleanup : ∀ b' ∈ cleanup.toList, b' < b)
    (hcode : ∃ s blocks catches live t,
      Code options plan handlers scope s (.catching blocks catches live) none t ∧
        blocks.dispatch = some b ∧ blocks.cleanup = cleanup)
    : plan.BlockFits options b where
  under g hg := by
    rw [hlabel] at hg
    rcases List.mem_append.1 hg with hg | hg
    . exact hcleanup g hg
    . exact Nat.lt_of_lt_of_le (h.handlers g hg) hb
  inside g hg := by
    rw [hlabel] at hg
    exact Nat.le_of_lt (Nat.lt_of_lt_of_le (h.inside g hg) hb)
  dispatch _ := by
    obtain ⟨s, blocks, catches, live, t, hcode, hblock, rfl⟩ := hcode
    exact ⟨handlers, scope, s, blocks, catches, live, t, hcode, hblock, hlabel⟩
  cleanup hrole := by
    rw [hlabel] at hrole
    cases hrole

theorem Here.skip {command : Command} (h : plan.Here handlers inside s)
    (hholds : plan.Holds s [command])
    : plan.Here (command.stack handlers) inside (s.skip 1) where
  stack := by
    obtain ⟨⟨span, hspan⟩, _⟩ := hholds
    have := stackAt_succ hspan
    rw [h.stack] at this
    exact this
  inside := h.inside

theorem Here.goTo {b : BlockId} (hlabel : plan.label b = .plain handlers scope)
    : plan.Here handlers scope.finallys (s.goTo b) where
  stack := by
    change plan.stackAt b 0 = handlers
    rw [stackAt_zero, hlabel]
    rfl
  inside := by
    change (plan.label b).inside = _
    rw [hlabel]
    rfl

theorem gives_of_holds {effect : Effect} (hholds : plan.Holds s [.effect effect])
    (hnameable : effect.isNameable = true)
    : plan.Gives s.value := by
  obtain ⟨⟨span, hspan⟩, _⟩ := hholds
  exact ⟨_, _, effect, span, hspan, hnameable⟩

theorem Covered.goTo (h : plan.Covered options params s t) (b : BlockId)
    : plan.Covered options params s (t.goTo b) :=
  ⟨h.value, h.fresh, h.checked, h.blocks⟩

theorem Covered.ofGoTo {b : BlockId} (h : plan.Covered options params (s.goTo b) t)
    : plan.Covered options params s t :=
  ⟨h.value, h.fresh, h.checked, h.blocks⟩

theorem AllReady.nil {reader : ValueId} : plan.AllReady params reader [] := by
  intro id hid
  cases hid

theorem AllReady.singleton {reader : ValueId} {operand : Operand}
    : plan.AllReady params reader [operand] ↔ ∀ id, operand = .result id →
        plan.Ready params reader id := by
  simp [AllReady, eq_comm]

variable (options) in
theorem plain_step {effect : Effect} (hholds : plan.Holds s [.effect effect])
    (hplain : effect.isPlain = true) (hready : plan.AllReady params s.value effect.operands)
    (hhere : plan.Here handlers inside s)
    : plan.Covered options params s (s.skip 1) ∧ plan.Here handlers inside (s.skip 1) ∧
        plan.Ready params (s.skip 1).value s.value := by
  have hnameable : effect.isNameable = true := by
    cases effect <;> simp_all [Effect.isPlain, Effect.isNameable]
  have hstack : (Command.effect effect).stack handlers = handlers := by
    cases effect <;> simp_all [Effect.isPlain, Command.stack]
  refine ⟨.skip hholds (.plain hplain hready), ?_, Nat.lt_succ_self _, .inr ?_⟩
  . have := hhere.skip hholds
    rw [hstack] at this
    exact this
  . exact gives_of_holds hholds hnameable

variable (options params) in
theorem receive_step (hholds : plan.Holds s [.receive]) (hhere : plan.Here handlers inside s)
    : plan.Covered options params s (s.skip 1) ∧ plan.Here handlers inside (s.skip 1) ∧
        plan.Ready params (s.skip 1).value s.value := by
  refine plain_step options hholds rfl ?_ hhere
  intro id hid
  cases hid with
  | tail _ hid => cases hid

variable (options) in
theorem copy_steps {operands : List Operand}
    (hholds : plan.Holds s (operands.map fun operand => .effect (.const operand)))
    (hready : plan.AllReady params s.value operands) (hhere : plan.Here handlers inside s)
    : plan.Covered options params s (s.skip operands.length) ∧
        plan.Here handlers inside (s.skip operands.length) ∧
        ∀ id ∈ List.range' s.value operands.length,
          plan.Ready params (s.skip operands.length).value id := by
  induction operands generalizing s with
  | nil => exact ⟨.refl rfl rfl, hhere, by simp⟩
  | cons operand operands ih =>
    have hone : plan.Holds s [.effect (.const operand)] := ⟨hholds.1, trivial⟩
    have hfirst : plan.AllReady params s.value [operand] := by
      intro id hid
      rw [List.mem_singleton] at hid
      exact hready id (hid ▸ List.mem_cons_self ..)
    have hothers : plan.AllReady params (s.skip 1).value operands := by
      intro id hid
      exact (hready id (List.mem_cons_of_mem _ hid)).mono (Nat.le_succ _)
    have hskip : s.skip (operand :: operands).length = (s.skip 1).skip operands.length := by
      simp only [Spot.skip, List.length_cons, Spot.mk.injEq, true_and]
      lia
    obtain ⟨hcovered, hhere', hgiven⟩ := plain_step options hone rfl hfirst hhere
    obtain ⟨hcovered', hhere'', hgivens⟩ := ih hholds.2 hothers hhere'
    rw [hskip]
    refine ⟨hcovered.trans hcovered', hhere'', ?_⟩
    intro id hid
    rw [List.length_cons, List.range'_succ, List.mem_cons] at hid
    rcases hid with rfl | hid
    . exact hgiven.mono hcovered'.value
    . exact hgivens id hid

def Stacked (plan : Plan) (outer inside : List BlockId) : List BlockId → Prop
  | [] => True
  | block :: rest => plan.Guards (rest ++ outer) inside block ∧ plan.Stacked outer inside rest

variable (options params) in
theorem push_steps {blocks : List BlockId}
    (hholds : plan.Holds s (blocks.reverse.map (.effect <| .pushHandler ·)))
    (hstacked : plan.Stacked handlers inside blocks) (hhere : plan.Here handlers inside s)
    : plan.Covered options params s (s.skip blocks.length) ∧
        plan.Here (blocks ++ handlers) inside (s.skip blocks.length) := by
  induction blocks with
  | nil => exact ⟨.refl rfl rfl, hhere⟩
  | cons block rest ih =>
    rw [List.reverse_cons, List.map_append, holds_append] at hholds
    obtain ⟨hcovered, hhere'⟩ := ih hholds.1 hstacked.2
    have hlast := hholds.2
    rw [List.length_map, List.length_reverse] at hlast
    have hskip : s.skip (block :: rest).length = (s.skip rest.length).skip 1 := rfl
    rw [hskip]
    refine ⟨hcovered.trans (.skip hlast (.push ?_)), hhere'.skip hlast⟩
    rw [hhere'.stack, hhere'.inside]
    exact hstacked.1

variable (options params) in
theorem pop_steps {blocks : List BlockId}
    (hholds : plan.Holds s (blocks.map (.effect <| .popHandler ·)))
    (hstacked : plan.Stacked handlers inside blocks)
    (hhere : plan.Here (blocks ++ handlers) inside s)
    : plan.Covered options params s (s.skip blocks.length) ∧
        plan.Here handlers inside (s.skip blocks.length) := by
  induction blocks generalizing s with
  | nil => exact ⟨.refl rfl rfl, hhere⟩
  | cons block rest ih =>
    have hone : plan.Holds s [.effect (.popHandler block)] := ⟨hholds.1, trivial⟩
    have hstack : (Command.effect (.popHandler block)).stack (block :: rest ++ handlers) =
        rest ++ handlers := by
      simp [Command.stack]
    have hhere' := hhere.skip hone
    rw [hstack] at hhere'
    have hskip : s.skip (block :: rest).length = (s.skip 1).skip rest.length := by
      simp only [Spot.skip, List.length_cons, Spot.mk.injEq, true_and]
      lia
    obtain ⟨hcovered, hhere''⟩ := ih hholds.2 hstacked.2 hhere'
    rw [hskip]
    refine ⟨Covered.trans (.skip hone (.pop hhere.stack ?_)) hcovered, hhere''⟩
    rw [hhere.inside]
    exact hstacked.1

end Plan

namespace Job

def ids : Job → List ValueId
  | .closure _ captured => captured
  | .setLocal id => [id]
  | _ => []

theorem effect_isNameable (job : Job) (operands : List Operand)
    : (job.effect operands).isNameable = true := by
  unfold effect
  split <;> rfl

theorem effect_stack (job : Job) (operands : List Operand) (handlers : List BlockId)
    : (Command.effect (job.effect operands)).stack handlers = handlers := by
  unfold effect
  split <;> rfl

theorem effect_fits {plan : Plan} {params : Nat} {b : BlockId} {i : Nat} {id : ValueId}
    {job : Job} {operands : List Operand} (hoperands : plan.AllReady params id operands)
    (hids : ∀ r ∈ job.ids, plan.Ready params id r)
    : plan.Fits params b i id (.effect (job.effect operands)) := by
  unfold effect
  split
  . exact .plain rfl hoperands
  . next name args =>
    refine .plain rfl ?_
    intro r hr
    rcases List.mem_cons.1 hr with heq | hr
    . cases heq
    . exact hoperands r hr
  . next code captured _ =>
    refine .plain rfl ?_
    intro r hr
    obtain ⟨r', hr', heq⟩ := List.mem_map.1 hr
    cases heq
    exact hids r hr'
  . exact .plain rfl hoperands
  . exact .plain rfl hoperands
  . exact .setLocal (hids _ (List.mem_singleton.2 rfl)) hoperands
  . exact .plain rfl hoperands
  . exact .plain rfl hoperands
  . refine .plain rfl ?_
    intro r hr
    cases hr with
    | tail _ hr => cases hr

end Job

namespace Shape

def ids : Shape → List ValueId
  | .value (.result id) => [id]
  | .perform job _ => job.ids
  | _ => []

def Proper : Shape → Prop
  | .select .test _ arms => arms.length = 2
  | _ => True

end Shape

theorem Scope.mem_of_find? {scope : Scope} {name : String} {id : ValueId}
    (h : scope.find? name = some id)
    : (name, id) ∈ scope.locals := by
  unfold find? at h
  generalize scope.locals = l at h
  induction l with
  | nil => cases h
  | cons entry l ih =>
    obtain ⟨name', id'⟩ := entry
    rw [List.lookup_cons] at h
    split at h
    . next heq =>
      cases h
      rw [beq_iff_eq.1 heq]
      exact List.mem_cons_self ..
    . exact List.mem_cons_of_mem _ (ih h)

theorem Named.ids {options : CompileOptions} {scope : Scope} {name : String} {args : List Form}
    {span : Span} {shape : Shape} (h : Named options scope name args span shape)
    : (∀ id ∈ shape.ids, ∃ name', (name', id) ∈ scope.locals) ∧ shape.Proper := by
  cases h with
  | setLocal hfind =>
    refine ⟨?_, trivial⟩
    intro id hid
    cases List.mem_singleton.1 hid
    exact ⟨_, Scope.mem_of_find? hfind⟩
  | closure hcaptured =>
    refine ⟨?_, trivial⟩
    intro id hid
    obtain ⟨entry, hentry, rfl⟩ := List.mem_map.1 hid
    rw [hcaptured] at hentry
    have hvisible := Table.mem_of_mem_ofList (List.mem_filter.1 hentry).1
    exact ⟨entry.1, List.mem_reverse.1 hvisible⟩
  | choose => exact ⟨by simp [Shape.ids], rfl⟩
  | _ => exact ⟨by simp [Shape.ids, Job.ids], trivial⟩

theorem Reads.ids {options : CompileOptions} {scope : Scope} {form : Form} {shape : Shape}
    (h : Reads options scope form shape)
    : (∀ id ∈ shape.ids, ∃ name, (name, id) ∈ scope.locals) ∧ shape.Proper := by
  cases h with
  | «local» hfind =>
    refine ⟨?_, trivial⟩
    intro id hid
    cases List.mem_singleton.1 hid
    exact ⟨_, Scope.mem_of_find? hfind⟩
  | named _ hnamed => exact hnamed.ids
  | _ => exact ⟨by simp [Shape.ids, Job.ids], trivial⟩

end Resumable
