import Resumable.Proofs.Lowering.Locals
import Resumable.Proofs.Slots.Layout
import Resumable.Proofs.Values.Inherited

/-!
This module contains the lowering of literal data: forms of vectors, maps, sets and atoms that stand
for themselves. They are lowered into a single block of calls of constructors, in the order in which
the collections end.
-/

namespace Resumable

/--
Whether a form is data that stands for itself: no symbol is in it, no list but the empty one, and
every key of a map has a value.
-/
inductive Form.IsData : Form → Prop where
  | atom {value : Atom} {span : Span} :
    (∀ name, value ≠ .symbol name) → IsData (.atom value span)
  | empty {span : Span} : IsData (.list [] span)
  | group {bracket : Bracket} {items : List Form} {span : Span} :
    bracket ≠ .list → (bracket = .map → items.length % 2 = 0) → (∀ item ∈ items, item.IsData) →
      IsData (.group bracket items span)

def Bracket.constructor? : Bracket → Option Primitive
  | .list => none
  | .vector => some .vector
  | .map => some .hashMap
  | .set => some .hashSet

namespace Draft

def filled (params : List String) (code : List Instruction) : Draft :=
  { builder :=
      { nextBlock := 1
        nextValue := params.length + code.length
        blocks := ⟨[(0, { handlers := [], code := code })]⟩
        start := some 0
        current := some 0
        params := params.zip (.range' 0 params.length)
        scope := .ofParams params } }

theorem start_eq (params : List String) : start params = filled params [] := rfl

end Draft

inductive Makes : ValueId → List Instruction → List Operand → List Value → Prop where
  | nil {first : ValueId} : Makes first [] [] []
  | literal {first : ValueId} {value : Value} : Makes first [] [.literal value] [value]
  | append {first : ValueId} {code code' : List Instruction} {operands operands' : List Operand}
    {values values' : List Value} :
    Makes first code operands values → Makes (first + code.length) code' operands' values' →
      Makes first (code ++ code') (operands ++ operands') (values ++ values')
  | call {first : ValueId} {code : List Instruction} {operands : List Operand} {values : List Value}
    {bracket : Bracket} {p : Primitive} {span : Span} :
    bracket.constructor? = some p → (bracket = .map → values.length % 2 = 0) →
      Makes first code operands values →
        Makes first
          (code ++ [⟨first + code.length, .effect (.call (.global p.name) operands), span⟩])
          [.result (first + code.length)] [bracket.toValue values]

namespace Makes

variable {first : ValueId} {code : List Instruction} {operands : List Operand} {values : List Value}

theorem le_of_write (h : Makes first code operands values) {i : Instruction} (hi : i ∈ code)
    {id : ValueId} (hid : id ∈ i.writes)
    : first ≤ id := by
  induction h with
  | nil | literal => cases hi
  | append _ _ ih ih' =>
    rcases List.mem_append.1 hi with hi | hi
    . exact ih hi
    . exact Nat.le_trans (Nat.le_add_right ..) (ih' hi)
  | call _ _ _ ih =>
    rcases List.mem_append.1 hi with hi | hi
    . exact ih hi
    . cases List.mem_singleton.1 hi
      cases List.mem_singleton.1 hid
      exact Nat.le_add_right ..

theorem read_iff_written (h : Makes first code operands values) (id : ValueId)
    : ((∃ i ∈ code, id ∈ i.reads) ∨ .result id ∈ operands) ↔ ∃ i ∈ code, id ∈ i.writes := by
  induction h with
  | nil | literal => simp
  | append _ _ ih ih' =>
    simp only [List.mem_append, or_and_right, exists_or, ← ih, ← ih']
    exact or_or_or_comm
  | @call first code operands values bracket p span _ _ _ ih =>
    have hreads : id ∈ Instruction.reads ⟨first + code.length,
        .effect (.call (.global p.name) operands), span⟩ ↔ .result id ∈ operands := by
      simp [Instruction.mem_reads, Instruction.operands, Effect.operands]
    simp only [List.mem_append, List.mem_singleton, or_and_right, exists_or, exists_eq_left, hreads,
      ih, Operand.result.injEq, Instruction.writes, Effect.writes]

end Makes

def Graph.finishing (params : List String) (code : List Instruction) (operand : Operand)
    (span : Span) : Graph where
  blocks := ⟨[(0, { code :=
    code ++ [⟨params.length + code.length, .transfer (.finish operand), span⟩] })]⟩
  start := 0
  params := params.zip (.range' 0 params.length)

namespace Lower

open Draft (filled)

variable {options : CompileOptions} {lower : Form → Lower Lowered} {form : Form} {forms : List Form}
variable {params : List String} {code : List Instruction}

theorem build_add_filled (command : Command) (span : Span)
    : build (·.add command span) (filled params code)
        =
      .ok (params.length + code.length)
        (filled params (code ++ [⟨params.length + code.length, command, span⟩])) := by
  unfold filled
  rw [List.length_append]
  rfl

def LowersTo (params : List String) (step : Lower Lowered) (value : Value) : Prop :=
  ∀ code, ∃ more operand, Makes (params.length + code.length) more [operand] [value] ∧
    step (filled params code) = .ok (.value operand) (filled params (code ++ more))

theorem lowersTo_literal (value : Value) : LowersTo params (pure (.value (.literal value))) value :=
  fun code => ⟨[], _, .literal, by rw [List.append_nil]; rfl⟩

theorem operands_lowersTo (h : ∀ form ∈ forms, LowersTo params (lower form) form.toValue)
    (code : List Instruction)
    : ∃ more made, Makes (params.length + code.length) more made (Form.toValues forms) ∧
        operands lower forms (filled params code)
          = .ok (some made) (filled params (code ++ more)) := by
  induction forms generalizing code with
  | nil => exact ⟨[], [], .nil, by rw [List.append_nil]; rfl⟩
  | cons form forms ih =>
    obtain ⟨hform, hforms⟩ := List.forall_mem_cons.1 h
    obtain ⟨more, operand, hmakes, hstep⟩ := hform code
    obtain ⟨rest, made, hmakes', hsteps⟩ := ih hforms (code ++ more)
    refine ⟨more ++ rest, operand :: made, ?_, ?_⟩
    . rw [List.length_append, ← Nat.add_assoc] at hmakes'
      exact hmakes.append hmakes'
    . rw [operands, bind_of_ok hstep]
      refine (bind_of_ok hsteps).trans ?_
      rw [List.append_assoc]
      rfl

theorem globalCall_lowersTo {bracket : Bracket} {p : Primitive} {items : List Form} {span : Span}
    (hp : bracket.constructor? = some p) (hpaired : bracket = .map → items.length % 2 = 0)
    (h : ∀ item ∈ items, LowersTo params (lower item) item.toValue)
    : LowersTo params (globalCall lower p.name items span)
        (Form.group bracket items span).toValue := by
  intro code
  obtain ⟨more, made, hmakes, hsteps⟩ := operands_lowersTo h code
  have hvalues : bracket = .map → (Form.toValues items).length % 2 = 0 := by
    rwa [Form.toValues_eq_map, List.length_map]
  refine ⟨_, _, @Makes.call _ _ _ _ _ _ span hp hvalues hmakes, ?_⟩
  rw [globalCall, withOperands, bind_of_ok hsteps]
  refine (bind_of_ok (build_add_filled _ span)).trans ?_
  simp only [List.length_append, ← Nat.add_assoc, List.append_assoc]
  rfl

theorem coreForm_constructor {bracket : Bracket} {p : Primitive} {items : List Form} {span : Span}
    (hp : bracket.constructor? = some p)
    : coreForm options lower (.group bracket items span) = globalCall lower p.name items span := by
  cases bracket <;> cases hp <;> rfl

theorem expand_data (hexpander : options.expander = .stock ∨ options.expander = .core) (d : Draft)
    (hform : form.head? = none)
    : expand options.expander form d = .ok form d := by
  rcases hexpander with h | h
  . rw [h]
    exact expand_stock (by simp [hform]) d
  . rw [h]
    exact expand_none rfl

theorem height_le_heights (h : form ∈ forms) : form.height ≤ heights forms := by
  induction forms with
  | nil => cases h
  | cons first forms ih =>
    rw [heights]
    rcases List.mem_cons.1 h with rfl | h
    . exact Nat.le_max_left ..
    . exact Nat.le_trans (ih h) (Nat.le_max_right ..)

theorem height_pos (form : Form) : 0 < form.height := by
  cases form <;> rw [Form.height] <;> omega

theorem heights_le_weights (h : ∀ form ∈ forms, form.height ≤ Sugar.weight form)
    : heights forms ≤ Sugar.weights forms := by
  induction forms with
  | nil => exact Nat.zero_le _
  | cons form forms ih =>
    obtain ⟨hform, hforms⟩ := List.forall_mem_cons.1 h
    have hrest := ih hforms
    rw [heights, Sugar.weights]
    omega

theorem height_le_weight (form : Form) : form.height ≤ Sugar.weight form := by
  induction form using Form.induction with
  | atom value span => exact Nat.le_succ 1
  | group bracket items span ih =>
    have hitems := heights_le_weights ih
    cases bracket <;> simp only [Form.height, Sugar.weight] <;> omega
  | quote inner span ih =>
    rw [Form.height, Sugar.weight]
    omega

theorem height_le_depth (hexpander : options.expander = .stock ∨ options.expander = .core)
    : form.height ≤ options.expander.depth form := by
  rcases hexpander with h | h
  . rw [h]
    exact height_le_weight form
  . rw [h]
    exact Nat.le_refl _

theorem form_lowersTo_of_core (hexpander : options.expander = .stock ∨ options.expander = .core)
    (hform : form.head? = none) {depth : Nat} (hdepth : form.height ≤ depth) {value : Value}
    (h : ∀ below, depth = below + 1 →
      LowersTo params (coreForm options (Lower.form options below) form) value)
    : LowersTo params (Lower.form options depth form) value := by
  obtain ⟨below, rfl⟩ := Nat.exists_eq_add_one.2 (Nat.lt_of_lt_of_le (height_pos _) hdepth)
  have hcore : Lower.form options (below + 1) form
      = coreForm options (Lower.form options below) form :=
    funext fun d => bind_of_ok (expand_data hexpander d hform)
  rw [hcore]
  exact h below rfl

theorem form_lowersTo_quoted (hexpander : options.expander = .stock ∨ options.expander = .core)
    (inner : Form) (span : Span) {depth : Nat} (hdepth : (Form.quote inner span).height ≤ depth)
    : LowersTo params (Lower.form options depth (.quote inner span)) inner.toValue :=
  form_lowersTo_of_core hexpander rfl hdepth fun _ _ => lowersTo_literal _

theorem form_lowersTo (hexpander : options.expander = .stock ∨ options.expander = .core)
    (hdata : form.IsData) {depth : Nat} (hdepth : form.height ≤ depth)
    : LowersTo params (Lower.form options depth form) form.toValue := by
  induction hdata generalizing depth with
  | @atom value span hvalue =>
    refine form_lowersTo_of_core hexpander rfl hdepth fun _ _ => ?_
    rw [Form.toValue]
    cases value with
    | symbol name => exact absurd rfl (hvalue name)
    | _ => exact lowersTo_literal _
  | empty => exact form_lowersTo_of_core hexpander rfl hdepth fun _ _ => lowersTo_literal _
  | @group bracket items span hbracket hpaired hitems ih =>
    obtain ⟨p, hp⟩ : ∃ p, bracket.constructor? = some p := by
      cases bracket with
      | list => contradiction
      | vector | map | set => exact ⟨_, rfl⟩
    have hhead : (Form.group bracket items span).head? = none := by
      cases bracket <;> cases hp <;> rfl
    refine form_lowersTo_of_core hexpander hhead hdepth fun below hbelow => ?_
    rw [coreForm_constructor hp]
    refine globalCall_lowersTo hp hpaired fun item hitem => ih item hitem ?_
    have hle := height_le_heights hitem
    rw [Form.height] at hdepth
    omega

theorem program_lowersTo {source : Form} {value : Value}
    (hreturn : options.terminators.returnHandler? = none)
    (h : LowersTo options.params (Lower.form options (options.expander.depth source) source) value)
    : ∃ code operand, Makes options.params.length code [operand] [value] ∧
        program options source {} = .ok () (filled options.params (code ++
          [⟨options.params.length + code.length, .transfer (.finish operand), source.span⟩])) := by
  obtain ⟨d, hparams⟩ := addParams_total options.params {}
  have hopened : newBlock d = .ok d.spot.fresh d.opened := newBlock_ok.2 ⟨rfl, rfl⟩
  have hat : goTo d.spot.fresh d.opened = .ok () (filled options.params []) := by
    rw [← Draft.start_eq, ← start_of_params hparams]
    exact goTo_ok.2 rfl
  obtain ⟨code, operand, hmakes, hform⟩ := h []
  refine ⟨code, operand, hmakes, ?_⟩
  unfold program
  rw [bind_of_ok hparams, bind_of_ok hopened, bind_of_ok hat, bind_of_ok hform]
  have hend : finishWith options operand source.span = leave (.finish operand) source.span := by
    rw [finishWith, hreturn]
  refine (congrFun hend _).trans ?_
  exact bind_of_ok (build_add_filled (.transfer (.finish operand)) source.span)

end Lower

theorem Graph.ofForm_lowersTo {options : CompileOptions} {source : Form} {value : Value}
    (hreturn : options.terminators.returnHandler? = none)
    (h : Lower.LowersTo options.params (Lower.form options (options.expander.depth source) source)
      value)
    : ∃ code operand, Makes options.params.length code [operand] [value] ∧
        ofForm options source = .ok (finishing options.params code operand source.span) := by
  obtain ⟨code, operand, hmakes, hprogram⟩ := Lower.program_lowersTo hreturn h
  refine ⟨code, operand, hmakes, ?_⟩
  rw [ofForm, hprogram]
  have hfilled : ∀ last : Instruction, (code ++ [last]).isEmpty = false := by simp
  have hlast : ∀ last : Instruction, (code ++ [last]).getLast? = some last := by simp
  simp [Draft.filled, Builder.finish, finishing, hfilled, Block.isSealed, hlast,
    Instruction.isTransfer]

end Resumable
