import Resumable.Proofs.Lowering.Forms

/-!
This module contains the proof that the graph of a form consists of the code of the form.
-/

namespace Resumable

def Scope.ofParams (params : List String) : Scope :=
  ({} : Scope).bindAll (params.zip (.range' 0 params.length))

def Spot.start (params : List String) : Spot :=
  { block := 0, index := 0, value := params.length, fresh := 1 }

/--
Whether a graph is the code of a form, laid out by a plan.
-/
structure Graph.Coded (options : CompileOptions) (source : Form) (graph : Graph) (plan : Plan) :
    Prop extends Orderly plan.code where
  code : ∀ b, graph.blocks.code b = plan.code b
  outermost : plan.label 0 = .plain [] {}
  start : graph.start = 0
  params : graph.params = options.params.zip (.range' 0 options.params.length)
  ascending : graph.blocks.Ascending
  filled : ∀ {b : BlockId} {block : Block}, graph.blocks.get? b = some block →
    block.code ≠ [] ∧ block.isSealed = true
  main : ∃ t, Code options plan [] (.ofParams options.params) (.start options.params)
      (.shape (.finish [source])) none t ∧
    (∀ {b : BlockId} {i : Nat} {ins : Instruction}, (plan.code b)[i]? = some ins →
      options.params.length ≤ ins.id ∧ ins.id < t.value) ∧
    ∀ b, t.fresh ≤ b → plan.label b = .plain [] {}

namespace Lower

variable {options : CompileOptions} {d d' : Draft}

theorem addParams_total (names : List String) (d : Draft) : ∃ e, addParams names d = .ok () e := by
  induction names generalizing d with
  | nil => exact ⟨d, rfl⟩
  | cons name names ih => exact ih _

theorem addParams_ok {names : List String} {a : Unit} (h : addParams names d = .ok a d')
    : d' = { d with builder := { d.builder with
        nextValue := d.builder.nextValue + names.length
        params := d.builder.params ++ names.zip (.range' d.builder.nextValue names.length)
        scope := d.scope.bindAll (names.zip (.range' d.builder.nextValue names.length)) } } := by
  induction names generalizing d with
  | nil =>
    obtain ⟨_, rfl⟩ := pure_ok.1 h
    simp [Scope.bindAll, Draft.scope]
  | cons name names ih =>
    unfold addParams at h
    obtain ⟨_, _, hadd, hrest⟩ := bind_ok.1 h
    cases hadd
    rw [ih hrest]
    simp [Scope.bindAll, Scope.bind, Draft.scope, List.range'_succ, Nat.add_assoc,
      Nat.add_comm 1]

end Lower

namespace Draft

def start (params : List String) : Draft :=
  { builder :=
      { nextBlock := 1
        nextValue := params.length
        blocks := Table.insert {} 0 {}
        start := some 0
        current := some 0
        params := params.zip (.range' 0 params.length)
        scope := .ofParams params } }

theorem start_code (params : List String) (b : BlockId) : (start params).code b = [] := by
  simp only [start, code, Table.code, Table.get?_insert]
  split <;> rfl

theorem start_tidy (params : List String) : (start params).Tidy where
  current := rfl
  inside := Nat.zero_lt_one
  beyond b _ := start_code params b
  last h := by simp [start_code] at h
  unique h := by simp [start_code] at h
  ordered h := by simp [start_code] at h
  bound h := by simp [start_code] at h
  ascending := by
    have hempty : Table.Ascending ({} : Table Nat Block) := List.Pairwise.nil
    exact hempty.insert _ _

theorem start_open (params : List String) : (start params).Open := by
  intro ins hins
  simp [start_code] at hins

end Draft

namespace Lower

variable {options : CompileOptions} {d' : Draft}

theorem start_of_params {params : List String} {a : Unit} {d : Draft}
    (h : addParams params {} = .ok a d)
    : d.opened.goTo d.spot.fresh = .start params := by
  rw [addParams_ok h]
  simp [Draft.opened, Draft.goTo, Draft.start, Builder.newBlock, Builder.goTo, Draft.spot,
    Draft.scope, Scope.ofParams, Scope.bindAll]

theorem program_laid {source : Form} {a : Unit} (h : program options source {} = .ok a d')
    : Laid options (.start options.params) (.shape (.finish [source])) none d' := by
  unfold program at h
  obtain ⟨_, d, hparams, hblock⟩ := bind_ok.1 h
  obtain ⟨_, _, hopened, hgoTo⟩ := bind_ok.1 hblock
  obtain ⟨rfl, rfl⟩ := newBlock_ok.1 hopened
  obtain ⟨_, _, hat, hform⟩ := bind_ok.1 hgoTo
  obtain rfl := goTo_ok.1 hat
  obtain ⟨lowered, e, hform, hend⟩ := bind_ok.1 hform
  rw [start_of_params hparams] at hform
  have hlaid := (form_faithful options _).laid (Draft.start_tidy _) (Draft.start_open _) hform
  cases lowered with
  | value operand =>
    exact finish_laid (hlaid.map fun _ _ hcode => .bodyCons hcode .bodyNil) hend
  | terminated =>
    obtain ⟨_, rfl⟩ := pure_ok.1 hend
    exact hlaid.map fun _ _ hcode => .finishStop (.bodyStop hcode)

end Lower

theorem Table.code_filter {blocks : Table BlockId Block} (h : blocks.Ascending) (b : BlockId)
    : (Table.mk (blocks.entries.filter (!·.2.code.isEmpty))).code b = blocks.code b := by
  have hfiltered := h.filter (!·.2.code.isEmpty)
  unfold code
  cases hblock : blocks.get? b with
  | none =>
    cases hblock' : (Table.mk (blocks.entries.filter (!·.2.code.isEmpty))).get? b with
    | none => rfl
    | some block =>
      have hmem := (List.mem_filter.1 (mem_of_get? hblock')).1
      rw [h.mem_iff.1 hmem] at hblock
      contradiction
  | some block =>
    by_cases hempty : block.code = []
    . cases hblock' : (Table.mk (blocks.entries.filter (!·.2.code.isEmpty))).get? b with
      | none => simp [hempty]
      | some block' =>
        have hmem := (List.mem_filter.1 (mem_of_get? hblock')).1
        rw [h.mem_iff.1 hmem] at hblock
        cases hblock
        rfl
    . have hmem : (b, block) ∈ blocks.entries.filter (!·.2.code.isEmpty) :=
        List.mem_filter.2 ⟨h.mem_iff.2 hblock, by simp [hempty]⟩
      rw [hfiltered.mem_iff.1 hmem]

theorem Graph.ofForm_coded {options : CompileOptions} {source : Form} {graph : Graph}
    (h : Graph.ofForm options source = .ok graph)
    : ∃ plan, graph.Coded options source plan := by
  unfold Graph.ofForm at h
  split at h
  . contradiction
  . next a d hprogram =>
    have hlaid := Lower.program_laid hprogram
    unfold Builder.finish at h
    simp only at h
    split at h
    . contradiction
    . next hsealed =>
      split at h
      . contradiction
      . next start hstart =>
        cases h
        obtain ⟨label, hlabel, hplan⟩ := hlaid.plan [] (fun _ => .plain [] {})
        let whole : Plan :=
          { code := d.code, label := fun b => if b < d.spot.fresh then label b else .plain [] {} }
        have hcode := hplan whole ⟨fun _ => List.prefix_refl _, fun b hb => if_pos hb⟩
        exact ⟨whole,
          { toOrderly := hlaid.tidy.toOrderly
            code := Table.code_filter hlaid.tidy.ascending
            outermost := (if_pos (Nat.lt_of_lt_of_le Nat.zero_lt_one hlaid.fresh)).trans
              (hlabel 0 Nat.zero_lt_one)
            start := by simpa using hstart.symm.trans (hlaid.start 0 rfl)
            params := hlaid.params
            ascending := hlaid.tidy.ascending.filter _
            filled := by
              intro b block hblock
              have hmem := Table.mem_of_get? hblock
              have hnonempty := (List.mem_filter.1 hmem).2
              have := List.find?_eq_none.1 hsealed (b, block) hmem
              simp_all
            main := by
              refine ⟨d.spot, hcode, ?_, fun b hb => if_neg (Nat.not_lt.2 hb)⟩
              intro b i ins hi
              refine ⟨?_, hlaid.tidy.bound hi⟩
              rcases hlaid.added hi with hold | hnew
              . simp [Draft.start_code] at hold
              . exact hnew }⟩

end Resumable
