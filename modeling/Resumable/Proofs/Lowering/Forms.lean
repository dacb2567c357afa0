import Resumable.Proofs.Lowering.Attempt

/-!
This module contains the proof that lowering lays out the code of whole forms, whatever their
shape.
-/

namespace Resumable

namespace Lower

variable {options : CompileOptions} {lower : Form → Lower Lowered} {d d' : Draft}

theorem expectSymbol_ok {form : Form} {owner what name : String}
    : expectSymbol form owner what d = .ok name d' ↔ form.symbol? = some name ∧ d' = d := by
  unfold expectSymbol
  cases hname : form.symbol? with
  | none =>
    simp only [malformed, throw_ok]
    simp
  | some found =>
    simp only [pure_ok, Option.some.injEq]
    constructor
    . rintro ⟨rfl, rfl⟩
      exact ⟨rfl, rfl⟩
    . rintro ⟨rfl, rfl⟩
      exact ⟨rfl, rfl⟩

theorem bindingPairs_ok {owner : String} {items : List Form} {pairs : List (String × Form)}
    (heven : items.length % 2 = 0) (h : bindingPairs owner items d = .ok pairs d')
    : Bindings items pairs ∧ d' = d := by
  induction items using bindingPairs.induct generalizing d pairs with
  | case1 form init rest ih =>
    unfold bindingPairs at h
    obtain ⟨name, _, hname, hrest⟩ := bind_ok.1 h
    obtain ⟨hsymbol, rfl⟩ := expectSymbol_ok.1 hname
    obtain ⟨more, _, hmore, hpairs⟩ := bind_ok.1 hrest
    obtain ⟨rfl, rfl⟩ := pure_ok.1 hpairs
    simp only [List.length_cons] at heven
    obtain ⟨hbindings, rfl⟩ := ih (by omega) hmore
    exact ⟨.cons hsymbol hbindings, rfl⟩
  | case2 items hshort =>
    match items with
    | [] =>
      obtain ⟨rfl, rfl⟩ := pure_ok.1 h
      exact ⟨.nil, rfl⟩
    | [_] => simp at heven
    | form :: init :: rest => exact absurd rfl (hshort form init rest)

theorem bindings_ok {owner : String} {form : Form} {pairs : List (String × Form)}
    (h : bindings owner form d = .ok pairs d')
    : ∃ items span, form = .vector items span ∧ Bindings items pairs ∧ d' = d := by
  unfold bindings at h
  match form with
  | .vector items span =>
    simp only [Form.vector?] at h
    split at h
    . exact (throw_ok.1 h).elim
    . next heven =>
      obtain ⟨hbindings, rfl⟩ := bindingPairs_ok (by omega) h
      exact ⟨items, span, rfl, hbindings, rfl⟩
  | .atom _ _ => exact (throw_ok.1 h).elim
  | .quote _ _ => exact (throw_ok.1 h).elim
  | .group .list _ _ => exact (throw_ok.1 h).elim
  | .group .map _ _ => exact (throw_ok.1 h).elim
  | .group .set _ _ => exact (throw_ok.1 h).elim

theorem expand_ok {form core : Form} (h : expand options.expander form d = .ok core d')
    : d'.builder = d.builder := by
  unfold expand at h
  have hgo : ∀ rounds current {d : Draft},
      expand.go options.expander form rounds current d = .ok core d' → d'.builder = d.builder := by
    intro rounds
    induction rounds with
    | zero =>
      intro current d h
      exact (throw_ok.1 h).elim
    | succ rounds ih =>
      intro current d h
      unfold expand.go at h
      obtain ⟨e, f, hget, hrest⟩ := bind_ok.1 h
      obtain ⟨hsame, hsame'⟩ := get_ok.1 hget
      rw [hsame, hsame'] at hrest
      cases hexpand : options.expander.expand d.temporaries current with
      | error message =>
        rw [hexpand] at hrest
        exact (throw_ok.1 hrest).elim
      | ok result =>
        rw [hexpand] at hrest
        cases result with
        | none => rw [(pure_ok.1 hrest).2]
        | some entry =>
          obtain ⟨_, _, hmodify, hgo⟩ := bind_ok.1 hrest
          cases hmodify
          exact ih (d := { d with temporaries := entry.2 }) _ hgo
  exact hgo _ _ h

def NamedLaid (options : CompileOptions) (d : Draft) (name : String) (args : List Form)
    (span : Span) (lowered : Lowered) (d' : Draft) : Prop :=
  ∃ shape, Named options d.scope name args span shape ∧
    Laid options d (.shape shape) lowered.operands d'

section

variable (hlower : Faithful options lower) {args : List Form} {span : Span} {lowered : Lowered}
  (htidy : d.Tidy) (hopen : d.Open)

include hlower htidy hopen

theorem ifForm_laid (h : ifForm lower args span d = .ok lowered d')
    : NamedLaid options d "if" args span lowered d' := by
  unfold ifForm at h
  split at h
  . next test yes =>
    exact ⟨_, @Named.choose _ _ _ _ none _, choose_laid hlower htidy hopen h⟩
  . next test yes no =>
    exact ⟨_, @Named.choose _ _ _ _ (some no) _, choose_laid hlower htidy hopen h⟩
  . exact (throw_ok.1 h).elim

theorem letForm_laid (h : letForm lower args span d = .ok lowered d')
    : NamedLaid options d "let" args span lowered d' := by
  unfold letForm at h
  split at h
  . exact (throw_ok.1 h).elim
  . next first forms =>
    obtain ⟨pairs, _, hpairs, hbind⟩ := bind_ok.1 h
    obtain ⟨items, span', rfl, hbindings, rfl⟩ := bindings_ok hpairs
    exact ⟨_, .bind hbindings, bind_laid hlower htidy hopen hbind⟩

theorem loopForm_laid (h : loopForm lower args span d = .ok lowered d')
    : NamedLaid options d "loop" args span lowered d' := by
  unfold loopForm at h
  split at h
  . exact (throw_ok.1 h).elim
  . next first forms =>
    obtain ⟨pairs, _, hpairs, hloop⟩ := bind_ok.1 h
    obtain ⟨items, span', rfl, hbindings, rfl⟩ := bindings_ok hpairs
    exact ⟨_, .loop hbindings, loop_laid hlower htidy hopen hloop⟩

theorem recurForm_laid (h : recurForm lower args span d = .ok lowered d')
    : NamedLaid options d "recur" args span lowered d' := by
  unfold recurForm at h
  obtain ⟨scope, _, hscope, hrecur⟩ := bind_ok.1 h
  obtain ⟨rfl, rfl⟩ := scope_ok.1 hscope
  cases hloops : Draft.scope _ |>.loops with
  | nil =>
    rw [hloops] at hrecur
    exact (throw_ok.1 hrecur).elim
  | cons point outer =>
    rw [hloops] at hrecur
    simp only at hrecur
    split at hrecur
    . exact (throw_ok.1 hrecur).elim
    . next hdepth =>
      split at hrecur
      . exact (throw_ok.1 hrecur).elim
      . next hlength =>
        have hdepth := Decidable.not_not.1 hdepth
        have hlength := Decidable.not_not.1 hlength
        exact ⟨_, .recur hloops hdepth hlength,
          recur_laid hlower hloops hdepth hlength htidy hopen hrecur⟩

theorem caseForm_laid (h : caseForm lower args span d = .ok lowered d')
    : NamedLaid options d "case" args span lowered d' := by
  cases args with
  | nil => exact (throw_ok.1 h).elim
  | cons value rest =>
    exact ⟨_, .case rfl, case_laid hlower rfl htidy hopen h⟩

theorem tryForm_laid (h : tryForm lower args span d = .ok lowered d')
    : NamedLaid options d "try" args span lowered d' := by
  unfold tryForm at h
  obtain ⟨parts, _, hparts, hattempt⟩ := bind_ok.1 h
  cases hread : TryParts.ofForms args with
  | error e =>
    rw [hread] at hparts
    exact (throw_ok.1 hparts).elim
  | ok found =>
    rw [hread] at hparts
    obtain ⟨rfl, rfl⟩ := pure_ok.1 hparts
    exact ⟨_, .attempt hread, attempt_laid hlower htidy hopen hattempt⟩

theorem returnForm_laid (h : returnForm options lower args span d = .ok lowered d')
    : NamedLaid options d "return" args span lowered d' := by
  unfold returnForm at h
  split at h
  . obtain ⟨_, _, hfinish, hlowered⟩ := bind_ok.1 h
    obtain ⟨rfl, rfl⟩ := pure_ok.1 hlowered
    have hnothing : body lower [] d = .ok (.value (.literal .nil)) d := pure_ok.2 ⟨rfl, rfl⟩
    exact ⟨_, @Named.finish _ _ none _, finish_laid (body_laid hlower htidy hopen hnothing) hfinish⟩
  . next form =>
    refine ⟨_, @Named.finish _ _ (some form) _, ?_⟩
    rcases andThen_ok.1 h with ⟨hform, rfl⟩ | ⟨operand, e, hform, hrest⟩
    . exact (hlower.laid htidy hopen hform).map fun _ _ hcode => .finishStop (.bodyStop hcode)
    . obtain ⟨_, _, hfinish, hlowered⟩ := bind_ok.1 hrest
      obtain ⟨rfl, rfl⟩ := pure_ok.1 hlowered
      exact finish_laid ((hlower.laid htidy hopen hform).map fun _ _ hcode => .bodyCons hcode .bodyNil)
        hfinish
  . exact (throw_ok.1 h).elim

end

theorem parameterNames_ok {items : List Form} {names : List String}
    : parameterNames items d = .ok names d' ↔ items.map Form.symbol? = names.map some ∧ d' = d := by
  induction items generalizing d' names with
  | nil =>
    unfold parameterNames
    rw [pure_ok, List.map_nil, eq_comm (a := []), List.map_eq_nil_iff]
  | cons form rest ih =>
    unfold parameterNames
    simp only [bind_ok, expectSymbol_ok, pure_ok]
    constructor
    . rintro ⟨name, _, ⟨hname, rfl⟩, more, _, hmore, rfl, rfl⟩
      obtain ⟨hsymbols, rfl⟩ := ih.1 hmore
      exact ⟨by rw [List.map_cons, List.map_cons, hname, hsymbols], rfl⟩
    . rintro ⟨hsymbols, rfl⟩
      cases names with
      | nil => cases hsymbols
      | cons name names =>
        rw [List.map_cons, List.map_cons, List.cons.injEq] at hsymbols
        exact ⟨name, _, ⟨hsymbols.1, rfl⟩, names, _, ih.2 ⟨hsymbols.2, rfl⟩, rfl, rfl⟩

section

variable (hlower : Faithful options lower) {args : List Form} {span : Span} {lowered : Lowered}
  (htidy : d.Tidy) (hopen : d.Open)

include hlower htidy hopen

theorem makeLambda_laid {name : Option String} {rest : List Form}
    (h : makeLambda options name rest span d = .ok lowered d')
    : NamedLaid options d "fn" args span lowered d' := by
  unfold makeLambda at h
  split at h
  . exact (throw_ok.1 h).elim
  . next params body =>
    cases hvector : params.vector? with
    | none =>
      rw [hvector] at h
      exact (throw_ok.1 h).elim
    | some items =>
      rw [hvector] at h
      obtain ⟨names, _, hnames, hrest⟩ := bind_ok.1 h
      obtain ⟨_, rfl⟩ := parameterNames_ok.1 hnames
      obtain ⟨scope, _, hscope, hperform⟩ := bind_ok.1 hrest
      obtain ⟨rfl, rfl⟩ := scope_ok.1 hscope
      refine ⟨_, @Named.closure _ _ _ body name names _ _ rfl,
        perform_laid hlower span htidy hopen ?_⟩
      rw [withOperands_nil]
      simp only [Job.effect, List.map_map]
      exact hperform

theorem fnForm_laid (h : fnForm options args span d = .ok lowered d')
    : NamedLaid options d "fn" args span lowered d' := by
  unfold fnForm at h
  split at h
  . exact makeLambda_laid hlower htidy hopen h
  . exact makeLambda_laid hlower htidy hopen h

theorem setForm_laid (h : setForm lower args span d = .ok lowered d')
    : NamedLaid options d "set!" args span lowered d' := by
  unfold setForm at h
  split at h
  . next name span' value =>
    obtain ⟨scope, _, hscope, hset⟩ := bind_ok.1 h
    obtain ⟨rfl, rfl⟩ := scope_ok.1 hscope
    cases hfind : Scope.find? (Draft.scope _) name with
    | some id =>
      rw [hfind] at hset
      refine ⟨_, .setLocal hfind, perform_laid hlower span htidy hopen ?_⟩
      rw [withOperands_cons]
      simp only [withOperands_nil]
      exact hset
    | none =>
      rw [hfind] at hset
      refine ⟨_, .setGlobal hfind, perform_laid hlower span htidy hopen ?_⟩
      rw [withOperands_cons]
      simp only [withOperands_nil]
      exact hset
  . next place value _ =>
    cases hplace : fieldPlace? place with
    | none =>
      rw [hplace] at h
      exact (throw_ok.1 h).elim
    | some entry =>
      rw [hplace] at h
      obtain ⟨field, object⟩ := entry
      refine ⟨_, .setField hplace, perform_laid hlower span htidy hopen ?_⟩
      rw [withOperands_cons]
      simp only [withOperands_cons, withOperands_nil]
      exact h
  . exact (throw_ok.1 h).elim

theorem memberForm_laid {name : String} {c : Char} {rest : List Char}
    (hname : name.toList = '.' :: c :: rest)
    (h : memberForm lower (c :: rest) args span d = .ok lowered d')
    : NamedLaid options d name args span lowered d' := by
  generalize haccessor : c :: rest = accessor at h
  unfold memberForm at h
  split at h
  . exact (throw_ok.1 h).elim
  . next field hfield =>
    cases field with
    | nil => exact absurd rfl hfield
    | cons c' rest' =>
      cases haccessor
      split at h
      . exact (throw_ok.1 h).elim
      . next target =>
        refine ⟨_, .field hname, perform_laid hlower span htidy hopen ?_⟩
        rw [withOperands_cons]
        simp only [withOperands_nil]
        exact h
      . exact (throw_ok.1 h).elim
  . next method _ hfield =>
    split at h
    . exact (throw_ok.1 h).elim
    . next target more =>
      refine ⟨_, .method hname ?_, perform_laid hlower span htidy hopen ?_⟩
      . rintro rfl
        exact hfield rest haccessor.symm
      . rw [withOperands_cons, haccessor]
        exact h

end

theorem value_laid {operand : Operand} (htidy : d.Tidy) (hopen : d.Open)
    : Laid options d (.shape (.value operand)) (some [operand]) d :=
  .ofGrows (((Draft.Grows.refl htidy).weaken (fun _ _ ht => ht) (fun _ => hopen)).map
    fun _ _ _ => .value) rfl

theorem named_laid (hlower : Faithful options lower) {name : String} {args : List Form}
    {span : Span} {lowered : Lowered} (htidy : d.Tidy) (hopen : d.Open)
    (h : named options lower name args span d = .ok lowered d')
    : NamedLaid options d name args span lowered d' := by
  unfold named at h
  split at h
  . split at h
    . obtain ⟨rfl, rfl⟩ := pure_ok.1 h
      exact ⟨_, .quote, value_laid htidy hopen⟩
    . exact (throw_ok.1 h).elim
  . exact ⟨_, .body, (body_laid hlower htidy hopen h).map fun _ _ => .body⟩
  . exact ifForm_laid hlower htidy hopen h
  . exact letForm_laid hlower htidy hopen h
  . exact loopForm_laid hlower htidy hopen h
  . exact recurForm_laid hlower htidy hopen h
  . exact caseForm_laid hlower htidy hopen h
  . exact fnForm_laid hlower htidy hopen h
  . exact tryForm_laid hlower htidy hopen h
  . exact setForm_laid hlower htidy hopen h
  . exact returnForm_laid hlower htidy hopen h
  . next h₁ h₂ h₃ h₄ h₅ h₆ h₇ h₈ h₉ h₁₀ h₁₁ =>
    have hplain : name ∉ specialNames := by
      simp only [specialNames, List.mem_cons, List.not_mem_nil, or_false, not_or]
      exact ⟨h₁, h₂, h₃, h₄, h₅, h₆, h₇, h₈, h₉, h₁₀, h₁₁⟩
    generalize hchars : name.toList = chars at h
    split at h
    . next c rest => exact memberForm_laid hlower htidy hopen hchars h
    . next haccess =>
      have haccess' : ¬ isAccess name := by
        rintro ⟨c, rest, hname⟩
        exact haccess c rest (hchars ▸ hname)
      cases hhandler : options.terminators.handler? name with
      | some handler =>
        rw [hhandler] at h
        exact ⟨_, .suspend hplain haccess' hhandler, suspend_laid hlower htidy hopen h⟩
      | none =>
        rw [hhandler] at h
        exact ⟨_, .call hplain haccess' hhandler, perform_laid hlower _ htidy hopen h⟩

theorem callForm_laid (hlower : Faithful options lower) {head : Form} {args : List Form}
    {span : Span} {lowered : Lowered} (htidy : d.Tidy) (hopen : d.Open)
    (h : callForm lower head args span d = .ok lowered d')
    : Laid options d (.shape (.perform .apply (head :: args))) lowered.operands d' := by
  refine perform_laid hlower span htidy hopen ?_
  rw [withOperands_cons]
  exact h

theorem coreForm_laid (hlower : Faithful options lower) {form : Form} {lowered : Lowered}
    (htidy : d.Tidy) (hopen : d.Open) (h : coreForm options lower form d = .ok lowered d')
    : ∃ shape, Reads options d.scope form shape ∧
        Laid options d (.shape shape) lowered.operands d' := by
  unfold coreForm at h
  split at h
  . next name span =>
    obtain ⟨operand, _, hsymbol, hvalue⟩ := bind_ok.1 h
    obtain ⟨scope, _, hscope, hfound⟩ := bind_ok.1 hsymbol
    obtain ⟨rfl, rfl⟩ := scope_ok.1 hscope
    cases hfind : Scope.find? (Draft.scope _) name with
    | some id =>
      rw [hfind] at hfound
      obtain ⟨rfl, rfl⟩ := pure_ok.1 hfound
      obtain ⟨rfl, rfl⟩ := pure_ok.1 hvalue
      exact ⟨_, .local hfind, value_laid htidy hopen⟩
    | none =>
      rw [hfind] at hfound
      obtain ⟨rfl, rfl⟩ := pure_ok.1 hfound
      obtain ⟨rfl, rfl⟩ := pure_ok.1 hvalue
      exact ⟨_, .global hfind, value_laid htidy hopen⟩
  . next value span hsymbol =>
    obtain ⟨rfl, rfl⟩ := pure_ok.1 h
    exact ⟨_, .atom hsymbol, value_laid htidy hopen⟩
  . obtain ⟨rfl, rfl⟩ := pure_ok.1 h
    exact ⟨_, .quote, value_laid htidy hopen⟩
  . obtain ⟨rfl, rfl⟩ := pure_ok.1 h
    exact ⟨_, .empty, value_laid htidy hopen⟩
  . next head args span =>
    unfold listForm at h
    split at h
    . next name span' =>
      obtain ⟨scope, _, hscope, hlist⟩ := bind_ok.1 h
      obtain ⟨rfl, rfl⟩ := scope_ok.1 hscope
      cases hfind : Scope.find? (Draft.scope _) name with
      | some id =>
        rw [hfind] at hlist
        refine ⟨_, .apply ?_, callForm_laid hlower htidy hopen hlist⟩
        intro name' hname
        cases hname
        rw [hfind]
        simp
      | none =>
        rw [hfind] at hlist
        obtain ⟨shape, hnamed, hlaid⟩ := named_laid hlower htidy hopen hlist
        exact ⟨shape, .named hfind hnamed, hlaid⟩
    . next hsymbol =>
      refine ⟨_, .apply ?_, callForm_laid hlower htidy hopen h⟩
      intro name hname
      match head with
      | .symbol name' span' => exact absurd rfl (hsymbol name' span')
  . exact ⟨_, .vector, perform_laid hlower _ htidy hopen h⟩
  . exact ⟨_, .map, perform_laid hlower _ htidy hopen h⟩
  . exact ⟨_, .set, perform_laid hlower _ htidy hopen h⟩

theorem form_faithful (options : CompileOptions) (depth : Nat)
    : Faithful options (form options depth) := by
  induction depth with
  | zero =>
    constructor
    intro form d d' lowered htidy hopen h
    exact (throw_ok.1 h).elim
  | succ depth ih =>
    constructor
    intro surface d d' lowered htidy hopen h
    obtain ⟨core, e, hexpand, hcore⟩ := bind_ok.1 h
    have hrenamed : e = { d with temporaries := e.temporaries } := by
      rw [← expand_ok hexpand]
    rw [hrenamed] at hcore
    obtain ⟨shape, hreads, hlaid⟩ := coreForm_laid ih (htidy.renamed e.temporaries) hopen hcore
    exact ⟨hlaid.toGrows.renamed.map fun _ _ => .form ⟨_, _, hexpand⟩ hreads, hlaid.scope⟩

end Lower

end Resumable
