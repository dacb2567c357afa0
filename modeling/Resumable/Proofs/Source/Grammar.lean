import Resumable.Proofs.Source.Read

/-!
This module contains the grammar of forms, and the proof that the reader accepts it and nothing
else: forms are read exactly from the tokens that write them, and every token is taken into one form.
-/

namespace Resumable

mutual

/--
The grammar of a form: which tokens it is read from, and the span that it gets from their places.
-/
inductive Form.Written : List Lexeme → Form → Prop where
  | atom {lexeme : Lexeme} {value : Atom} (h : lexeme.token = .atom value)
      : Written [lexeme] (.atom value lexeme.span)
  | group {opener closer : Lexeme} {inner : List Lexeme} {bracket : Bracket} {items : List Form}
      (hopener : opener.token = .opening bracket) (hitems : WrittenAll inner items)
      (hcloser : closer.token = .closing bracket.closer)
      (hpairs : bracket = .map → items.length % 2 = 0)
      : Written (opener :: (inner ++ [closer]))
          (.group bracket items (.between opener.start closer.stop))
  | quote {mark : Lexeme} {lexemes : List Lexeme} {inner : Form} (hmark : mark.token = .quote)
      (hinner : Written lexemes inner)
      : Written (mark :: lexemes) (.quote inner (.between mark.start inner.span.stop))

/--
The grammar of forms that follow each other.
-/
inductive Form.WrittenAll : List Lexeme → List Form → Prop where
  | nil : WrittenAll [] []
  | cons {lexemes rest : List Lexeme} {form : Form} {forms : List Form}
      (hform : Written lexemes form) (hforms : WrittenAll rest forms)
      : WrittenAll (lexemes ++ rest) (form :: forms)

end

namespace Form

theorem WrittenAll.singleton {lexemes : List Lexeme} {form : Form} (h : Written lexemes form)
    : WrittenAll lexemes [form] := by
  rw [← List.append_nil lexemes]
  exact .cons h .nil

theorem WrittenAll.append {forms more : List Form} {lexemes rest : List Lexeme}
    (h : WrittenAll lexemes forms) (hmore : WrittenAll rest more)
    : WrittenAll (lexemes ++ rest) (forms ++ more) := by
  induction forms generalizing lexemes with
  | nil =>
    cases h
    exact hmore
  | cons form forms ih =>
    cases h with
    | cons hform hforms =>
      rw [List.append_assoc]
      exact .cons hform (ih hforms)

theorem WrittenAll.eq_nil {lexemes : List Lexeme} (h : WrittenAll lexemes []) : lexemes = [] := by
  cases h
  rfl

mutual

theorem Written.tokens {lexemes : List Lexeme} {form : Form} (h : Written lexemes form)
    : lexemes.map (·.token) = form.tokens ∧ form.Paired :=
  match h with
  | .atom h => ⟨congrArg (fun t => [t]) h, .atom⟩
  | .group hopener hitems hcloser hpairs => by
    obtain ⟨htokens, hpaired⟩ := hitems.tokens
    refine ⟨?_, .group hpaired hpairs⟩
    simp [Form.tokens, htokens, hopener, hcloser]
  | .quote hmark hinner => by
    obtain ⟨htokens, hpaired⟩ := hinner.tokens
    exact ⟨by rw [List.map_cons, hmark, htokens, Form.tokens], .quote hpaired⟩

theorem WrittenAll.tokens {lexemes : List Lexeme} {forms : List Form} (h : WrittenAll lexemes forms)
    : lexemes.map (·.token) = forms.flatMap Form.tokens ∧ ∀ form ∈ forms, form.Paired :=
  match h with
  | .nil => ⟨rfl, List.forall_mem_nil _⟩
  | .cons hform hforms => by
    obtain ⟨htokens, hpaired⟩ := hform.tokens
    obtain ⟨htokens', hpaired'⟩ := hforms.tokens
    refine ⟨?_, List.forall_mem_cons.2 ⟨hpaired, hpaired'⟩⟩
    rw [List.map_append, htokens, htokens', List.flatMap_cons]

end

end Form

namespace Reader

open Form (Written WrittenAll)

inductive Opens : List Lexeme → List Frame → Prop where
  | nil : Opens [] []
  | group {before inner : List Lexeme} {opener : Lexeme} {bracket : Bracket} {items : List Form}
      {stack : List Frame} (hbefore : Opens before stack)
      (hopener : opener.token = .opening bracket) (hitems : WrittenAll inner items.reverse)
      : Opens (before ++ opener :: inner) (.group bracket opener.start items :: stack)
  | quote {before : List Lexeme} {mark : Lexeme} {stack : List Frame}
      (hbefore : Opens before stack) (hmark : mark.token = .quote)
      : Opens (before ++ [mark]) (.quote mark.start :: stack)

def Progress.Follows (lexemes : List Lexeme) : Progress → Prop
  | .pending stack => Opens lexemes stack
  | .complete form => Written lexemes form

section

variable {before lexemes rest : List Lexeme} {stack : List Frame} {lexeme : Lexeme} {form : Form}
  {progress : Progress}

theorem place_follows (hstack : Opens before stack) (hform : Written lexemes form)
    : (place form stack).Follows (before ++ lexemes) := by
  induction hstack generalizing form lexemes with
  | nil => exact hform
  | group hbefore hopener hitems ih =>
    rw [List.append_assoc, List.cons_append]
    refine .group hbefore hopener ?_
    rw [List.reverse_cons]
    exact hitems.append (.singleton hform)
  | quote hbefore hmark ih =>
    rw [List.append_assoc, List.singleton_append]
    exact ih (.quote hmark hform)

theorem close_follows {closer : Closer} (hstack : Opens before stack)
    (hlexeme : lexeme.token = .closing closer) (h : close closer lexeme stack = .ok progress)
    : progress.Follows (before ++ [lexeme]) := by
  unfold close at h
  split at h
  . split at h
    . cases h
    split at h
    . cases h
    . next hcloser hpairs =>
      cases h
      cases hstack with
      | @group before inner opener bracket items stack hbefore hopener hitems =>
        rw [List.append_assoc, List.cons_append]
        refine place_follows hbefore (.group hopener hitems ?_ fun hmap => ?_)
        . rw [hlexeme, not_not.1 hcloser]
        . rw [List.length_reverse]
          exact not_not.1 fun hodd => hpairs ⟨hmap, hodd⟩
  . cases h

theorem feed_follows (hstack : Opens before stack) (h : feed stack lexeme = .ok progress)
    : progress.Follows (before ++ [lexeme]) := by
  unfold feed at h
  split at h
  . next htoken =>
    cases h
    exact place_follows hstack (.atom htoken)
  . next htoken =>
    cases h
    exact .group hstack htoken .nil
  . next htoken =>
    cases h
    exact .quote hstack htoken
  . next htoken => exact close_follows hstack htoken h

theorem all_follows {forms : List Form} (hstack : Opens before stack)
    (h : all stack lexemes = .ok forms)
    : WrittenAll (before ++ lexemes) forms := by
  induction lexemes generalizing before stack forms with
  | nil =>
    cases stack with
    | nil =>
      cases hstack
      cases h
      exact .nil
    | cons => cases h
  | cons lexeme lexemes ih =>
    rw [all] at h
    rw [List.append_cons]
    split at h
    . cases h
    . next hfeed => exact ih (feed_follows hstack hfeed) h
    . next hfeed =>
      split at h
      . cases h
      . next hall =>
        cases h
        exact .cons (feed_follows hstack hfeed) (ih .nil hall)

theorem all_of_one (h : one stack lexemes = .ok (form, rest)) {forms : List Form}
    (hrest : all [] rest = .ok forms)
    : all stack lexemes = .ok (form :: forms) := by
  induction lexemes generalizing stack with
  | nil => cases h
  | cons lexeme lexemes ih =>
    rw [one] at h
    rw [all]
    split at h
    . cases h
    . next hfeed =>
      cases h
      rw [hfeed]
      simp only [hrest]
    . next hfeed =>
      rw [hfeed]
      exact ih h

theorem one_of_all {forms : List Form} (h : all stack lexemes = .ok (form :: forms))
    : ∃ rest, one stack lexemes = .ok (form, rest) ∧ all [] rest = .ok forms := by
  induction lexemes generalizing stack with
  | nil =>
    cases stack <;> cases h
  | cons lexeme lexemes ih =>
    rw [all] at h
    rw [one]
    split at h
    . cases h
    . next hfeed =>
      rw [hfeed]
      exact ih h
    . next hfeed =>
      rw [hfeed]
      split at h
      . cases h
      . next hall =>
        cases h
        exact ⟨lexemes, rfl, hall⟩

end

theorem all_of_tokens {lexemes : List Lexeme} {forms : List Form}
    (h : lexemes.map (·.token) = forms.flatMap Form.tokens) (hpaired : ∀ form ∈ forms, form.Paired)
    : ∃ read, all [] lexemes = .ok read ∧ read.map Form.bare = forms.map Form.bare := by
  induction forms generalizing lexemes with
  | nil =>
    obtain rfl := List.map_eq_nil_iff.1 h
    exact ⟨[], rfl, rfl⟩
  | cons form forms ih =>
    obtain ⟨hform, hforms⟩ := List.forall_mem_cons.1 hpaired
    rw [List.flatMap_cons] at h
    obtain ⟨first, rest, hfirst, hrest, hone⟩ := restores_of_paired hform [] h
    obtain ⟨read, hall, hread⟩ := ih hrest hforms
    exact ⟨first :: read, all_of_one hone hall, by rw [List.map_cons, List.map_cons, hfirst, hread]⟩

theorem all_ok_iff {lexemes : List Lexeme} {forms : List Form}
    : (∃ read, all [] lexemes = .ok read ∧ read.map Form.bare = forms.map Form.bare) ↔
        lexemes.map (·.token) = forms.flatMap Form.tokens ∧ ∀ form ∈ forms, form.Paired := by
  constructor
  . rintro ⟨read, hread, hbare⟩
    obtain ⟨htokens, hpaired⟩ := (all_follows .nil hread).tokens
    exact ⟨htokens.trans (Form.flatMap_tokens_of_bare hbare), Form.paired_of_bare hbare hpaired⟩
  . rintro ⟨htokens, hpaired⟩
    exact all_of_tokens htokens hpaired

end Reader

theorem Form.bare_of_tokens {forms others : List Form}
    (h : forms.flatMap Form.tokens = others.flatMap Form.tokens)
    (hforms : ∀ form ∈ forms, form.Paired) (hothers : ∀ form ∈ others, form.Paired)
    : forms.map Form.bare = others.map Form.bare := by
  have htokens : ((forms.flatMap Form.tokens).map (⟨·, .start, 0⟩ : Token → Lexeme)).map (·.token)
      = forms.flatMap Form.tokens := by
    rw [List.map_map]
    exact List.map_id _
  obtain ⟨read, hread, hbare⟩ := Reader.all_of_tokens htokens hforms
  obtain ⟨read', hread', hbare'⟩ := Reader.all_of_tokens (htokens.trans h) hothers
  rw [hread] at hread'
  cases hread'
  exact hbare.symm.trans hbare'

theorem readForm_ok_iff {text : String} {form : Form}
    : readForm text = .ok form ↔ readForms text = .ok [form] := by
  unfold readForm readForms
  cases programTokens text with
  | error e => exact iff_of_false nofun nofun
  | ok lexemes =>
    simp only [bind, Except.bind]
    constructor
    . intro h
      split at h
      . cases h
      . next read hone =>
        obtain ⟨first, rest⟩ := read
        simp only at h
        split at h
        . next hrest =>
          cases h
          rw [List.isEmpty_iff.1 hrest] at hone
          exact Reader.all_of_one hone rfl
        . split at h <;> cases h
    . intro h
      obtain ⟨rest, hone, hall⟩ := Reader.one_of_all h
      obtain rfl : rest = [] := (Reader.all_follows .nil hall).eq_nil
      rw [hone]
      rfl

/--
The reader accepts the grammar of forms and nothing else. Tokens are read as some forms if and only
if the forms are written with these tokens and every map in them has a value for every key; there is
only one row of such forms; every token belongs to exactly one place of the forms that are read; and
one form is read from a text if and only if all of its tokens are read as that form alone.
-/
theorem Reader.accepts_grammar (lexemes : List Lexeme)
    : (∀ forms : List Form,
        (∃ read, all [] lexemes = .ok read ∧ read.map Form.bare = forms.map Form.bare) ↔
          lexemes.map (·.token) = forms.flatMap Form.tokens ∧ ∀ form ∈ forms, form.Paired) ∧
      (∀ forms others : List Form,
        lexemes.map (·.token) = forms.flatMap Form.tokens → (∀ form ∈ forms, form.Paired) →
        lexemes.map (·.token) = others.flatMap Form.tokens → (∀ form ∈ others, form.Paired) →
          forms.map Form.bare = others.map Form.bare) ∧
      (∀ read, all [] lexemes = .ok read → Form.WrittenAll lexemes read) ∧
      ∀ text form, programTokens text = .ok lexemes →
        (readForm text = .ok form ↔ all [] lexemes = .ok [form]) := by
  refine ⟨fun forms => all_ok_iff, ?_, fun read hread => all_follows .nil hread, ?_⟩
  . intro forms others hforms hpaired hothers hpaired'
    exact Form.bare_of_tokens (hforms.symm.trans hothers) hpaired hpaired'
  . intro text form htokens
    rw [readForm_ok_iff, readForms, htokens]
    rfl

theorem Reader.accepts_grammar_quotedMap
    : (∃ read, all [] (tokens "'\x7b:k #\x7b\x7d\x7d").1 = .ok read ∧ read.map Form.bare =
        [.quote (.group .map [.atom (.keyword "k") .synthetic, .group .set [] .synthetic]
          .synthetic) .synthetic]) ∧
      ∀ forms : List Form, (∀ form ∈ forms, form.Paired) →
        (tokens "'\x7b:k\x7d").1.map (·.token) ≠ forms.flatMap Form.tokens := by
  refine ⟨((accepts_grammar _).1 [.quote (.group .map [.atom (.keyword "k") .synthetic,
    .group .set [] .synthetic] .synthetic) .synthetic]).2 ⟨rfl, ?_⟩,
    fun forms hpaired htokens => ?_⟩
  . refine List.forall_mem_singleton.2 (.quote (.group ?_ fun _ => rfl))
    refine List.forall_mem_cons.2 ⟨.atom, List.forall_mem_singleton.2 ?_⟩
    exact .group (List.forall_mem_nil _) nofun
  . obtain ⟨read, hread, -⟩ := ((accepts_grammar _).1 forms).2 ⟨htokens, hpaired⟩
    cases hread

end Resumable
