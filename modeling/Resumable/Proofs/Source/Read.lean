import Resumable.Proofs.Source.Lexed

/-!
This module contains the proof that the text of a form that has been read is read again, and when as
the same form.
-/

namespace Resumable

namespace Reader

def resume (rest : List Lexeme) : Progress → Except ReadError (Form × List Lexeme)
  | .pending stack => one stack rest
  | .complete form => .ok (form, rest)

section

variable {stack : List Frame} {lexeme : Lexeme} {rest : List Lexeme}

theorem one_of_feed {progress : Progress} (h : feed stack lexeme = .ok progress)
    : one stack (lexeme :: rest) = resume rest progress := by
  rw [one, h]
  cases progress <;> rfl

theorem one_atom {value : Atom} (h : lexeme.token = .atom value)
    : one stack (lexeme :: rest) = resume rest (place (.atom value lexeme.span) stack) :=
  one_of_feed (by rw [feed, h])

theorem one_opening {bracket : Bracket} (h : lexeme.token = .opening bracket)
    : one stack (lexeme :: rest) = one (.group bracket lexeme.start [] :: stack) rest :=
  one_of_feed (show _ = Except.ok (.pending _) by rw [feed, h])

theorem one_quote (h : lexeme.token = .quote)
    : one stack (lexeme :: rest) = one (.quote lexeme.start :: stack) rest :=
  one_of_feed (show _ = Except.ok (.pending _) by rw [feed, h])

theorem one_closing {bracket : Bracket} {start : Position} {items : List Form}
    (h : lexeme.token = .closing bracket.closer)
    (hpairs : bracket = .map → items.length % 2 = 0)
    : one (.group bracket start items :: stack) (lexeme :: rest)
        = resume rest (place (.group bracket items.reverse (.between start lexeme.stop)) stack) := by
  refine one_of_feed ?_
  rw [feed, h]
  show close bracket.closer lexeme (.group bracket start items :: stack) = _
  rw [close, if_neg (not_not_intro rfl), if_neg]
  exact fun hodd => hodd.2 (hpairs hodd.1)

end

def Restores (form : Form) : Prop :=
  ∀ (stack : List Frame) {lexemes : List Lexeme} {behind : List Token},
    lexemes.map (·.token) = form.tokens ++ behind →
    ∃ (read : Form) (rest : List Lexeme), read.bare = form.bare ∧ rest.map (·.token) = behind ∧
      one stack lexemes = resume rest (place read stack)

theorem restores_items (bracket : Bracket) (start : Position) {items : List Form}
    (hitems : ∀ form ∈ items, Restores form) (done : List Form) (stack : List Frame)
    {lexemes : List Lexeme} {behind : List Token}
    (h : lexemes.map (·.token) = items.flatMap Form.tokens ++ behind)
    : ∃ (read : List Form) (rest : List Lexeme), read.map Form.bare = items.map Form.bare ∧ rest.map (·.token) = behind ∧
        one (.group bracket start done :: stack) lexemes
          = one (.group bracket start (read.reverse ++ done) :: stack) rest := by
  induction items generalizing done lexemes with
  | nil => exact ⟨[], lexemes, rfl, h, rfl⟩
  | cons form items ih =>
    obtain ⟨hform, hitems⟩ := List.forall_mem_cons.1 hitems
    rw [List.flatMap_cons, List.append_assoc] at h
    obtain ⟨first, middle, hfirst, hmiddle, hone⟩ := hform (.group bracket start done :: stack) h
    obtain ⟨read, rest, hread, hrest, hone'⟩ := ih hitems (first :: done) hmiddle
    refine ⟨first :: read, rest, by rw [List.map_cons, List.map_cons, hfirst, hread], hrest, ?_⟩
    rw [hone, List.reverse_cons, List.append_assoc, List.singleton_append]
    exact hone'

theorem restores_of_paired {form : Form} (hform : form.Paired) : Restores form := by
  induction hform with
  | @atom value span =>
    intro stack lexemes behind h
    obtain ⟨lexeme, rest, rfl, htoken, hrest⟩ := List.map_eq_cons_iff.1 h
    exact ⟨.atom value lexeme.span, rest, rfl, hrest, one_atom htoken⟩
  | @group bracket items span hitems hpairs ih =>
    intro stack lexemes behind h
    simp only [Form.tokens, Form.itemTokens_eq_flatMap, List.cons_append, List.append_assoc] at h
    obtain ⟨opener, inner, rfl, hopener, hinner⟩ := List.map_eq_cons_iff.1 h
    obtain ⟨read, behind', hread, hbehind, hone⟩ :=
      restores_items bracket opener.start ih [] stack hinner
    obtain ⟨closer, rest, rfl, hcloser, hrest⟩ := List.map_eq_cons_iff.1 hbehind
    have hlength : read.length = items.length := by
      simpa using congrArg List.length hread
    have hread' : (Form.group bracket (read.reverse ++ []).reverse
        (.between opener.start closer.stop)).bare = (Form.group bracket items span).bare := by
      simpa [Form.bare, Form.withAtoms] using hread
    refine ⟨_, rest, hread', hrest, ?_⟩
    rw [one_opening hopener, hone, one_closing hcloser]
    simpa [hlength] using hpairs
  | @quote inner span hinner ih =>
    intro stack lexemes behind h
    obtain ⟨mark, inside, rfl, hmark, hinside⟩ := List.map_eq_cons_iff.1 h
    obtain ⟨read, rest, hread, hrest, hone⟩ := ih (.quote mark.start :: stack) hinside
    refine ⟨.quote read (.between mark.start read.span.stop), rest, ?_, hrest, ?_⟩
    . exact congrArg (Form.quote · .synthetic) hread
    . rw [one_quote hmark, hone, place]

def Frame.Readable : Frame → Prop
  | .group _ _ items => ∀ form ∈ items, form.Readable
  | .quote _ => True

def Progress.Readable : Progress → Prop
  | .pending stack => ∀ frame ∈ stack, frame.Readable
  | .complete form => form.Readable

section

variable {stack : List Frame} {lexeme : Lexeme}

theorem place_readable {form : Form} (hform : form.Readable)
    (hstack : ∀ frame ∈ stack, frame.Readable)
    : (place form stack).Readable := by
  induction stack generalizing form with
  | nil => exact hform
  | cons frame stack ih =>
    obtain ⟨hframe, hbehind⟩ := List.forall_mem_cons.1 hstack
    cases frame with
    | group bracket start items =>
      exact List.forall_mem_cons.2 ⟨List.forall_mem_cons.2 ⟨hform, hframe⟩, hbehind⟩
    | quote start => exact ih (.quote hform) hbehind

theorem close_readable {closer : Closer} {progress : Progress}
    (hstack : ∀ frame ∈ stack, frame.Readable)
    (h : close closer lexeme stack = .ok progress)
    : progress.Readable := by
  unfold close at h
  split at h
  . next bracket start items stack =>
    obtain ⟨hitems, hstack⟩ := List.forall_mem_cons.1 hstack
    split at h
    . cases h
    split at h
    . cases h
    . next hpairs =>
      cases h
      refine place_readable (.group ?_ fun hmap => ?_) hstack
      . exact fun form hform => hitems form (List.mem_reverse.1 hform)
      . rw [List.length_reverse]
        exact not_not.1 fun hodd => hpairs ⟨hmap, hodd⟩
  . cases h

theorem feed_readable {progress : Progress} (hstack : ∀ frame ∈ stack, frame.Readable)
    (hlexeme : lexeme.token.Readable) (h : feed stack lexeme = .ok progress)
    : progress.Readable := by
  unfold feed at h
  split at h
  . next htoken =>
    cases h
    rw [htoken] at hlexeme
    exact place_readable (.atom hlexeme) hstack
  . cases h
    exact List.forall_mem_cons.2 ⟨List.forall_mem_nil _, hstack⟩
  . cases h
    exact List.forall_mem_cons.2 ⟨trivial, hstack⟩
  . exact close_readable hstack h

theorem one_readable {lexemes rest : List Lexeme} {form : Form}
    (hstack : ∀ frame ∈ stack, frame.Readable)
    (hlexemes : ∀ lexeme ∈ lexemes, lexeme.token.Readable)
    (h : one stack lexemes = .ok (form, rest))
    : form.Readable := by
  induction lexemes generalizing stack with
  | nil => cases h
  | cons lexeme lexemes ih =>
    obtain ⟨hlexeme, hlexemes⟩ := List.forall_mem_cons.1 hlexemes
    rw [one] at h
    split at h
    . cases h
    . next hfeed =>
      cases h
      exact feed_readable hstack hlexeme hfeed
    . next hfeed => exact ih (feed_readable hstack hlexeme hfeed) hlexemes h

end

end Reader

variable {text : String} {form : Form}

theorem programTokens_readable {lexemes : List Lexeme} (h : programTokens text = .ok lexemes)
    : ∀ lexeme ∈ lexemes, lexeme.token.Readable := by
  unfold programTokens at h
  split at h
  . next hscan =>
    cases h
    have hgo := Lexer.go_readable ((withoutInterpreterLine text.toList).length + 1) .start
      (withoutInterpreterLine text.toList)
    rwa [show Lexer.scan.go _ _ _ = _ from hscan] at hgo
  . cases h

theorem readForm_readable (h : readForm text = .ok form) : form.Readable := by
  unfold readForm at h
  cases htokens : programTokens text with
  | error e =>
    rw [htokens] at h
    cases h
  | ok lexemes =>
    cases hone : Reader.one [] lexemes with
    | error e =>
      simp only [htokens, bind, Except.bind, hone] at h
      cases h
    | ok read =>
      obtain ⟨first, rest⟩ := read
      simp only [htokens, bind, Except.bind, hone] at h
      split at h
      . cases h
        exact Reader.one_readable (List.forall_mem_nil _) (programTokens_readable htokens) hone
      . split at h <;> cases h

theorem withoutInterpreterLine_chars (hform : form.Readable)
    : withoutInterpreterLine form.chars = form.chars := by
  have hother : ∀ {c : Char} {rest : List Char}, c ≠ '#' →
      withoutInterpreterLine (c :: rest) = c :: rest := by
    intro c rest hc
    rw [withoutInterpreterLine]
    exact fun _ heq => hc (List.cons.inj heq).1
  cases hform with
  | atom hvalue =>
    obtain ⟨c, rest, hchars, hhash, -⟩ := hvalue.token_chars Lexer.stops_nil
    rw [Form.chars, hchars]
    exact hother hhash
  | @group bracket items span hitems hpairs =>
    cases bracket with
    | list => exact hother (by decide)
    | vector => exact hother (by decide)
    | map => exact hother (by decide)
    | set => rfl
  | quote hinner => exact hother (by decide)

theorem readForm_render (hform : form.Readable)
    : ∃ read, readForm form.render = .ok read ∧ read.bare = form.reread := by
  have hcuts := hform.cuts Lexer.stops_nil .nil
  rw [List.append_nil, List.append_nil] at hcuts
  obtain ⟨lexemes, hgo, htokens⟩ := hcuts.go .start (Nat.lt_succ_self _)
  rw [← List.append_nil form.reread.tokens] at htokens
  obtain ⟨read, rest, hread, hrest, hone⟩ := Reader.restores_of_paired hform.paired.withAtoms [] htokens
  obtain rfl := List.map_eq_nil_iff.1 hrest
  refine ⟨read, ?_, hread.trans (Form.bare_withAtoms _)⟩
  have hprogram : programTokens form.render = .ok lexemes := by
    unfold programTokens Form.render
    rw [String.toList_ofList, withoutInterpreterLine_chars hform]
    rw [show Lexer.scan .start form.chars = (lexemes, none) from hgo]
  unfold readForm
  rw [hprogram]
  simp only [bind, Except.bind, hone]
  rfl

theorem Atom.reread_eq_iff {a : Atom}
    : a.reread = a ↔ (∀ s, a = .string s → ∀ c ∈ s.toList, Text.IsClean c) ∧
        ∀ x, a = .float x → x.isInf = false := by
  cases a with
  | float x =>
    rw [Atom.reread_float]
    by_cases hinf : x.isInf = true
    . simp [hinf]
    . simp [hinf]
  | string text =>
    have htext : String.ofList (text.toList.flatMap Text.reread) = text ↔
        text.toList.flatMap Text.reread = text.toList := by
      rw [← String.toList_inj, String.toList_ofList]
    simp [Atom.reread, htext, Text.flatMap_reread_eq_iff]
  | nil => simp [Atom.reread]
  | bool value => simp [Atom.reread]
  | int n => simp [Atom.reread]
  | symbol name => simp [Atom.reread]
  | keyword name => simp [Atom.reread]

/--
The text of a form that has been read is read as the form again, up to its spans, unless a character
of a string has to be named by its code point or a number is infinite.
-/
theorem readForm_render_eq_iff (h : readForm text = .ok form)
    : (∃ read, readForm form.render = .ok read ∧ read.bare = form.bare) ↔
        (∀ s, .string s ∈ form.atoms → ∀ c ∈ s.toList, Text.IsClean c) ∧
          ∀ x, .float x ∈ form.atoms → x.isInf = false := by
  obtain ⟨read, hread, hbare⟩ := readForm_render (readForm_readable h)
  have hsame : (∃ read, readForm form.render = .ok read ∧ read.bare = form.bare) ↔
      form.reread = form.bare := by
    constructor
    . rintro ⟨other, hother, hform⟩
      rw [hread] at hother
      cases hother
      exact hbare.symm.trans hform
    . exact fun heq => ⟨read, hread, hbare.trans heq⟩
  rw [hsame]
  refine (Form.withAtoms_eq_iff form).trans ?_
  simp only [id_eq, Atom.reread_eq_iff]
  constructor
  . intro hatoms
    exact ⟨fun s hs => (hatoms _ hs).1 s rfl, fun x hx => (hatoms _ hx).2 x rfl⟩
  . rintro ⟨hstrings, hfloats⟩ a ha
    refine ⟨?_, ?_⟩
    . rintro s rfl
      exact hstrings s ha
    . rintro x rfl
      exact hfloats x ha

theorem readForm_render_quoted
    : (∃ form, readForm "(f '[#\x7b:k -2.5\x7d \"a\\n\"])" = .ok form ∧
        ∃ read, readForm form.render = .ok read ∧ read.bare = form.bare) ∧
      (∃ form, readForm "\"\u00e9\"" = .ok form ∧
        ¬ ∃ read, readForm form.render = .ok read ∧ read.bare = form.bare) ∧
      ∃ form, readForm "1e999" = .ok form ∧
        ¬ ∃ read, readForm form.render = .ok read ∧ read.bare = form.bare := by
  have hquoted : readForm "(f '[#\x7b:k -2.5\x7d \"a\\n\"])" = .ok (.list
      [.symbol "f" ⟨1, 2, 1, 2, none⟩,
        .quote (.vector
          [.group .set
            [.atom (.keyword "k") ⟨7, 9, 1, 8, none⟩, .atom (.float (-2.5)) ⟨10, 14, 1, 11, none⟩]
            ⟨5, 15, 1, 6, none⟩,
            .atom (.string "a\n") ⟨16, 21, 1, 17, none⟩]
          ⟨4, 22, 1, 5, none⟩) ⟨3, 22, 1, 4, none⟩]
      ⟨0, 23, 1, 1, none⟩) := rfl
  have haccent : readForm "\"\u00e9\"" = .ok (.atom (.string "\u00e9") ⟨0, 4, 1, 1, none⟩) := rfl
  have hinfinite : readForm "1e999" = .ok (.atom (.float (1.0 / 0.0)) ⟨0, 5, 1, 1, none⟩) := rfl
  refine ⟨⟨_, hquoted, (readForm_render_eq_iff hquoted).2 ⟨?_, ?_⟩⟩, ⟨_, haccent, fun h => ?_⟩,
    ⟨_, hinfinite, fun h => ?_⟩⟩
  . intro s hs
    obtain rfl : s = "a\n" := by simpa [Form.atoms] using hs
    simp [Text.IsClean]
  . intro x hx
    obtain rfl : x = -2.5 := by simpa [Form.atoms] using hx
    rfl
  . have hclean := ((readForm_render_eq_iff haccent).1 h).1 "\u00e9" (List.mem_singleton_self _)
    simp [Text.IsClean] at hclean
  . have hfinite := ((readForm_render_eq_iff hinfinite).1 h).2 _ (List.mem_singleton_self _)
    exact absurd hfinite (by decide)

end Resumable
