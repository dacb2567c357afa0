import Resumable.Proofs.Source.Grammar
import Resumable.Proofs.Source.Tiles

/-!
This module contains the proof that the span of a form points at the part of the text that the form
was read from, counted from the end of the line that names an interpreter.
-/

namespace Resumable

def interpreterLine : List Char → List Char
  | '#' :: '!' :: rest => '#' :: '!' :: rest.takeWhile (· != '\n')
  | _ => []

theorem interpreterLine_append (text : List Char)
    : interpreterLine text ++ withoutInterpreterLine text = text := by
  unfold interpreterLine
  split
  . exact congrArg ('#' :: '!' :: ·) List.takeWhile_append_dropWhile
  . next hother =>
    rw [withoutInterpreterLine]
    . rfl
    . exact hother

theorem not_mem_interpreterLine (text : List Char) : '\n' ∉ interpreterLine text := by
  unfold interpreterLine
  split
  . intro hmem
    simp only [List.mem_cons, Char.reduceEq, false_or] at hmem
    simpa using List.mem_takeWhile_imp hmem
  . exact List.not_mem_nil

theorem head?_withoutInterpreterLine {text : List Char} {c : Char}
    (hline : interpreterLine text ≠ []) (hc : (withoutInterpreterLine text).head? = some c)
    : c = '\n' := by
  unfold interpreterLine at hline
  split at hline
  . next rest =>
    have hstop := List.head?_dropWhile_not (· != '\n') rest
    rw [show rest.dropWhile (· != '\n') = withoutInterpreterLine ('#' :: '!' :: rest) from rfl,
      hc] at hstop
    simpa using hstop
  . contradiction

theorem behind_line_append {line before : List Char} (hline : '\n' ∉ line)
    (hbefore : line = [] ∨ '\n' ∈ before)
    : lineBehind (line ++ before) = lineBehind before ∧
        columnBehind (line ++ before) = columnBehind before := by
  refine ⟨?_, ?_⟩
  . rw [lineBehind, lineBehind, List.count_append, List.count_eq_zero_of_not_mem hline,
      Nat.zero_add]
  . rcases hbefore with rfl | hbefore
    . rfl
    . unfold columnBehind
      rw [List.reverse_append, List.takeWhile_append, if_neg]
      intro hall
      have hlength := List.takeWhile_sublist (· ≠ '\n') |>.eq_of_length hall
      have hmem : '\n' ∈ before.reverse := List.mem_reverse.2 hbefore
      rw [← hlength] at hmem
      simpa using List.mem_takeWhile_imp hmem

theorem behind_interpreterLine {text before rest : List Char} {c : Char}
    (h : withoutInterpreterLine text = before ++ rest) (hrest : rest.head? = some c) (hc : c ≠ '\n')
    : lineBehind (interpreterLine text ++ before) = lineBehind before ∧
        columnBehind (interpreterLine text ++ before) = columnBehind before := by
  refine behind_line_append (not_mem_interpreterLine text) ?_
  by_cases hline : interpreterLine text = []
  . exact .inl hline
  refine .inr ?_
  cases before with
  | nil => exact absurd (head?_withoutInterpreterLine hline (h ▸ hrest)) hc
  | cons d before =>
    obtain rfl := head?_withoutInterpreterLine hline (congrArg List.head? h)
    exact List.mem_cons_self

namespace Lexer

variable {before text : List Char} {lexemes : List Lexeme} {e : Option ReadError}

theorem Tiled.drop {front : List Lexeme} (h : Tiled before text (front ++ lexemes) e)
    : ∃ before' text', before ++ text = before' ++ text' ∧ Tiled before' text' lexemes e := by
  induction front generalizing before text with
  | nil => exact ⟨before, text, rfl, h⟩
  | cons lexeme front ih =>
    cases h with
    | @token before gap part left t lexemes e hblank hpart h =>
      obtain ⟨before', text', htext, h⟩ := ih h
      exact ⟨before', text', by simpa only [List.append_assoc] using htext, h⟩

theorem Spells.withoutInterpreterLine {part left : List Char} {t : Token} (h : Spells part t left)
    (rest : List Char)
    : withoutInterpreterLine (part ++ rest) = part ++ rest := by
  obtain ⟨c, own, rfl, hc, htoken⟩ := h
  rw [List.cons_append, Resumable.withoutInterpreterLine]
  intro rest' heq
  obtain ⟨rfl, htext⟩ := List.cons.inj heq
  have hhashed : hashed (own ++ left) = .ok (t, left) := htoken
  cases own with
  | nil =>
    rw [List.nil_append] at hhashed
    unfold hashed at hhashed
    split at hhashed
    . cases hhashed
    . split at hhashed <;> cases hhashed
    . split at hhashed <;> cases hhashed
    . cases hhashed
  | cons d own =>
    obtain ⟨rfl, -⟩ := List.cons.inj htext
    cases hhashed

theorem Tiled.slice {first : Lexeme} {tail more : List Lexeme}
    (h : Tiled before text (first :: tail ++ more) e)
    : ∃ gap part rest, text = gap ++ (part ++ rest) ∧ Blank gap ∧
        first.start = .behind (before ++ gap) ∧
        (∀ last ∈ (first :: tail).getLast?,
          last.stop = String.utf8Len (before ++ (gap ++ part))) ∧
        (∃ own t left rest, part = own ++ rest ∧ Spells own t left) ∧
        ∀ gap', Blank gap' → ∀ p rounds, (gap' ++ part).length < rounds →
          (scan.go rounds p (gap' ++ part)).2 = none ∧
            (scan.go rounds p (gap' ++ part)).1.map (·.token) = (first :: tail).map (·.token) := by
  induction tail generalizing first before text with
  | nil =>
    cases h with
    | @token before gap part left t lexemes e hblank hpart h =>
      refine ⟨gap, part, left, rfl, hblank, rfl, ?_,
        ⟨part, t, left, [], (List.append_nil part).symm, hpart⟩, ?_⟩
      . intro last hlast
        obtain rfl := Option.some_inj.1 hlast
        rfl
      . intro gap' hgap' p rounds hrounds
        obtain ⟨rounds, rfl⟩ := Nat.exists_eq_add_one_of_ne_zero (Nat.ne_zero_of_lt hrounds)
        rw [← List.append_nil part, hpart.alone.go hgap', go_nil]
        exact ⟨rfl, rfl⟩
  | cons second tail ih =>
    cases h with
    | @token before gap part left t lexemes e hblank hpart h =>
      obtain ⟨inner, others, rest, rfl, hinner, -, hlast, -, hscan⟩ := ih h
      refine ⟨gap, part ++ (inner ++ others), rest, ?_, hblank, rfl, ?_, ?_, ?_⟩
      . simp only [List.append_assoc]
      . intro last hmem
        rw [hlast last hmem]
        simp only [List.append_assoc]
      . exact ⟨part, t, _, _, rfl, hpart⟩
      . intro gap' hgap' p rounds hrounds
        obtain ⟨rounds, rfl⟩ := Nat.exists_eq_add_one_of_ne_zero (Nat.ne_zero_of_lt hrounds)
        have hlength := List.length_pos_iff.2 hpart.ne_nil
        rw [List.length_append, List.length_append] at hrounds
        -- what is behind the first token begins like what is behind it in the whole text
        have hfirst : Spells part t (inner ++ others) := hpart.of_stops fun hstops c hc => by
          refine hstops c ?_
          rw [← List.append_assoc, List.head?_append, hc]
          rfl
        obtain ⟨hend, htokens⟩ :=
          hscan inner hinner (p.advanceOver (gap' ++ part)) rounds (by omega)
        rw [hfirst.go hgap']
        exact ⟨hend, congrArg (t :: ·) htokens⟩

end Lexer

namespace Form

variable {lexemes : List Lexeme} {form : Form} {forms : List Form}

theorem Written.ends (h : Written lexemes form)
    : ∃ first tail last, lexemes = first :: tail ∧ lexemes.getLast? = some last ∧
        form.span = .between first.start last.stop := by
  induction form using induction generalizing lexemes with
  | atom value span =>
    cases h with
    | @atom lexeme _ h => exact ⟨lexeme, [], lexeme, rfl, rfl, rfl⟩
  | group bracket items span ih =>
    cases h with
    | @group opener closer inner _ _ hopener hitems hcloser hpairs =>
      refine ⟨opener, inner ++ [closer], closer, rfl, ?_, rfl⟩
      rw [← List.cons_append, List.getLast?_concat]
  | quote inner span ih =>
    cases h with
    | @quote mark lexemes _ hmark hinner =>
      obtain ⟨first, tail, last, rfl, hlast, hspan⟩ := ih hinner
      refine ⟨mark, first :: tail, last, rfl, ?_, ?_⟩
      . rw [List.getLast?_cons_cons, hlast]
      . rw [span, hspan]
        rfl

theorem WrittenAll.of_mem (h : WrittenAll lexemes forms) (hform : form ∈ forms)
    : ∃ front own rest, lexemes = front ++ own ++ rest ∧ Written own form := by
  induction forms generalizing lexemes with
  | nil => cases hform
  | cons first forms ih =>
    cases h with
    | @cons own rest _ _ hfirst hforms =>
      rcases List.mem_cons.1 hform with rfl | hform
      . exact ⟨[], own, rest, rfl, hfirst⟩
      . obtain ⟨front, own', rest', rfl, hown⟩ := ih hforms hform
        exact ⟨own ++ front, own', rest', by simp only [List.append_assoc], hown⟩

theorem Written.of_inside {outer : Form} (h : Written lexemes outer) (hform : form.Inside outer)
    : ∃ front own rest, lexemes = front ++ own ++ rest ∧ Written own form := by
  induction hform generalizing lexemes with
  | item hitem =>
    cases h with
    | @group opener closer inner _ _ hopener hitems hcloser hpairs =>
      obtain ⟨front, own, rest, rfl, hown⟩ := hitems.of_mem hitem
      exact ⟨opener :: front, own, rest ++ [closer], by simp, hown⟩
  | quoted =>
    cases h with
    | @quote mark lexemes _ hmark hinner =>
      exact ⟨[mark], lexemes, [], by simp, hinner⟩
  | trans _ _ ih ih' =>
    obtain ⟨front, own, rest, rfl, hmiddle⟩ := ih' h
    obtain ⟨front', own', rest', rfl, hown⟩ := ih hmiddle
    exact ⟨front ++ front', own', rest' ++ rest, by simp, hown⟩

theorem WrittenAll.of_within (h : WrittenAll lexemes forms) (hform : form.Within forms)
    : ∃ front own rest, lexemes = front ++ own ++ rest ∧ Written own form := by
  obtain ⟨outer, houter, rfl | hinside⟩ := hform
  . exact h.of_mem houter
  . obtain ⟨front, own, rest, rfl, hown⟩ := h.of_mem houter
    obtain ⟨front', own', rest', rfl, hown'⟩ := hown.of_inside hinside
    exact ⟨front ++ front', own', rest' ++ rest, by simp, hown'⟩

theorem WrittenAll.apart (h : WrittenAll lexemes forms)
    (hordered : lexemes.Pairwise fun first second => first.stop ≤ second.start.offset)
    : forms.Pairwise fun first second => first.span.stop ≤ second.span.start := by
  induction forms generalizing lexemes with
  | nil => exact .nil
  | cons form forms ih =>
    cases h with
    | @cons own rest _ _ hform hforms =>
      obtain ⟨-, hrest, hacross⟩ := List.pairwise_append.1 hordered
      refine .cons (fun other hother => ?_) (ih hforms hrest)
      obtain ⟨front, own', rest', rfl, hown'⟩ := hforms.of_mem hother
      obtain ⟨_, _, last, _, hlast, hspan⟩ := hform.ends
      obtain ⟨first, tail, _, rfl, _, hspan'⟩ := hown'.ends
      rw [hspan, hspan']
      exact hacross last (List.mem_of_getLast? hlast) first (by simp)

theorem Written.children (h : Written lexemes form)
    (hordered : lexemes.Pairwise fun first second => first.stop ≤ second.start.offset)
    (hnonempty : ∀ lexeme ∈ lexemes, lexeme.start.offset < lexeme.stop)
    : (∀ child ∈ form.children,
        form.span.start ≤ child.span.start ∧ child.span.stop ≤ form.span.stop) ∧
      form.children.Pairwise fun first second => first.span.stop ≤ second.span.start := by
  cases h with
  | atom => exact ⟨List.forall_mem_nil _, .nil⟩
  | @group opener closer inner bracket items hopener hitems hcloser hpairs =>
    obtain ⟨hbehind, hinner⟩ := List.pairwise_cons.1 hordered
    obtain ⟨hinner, -, hacross⟩ := List.pairwise_append.1 hinner
    refine ⟨fun child hchild => ?_, hitems.apart hinner⟩
    obtain ⟨front, own, rest, rfl, hown⟩ := hitems.of_mem hchild
    obtain ⟨first, tail, last, rfl, hlast, hspan⟩ := hown.ends
    have hmem : last ∈ first :: tail := List.mem_of_getLast? hlast
    have hfirst := hbehind first (by simp)
    have hclosed := hacross last (List.mem_append_left _ (List.mem_append_right _ hmem)) closer
      (by simp)
    have hopens := hnonempty opener (by simp)
    have hcloses := hnonempty closer (by simp)
    rw [hspan]
    exact ⟨show opener.start.offset ≤ first.start.offset by omega,
      show last.stop ≤ closer.stop by omega⟩
  | @quote mark lexemes inner hmark hinner =>
    obtain ⟨hbehind, -⟩ := List.pairwise_cons.1 hordered
    obtain ⟨first, tail, last, rfl, hlast, hspan⟩ := hinner.ends
    have hfirst := hbehind first (by simp)
    have hmarks := hnonempty mark (by simp)
    refine ⟨List.forall_mem_singleton.2 ⟨?_, Nat.le_refl _⟩, List.pairwise_singleton _ _⟩
    rw [hspan]
    exact show mark.start.offset ≤ first.start.offset by omega

end Form

theorem programTokens_tiled {text : String} {lexemes : List Lexeme}
    (h : programTokens text = .ok lexemes)
    : Lexer.Tiled [] (withoutInterpreterLine text.toList) lexemes none := by
  have htiled := Lexer.tiled_go [] (Nat.lt_succ_self (withoutInterpreterLine text.toList).length)
  unfold programTokens at h
  split at h
  . next hscan =>
    cases h
    rw [show Lexer.scan.go _ (.behind []) _ = _ from hscan] at htiled
    exact htiled
  . cases h

/--
The span of a form points at the part of a text that the form is read from, where offsets count from
some place of the text on, and the spans of the forms in it lie inside of it, one behind the other.
-/
structure Spanned (text : String) (shift : Nat) (form : Form) : Prop where
  reads : ∃ part, IsRange text (shift + form.span.start) (shift + form.span.stop) part ∧
    ∃ read, readForm part = .ok read ∧ read.bare = form.bare
  line : form.span.line
    = lineBehind (charsBefore text (shift + form.span.start)) % 0x100000000
  col : form.span.col
    = columnBehind (charsBefore text (shift + form.span.start)) % 0x100000000
  inside : ∀ child ∈ form.children,
    form.span.start ≤ child.span.start ∧ child.span.stop ≤ form.span.stop
  ordered : form.children.Pairwise fun first second => first.span.stop ≤ second.span.start

theorem readForm_of_scan {part : List Char} {lexemes : List Lexeme} {form : Form}
    (hform : form.Written lexemes) (hwhole : withoutInterpreterLine part = part)
    (hscan : (Lexer.scan .start part).2 = none ∧
      (Lexer.scan .start part).1.map (·.token) = lexemes.map (·.token))
    : ∃ read, readForm (String.ofList part) = .ok read ∧ read.bare = form.bare := by
  obtain ⟨htokens, hpaired⟩ := hform.tokens
  obtain ⟨read, hall, hread⟩ := Reader.all_of_tokens
    (show (Lexer.scan .start part).1.map (·.token) = [form].flatMap Form.tokens by
      rw [hscan.2, htokens, List.flatMap_singleton])
    (List.forall_mem_singleton.2 hpaired)
  obtain ⟨first, rfl, hfirst⟩ := List.map_eq_singleton_iff.1 hread
  refine ⟨first, readForm_ok_iff.2 ?_, hfirst⟩
  have htokens : programTokens (String.ofList part) = .ok (Lexer.scan .start part).1 := by
    unfold programTokens
    rw [String.toList_ofList, hwhole]
    split
    . next hscan' => rw [hscan']
    . next hscan' =>
      rw [hscan'] at hscan
      cases hscan.1
  rw [readForms, htokens]
  exact hall

namespace Form.Written

variable {front own rest : List Lexeme} {form : Form}

theorem stands {text : List Char} (h : Lexer.Tiled [] text (front ++ own ++ rest) none)
    (hform : form.Written own)
    : ∃ before part after, text = before ++ part ++ after ∧
        form.span = .between (.behind before) (String.utf8Len (before ++ part)) ∧
        (∃ c ∈ part.head?, c ≠ '\n') ∧
        ∃ read, readForm (String.ofList part) = .ok read ∧ read.bare = form.bare := by
  obtain ⟨first, tail, last, rfl, hlast, hspan⟩ := hform.ends
  rw [List.append_assoc] at h
  obtain ⟨before, left, htext, h⟩ := h.drop
  obtain ⟨gap, part, rest, rfl, -, hstart, hstop, ⟨own, t, left, more, rfl, hown⟩, hscan⟩ := h.slice
  refine ⟨before ++ gap, own ++ more, rest, ?_, ?_, ?_, ?_⟩
  . rw [List.nil_append] at htext
    rw [htext]
    simp only [List.append_assoc]
  . rw [hspan, hstart, hstop last hlast, List.append_assoc before]
  . obtain ⟨c, own, rfl, hc, -⟩ := hown
    refine ⟨c, rfl, ?_⟩
    rintro rfl
    exact absurd hc (by decide)
  . exact readForm_of_scan hform (hown.withoutInterpreterLine more)
      (hscan [] .nil .start _ (Nat.lt_succ_self _))

theorem spanned {text : String}
    (h : Lexer.Tiled [] (withoutInterpreterLine text.toList) (front ++ own ++ rest) none)
    (hform : form.Written own)
    : Spanned text (String.utf8Len (interpreterLine text.toList)) form := by
  obtain ⟨hinside, hapart⟩ := hform.children
    (List.pairwise_append.1 (List.pairwise_append.1 h.ordered).1).2.1 fun lexeme hlexeme =>
      h.nonempty lexeme (List.mem_append_left _ (List.mem_append_right _ hlexeme))
  obtain ⟨before, part, after, htext, hspan, ⟨c, hc, hline⟩, hread⟩ := hform.stands h
  have hwhole : text.toList = interpreterLine text.toList ++ before ++ part ++ after := by
    conv_lhs => rw [← interpreterLine_append text.toList, htext]
    simp only [List.append_assoc]
  have hstart : String.utf8Len (interpreterLine text.toList) + form.span.start
      = String.utf8Len (interpreterLine text.toList ++ before) := by
    rw [String.utf8Len_append, hspan]
    rfl
  have hstop : String.utf8Len (interpreterLine text.toList) + form.span.stop
      = String.utf8Len (interpreterLine text.toList ++ before ++ part) := by
    rw [List.append_assoc, String.utf8Len_append, hspan]
    rfl
  have hbefore := charsBefore_of_append (hwhole.trans (List.append_assoc _ part after))
  obtain ⟨hlines, hcols⟩ := behind_interpreterLine (htext.trans (List.append_assoc _ _ _)) (by
    rw [List.head?_append, hc]; rfl) hline
  refine ⟨⟨String.ofList part, ?_, hread⟩, ?_, ?_, hinside, hapart⟩
  . rw [hstart, hstop]
    exact isRange_of_append hwhole
  . rw [hstart, hbefore, hlines, hspan]
    rfl
  . rw [hstart, hbefore, hcols, hspan]
    rfl

end Form.Written

/--
Every form that is read from a text, and every form in it, has the span of its own part of the text.
Offsets count from the end of the line that names an interpreter, if the text begins with one; lines
and columns are those of the whole text, in 32 bits.
-/
theorem readForms_spanned {text : String} {forms : List Form} (h : readForms text = .ok forms)
    : ∀ form : Form, form.Within forms →
        Spanned text (String.utf8Len (interpreterLine text.toList)) form := by
  intro form hform
  unfold readForms at h
  cases htokens : programTokens text with
  | error e =>
    rw [htokens] at h
    cases h
  | ok lexemes =>
    rw [htokens] at h
    obtain ⟨front, own, rest, rfl, hown⟩ := (Reader.all_follows .nil h).of_within hform
    exact hown.spanned (programTokens_tiled htokens)

theorem readForms_spanned_script
    : ∃ form, readForms "#!x\n(a 'b)" = .ok [form] ∧ form.span = ⟨1, 7, 2, 1, none⟩ ∧
        (form.children.map Form.span)[1]? = some ⟨4, 6, 2, 4, none⟩ ∧
        Spanned "#!x\n(a 'b)" 3 form ∧ ∀ child ∈ form.children, Spanned "#!x\n(a 'b)" 3 child := by
  refine ⟨_, rfl, rfl, rfl, ?_, fun child hchild => ?_⟩
  . exact readForms_spanned rfl _ (.of_mem (List.mem_singleton_self _))
  . exact readForms_spanned rfl child
      (.of_inside (.item hchild) (List.mem_singleton_self _))

end Resumable
