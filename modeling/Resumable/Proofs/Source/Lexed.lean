import Resumable.Proofs.Source.Atom
import Resumable.Proofs.Source.Form

/-!
This module contains the proof that the text of a form is cut into the tokens of the form.
-/

namespace Resumable

inductive Form.Readable : Form → Prop where
  | atom {value : Atom} {span : Span} (hvalue : value.Readable) : Readable (.atom value span)
  | group {bracket : Bracket} {items : List Form} {span : Span}
      (hitems : ∀ form ∈ items, Readable form) (hpairs : bracket = .map → items.length % 2 = 0)
      : Readable (.group bracket items span)
  | quote {inner : Form} {span : Span} (hinner : Readable inner) : Readable (.quote inner span)

theorem Form.Readable.paired {form : Form} (h : form.Readable) : form.Paired := by
  induction h with
  | atom => exact .atom
  | group _ hpairs ih => exact .group ih hpairs
  | quote _ ih => exact .quote ih

def Form.reread : Form → Form :=
  withAtoms Atom.reread

namespace Lexer

inductive Cuts : List Char → List Token → Prop where
  | nil : Cuts [] []
  | space {text : List Char} {tokens : List Token} (h : Cuts text tokens)
      : Cuts (' ' :: text) tokens
  | token {c : Char} {rest left : List Char} {t : Token} {tokens : List Token} (hc : Starts c)
      (htoken : token c (rest ++ left) = .ok (t, left)) (h : Cuts left tokens)
      : Cuts (c :: (rest ++ left)) (t :: tokens)

theorem skip_of_starts {c : Char} (hc : Starts c) (p : Position) (rest : List Char)
    : skip false p (c :: rest) = (p, c :: rest) := by
  obtain ⟨hblank, hcomma, hsemicolon⟩ := hc
  simp [skip, hblank, hcomma, hsemicolon]

theorem Cuts.go {text : List Char} {tokens : List Token} (h : Cuts text tokens) (p : Position)
    {rounds : Nat} (hrounds : text.length < rounds)
    : ∃ lexemes, scan.go rounds p text = (lexemes, none) ∧ lexemes.map (·.token) = tokens := by
  obtain ⟨rounds, rfl⟩ := Nat.exists_eq_add_one_of_ne_zero (Nat.ne_zero_of_lt hrounds)
  induction h generalizing p rounds with
  | nil => exact ⟨[], rfl, rfl⟩
  | @space text tokens h ih =>
    rw [List.length_cons] at hrounds
    obtain ⟨lexemes, hgo, htokens⟩ := ih (p.advance ' ') rounds (by omega)
    exact ⟨lexemes, hgo, htokens⟩
  | @token c rest left t tokens hc htoken h ih =>
    rw [List.length_cons, List.length_append] at hrounds
    obtain ⟨rounds, rfl⟩ := Nat.exists_eq_add_one_of_ne_zero (show rounds ≠ 0 by omega)
    obtain ⟨q, hq⟩ : ∃ q, q = p.advanceOver ((c :: (rest ++ left)).take
      ((rest ++ left).length + 1 - left.length)) := ⟨_, rfl⟩
    obtain ⟨lexemes, hgo, htokens⟩ := ih q rounds (by omega)
    refine ⟨⟨t, p, q.offset⟩ :: lexemes, ?_, by rw [List.map_cons, htokens]⟩
    rw [scan.go, next, skip_of_starts hc]
    simp only [htoken, ← hq, hgo]

theorem stops_nil : Stops [] :=
  nofun

theorem stops_cons {c : Char} (hc : isDelimiter c = true) (rest : List Char) : Stops (c :: rest) :=
  fun _ h => Option.some_inj.1 h ▸ hc

theorem Cuts.cons {c : Char} {left : List Char} {t : Token} {tokens : List Token} (hc : Starts c)
    (htoken : Lexer.token c left = .ok (t, left)) (h : Cuts left tokens)
    : Cuts (c :: left) (t :: tokens) :=
  show Cuts (c :: ([] ++ left)) _ from .token hc htoken h

theorem Cuts.opener {left : List Char} {tokens : List Token} (bracket : Bracket)
    (h : Cuts left tokens)
    : Cuts (bracket.opener ++ left) (.opening bracket :: tokens) := by
  cases bracket with
  | list => exact .cons (by decide) rfl h
  | vector => exact .cons (by decide) rfl h
  | map => exact .cons (by decide) rfl h
  | set => exact show Cuts ('#' :: (['\x7b'] ++ left)) _ from .token (by decide) rfl h

theorem Cuts.closer {left : List Char} {tokens : List Token} (closer : Closer)
    (h : Cuts left tokens)
    : Cuts (closer.char :: left) (.closing closer :: tokens) := by
  cases closer with
  | round => exact .cons (by decide) rfl h
  | square => exact .cons (by decide) rfl h
  | curly => exact .cons (by decide) rfl h

theorem isDelimiter_closer (closer : Closer) : isDelimiter closer.char = true := by
  cases closer <;> decide

theorem skip_starts {inComment : Bool} {p q : Position} {text : List Char} {c : Char}
    {rest : List Char} (h : skip inComment p text = (q, c :: rest))
    : Starts c := by
  induction text generalizing inComment p with
  | nil => cases h
  | cons d text ih =>
    rw [skip] at h
    split at h
    . exact ih h
    split at h
    . exact ih h
    split at h
    . exact ih h
    . next hblank hsemicolon =>
      cases h
      simp only [Bool.or_eq_true, beq_iff_eq, not_or, Bool.not_eq_true] at hblank hsemicolon
      exact ⟨hblank.1, hblank.2, hsemicolon⟩

theorem next_readable {p q : Position} {text left : List Char} {lexeme : Lexeme}
    (h : next p text = .ok (some (lexeme, q, left)))
    : lexeme.token.Readable := by
  unfold next at h
  split at h
  . cases h
  . next hskip =>
    split at h
    . cases h
    . next htoken =>
      cases h
      exact token_readable (skip_starts hskip) htoken

theorem go_readable (rounds : Nat) (p : Position) (text : List Char)
    : ∀ lexeme ∈ (scan.go rounds p text).1, lexeme.token.Readable := by
  induction rounds generalizing p text with
  | zero => exact List.forall_mem_nil _
  | succ rounds ih =>
    rw [scan.go]
    split
    . exact List.forall_mem_nil _
    . exact List.forall_mem_nil _
    . next hnext => exact List.forall_mem_cons.2 ⟨next_readable hnext, ih _ _⟩

end Lexer

namespace Form

open Lexer (Cuts Stops)

theorem cuts_itemChars {items : List Form} {left : List Char} {tokens : List Token}
    (hitems : ∀ form ∈ items, ∀ {left tokens}, Stops left → Cuts left tokens →
      Cuts (form.chars ++ left) (form.reread.tokens ++ tokens))
    (hleft : Stops left) (h : Cuts left tokens)
    : Cuts (itemChars items ++ left) ((items.map reread).flatMap Form.tokens ++ tokens) := by
  induction items with
  | nil => exact h
  | cons form rest ih =>
    obtain ⟨hform, hrest⟩ := List.forall_mem_cons.1 hitems
    rw [List.map_cons, List.flatMap_cons, List.append_assoc]
    cases rest with
    | nil => exact hform hleft h
    | cons other rest =>
      rw [itemChars, List.append_assoc, List.cons_append]
      . exact hform (Lexer.stops_cons (by decide) _) (.space (ih hrest))
      . exact List.cons_ne_nil _ _

theorem Readable.cuts {form : Form} (hform : form.Readable) {left : List Char}
    {tokens : List Token} (hleft : Stops left) (h : Cuts left tokens)
    : Cuts (form.chars ++ left) (form.reread.tokens ++ tokens) := by
  induction hform generalizing left tokens with
  | @atom value span hvalue =>
    obtain ⟨c, rest, hchars, -, hc, htoken⟩ := hvalue.token_chars hleft
    rw [chars, hchars]
    exact .token hc htoken h
  | @group bracket items span hitems hpairs ih =>
    have hclosed := Cuts.closer bracket.closer h
    have hinner := cuts_itemChars ih (Lexer.stops_cons (Lexer.isDelimiter_closer _) _) hclosed
    have hwhole := Cuts.opener bracket hinner
    simpa [chars, reread, withAtoms, Form.tokens] using hwhole
  | @quote inner span hinner ih => exact .cons (by decide) rfl (ih hleft h)

end Form

end Resumable
