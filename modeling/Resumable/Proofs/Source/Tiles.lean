import Resumable.Proofs.Source.Lexed
import Resumable.Proofs.Source.Place

/-!
This module contains the proof that the tokens of a text tile it: they come one after the other,
with nothing but blanks and comments between them, and each of them is what its own part of the text
is cut into.
-/

namespace Resumable

namespace Lexer

inductive Blank : List Char → Prop where
  | nil : Blank []
  | space {c : Char} {text : List Char} (hc : Text.isBlank c = true ∨ c = ',') (h : Blank text)
      : Blank (c :: text)
  | comment {words text : List Char} (hwords : ∀ c ∈ words, c ≠ '\n') (h : Blank text)
      : Blank (';' :: (words ++ '\n' :: text))

def lineEnd : List Char → List Char
  | [] => ['\n']
  | _ :: _ => []

theorem Blank.comment_nil {text : List Char} (h : Blank text) : Blank (';' :: '\n' :: text) :=
  show Blank (';' :: ([] ++ '\n' :: text)) from .comment (List.forall_mem_nil _) h

theorem Blank.comment_cons {c : Char} {text : List Char} (hc : c ≠ '\n') (h : Blank (';' :: text))
    : Blank (';' :: c :: text) := by
  cases h with
  | space hblank _ => exact absurd hblank (by decide)
  | @comment words text hwords h =>
    exact show Blank (';' :: ((c :: words) ++ '\n' :: text)) from
      .comment (List.forall_mem_cons.2 ⟨hc, hwords⟩) h

theorem skip_eq (inComment : Bool) (p : Position) (text : List Char)
    : ∃ gap, text = gap ++ (skip inComment p text).2 ∧
        (skip inComment p text).1 = p.advanceOver gap ∧
        Blank ((if inComment then [';'] else []) ++
          (gap ++ lineEnd (skip inComment p text).2)) := by
  induction text generalizing inComment p with
  | nil =>
    refine ⟨[], rfl, rfl, ?_⟩
    cases inComment with
    | true => exact .comment_nil .nil
    | false => exact .space (by decide) .nil
  | cons c text ih =>
    rw [skip]
    split
    . next hcomment =>
      subst hcomment
      obtain ⟨gap, htext, hp, hblank⟩ := ih (c != '\n') (p.advance c)
      refine ⟨c :: gap, congrArg (c :: ·) htext, hp, ?_⟩
      by_cases hc : c = '\n'
      . subst hc
        exact .comment_nil hblank
      . simp only [bne_iff_ne, ne_eq, hc, not_false_eq_true, if_true] at hblank
        exact hblank.comment_cons hc
    . next hcomment =>
      rw [Bool.not_eq_true] at hcomment
      subst hcomment
      split
      . next hc =>
        obtain ⟨gap, htext, hp, hblank⟩ := ih false (p.advance c)
        exact ⟨c :: gap, congrArg (c :: ·) htext, hp, .space (by simpa using hc) hblank⟩
      split
      . next hc =>
        obtain ⟨gap, htext, hp, hblank⟩ := ih true (p.advance c)
        rw [beq_iff_eq] at hc
        subst hc
        exact ⟨';' :: gap, congrArg (';' :: ·) htext, hp, hblank⟩
      . exact ⟨[], rfl, rfl, .nil⟩

theorem skip_comment {words : List Char} (hwords : ∀ c ∈ words, c ≠ '\n') (p : Position)
    (rest : List Char)
    : skip true p (words ++ '\n' :: rest)
        = skip false (p.advanceOver (words ++ ['\n'])) rest := by
  induction words generalizing p with
  | nil => rfl
  | cons c words ih =>
    obtain ⟨hc, hwords⟩ := List.forall_mem_cons.1 hwords
    have hgoes : (c != '\n') = true := bne_iff_ne.2 hc
    rw [List.cons_append, skip, if_pos rfl, hgoes]
    exact ih hwords (p.advance c)

theorem Blank.skip {gap : List Char} (h : Blank gap) (p : Position) (rest : List Char)
    : Lexer.skip false p (gap ++ rest) = Lexer.skip false (p.advanceOver gap) rest := by
  induction h generalizing p with
  | nil => rfl
  | @space c text hc h ih =>
    rw [List.cons_append, Lexer.skip, if_neg Bool.false_ne_true, if_pos (by simpa using hc)]
    exact ih (p.advance c)
  | @comment words text hwords h ih =>
    rw [List.cons_append, Lexer.skip, if_neg Bool.false_ne_true, if_neg (by decide),
      if_pos (by decide), List.append_assoc, List.cons_append, skip_comment hwords, ih]
    simp only [Position.advanceOver, List.foldl_cons, List.foldl_append, List.foldl_nil]

variable {part left : List Char} {t : Token}

theorem stringBody_cut {text body : List Char} (h : stringBody text = .ok (body, left))
    : ∃ written, text = written ++ left ∧
        ∀ left', stringBody (written ++ left') = .ok (body, left') := by
  induction text using stringBody.induct generalizing body with
  | case1 => cases h
  | case2 => cases h
  | case3 c rest text left' hrest ih =>
    rw [stringBody, hrest] at h
    cases h
    obtain ⟨written, hwritten, hbody⟩ := ih hrest
    exact ⟨'\\' :: c :: written, congrArg ('\\' :: c :: ·) hwritten,
      fun left' => stringBody_escape (hbody left')⟩
  | case4 c rest cause hrest ih =>
    rw [stringBody, hrest] at h
    cases h
  | case5 rest =>
    cases h
    exact ⟨['"'], rfl, fun _ => rfl⟩
  | case6 c rest hend hescape hquote text left' hrest ih =>
    have hc : c ≠ '\\' := by
      rintro rfl
      cases rest with
      | nil => exact hend rfl rfl
      | cons d rest => exact hescape d rest rfl rfl
    rw [stringBody_cons hc hquote hrest] at h
    cases h
    obtain ⟨written, hwritten, hbody⟩ := ih hrest
    exact ⟨c :: written, congrArg (c :: ·) hwritten,
      fun left' => stringBody_cons hc hquote (hbody left')⟩
  | case7 c rest hend hescape hquote cause hrest ih =>
    rw [stringBody, if_neg hquote, hrest] at h
    . cases h
    . exact hend
    . exact hescape

theorem atDelimiter_iff {text : List Char} : hashed.atDelimiter text = true ↔ Stops text := by
  cases text with
  | nil => exact iff_of_true rfl stops_nil
  | cons c text => exact ⟨fun h => stops_cons h text, fun h => h c rfl⟩

theorem hashed_cut {text : List Char} (h : hashed text = .ok (t, left))
    : ∃ rest, text = rest ++ left ∧
        ∀ left', (Stops left → Stops left') → hashed (rest ++ left') = .ok (t, left') := by
  unfold hashed at h
  split at h
  . cases h
    exact ⟨['\x7b'], rfl, fun _ _ => rfl⟩
  . split at h
    . next hstops =>
      cases h
      refine ⟨['t'], rfl, fun left' hleft => if_pos ?_⟩
      exact atDelimiter_iff.2 (hleft (atDelimiter_iff.1 hstops))
    . cases h
  . split at h
    . next hstops =>
      cases h
      refine ⟨['f'], rfl, fun left' hleft => if_pos ?_⟩
      exact atDelimiter_iff.2 (hleft (atDelimiter_iff.1 hstops))
    . cases h
  . cases h

theorem span_cut {text word : List Char} (h : text.span (!isDelimiter ·) = (word, left))
    : text = word ++ left ∧ Stops left ∧
        ∀ left', Stops left' → (word ++ left').span (!isDelimiter ·) = (word, left') := by
  have hword : ∀ d ∈ word, isDelimiter d = false := fun d hd => not_isDelimiter_of_span h hd
  rw [List.span_eq_takeWhile_dropWhile, Prod.mk.injEq] at h
  obtain ⟨rfl, rfl⟩ := h
  refine ⟨List.takeWhile_append_dropWhile.symm, fun d hd => ?_, fun left' hleft => ?_⟩
  . have hstop := List.head?_dropWhile_not (!isDelimiter ·) text
    rw [hd] at hstop
    simpa using hstop
  . refine span_append (fun d hd => ?_) fun d hd => ?_
    . rw [hword d hd]
      rfl
    . rw [hleft d hd]
      rfl

theorem token_cut {c : Char} {text : List Char} (hc : Starts c) (h : token c text = .ok (t, left))
    : ∃ rest, text = rest ++ left ∧
        ∀ left', (Stops left → Stops left') → token c (rest ++ left') = .ok (t, left') := by
  cases begins_of_token hc h with
  | mark _ hmark => exact ⟨[], rfl, fun left' _ => hmark left'⟩
  | string hquote hbody =>
    subst hquote
    obtain ⟨written, hwritten, hread⟩ := stringBody_cut hbody
    refine ⟨written, hwritten, fun left' _ => ?_⟩
    rw [token, hread left']
    rfl
  | keyword hcolon hspan hname =>
    subst hcolon
    obtain ⟨htext, hstops, hread⟩ := span_cut hspan
    refine ⟨_, htext, fun left' hleft => ?_⟩
    rw [token, hread left' (hleft hstops)]
    exact if_neg (Bool.eq_false_iff.1 hname)
  | hashed hhash hread =>
    subst hhash
    exact hashed_cut hread
  | plain hplain hspan hatom =>
    obtain ⟨htext, hstops, -⟩ := span_cut hspan
    exact ⟨_, (List.cons.inj htext).2, fun left' hleft =>
      (hplain.token (hleft hstops) hatom).2⟩

def Spells (part : List Char) (t : Token) (left : List Char) : Prop :=
  ∃ c rest, part = c :: rest ∧ Starts c ∧ token c (rest ++ left) = .ok (t, left)

theorem Spells.ne_nil (h : Spells part t left) : part ≠ [] := by
  obtain ⟨c, rest, rfl, -, -⟩ := h
  exact List.cons_ne_nil c rest

theorem Spells.of_stops (h : Spells part t left) {left' : List Char}
    (hleft : Stops left → Stops left')
    : Spells part t left' := by
  obtain ⟨c, rest, rfl, hc, htoken⟩ := h
  obtain ⟨rest', htext, hcut⟩ := token_cut hc htoken
  obtain rfl := List.append_cancel_right htext
  exact ⟨c, rest, rfl, hc, hcut left' hleft⟩

theorem Spells.alone (h : Spells part t left) : Spells part t [] :=
  h.of_stops fun _ => stops_nil

theorem take_own (c : Char) (own left : List Char)
    : (c :: (own ++ left)).take ((own ++ left).length + 1 - left.length) = c :: own := by
  rw [List.length_append, Nat.add_right_comm, Nat.add_sub_cancel, ← List.length_cons,
    ← List.cons_append, List.take_left]

theorem next_ok {p q : Position} {text : List Char} {lexeme : Lexeme}
    (h : next p text = .ok (some (lexeme, q, left)))
    : ∃ gap part, text = gap ++ (part ++ left) ∧ Blank gap ∧ Spells part lexeme.token left ∧
        q = p.advanceOver (gap ++ part) ∧
        lexeme = { token := lexeme.token, start := p.advanceOver gap, stop := q.offset } := by
  obtain ⟨gap, htext, hp, hblank⟩ := skip_eq false p text
  unfold next at h
  split at h
  . cases h
  . next p' c rest hskip =>
    rw [hskip] at htext hp hblank
    split at h
    . cases h
    . next t left' htoken =>
      obtain ⟨own, rfl, -⟩ := token_cut (skip_starts hskip) htoken
      simp only [take_own, Except.ok.injEq, Option.some.injEq, Prod.mk.injEq] at h
      obtain ⟨rfl, rfl, rfl⟩ := h
      simp only at hp
      subst hp
      refine ⟨gap, c :: own, htext, ?_, ⟨c, own, rfl, skip_starts hskip, htoken⟩, ?_, rfl⟩
      . simpa [lineEnd] using hblank
      . exact (Position.advanceOver_append p gap (c :: own)).symm

theorem next_none {p : Position} {text : List Char} (h : next p text = .ok none)
    : Blank (text ++ ['\n']) := by
  obtain ⟨gap, htext, -, hblank⟩ := skip_eq false p text
  unfold next at h
  split at h
  . next hskip =>
    rw [hskip, List.append_nil] at htext
    rw [hskip] at hblank
    exact htext ▸ hblank
  . split at h <;> cases h

theorem Spells.next (h : Spells part t left) {gap : List Char} (hblank : Blank gap) (p : Position)
    : Lexer.next p (gap ++ (part ++ left)) = .ok (some
        ({ token := t, start := p.advanceOver gap,
           stop := (p.advanceOver (gap ++ part)).offset },
          p.advanceOver (gap ++ part), left)) := by
  obtain ⟨c, rest, rfl, hc, htoken⟩ := h
  rw [Lexer.next, hblank.skip, List.cons_append, skip_of_starts hc]
  simp only [htoken, take_own, ← Position.advanceOver_append]

inductive Tiled : List Char → List Char → List Lexeme → Option ReadError → Prop where
  | done {before text : List Char} (h : Blank (text ++ ['\n'])) : Tiled before text [] none
  | failed {before text : List Char} {e : ReadError} : Tiled before text [] (some e)
  | token {before gap part left : List Char} {t : Token} {lexemes : List Lexeme}
      {e : Option ReadError} (hblank : Blank gap) (hpart : Spells part t left)
      (h : Tiled (before ++ (gap ++ part)) left lexemes e)
      : Tiled before (gap ++ (part ++ left))
          ({ token := t, start := .behind (before ++ gap),
             stop := String.utf8Len (before ++ (gap ++ part)) } :: lexemes) e

theorem tiled_go {rounds : Nat} (before : List Char) {text : List Char}
    (hrounds : text.length < rounds)
    : Tiled before text (scan.go rounds (.behind before) text).1
        (scan.go rounds (.behind before) text).2 := by
  induction rounds generalizing before text with
  | zero => contradiction
  | succ rounds ih =>
    rw [scan.go]
    split
    . exact .failed
    . next hnext => exact .done (next_none hnext)
    . next lexeme q left hnext =>
      obtain ⟨gap, part, rfl, hblank, hpart, rfl, hlexeme⟩ := next_ok hnext
      have hlength := List.length_pos_iff.2 hpart.ne_nil
      rw [List.length_append, List.length_append] at hrounds
      rw [hlexeme, Position.behind_advanceOver, Position.behind_advanceOver]
      exact .token hblank hpart (ih _ (by omega))

theorem tiled_tokens (text : String) : Tiled [] text.toList (tokens text).1 (tokens text).2 :=
  tiled_go [] (Nat.lt_succ_self _)

section

variable {before text : List Char} {lexemes : List Lexeme} {e : Option ReadError}

theorem Tiled.parts (h : Tiled before text lexemes e)
    : ∀ lexeme ∈ lexemes, ∃ front part rest, before ++ text = front ++ part ++ rest ∧
        Spells part lexeme.token rest ∧ lexeme.start = .behind front ∧
        lexeme.stop = String.utf8Len (front ++ part) := by
  induction h with
  | done => exact List.forall_mem_nil _
  | failed => exact List.forall_mem_nil _
  | @token before gap part left t lexemes e hblank hpart h ih =>
    refine List.forall_mem_cons.2 ⟨⟨before ++ gap, part, left, ?_, hpart, rfl, ?_⟩, ?_⟩
    . simp only [List.append_assoc]
    . rw [List.append_assoc]
    . simpa only [List.append_assoc] using ih

theorem Tiled.nonempty (h : Tiled before text lexemes e)
    : ∀ lexeme ∈ lexemes, lexeme.start.offset < lexeme.stop := by
  intro lexeme hlexeme
  obtain ⟨front, part, rest, -, hpart, hstart, hstop⟩ := h.parts lexeme hlexeme
  have hpos : String.utf8Len part ≠ 0 := mt String.utf8Len_eq_zero.1 hpart.ne_nil
  rw [hstart, hstop, String.utf8Len_append]
  exact Nat.lt_add_of_pos_right (Nat.pos_of_ne_zero hpos)

theorem Tiled.gaps (h : Tiled before text lexemes e)
    : ∀ ends ∈ (String.utf8Len before :: lexemes.map (·.stop)).zip (lexemes.map (·.start.offset)),
        ∃ front gap rest, before ++ text = front ++ gap ++ rest ∧ Blank gap ∧
          ends = (String.utf8Len front, String.utf8Len (front ++ gap)) := by
  induction h with
  | done => exact List.forall_mem_nil _
  | failed => exact List.forall_mem_nil _
  | @token before gap part left t lexemes e hblank hpart h ih =>
    refine List.forall_mem_cons.2
      ⟨⟨before, gap, part ++ left, ?_, hblank, rfl⟩, fun ends hends => ?_⟩
    . rw [List.append_assoc]
    . obtain ⟨front, gap', rest, htext, hgap⟩ := ih ends hends
      exact ⟨front, gap', rest, by simpa only [List.append_assoc] using htext, hgap⟩

theorem Tiled.behind (h : Tiled before text lexemes none)
    : ∃ front gap, before ++ text = front ++ gap ∧ Blank (gap ++ ['\n']) ∧
        (lexemes.map (·.stop)).getLastD (String.utf8Len before) = String.utf8Len front := by
  generalize hnone : none = e at h
  induction h with
  | @done before text h => exact ⟨before, text, rfl, h, rfl⟩
  | failed => cases hnone
  | @token before gap part left t lexemes e hblank hpart h ih =>
    obtain ⟨front, rest, htext, hrest, hlast⟩ := ih hnone
    refine ⟨front, rest, ?_, hrest, ?_⟩
    . rw [← htext]
      simp only [List.append_assoc]
    . rw [List.map_cons, List.getLastD_cons]
      exact hlast

theorem Tiled.le_start (h : Tiled before text lexemes e)
    : ∀ lexeme ∈ lexemes, String.utf8Len before ≤ lexeme.start.offset := by
  induction h with
  | done => exact List.forall_mem_nil _
  | failed => exact List.forall_mem_nil _
  | @token before gap part left t lexemes e hblank hpart h ih =>
    refine List.forall_mem_cons.2 ⟨?_, fun lexeme hlexeme => ?_⟩
    . simp [Position.behind]
    . have hle := ih lexeme hlexeme
      simp only [String.utf8Len_append] at hle
      omega

theorem Tiled.ordered (h : Tiled before text lexemes e)
    : lexemes.Pairwise fun first second => first.stop ≤ second.start.offset := by
  induction h with
  | done => exact .nil
  | failed => exact .nil
  | @token before gap part left t lexemes e hblank hpart h ih => exact .cons h.le_start ih

end

theorem go_nil (rounds : Nat) (p : Position) : scan.go rounds p [] = ([], none) := by
  cases rounds <;> rfl

theorem Spells.go (h : Spells part t left) {gap : List Char} (hblank : Blank gap) (rounds : Nat)
    (p : Position)
    : scan.go (rounds + 1) p (gap ++ (part ++ left)) =
        ({ token := t, start := p.advanceOver gap,
           stop := (p.advanceOver (gap ++ part)).offset } ::
          (scan.go rounds (p.advanceOver (gap ++ part)) left).1,
          (scan.go rounds (p.advanceOver (gap ++ part)) left).2) := by
  rw [scan.go, h.next hblank]

theorem Spells.tokens (h : Spells part t left)
    : Resumable.tokens (String.ofList part)
        = ([{ token := t, start := .start, stop := String.utf8Len part }], none) := by
  have hgo := h.alone.go .nil part.length .start
  rw [List.append_nil, List.nil_append, go_nil, show Position.start = .behind [] from rfl,
    Position.behind_advanceOver, Position.behind_advanceOver] at hgo
  unfold Resumable.tokens scan
  rw [String.toList_ofList]
  exact hgo

end Lexer

/--
The tokens of a text tile it: each takes up a range of bytes that is not empty, they are ordered,
what is between them and behind them is blank, each is cut from its own range alone, and each is
placed at the line and column of its first character.
-/
structure Tiles (text : String) (lexemes : List Lexeme) (e : Option ReadError) : Prop where
  nonempty : ∀ lexeme ∈ lexemes, lexeme.start.offset < lexeme.stop
  ordered : lexemes.Pairwise fun first second => first.stop ≤ second.start.offset
  between : ∀ ends ∈ (0 :: lexemes.map (·.stop)).zip (lexemes.map (·.start.offset)),
    ∃ gap, IsRange text ends.1 ends.2 gap ∧ Lexer.Blank gap.toList
  behind : e = none → ∃ gap,
    IsRange text ((lexemes.map (·.stop)).getLastD 0) text.utf8ByteSize gap ∧
      Lexer.Blank (gap.toList ++ ['\n'])
  alone : ∀ lexeme ∈ lexemes, ∃ part, IsRange text lexeme.start.offset lexeme.stop part ∧
    tokens part = ([⟨lexeme.token, .start, lexeme.stop - lexeme.start.offset⟩], none)
  placed : ∀ lexeme ∈ lexemes,
    lexeme.start.line = lineBehind (charsBefore text lexeme.start.offset) ∧
      lexeme.start.col = columnBehind (charsBefore text lexeme.start.offset)

/--
Up to its end or the first error in it, every text is tiled by its tokens.
-/
theorem tokens_tile (text : String) : Tiles text (tokens text).1 (tokens text).2 := by
  have htiled := Lexer.tiled_tokens text
  refine ⟨htiled.nonempty, htiled.ordered, fun ends hends => ?_, fun hnone => ?_,
    fun lexeme hlexeme => ?_, fun lexeme hlexeme => ?_⟩
  . obtain ⟨front, gap, rest, htext, hblank, rfl⟩ := htiled.gaps ends hends
    exact ⟨_, isRange_of_append htext, by rwa [String.toList_ofList]⟩
  . rw [hnone] at htiled
    obtain ⟨front, gap, htext, hblank, hlast⟩ := htiled.behind
    have hend : String.utf8Len (front ++ gap) = text.utf8ByteSize := by
      rw [← htext, List.nil_append, String.utf8Len_toList]
    rw [String.utf8Len_nil] at hlast
    rw [hlast, ← hend]
    refine ⟨_, isRange_of_append (htext.trans (List.append_nil _).symm), ?_⟩
    rwa [String.toList_ofList]
  . obtain ⟨front, part, rest, htext, hpart, hstart, hstop⟩ := htiled.parts lexeme hlexeme
    rw [hstart, hstop]
    refine ⟨_, isRange_of_append htext, ?_⟩
    rw [hpart.tokens, String.utf8Len_append]
    simp [Position.behind]
  . obtain ⟨front, part, rest, htext, hpart, hstart, hstop⟩ := htiled.parts lexeme hlexeme
    rw [List.nil_append, List.append_assoc] at htext
    rw [hstart]
    simp only [Position.behind, charsBefore_of_append htext, and_self]

end Resumable
