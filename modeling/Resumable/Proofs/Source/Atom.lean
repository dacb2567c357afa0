import Resumable.Proofs.Decimal.Numeral
import Resumable.Source.Reader

/-!
This module contains the proof that the atoms of a text that is read are written with characters from
which they are read again, except for infinities and for strings with characters that are named by
their code points.
-/

namespace Resumable

namespace Text

def IsClean (c : Char) : Prop :=
  0x20 ≤ c.toNat ∧ c.toNat ≤ 0x7E ∨ c = '\t' ∨ c = '\r' ∨ c = '\n'

instance : DecidablePred IsClean :=
  fun _ => inferInstanceAs (Decidable (_ ∨ _))

def reread (c : Char) : List Char :=
  if IsClean c then [c] else 'u' :: '\x7b' :: (Nat.toDigits 16 c.toNat ++ ['\x7d'])

theorem reread_of_isClean {c : Char} (hc : IsClean c) : reread c = [c] :=
  if_pos hc

theorem length_reread {c : Char} (hc : ¬ IsClean c) : 1 < (reread c).length := by
  rw [reread, if_neg hc, List.length_cons, List.length_cons]
  omega

theorem length_flatMap_reread (text : List Char) : text.length ≤ (text.flatMap reread).length := by
  induction text with
  | nil => exact Nat.le_refl _
  | cons c rest ih =>
    have hc : 1 ≤ (reread c).length := by
      by_cases hc : IsClean c
      . rw [reread_of_isClean hc, List.length_singleton]
      . exact (length_reread hc).le
    rw [List.flatMap_cons, List.length_append, List.length_cons]
    omega

theorem flatMap_reread_eq_iff {text : List Char}
    : text.flatMap reread = text ↔ ∀ c ∈ text, IsClean c := by
  induction text with
  | nil => simp
  | cons c rest ih =>
    rw [List.flatMap_cons, List.forall_mem_cons, ← ih]
    by_cases hc : IsClean c
    . rw [reread_of_isClean hc]
      simp [hc]
    . refine iff_of_false (fun heq => ?_) fun h => hc h.1
      have hlong := congrArg List.length heq
      have hrest := length_flatMap_reread rest
      have hmore := length_reread hc
      rw [List.length_append, List.length_cons] at hlong
      omega

theorem mem_toDigits {b n : Nat} (hb : 1 < b) {c : Char} (hc : c ∈ Nat.toDigits b n)
    : ∃ d, c = Nat.digitChar d := by
  induction n using Nat.strongRecOn with
  | ind n ih =>
    rw [Nat.toDigits_eq_if hb] at hc
    split at hc
    . exact ⟨n, List.mem_singleton.1 hc⟩
    . next hlarge =>
      rcases List.mem_append.1 hc with hc | hc
      . exact ih _ (Nat.div_lt_self (by omega) hb) hc
      . exact ⟨_, List.mem_singleton.1 hc⟩

end Text

namespace Lexer

open Text (IsClean reread reread_of_isClean)

variable {text body left : List Char}

theorem stringBody_cons {c : Char} (hescape : c ≠ '\\') (hquote : c ≠ '"')
    (h : stringBody text = .ok (body, left))
    : stringBody (c :: text) = .ok (c :: body, left) := by
  rw [stringBody]
  . rw [if_neg hquote, h]
  . exact fun heq _ => hescape heq
  . exact fun _ _ heq _ => hescape heq

theorem stringBody_append {plain : List Char} (hplain : ∀ c ∈ plain, c ≠ '\\' ∧ c ≠ '"')
    (h : stringBody text = .ok (body, left))
    : stringBody (plain ++ text) = .ok (plain ++ body, left) := by
  induction plain with
  | nil => exact h
  | cons c plain ih =>
    obtain ⟨hc, hplain⟩ := List.forall_mem_cons.1 hplain
    exact stringBody_cons hc.1 hc.2 (ih hplain)

theorem stringBody_escape {c : Char} (h : stringBody text = .ok (body, left))
    : stringBody ('\\' :: c :: text) = .ok (unescape c :: body, left) := by
  rw [stringBody, h]

theorem letterEscape?_eq (c : Char)
    : (∃ e, Text.letterEscape? c = some ['\\', e] ∧ unescape e = c ∧ IsClean c) ∨
        Text.letterEscape? c = none ∧ c ≠ '\t' ∧ c ≠ '\r' ∧ c ≠ '\n' ∧ c ≠ '"' ∧ c ≠ '\\' := by
  unfold Text.letterEscape?
  split
  . exact .inl ⟨_, rfl, rfl, by decide⟩
  . exact .inl ⟨_, rfl, rfl, by decide⟩
  . exact .inl ⟨_, rfl, rfl, by decide⟩
  . exact .inl ⟨_, rfl, rfl, by decide⟩
  . exact .inl ⟨_, rfl, rfl, by decide⟩
  . next htab hreturn hline hquote hescape =>
    exact .inr ⟨rfl, htab, hreturn, hline, hquote, hescape⟩

theorem stringBody_codePointEscape {c : Char} (hc : ¬ IsClean c)
    (h : stringBody text = .ok (body, left))
    : stringBody (Text.codePointEscape c ++ text) = .ok (reread c ++ body, left) := by
  have hplain : ∀ d ∈ '\x7b' :: (Nat.toDigits 16 c.toNat ++ ['\x7d']), d ≠ '\\' ∧ d ≠ '"' := by
    intro d hd
    rcases List.mem_cons.1 hd with rfl | hd
    . decide
    rcases List.mem_append.1 hd with hd | hd
    . obtain ⟨n, rfl⟩ := Text.mem_toDigits (by decide) hd
      exact ⟨Nat.digitChar_ne _ (by decide), Nat.digitChar_ne _ (by decide)⟩
    . rw [List.mem_singleton.1 hd]
      decide
  have hwritten := stringBody_escape (c := 'u') (stringBody_append hplain h)
  unfold Text.codePointEscape reread
  rw [if_neg hc]
  exact hwritten

theorem stringBody_escapeInForm (c : Char) (h : stringBody text = .ok (body, left))
    : stringBody (Text.escapeInForm c ++ text) = .ok (reread c ++ body, left) := by
  unfold Text.escapeInForm
  rcases letterEscape?_eq c with ⟨e, hescape, hletter, hclean⟩ | ⟨hnone, htab, hreturn, hline,
    hquote, hescape⟩
  . rw [hescape, reread_of_isClean hclean]
    exact hletter ▸ stringBody_escape h
  . rw [hnone]
    by_cases hsingle : c = '\x27'
    . subst hsingle
      exact stringBody_escape h
    by_cases hprinted : 0x20 ≤ c.toNat ∧ c.toNat ≤ 0x7E
    . simp only [if_neg hsingle, if_pos hprinted]
      rw [reread_of_isClean (.inl hprinted)]
      exact stringBody_cons hescape hquote h
    . simp only [if_neg hsingle, if_neg hprinted]
      refine stringBody_codePointEscape ?_ h
      rintro (hc | hc | hc | hc)
      . exact hprinted hc
      . exact htab hc
      . exact hreturn hc
      . exact hline hc

theorem stringBody_quoted (written left : List Char)
    : stringBody (written.flatMap Text.escapeInForm ++ '"' :: left)
        = .ok (written.flatMap reread, left) := by
  induction written with
  | nil => rfl
  | cons c written ih =>
    rw [List.flatMap_cons, List.flatMap_cons, List.append_assoc]
    exact stringBody_escapeInForm c ih

def Starts (c : Char) : Prop :=
  Text.isBlank c = false ∧ c ≠ ',' ∧ c ≠ ';'

instance : DecidablePred Starts :=
  fun _ => inferInstanceAs (Decidable (_ ∧ _ ∧ _))

def Stops (text : List Char) : Prop :=
  ∀ c, text.head? = some c → isDelimiter c = true

structure IsPlain (text : List Char) : Prop where
  head : ∃ c rest, text = c :: rest ∧ c ≠ ':' ∧ c ≠ '#'
  chars : ∀ c ∈ text, isDelimiter c = false

theorem isPlain_cons {c : Char} {rest : List Char} (hcolon : c ≠ ':') (hhash : c ≠ '#')
    (hall : (c :: rest).all (!isDelimiter ·) = true)
    : IsPlain (c :: rest) := by
  refine ⟨⟨c, rest, rfl, hcolon, hhash⟩, fun d hd => ?_⟩
  simpa using List.all_eq_true.1 hall d hd

theorem starts_of_isDelimiter {c : Char} (h : isDelimiter c = false) : Starts c := by
  unfold isDelimiter at h
  obtain ⟨hblank, hother⟩ := Bool.or_eq_false_iff.1 h
  refine ⟨hblank, ?_, ?_⟩
  . rintro rfl
    contradiction
  . rintro rfl
    contradiction

theorem IsPlain.token {c : Char} {rest : List Char} {t : Token} (h : IsPlain (c :: rest))
    (hleft : Stops left) (hatom : plainAtom (c :: rest) = .ok t)
    : Starts c ∧ token c (rest ++ left) = .ok (t, left) := by
  have hc := h.chars c (List.mem_cons_self ..)
  obtain ⟨c, rest, heq, hcolon, hhash⟩ := h.head
  cases heq
  have hspan : ((c :: rest) ++ left).span (!isDelimiter ·) = (c :: rest, left) :=
    span_append (fun d hd => by rw [h.chars d hd]; rfl) fun d hd => by rw [hleft d hd]; rfl
  refine ⟨starts_of_isDelimiter hc, ?_⟩
  unfold Lexer.token
  split
  . contradiction
  . contradiction
  . contradiction
  . contradiction
  . contradiction
  . contradiction
  . contradiction
  . contradiction
  . exact absurd rfl hcolon
  . exact absurd rfl hhash
  . rw [← List.cons_append, hspan]
    simp only [hatom]
    rfl

theorem isDelimiter_of_isDigit {c : Char} (hc : c.isDigit = true) : isDelimiter c = false := by
  have hall : ∀ n : Fin 10, isDelimiter (Char.ofNat (48 + n)) = false := by decide
  have hbounds : 48 ≤ c.toNat ∧ c.toNat ≤ 57 := by
    simpa [Char.isDigit, UInt32.le_iff_toNat_le] using hc
  have hn := hall ⟨c.toNat - 48, by omega⟩
  have heq : 48 + (c.toNat - 48) = c.toNat := by omega
  rwa [heq, Char.ofNat_toNat] at hn

end Lexer

def Atom.Readable : Atom → Prop
  | .float x => x.isNaN = false
  | .symbol name =>
    Lexer.IsPlain name.toList ∧ Lexer.plainAtom name.toList = .ok (.atom (.symbol name))
  | .keyword name => name.toList ≠ [] ∧ ∀ c ∈ name.toList, isDelimiter c = false
  | _ => True

def Token.Readable : Token → Prop
  | .atom value => value.Readable
  | _ => True

def Atom.reread : Atom → Atom
  | .float x => if x.isInf then .symbol (String.ofList (Decimal.ofLiteral x)) else .float x
  | .string text => .string (String.ofList (text.toList.flatMap Text.reread))
  | value => value

theorem Atom.reread_float {x : Float}
    : (Atom.float x).reread =
        if x.isInf then .symbol (String.ofList (Decimal.ofLiteral x)) else .float x :=
  rfl

namespace Lexer

variable {text left : List Char} {t : Token}

theorem plainAtom_readable (hplain : IsPlain text) (h : plainAtom text = .ok t) : t.Readable := by
  unfold plainAtom at h
  split at h
  . split at h
    . next value hvalue =>
      cases h
      unfold number? at hvalue
      split at hvalue
      . cases hvalue
        exact trivial
      . split at hvalue
        . obtain ⟨x, hx, rfl⟩ := Option.map_eq_some_iff.1 hvalue
          exact Decimal.isNaN_readFloat? hx
        . cases hvalue
    . cases h
  . next hnumber =>
    cases h
    unfold word
    split
    . exact trivial
    . exact trivial
    . exact trivial
    . next hnil htrue hfalse =>
      refine ⟨by rwa [String.toList_ofList], ?_⟩
      rw [String.toList_ofList, plainAtom, if_neg hnumber]
      unfold word
      split <;> simp_all

theorem not_isDelimiter_of_span {word : List Char}
    (h : text.span (!isDelimiter ·) = (word, left)) {c : Char} (hc : c ∈ word)
    : isDelimiter c = false := by
  rw [List.span_eq_takeWhile_dropWhile, Prod.mk.injEq] at h
  rw [← h.1] at hc
  simpa using List.mem_takeWhile_imp hc

theorem hashed_readable {rest : List Char} (h : hashed rest = .ok (t, left)) : t.Readable := by
  unfold hashed at h
  split at h
  . cases h
    exact trivial
  . split at h <;> cases h
    exact trivial
  . split at h <;> cases h
    exact trivial
  . cases h

inductive Begins (c : Char) (text : List Char) : Token → List Char → Prop where
  | mark {t : Token} (ht : t.Readable) (h : ∀ left, token c left = .ok (t, left)) : Begins c text t text
  | string {body left : List Char} (hc : c = '"') (h : stringBody text = .ok (body, left))
      : Begins c text (.atom (.string (String.ofList body))) left
  | keyword {name left : List Char} (hc : c = ':')
      (h : text.span (!isDelimiter ·) = (name, left)) (hname : name.isEmpty = false)
      : Begins c text (.atom (.keyword (String.ofList name))) left
  | hashed {t : Token} {left : List Char} (hc : c = '#') (h : hashed text = .ok (t, left))
      : Begins c text t left
  | plain {rest left : List Char} {t : Token} (hplain : IsPlain (c :: rest))
      (h : (c :: text).span (!isDelimiter ·) = (c :: rest, left))
      (hatom : plainAtom (c :: rest) = .ok t)
      : Begins c text t left

theorem begins_of_token {c : Char} {rest : List Char} (hc : Starts c)
    (h : token c rest = .ok (t, left)) : Begins c rest t left := by
  unfold token at h
  split at h
  . cases h
    exact .mark trivial fun _ => rfl
  . cases h
    exact .mark trivial fun _ => rfl
  . cases h
    exact .mark trivial fun _ => rfl
  . cases h
    exact .mark trivial fun _ => rfl
  . cases h
    exact .mark trivial fun _ => rfl
  . cases h
    exact .mark trivial fun _ => rfl
  . cases h
    exact .mark trivial fun _ => rfl
  . cases hbody : stringBody rest with
    | error cause =>
      rw [hbody] at h
      cases h
    | ok read =>
      rw [hbody] at h
      cases h
      exact .string rfl hbody
  . simp only at h
    split at h
    . cases h
    . next hname =>
      cases h
      exact .keyword rfl rfl (Bool.not_eq_true _ ▸ hname)
  . exact .hashed rfl h
  . next hround hround' hsquare hsquare' hcurly hcurly' hsingle hdouble hcolon hhash =>
    have hdelimiter : isDelimiter c = false := by
      obtain ⟨hblank, hcomma, hsemicolon⟩ := hc
      unfold isDelimiter
      rw [hblank]
      simp_all
    have hspan : (c :: rest).span (!isDelimiter ·)
        = (c :: rest.takeWhile (!isDelimiter ·), (c :: rest).dropWhile (!isDelimiter ·)) := by
      rw [List.span_eq_takeWhile_dropWhile, List.takeWhile_cons_of_pos (by rw [hdelimiter]; rfl)]
    simp only [hspan] at h
    cases hatom : plainAtom (c :: rest.takeWhile (!isDelimiter ·)) with
    | error cause =>
      rw [hatom] at h
      cases h
    | ok atom =>
      rw [hatom] at h
      cases h
      exact .plain ⟨⟨c, _, rfl, hcolon, hhash⟩, fun d hd => not_isDelimiter_of_span hspan hd⟩ hspan
        hatom

theorem token_readable {c : Char} {rest : List Char} (hc : Starts c)
    (h : token c rest = .ok (t, left)) : t.Readable := by
  cases begins_of_token hc h with
  | mark ht _ => exact ht
  | string => exact trivial
  | @keyword name left _ hspan hname =>
    refine ⟨fun hempty => ?_, fun d hd => ?_⟩
    . rw [String.toList_ofList] at hempty
      subst hempty
      cases hname
    . rw [String.toList_ofList] at hd
      exact not_isDelimiter_of_span hspan hd
  | hashed _ hread => exact hashed_readable hread
  | plain hplain _ hatom => exact plainAtom_readable hplain hatom

section

variable {c : Char} {rest : List Char} (hc : c.isDigit = true)
  (hchars : ∀ d ∈ c :: rest, d.isDigit = true ∨ d = '.' ∨ d = 'e' ∨ d = '-') (minus : Bool)

include hc

theorem startsNumber_signed
    : startsNumber (if minus then '-' :: c :: rest else c :: rest) = true := by
  cases minus with
  | true => simp [startsNumber, hc]
  | false => cases rest <;> simp [startsNumber, hc]

include hchars

theorem isPlain_signed : IsPlain (if minus then '-' :: c :: rest else c :: rest) := by
  have hplain : ∀ d ∈ c :: rest, isDelimiter d = false := by
    intro d hd
    rcases hchars d hd with hd | rfl | rfl | rfl
    . exact isDelimiter_of_isDigit hd
    . decide
    . decide
    . decide
  cases minus with
  | true =>
    exact ⟨⟨'-', c :: rest, rfl, by decide, by decide⟩,
      List.forall_mem_cons.2 ⟨by decide, hplain⟩⟩
  | false =>
    refine ⟨⟨c, rest, rfl, ?_, ?_⟩, hplain⟩
    . rintro rfl
      contradiction
    . rintro rfl
      contradiction

theorem plainAtom_signed {value : Atom}
    (hnumber : number? (if minus then '-' :: c :: rest else c :: rest) = some value)
    : IsPlain (if minus then '-' :: c :: rest else c :: rest) ∧
        plainAtom (if minus then '-' :: c :: rest else c :: rest) = .ok (.atom value) := by
  refine ⟨isPlain_signed hc hchars minus, ?_⟩
  unfold plainAtom
  rw [if_pos (startsNumber_signed hc minus), hnumber]

end

theorem plainAtom_integer (n : Int64)
    : IsPlain (Decimal.integer n.toInt) ∧
        plainAtom (Decimal.integer n.toInt) = .ok (.atom (.int n)) := by
  have hnumber : number? (Decimal.integer n.toInt) = some (.int n) := by
    unfold number?
    rw [Decimal.readInt64?_integer]
  have hdigits := Decimal.isDigit_digits (n := n.toInt.natAbs)
  obtain ⟨c, rest, htext⟩ := List.exists_cons_of_ne_nil (Decimal.digits_ne_nil n.toInt.natAbs)
  have hsigned : Decimal.integer n.toInt
      = if decide (n.toInt < 0) then '-' :: c :: rest else c :: rest := by
    simp only [Decimal.integer, htext, decide_eq_true_eq]
  rw [htext] at hdigits
  rw [hsigned] at hnumber ⊢
  exact plainAtom_signed (hdigits c (List.mem_cons_self ..)) (fun d hd => .inl (hdigits d hd)) _
    hnumber

theorem plainAtom_ofLiteral {x : Float} (hnan : x.isNaN = false)
    : IsPlain (Decimal.ofLiteral x) ∧
        plainAtom (Decimal.ofLiteral x) = .ok (.atom (Atom.float x).reread) := by
  by_cases hinf : x.isInf = true
  . have hname : Decimal.ofLiteral x
        = if Decimal.isNegative x then ['-', 'i', 'n', 'f'] else ['i', 'n', 'f'] := by
      unfold Decimal.ofLiteral Decimal.signed
      rw [hnan, hinf]
      rfl
    rw [Atom.reread_float, if_pos hinf, hname]
    split
    . exact ⟨isPlain_cons (by decide) (by decide) (by decide), rfl⟩
    . exact ⟨isPlain_cons (by decide) (by decide) (by decide), rfl⟩
  . obtain ⟨text, n, k, hwrites, hliteral, hread⟩ :=
      Decimal.writes_ofLiteral hnan (Bool.not_eq_true _ ▸ hinf)
    obtain ⟨c, rest, rfl, hc⟩ := hwrites.head
    have hnumber : number? (Decimal.ofLiteral x) = some (.float x) := by
      have hmarked : '.' ∈ Decimal.ofLiteral x ∨ 'e' ∈ Decimal.ofLiteral x := by
        rw [hliteral]
        split
        . exact hwrites.marked.imp (List.mem_cons_of_mem _) (List.mem_cons_of_mem _)
        . exact hwrites.marked
      unfold number?
      rw [hread, hliteral, hwrites.readInt64?, ← hliteral]
      simp [hmarked]
    rw [Atom.reread_float, if_neg hinf]
    rw [hliteral] at hnumber ⊢
    exact plainAtom_signed hc hwrites.chars _ hnumber

end Lexer

theorem Atom.Readable.token_chars {a : Atom} (h : a.Readable) {left : List Char} (hleft : Lexer.Stops left)
    : ∃ c rest, a.chars = c :: rest ∧ c ≠ '#' ∧ Lexer.Starts c ∧
        Lexer.token c (rest ++ left) = .ok (.atom a.reread, left) := by
  have hplain : ∀ {text value}, Lexer.IsPlain text ∧ Lexer.plainAtom text = .ok (.atom value) →
      ∃ c rest, text = c :: rest ∧ c ≠ '#' ∧ Lexer.Starts c ∧
        Lexer.token c (rest ++ left) = .ok (.atom value, left) := by
    rintro text value ⟨hplain, hatom⟩
    obtain ⟨c, rest, rfl, -, hhash⟩ := hplain.head
    exact ⟨c, rest, rfl, hhash, hplain.token hleft hatom⟩
  cases a with
  | nil => exact hplain ⟨Lexer.isPlain_cons (by decide) (by decide) (by decide), rfl⟩
  | bool value =>
    cases value with
    | true => exact hplain ⟨Lexer.isPlain_cons (by decide) (by decide) (by decide), rfl⟩
    | false => exact hplain ⟨Lexer.isPlain_cons (by decide) (by decide) (by decide), rfl⟩
  | int n => exact hplain (Lexer.plainAtom_integer n)
  | float x => exact hplain (Lexer.plainAtom_ofLiteral h)
  | symbol name => exact hplain h
  | keyword name =>
    have hspan : (name.toList ++ left).span (!isDelimiter ·) = (name.toList, left) :=
      span_append (fun c hc => by rw [h.2 c hc]; rfl) fun c hc => by rw [hleft c hc]; rfl
    refine ⟨':', name.toList, rfl, by decide, ⟨by decide, by decide, by decide⟩, ?_⟩
    rw [Lexer.token, hspan]
    simp [h.1, Atom.reread]
  | string text =>
    refine ⟨'"', text.toList.flatMap Text.escapeInForm ++ ['"'], rfl, by decide, ⟨by decide, by decide, by decide⟩, ?_⟩
    have hbody := Lexer.stringBody_quoted text.toList left
    rw [Lexer.token, List.append_assoc, List.singleton_append, hbody]
    rfl

end Resumable
