import Mathlib.Data.String.Basic
import Resumable.Source.Span

/-!
This module contains ranges of bytes of a text, and the lines and columns of its offsets. A position
that is moved over characters one after the other stays at the line and column of its offset.
-/

namespace Resumable

structure IsRange (text : String) (start stop : Nat) (part : String) : Prop where
  le : start ≤ stop
  isValid_start : String.Pos.Raw.IsValid text ⟨start⟩
  isValid_stop : String.Pos.Raw.IsValid text ⟨stop⟩
  extract_eq : String.Pos.Raw.extract text ⟨start⟩ ⟨stop⟩ = part

def charsBefore (text : String) (offset : Nat) : List Char :=
  (String.Pos.Raw.extract text 0 ⟨offset⟩).toList

def lineBehind (before : List Char) : Nat :=
  1 + before.count '\n'

def columnBehind (before : List Char) : Nat :=
  1 + (before.reverse.takeWhile (· ≠ '\n')).length

theorem isRange_of_append {text : String} {before part after : List Char}
    (h : text.toList = before ++ part ++ after)
    : IsRange text (String.utf8Len before) (String.utf8Len (before ++ part))
        (String.ofList part) := by
  obtain rfl := String.toList_inj.1 (h.trans String.toList_ofList.symm)
  refine ⟨by simp, ?_, ?_, ?_⟩
  . exact String.Pos.Raw.isValid_iff_exists_append.2 ⟨String.ofList before,
      String.ofList (part ++ after), by rw [List.append_assoc, String.ofList_append],
      (String.rawEndPos_ofList before).symm⟩
  . exact String.Pos.Raw.isValid_iff_exists_append.2 ⟨String.ofList (before ++ part),
      String.ofList after, String.ofList_append, (String.rawEndPos_ofList (before ++ part)).symm⟩
  . rw [String.utf8Len_append]
    exact String.extract_of_valid before part after

theorem charsBefore_of_append {text : String} {before after : List Char}
    (h : text.toList = before ++ after)
    : charsBefore text (String.utf8Len before) = before := by
  have hrange := (isRange_of_append (show text.toList = [] ++ before ++ after from h)).extract_eq
  unfold charsBefore
  rw [show (0 : String.Pos.Raw) = ⟨String.utf8Len []⟩ from rfl]
  exact (congrArg String.toList hrange).trans String.toList_ofList

namespace Position

theorem advanceOver_append (p : Position) (text more : List Char)
    : p.advanceOver (text ++ more) = (p.advanceOver text).advanceOver more :=
  List.foldl_append

def behind (before : List Char) : Position :=
  { offset := String.utf8Len before, line := lineBehind before, col := columnBehind before }

theorem behind_append_singleton (before : List Char) (c : Char)
    : behind (before ++ [c]) = (behind before).advance c := by
  by_cases hc : c = '\n'
  . subst hc
    simp [behind, advance, lineBehind, columnBehind, Nat.add_assoc]
  . simp [behind, advance, lineBehind, columnBehind, hc, Nat.add_comm]

theorem behind_advanceOver (before text : List Char)
    : (behind before).advanceOver text = behind (before ++ text) := by
  induction text generalizing before with
  | nil => rw [List.append_nil, advanceOver, List.foldl_nil]
  | cons c text ih =>
    rw [← List.singleton_append, ← List.append_assoc, ← ih, behind_append_singleton]
    rfl

end Position

end Resumable
