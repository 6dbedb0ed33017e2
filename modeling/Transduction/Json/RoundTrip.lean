/-
Strings are read back from what is written.

`quoteChar` writes a character as itself, by a short escape or by a code unit,
and each of these is one piece for the reader:

* `rawString_flatMap_quoteChar` — the pieces of a written string are those of
  its characters, in order;
* `decode_map_pieceOf` — the pieces stand for these characters again;
* `string_quote` — so a string is read back whole, and what stands behind its
  closing quote is left.

Code units are only written for control characters.  None of them is half of a
surrogate pair, so no two pieces of a written string are ever taken together.
-/
import Transduction.Json.Text

namespace Transduction.Json

/-- The piece by which a character is written in a quoted string. -/
def pieceOf (c : Char) : Piece :=
  if (quoteChar c).take 2 = ['\\', 'u'] then .unit c.toNat else .char c

theorem hexUnit?_unitEscape : ∀ n < 32,
    hexUnit? '0' '0' (Nat.digitChar (n / 16)) (Nat.digitChar (n % 16)) = some n := by decide

theorem rawString_quoteChar (c : Char) (text : List Char) :
    rawString (quoteChar c ++ text) =
      (rawString text).map fun (pieces, rest) => (pieceOf c :: pieces, rest) := by
  unfold pieceOf quoteChar
  split
  all_goals try rfl
  rename_i hquote hslash _ _ _ _ _
  by_cases hc : c < ' '
  · have : c.toNat < 32 := hc
    simp [hc, unitEscape, rawString, hexUnit?_unitEscape c.toNat this]
  · simp only [hc, if_false, List.singleton_append, List.take, List.cons.injEq, reduceCtorEq,
      and_false]
    rw [rawString.eq_4]
    · simp only [hc, false_or]
      exact if_neg hslash
    all_goals simp_all

theorem rawString_flatMap_quoteChar (w rest : List Char) :
    rawString (w.flatMap quoteChar ++ '"' :: rest) = .ok (w.map pieceOf, rest) := by
  induction w with
  | nil => simp [rawString]
  | cons c w ih =>
    rw [List.flatMap_cons, List.append_assoc, rawString_quoteChar, ih]
    rfl

theorem pieceOf_eq (c : Char) : pieceOf c = .char c ∨ pieceOf c = .unit c.toNat ∧ c < ' ' := by
  unfold pieceOf quoteChar
  split
  all_goals try exact Or.inl rfl
  by_cases hc : c < ' '
  · exact Or.inr ⟨by simp [hc, unitEscape], hc⟩
  · exact Or.inl (by simp [hc])

theorem decode_unit {n : Nat} (hn : n < 32) (pieces : List Piece) :
    decode (.unit n :: pieces) = (decode pieces).map (Char.ofNat n :: ·) := by
  have high : isHighSurrogate n = false := by simp [isHighSurrogate]; omega
  have low : isLowSurrogate n = false := by simp [isLowSurrogate]; omega
  match pieces with
  | [] => simp [decode, high, low]
  | .char c :: pieces => simp [decode, high, low]
  | .unit m :: pieces => rw [decode]; simp [high, low]

theorem decode_map_pieceOf (w : List Char) : decode (w.map pieceOf) = .ok w := by
  induction w with
  | nil => rfl
  | cons c w ih =>
    rcases pieceOf_eq c with h | ⟨h, hc⟩
    · rw [List.map_cons, h, decode, ih]
      rfl
    · rw [List.map_cons, h, decode_unit (n := c.toNat) hc, ih, Char.ofNat_toNat]
      rfl

/-- A string is read back from what is written, and the text behind it is left. -/
theorem string_quote (w rest : List Char) :
    string (w.flatMap quoteChar ++ '"' :: rest) = .ok (w, rest) := by
  rw [string, rawString_flatMap_quoteChar]
  simp [bind, Except.bind, decode_map_pieceOf, pure, Except.pure]

end Transduction.Json
