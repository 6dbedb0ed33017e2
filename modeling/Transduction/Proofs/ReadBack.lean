/-
Values are read back from what is written.

A reader is given a text with blanks in front of it and more text behind it, and is to stop where
its value ends.  Behind a number this takes a character that cannot go on with the number; all
other values have an end mark of their own:

* `Json.Reads` — a reader takes a text for a value, whatever stands behind it;
* `Json.reads_natural`, `Json.reads_text` — numbers and strings;
* `Json.reads_list`, `Json.reads_dictionary` — arrays and objects, item by item;
* `Json.Fills`, `Json.reads_record` — records, field by field;
* `Json.read_eq` — a whole text.

The number of items is bounded by the length of the text that they are written in, so a reader
whose bound is the length of the whole text never runs out.
-/
import Transduction.Bimachine.Saved
import Transduction.Json.RoundTrip
import Mathlib.Data.List.Forall2

namespace Transduction.Json

open Saved (decimal newline commas enclosed array object)

variable {α β : Type} {n limit bound depth : Nat} {c : Char} {a b : α}
  {w t gap rest : List Char}

/-! ### Steps of readers -/

/-- The text is made of blanks. -/
def Blank (gap : List Char) : Prop := ∀ c ∈ gap, isBlank c = true

theorem blank_nil : Blank [] := by simp [Blank]

theorem blank_newline (depth : Nat) : Blank (newline depth) := by
  intro c hc
  rcases List.mem_cons.mp hc with rfl | hc
  · rfl
  · rw [List.eq_of_mem_replicate hc]
    rfl

section steps

variable {x : Reader α} {f : α → Reader β} {s s' : List Char}

theorem run_bind (h : x s = .ok (a, s')) : (x >>= f) s = f a s' := by
  show Except.bind (x s) _ = _
  rw [h]
  rfl

theorem run_get : (get : Reader (List Char)) s = .ok (s, s) := rfl

theorem run_lift {e : Except Failure α} (h : e = .ok a) : (liftM e : Reader α) s = .ok (a, s) := by
  rw [h]
  rfl

theorem run_peek (hgap : Blank gap) (hc : isBlank c = false) :
    peek (gap ++ c :: t) = .ok (some c, c :: t) := by
  have hdrop : (gap ++ c :: t).dropWhile isBlank = c :: t := by
    rw [List.dropWhile_append_of_pos hgap,
      List.dropWhile_cons_of_neg (by rw [hc]; exact Bool.false_ne_true)]
  show Except.ok (((gap ++ c :: t).dropWhile isBlank).head?, (gap ++ c :: t).dropWhile isBlank) = _
  rw [hdrop]
  rfl

theorem run_peek_cons (hc : isBlank c = false) : peek (c :: t) = .ok (some c, c :: t) :=
  run_peek blank_nil hc

theorem run_discard : discard (c :: t) = .ok ((), t) := rfl

theorem run_expect (hgap : Blank gap) (hc : isBlank c = false) :
    expect c (gap ++ c :: t) = .ok ((), t) := by
  rw [expect, run_bind (run_peek hgap hc), if_pos rfl]
  rfl

end steps

/-! ### Values -/

/-- The character cannot go on with a number. -/
def EndsNumber (c : Char) : Prop := c.isDigit = false ∧ c ≠ '.' ∧ c ≠ 'e' ∧ c ≠ 'E'

/-- Nothing at the front of the text goes on with a number. -/
def Ends (rest : List Char) : Prop := ∀ c ∈ rest.head?, EndsNumber c

/-- A value may begin with the character: it is no blank and ends no list. -/
def Opens (c : Char) : Prop := isBlank c = false ∧ c ≠ ']' ∧ c ≠ '\x7d'

/-- The reader takes the text for the value: it drops blanks in front of it and stops behind it. -/
structure Reads (reader : Reader α) (text : List Char) (a : α) : Prop where
  opens : ∃ c t, text = c :: t ∧ Opens c
  run : ∀ gap rest, Blank gap → Ends rest → reader (gap ++ (text ++ rest)) = .ok (a, rest)

theorem Reads.run_front {reader : Reader α} (h : Reads reader t a) (hrest : Ends rest) :
    reader (t ++ rest) = .ok (a, rest) := h.run [] rest blank_nil hrest

theorem ends_nil : Ends [] := by simp [Ends]

theorem ends_cons (hc : EndsNumber c) : Ends (c :: rest) := by
  intro e he
  obtain rfl := Option.some.inj he
  exact hc

theorem endsNumber_of_isBlank (hc : isBlank c = true) : EndsNumber c := by
  simp only [isBlank, Bool.or_eq_true, beq_iff_eq] at hc
  rcases hc with ((rfl | rfl) | rfl) | rfl <;> exact ⟨by decide, by decide, by decide, by decide⟩

theorem ends_gap (hgap : Blank gap) (hrest : Ends rest) : Ends (gap ++ rest) := by
  cases gap with
  | nil => exact hrest
  | cons c gap => exact ends_cons (endsNumber_of_isBlank (hgap c List.mem_cons_self))

/-- What is done with a value changes nothing about the text. -/
theorem Reads.map {reader : Reader α} (h : Reads reader t a) (f : α → β) :
    Reads (do return f (← reader)) t (f a) where
  opens := h.opens
  run gap rest hgap hrest := by
    rw [run_bind (h.run gap rest hgap hrest)]
    rfl

/-! ### Numbers -/

theorem isDigit_of_mem_decimal (hc : c ∈ decimal n) : c.isDigit = true :=
  Nat.isDigit_of_mem_toDigits (by decide) (by decide) hc

theorem exists_decimal_eq_cons (n : Nat) : ∃ c t, decimal n = c :: t ∧ c.isDigit = true := by
  obtain ⟨c, t, h⟩ := List.exists_cons_of_ne_nil (Nat.toDigits_ne_nil (b := 10) (n := n))
  exact ⟨c, t, h, isDigit_of_mem_decimal (h ▸ List.mem_cons_self)⟩

/-- No zero stands in front of a number. -/
theorem head?_decimal_ne_zero (hn : n ≠ 0) : (decimal n).head? ≠ some '0' := by
  induction n using Nat.strongRecOn with
  | ind n ih =>
    rw [decimal, Nat.toDigits_eq_if (by decide)]
    split
    · intro h
      exact hn (Nat.digitChar_eq_zero.mp (Option.some.inj h))
    · rename_i hlarge
      have hne : n / 10 ≠ 0 := by omega
      obtain ⟨c, t, hdigits, _⟩ := exists_decimal_eq_cons (n / 10)
      have hhead := ih (n / 10) (by omega) hne
      rw [decimal] at hdigits hhead
      rw [hdigits] at hhead ⊢
      exact hhead

theorem foldl_decimal (n : Nat) : (decimal n).foldl withDigit 0 = n := by
  have h := Nat.ofDigitChars_toDigits (b := 10) (n := n) (by decide) (by decide)
  rw [Nat.ofDigitChars_eq_foldl] at h
  rw [decimal]
  refine Eq.trans ?_ h
  congr
  funext n c
  rw [withDigit, Nat.mul_comm]

theorem digits_decimal (hrest : Ends rest) :
    digits (decimal n ++ rest) = .ok (decimal n, rest) := by
  have hstop : rest.takeWhile Char.isDigit = [] ∧ rest.dropWhile Char.isDigit = rest := by
    cases rest with
    | nil => exact ⟨rfl, rfl⟩
    | cons c rest =>
      have hc := (hrest c rfl).1
      exact ⟨List.takeWhile_cons_of_neg (by simp [hc]), List.dropWhile_cons_of_neg (by simp [hc])⟩
  have htake : (decimal n ++ rest).takeWhile Char.isDigit = decimal n := by
    rw [List.takeWhile_append_of_pos fun _ => isDigit_of_mem_decimal, hstop.1, List.append_nil]
  have hdrop : (decimal n ++ rest).dropWhile Char.isDigit = rest := by
    rw [List.dropWhile_append_of_pos fun _ => isDigit_of_mem_decimal, hstop.2]
  obtain ⟨c, t, hdecimal, _⟩ := exists_decimal_eq_cons n
  rw [digits, htake, hdrop, hdecimal]

theorem fraction_of_ends (hrest : Ends rest) : fraction rest = .ok ([], rest) := by
  unfold fraction
  split
  · exact absurd rfl (hrest '.' rfl).2.1
  · rfl

theorem exponent_of_ends (hrest : Ends rest) : exponent rest = .ok (none, rest) := by
  cases rest with
  | nil => rfl
  | cons c rest =>
    have hc := hrest c rfl
    simp only [exponent, hc.2.2.1, hc.2.2.2, or_self, if_false]

/-- A number of 64 bits is read with all of its digits. -/
theorem number_decimal (hn : n < 2 ^ 64) (hrest : Ends rest) :
    number (decimal n ++ rest) = .ok (⟨false, n, 0, true⟩, rest) := by
  -- Digits do not begin with a needless zero, fit into 64 bits and have no sign.
  have hzero : ¬((decimal n).head? = some '0' ∧ decimal n ≠ ['0']) := by
    rintro ⟨hhead, hne⟩
    by_cases h : n = 0
    · subst h
      exact hne (by decide)
    · exact head?_decimal_ne_zero h hhead
  have hsignificand : significand 0 (decimal n) = (n, 0) := by
    have hlt : (decimal n).foldl withDigit 0 < 2 ^ 64 := by rwa [foldl_decimal]
    rw [significand_of_lt hlt, foldl_decimal]
  obtain ⟨c, t, hdecimal, hc⟩ := exists_decimal_eq_cons n
  have hminus : ∀ text, decimal n ++ rest = '-' :: text → False := by
    intro text h
    rw [hdecimal, List.cons_append] at h
    cases h
    cases hc
  rw [number]
  simp only [digits_decimal hrest, bind, Except.bind, if_neg hzero, pure, Except.pure,
    fraction_of_ends hrest, exponent_of_ends hrest, hsignificand]
  · rfl
  · exact hminus

/-- A number of 64 bits is finite in binary64. -/
theorem not_overflows (hn : n < 2 ^ 64) : (Number.mk false n 0 true).overflows = false := by
  have hplace : Binary64.lastPlace n ≤ n + 1 := by
    by_cases hzero : n = 0
    · subst hzero
      decide
    · have hle : 2 ^ (n.log2 - 52) ≤ 2 ^ n.log2 :=
        Nat.pow_le_pow_right (by decide) (Nat.sub_le _ _)
      exact Nat.le_succ_of_le (Nat.le_trans hle (Nat.log2_self_le hzero))
  have hnear := (Binary64.round_near n).1
  have hround : Binary64.round n < 2 ^ 65 := by omega
  have hlimit : 2 ^ 65 ≤ Binary64.limit := by decide +kernel
  have hone : Binary64.round (10 ^ 0) = 1 := by decide
  have hbelow : Binary64.round n * Binary64.round (10 ^ 0) < Binary64.limit := by
    rw [hone, Nat.mul_one]
    exact Nat.lt_of_lt_of_le hround hlimit
  rw [Number.overflows]
  simp only [Nat.not_le.mpr hbelow, gt_iff_lt, Bool.and_eq_false_iff]
  exact Or.inr (by decide)

theorem isBlank_of_isDigit (hc : c.isDigit = true) : isBlank c = false := by
  cases hblank : isBlank c with
  | false => rfl
  | true =>
    simp only [isBlank, Bool.or_eq_true, beq_iff_eq] at hblank
    rcases hblank with ((rfl | rfl) | rfl) | rfl <;> cases hc

theorem opens_of_isDigit (hc : c.isDigit = true) : Opens c := by
  refine ⟨isBlank_of_isDigit hc, ?_, ?_⟩ <;> (rintro rfl; cases hc)

/-- A number below a limit of 64 bits is read back. -/
theorem reads_natural (hlimit : limit ≤ 2 ^ 64) (hn : n < limit) :
    Reads (natural limit) (decimal n) n := by
  obtain ⟨c, t, hdecimal, hc⟩ := exists_decimal_eq_cons n
  refine ⟨⟨c, t, hdecimal, opens_of_isDigit hc⟩, fun gap rest hgap hrest => ?_⟩
  have hword : n < 2 ^ 64 := Nat.lt_of_lt_of_le hn hlimit
  have hpeek : peek (gap ++ (decimal n ++ rest)) = .ok (some c, decimal n ++ rest) := by
    rw [hdecimal, List.cons_append]
    exact run_peek hgap (isBlank_of_isDigit hc)
  have hnumeral : numeral (decimal n ++ rest) = .ok (⟨false, n, 0, true⟩, rest) := by
    rw [numeral, run_bind run_get, run_bind (run_lift (number_decimal hword hrest))]
    simp only [not_overflows hword, if_false, Bool.false_eq_true]
    rfl
  rw [natural, run_bind hpeek]
  simp only [hc, or_true, if_true]
  rw [run_bind hnumeral]
  simp [Nat.not_le.mpr hn]
  rfl

/-! ### Strings -/

theorem run_quoted : quoted (quote w ++ rest) = .ok (w, rest) := by
  have hquote : quote w ++ rest = '"' :: (w.flatMap quoteChar ++ '"' :: rest) := by
    simp [quote]
  rw [hquote, quoted, run_bind run_discard, run_bind run_get,
    run_bind (run_lift (string_quote w rest))]
  rfl

theorem opens_quote : Opens '"' := ⟨by decide, by decide, by decide⟩

theorem peek_quote (hgap : Blank gap) :
    peek (gap ++ (quote w ++ rest)) = .ok (some '"', quote w ++ rest) :=
  run_peek hgap (by decide)

/-- A string is read back. -/
theorem reads_text (w : List Char) : Reads text (quote w) w := by
  refine ⟨⟨'"', _, rfl, opens_quote⟩, fun gap rest hgap _ => ?_⟩
  rw [text, run_bind (peek_quote hgap)]
  exact run_quoted

theorem reads_symbol (c : Char) : Reads symbol (quote [c]) c := by
  refine ⟨⟨'"', _, rfl, opens_quote⟩, fun gap rest hgap hrest => ?_⟩
  rw [symbol, run_bind ((reads_text [c]).run gap rest hgap hrest)]
  rfl

/-! ### Lists of texts -/

section enclosed

variable {first last : Char} {ts : List (List Char)}

theorem commas_cons (depth : Nat) (t : List Char) (ts : List (List Char)) :
    commas depth (t :: ts) =
      newline depth ++ (t ++ ts.flatMap fun u => ',' :: (newline depth ++ u)) := by
  induction ts generalizing t with
  | nil => simp [commas]
  | cons u ts ih => rw [commas, ih, List.flatMap_cons] <;> simp

/-- Texts between marks begin on a new line, and the end mark has a line of its own. -/
theorem enclosed_cons (first last : Char) (depth : Nat) (t : List Char) (ts : List (List Char)) :
    enclosed first last depth (t :: ts) = first :: (newline (depth + 1) ++
      (t ++ (ts.flatMap (fun u => ',' :: (newline (depth + 1) ++ u)) ++
        (newline depth ++ [last])))) := by
  rw [enclosed, commas_cons]
  · simp
  · exact List.cons_ne_nil t ts

theorem peek_enclosed (hgap : Blank gap) (hfirst : isBlank first = false) :
    peek (gap ++ (enclosed first last depth ts ++ rest)) =
      .ok (some first, enclosed first last depth ts ++ rest) := by
  cases ts with
  | nil => exact run_peek hgap hfirst
  | cons t ts =>
    rw [enclosed_cons]
    exact run_peek hgap hfirst

theorem opens_enclosed (hfirst : Opens first) :
    ∃ c t, enclosed first last depth ts = c :: t ∧ Opens c := by
  cases ts with
  | nil => exact ⟨first, _, rfl, hfirst⟩
  | cons t ts => exact ⟨first, _, enclosed_cons .., hfirst⟩

theorem length_newline_pos (depth : Nat) : 0 < (newline depth).length := Nat.zero_lt_succ _

theorem commas_cons_cons (depth : Nat) (t u : List Char) (ts : List (List Char)) :
    commas depth (t :: u :: ts) = newline depth ++ t ++ ',' :: commas depth (u :: ts) := rfl

/-- Each of the texts has a line break of its own. -/
theorem length_le_length_commas (depth : Nat) (ts : List (List Char)) :
    ts.length ≤ (commas depth ts).length := by
  induction ts with
  | nil => exact Nat.le_refl 0
  | cons t ts ih =>
    cases ts with
    | nil =>
      have hpos := length_newline_pos depth
      rw [commas, List.length_append, List.length_singleton]
      omega
    | cons u ts =>
      simp only [commas_cons_cons, List.length_append, List.length_cons] at ih ⊢
      omega

theorem length_le_of_mem_commas (h : t ∈ ts) : t.length ≤ (commas depth ts).length := by
  induction ts with
  | nil => cases h
  | cons u ts ih =>
    rcases List.mem_cons.mp h with rfl | h
    · rw [commas_cons, List.length_append, List.length_append]
      omega
    · obtain ⟨v, us, rfl⟩ := List.exists_cons_of_ne_nil (List.ne_nil_of_mem h)
      rw [commas_cons_cons, List.length_append, List.length_cons]
      have := ih h
      omega

theorem length_enclosed (first last : Char) (depth : Nat) (ts : List (List Char)) :
    (commas (depth + 1) ts).length < (enclosed first last depth ts).length := by
  cases ts with
  | nil => exact Nat.zero_lt_two
  | cons t ts =>
    rw [enclosed, List.length_append, List.length_append, List.length_cons]
    · omega
    · exact List.cons_ne_nil t ts

theorem length_lt_length_enclosed (first last : Char) (depth : Nat) (ts : List (List Char)) :
    ts.length < (enclosed first last depth ts).length :=
  Nat.lt_of_le_of_lt (length_le_length_commas _ ts) (length_enclosed first last depth ts)

theorem length_lt_of_mem_enclosed (h : t ∈ ts) : t.length < (enclosed first last depth ts).length :=
  Nat.lt_of_le_of_lt (length_le_of_mem_commas h) (length_enclosed first last depth ts)

end enclosed

/-! ### Items of arrays and objects -/

section items

variable {item : Reader α} {close : Char} {ts : List (List Char)} {xs : List α}

theorem Reads.run_peek {reader : Reader α} (h : Reads reader t a) (hgap : Blank gap)
    (rest : List Char) :
    ∃ c, peek (gap ++ (t ++ rest)) = .ok (some c, t ++ rest) ∧ c ≠ ']' ∧ c ≠ '\x7d' := by
  obtain ⟨c, t, rfl, hblank, hopens⟩ := h.opens
  exact ⟨c, Json.run_peek hgap hblank, hopens⟩

/-- The mark ends a list of items. -/
def Closes (close : Char) : Prop := close = ']' ∨ close = '\x7d'

theorem Closes.isBlank (h : Closes close) : isBlank close = false := by
  rcases h with rfl | rfl <;> rfl

theorem Closes.ends (h : Closes close) : Ends (close :: rest) := by
  apply ends_cons
  rcases h with rfl | rfl <;> exact ⟨by decide, by decide, by decide, by decide⟩

theorem Closes.ne_comma (h : Closes close) : ',' ≠ close := by
  rcases h with rfl | rfl <;> decide

theorem Closes.ne (h : Closes close) (hc : c ≠ ']' ∧ c ≠ '\x7d') : c ≠ close := by
  rcases h with rfl | rfl
  · exact hc.1
  · exact hc.2

theorem ends_comma : Ends (',' :: rest) :=
  ends_cons ⟨by decide, by decide, by decide, by decide⟩

/-- The texts behind the first one, each behind a comma, and the end mark. -/
def furtherText (depth : Nat) (close : Char) (ts : List (List Char)) (rest : List Char) :
    List Char :=
  ts.flatMap (fun t => ',' :: (newline (depth + 1) ++ t)) ++ (newline depth ++ close :: rest)

theorem furtherText_cons (t : List Char) (ts : List (List Char)) :
    furtherText depth close (t :: ts) rest =
      ',' :: (newline (depth + 1) ++ (t ++ furtherText depth close ts rest)) := by
  simp [furtherText]

theorem ends_furtherText (hclose : Closes close) (ts : List (List Char)) :
    Ends (furtherText depth close ts rest) := by
  cases ts with
  | nil =>
    rw [furtherText, List.flatMap_nil, List.nil_append]
    exact ends_gap (blank_newline depth) hclose.ends
  | cons t ts => exact furtherText_cons t ts ▸ ends_comma

theorem run_further (hclose : Closes close) (h : List.Forall₂ (Reads item) ts xs)
    (hbound : ts.length < bound) :
    further item close bound (furtherText depth close ts rest) = .ok (xs, rest) := by
  -- The bound stays ahead of the items that are left.
  obtain ⟨bound, rfl⟩ : ∃ k, bound = k + 1 := ⟨bound - 1, by omega⟩
  induction h generalizing bound with
  | nil =>
    rw [further, furtherText, List.flatMap_nil, List.nil_append,
      run_bind (run_peek (blank_newline depth) hclose.isBlank)]
    simp only [if_pos]
    rfl
  | @cons t x ts xs hx _ ih =>
    rw [List.length_cons] at hbound
    obtain ⟨bound, rfl⟩ : ∃ k, bound = k + 1 := ⟨bound - 1, by omega⟩
    obtain ⟨c, hpeek, hc⟩ := hx.run_peek (blank_newline (depth + 1))
      (furtherText depth close ts rest)
    have hopen : some c ≠ some close := fun h => hclose.ne hc (Option.some.inj h)
    rw [furtherText_cons, further, run_bind (run_peek_cons (c := ',') rfl)]
    simp only [if_neg hclose.ne_comma, if_true]
    rw [run_bind run_discard, run_bind hpeek, if_neg hopen,
      run_bind (hx.run_front (ends_furtherText hclose _)), run_bind (ih bound (by omega))]
    rfl

/-- Items are read from their texts between two marks. -/
theorem run_items {first : Char} (hclose : Closes close) (h : List.Forall₂ (Reads item) ts xs)
    (hbound : (enclosed first close depth ts).length < bound) :
    (do discard; items item close bound : Reader (List α))
      (enclosed first close depth ts ++ rest) = .ok (xs, rest) := by
  -- The first item stands behind the bracket, each further one behind a comma.
  cases h with
  | nil =>
    rw [enclosed, List.cons_append, run_bind run_discard]
    refine (run_bind (run_peek_cons hclose.isBlank)).trans ?_
    simp only [if_pos]
    rfl
  | @cons t x ts xs hx hfurther =>
    have hlength := length_lt_length_enclosed first close depth (t :: ts)
    rw [List.length_cons] at hlength
    have hxs : further item close bound (furtherText depth close ts rest) = _ :=
      run_further hclose hfurther (by omega)
    obtain ⟨c, hpeek, hc⟩ := hx.run_peek (blank_newline (depth + 1))
      (furtherText depth close ts rest)
    have htext : enclosed first close depth (t :: ts) ++ rest =
        first :: (newline (depth + 1) ++ (t ++ furtherText depth close ts rest)) := by
      simp [enclosed_cons, furtherText]
    rw [htext]
    refine (run_bind run_discard).trans ?_
    rw [items, run_bind hpeek]
    simp only [if_neg (hclose.ne hc)]
    rw [run_bind (hx.run_front (ends_furtherText hclose _)), run_bind hxs]
    rfl

/-- An array of items is read back.  Each of them is shorter than the array. -/
theorem reads_list (h : List.Forall₂ (fun t x => t.length < bound → Reads item t x) ts xs)
    (hbound : (array depth ts).length < bound) :
    Reads (list item bound) (array depth ts) xs := by
  have hshort : ∀ t ∈ ts, t.length < bound := fun t ht =>
    Nat.lt_trans (length_lt_of_mem_enclosed ht) hbound
  have hitems : List.Forall₂ (Reads item) ts xs :=
    ((List.forall₂_and_left _ _).mpr ⟨hshort, h⟩).imp fun _ _ h => h.2 h.1
  refine ⟨opens_enclosed ⟨by decide, by decide, by decide⟩, fun gap rest hgap _ => ?_⟩
  rw [list, array, run_bind (peek_enclosed hgap (by decide))]
  exact run_items (Or.inl rfl) hitems hbound

end items

/-! ### Entries of objects -/

section entries

variable {κ : Type} {name : List Char → Reader κ} {value : Reader α} {k : κ}
  {named : List (List Char × List Char)} {entries : List (κ × α)}

/-- The text of a named value. -/
def namedText (name t : List Char) : List Char := quote name ++ [':', ' '] ++ t

theorem run_entryName (hgap : Blank gap) (h : name w = pure k) :
    entryName name (gap ++ (namedText w t ++ rest)) = .ok (k, ' ' :: (t ++ rest)) := by
  rw [namedText, List.append_assoc, List.append_assoc, entryName, run_bind (peek_quote hgap)]
  simp only [ne_eq, not_true, if_false]
  rw [run_bind run_quoted, h, pure_bind]
  exact run_bind (run_expect (c := ':') blank_nil rfl)

theorem blank_space : Blank [' '] := by simp [Blank, isBlank]

theorem reads_entry (hname : name w = pure k) (hvalue : Reads value t a) :
    Reads (do let k ← entryName name; return (k, ← value)) (namedText w t) (k, a) := by
  refine ⟨⟨'"', _, rfl, opens_quote⟩, fun gap rest hgap hrest => ?_⟩
  rw [run_bind (run_entryName hgap hname)]
  refine (run_bind (hvalue.run [' '] rest blank_space hrest)).trans ?_
  rfl

/-- An object of entries is read back. -/
theorem reads_dictionary
    (h : List.Forall₂ (fun t entry => name t.1 = pure entry.1 ∧ Reads value t.2 entry.2)
      named entries)
    (hbound : (object depth named).length < bound) :
    Reads (dictionary name value bound) (object depth named) entries := by
  have hitems : List.Forall₂ (Reads (do let k ← entryName name; return (k, ← value)))
      (named.map fun entry => namedText entry.1 entry.2) entries :=
    List.forall₂_map_left_iff.mpr (h.imp fun _ _ h => reads_entry h.1 h.2)
  refine ⟨opens_enclosed ⟨by decide, by decide, by decide⟩, fun gap rest hgap _ => ?_⟩
  rw [dictionary, object, run_bind (peek_enclosed hgap (by decide))]
  exact run_items (Or.inr rfl) hitems hbound

end entries

/-! ### Records -/

section records

variable {all fields : List (Field α)} {d : Discipline} {field : Field α}
  {entries : List (String × List Char)} {e : α}

/-- The entries are the fields in order, none of which has a value yet, and with them the first
record becomes the second.  Their texts need to be read only if they are shorter than the limit. -/
inductive Fills (limit : Nat) :
    List (Field α) → α → List (String × List Char) → α → Prop where
  | done {a : α} : Fills limit [] a [] a
  | enter {field : Field α} {fields : List (Field α)} {t : List Char}
      {entries : List (String × List Char)} {a b e : α} : field.isSet a = false →
      (t.length < limit → Reads (field.enter a) t b) → Fills limit fields b entries e →
      Fills limit (field :: fields) a ((field.name, t) :: entries) e

/-- The text of an entry of a record. -/
def entryText (entry : String × List Char) : List Char := namedText entry.1.toList entry.2

theorem fields_eq (depth : Nat) (entries : List (String × List Char)) :
    Saved.fields depth entries = enclosed '\x7b' '\x7d' depth (entries.map entryText) := by
  rw [Saved.fields, object, List.map_map]
  rfl

/-- The text of a field is shorter than the record. -/
theorem length_lt_of_mem_entries {entry : String × List Char} (h : entry ∈ entries) :
    entry.2.length < (enclosed '\x7b' '\x7d' depth (entries.map entryText)).length := by
  have hle : entry.2.length ≤ (entryText entry).length := by
    rw [entryText, namedText, List.length_append]
    exact Nat.le_add_left _ _
  exact Nat.lt_of_le_of_lt hle (length_lt_of_mem_enclosed (List.mem_map_of_mem h))

/-- A field is found by its name. -/
theorem find?_name (hall : (all.map (·.name)).Nodup) (hfield : field ∈ all) :
    all.find? (·.name.toList = field.name.toList) = some field := by
  induction all with
  | nil => cases hfield
  | cons first all ih =>
    rw [List.map_cons, List.nodup_cons] at hall
    rcases List.mem_cons.mp hfield with rfl | hfield
    · exact List.find?_cons_of_pos (by simp)
    · have hne : first.name ≠ field.name := fun h =>
        hall.1 (h ▸ List.mem_map_of_mem hfield)
      rw [List.find?_cons_of_neg (by simpa [String.toList_inj] using hne)]
      exact ih hall.2 hfield

theorem fieldNamed_eq (hall : (all.map (·.name)).Nodup) (hfield : field ∈ all)
    (hset : field.isSet a = false) : fieldNamed all d a field.name.toList = pure (some field) := by
  unfold fieldNamed
  rw [find?_name hall hfield]
  cases d with
  | lenient => simp only [hset, Bool.false_eq_true, if_false]
  | strict => rfl

theorem peek_entryText (hgap : Blank gap) (entry : String × List Char) :
    peek (gap ++ (entryText entry ++ rest)) = .ok (some '"', entryText entry ++ rest) := by
  rw [entryText, namedText, List.append_assoc, List.append_assoc]
  exact peek_quote hgap

theorem run_enterField (hgap : Blank gap) (hall : (all.map (·.name)).Nodup) (hfield : field ∈ all)
    (hset : field.isSet a = false) (hread : Reads (field.enter a) t b) (hrest : Ends rest) :
    enterField all d bound a (gap ++ (entryText (field.name, t) ++ rest)) = .ok (b, rest) := by
  rw [entryText, enterField, run_bind (run_entryName hgap (fieldNamed_eq hall hfield hset))]
  refine (run_bind (hread.run [' '] rest blank_space hrest)).trans ?_
  simp only [hset, Bool.false_eq_true, if_false]
  rfl

theorem run_furtherFields (hall : (all.map (·.name)).Nodup) (h : Fills limit fields a entries e)
    (hfields : fields ⊆ all) (hentries : ∀ entry ∈ entries, entry.2.length < limit)
    (hbound : entries.length < bound) :
    furtherFields all d bound a (furtherText depth '\x7d' (entries.map entryText) rest) =
      .ok (e, '\x7d' :: rest) := by
  obtain ⟨bound, rfl⟩ : ∃ k, bound = k + 1 := ⟨bound - 1, by omega⟩
  induction h generalizing bound with
  | done => exact run_bind (run_peek (blank_newline depth) (c := '\x7d') rfl)
  | enter hset hread _ ih =>
    rw [List.length_cons] at hbound
    rw [List.cons_subset] at hfields
    rw [List.forall_mem_cons] at hentries
    obtain ⟨bound, rfl⟩ : ∃ k, bound = k + 1 := ⟨bound - 1, by omega⟩
    rw [List.map_cons, furtherText_cons, furtherFields, run_bind (run_peek_cons (c := ',') rfl)]
    refine (run_bind run_discard).trans ?_
    rw [run_bind (run_enterField (blank_newline _) hall hfields.1 hset (hread hentries.1)
      (ends_furtherText (Or.inr rfl) _))]
    exact ih hfields.2 hentries.2 bound (by omega)

/-- A record is read back from its fields. -/
theorem reads_record {empty : α} {finish : α → Reader β} {value : β}
    (h : Fills bound fields empty entries e) (hall : (fields.map (·.name)).Nodup)
    (hfinish : finish e = pure value)
    (hbound : (Saved.fields depth entries).length < bound) :
    Reads (record fields d empty finish bound) (Saved.fields depth entries) value := by
  rw [fields_eq] at hbound ⊢
  have hentries : ∀ entry ∈ entries, entry.2.length < bound := fun entry hentry =>
    Nat.lt_trans (length_lt_of_mem_entries hentry) hbound
  refine ⟨opens_enclosed ⟨by decide, by decide, by decide⟩, fun gap rest hgap _ => ?_⟩
  have hend : (do let b ← finish e; expect '\x7d'; return b) ('\x7d' :: rest) =
      .ok (value, rest) := by
    rw [hfinish, pure_bind]
    exact run_bind (run_expect (c := '\x7d') blank_nil rfl)
  rw [record, run_bind (peek_enclosed hgap (by decide))]
  -- the first field stands without a comma, so the empty record is read apart
  cases h with
  | done =>
    rw [List.map_nil, enclosed, List.cons_append]
    refine (run_bind run_discard).trans ?_
    refine (run_bind (run_peek_cons (c := '\x7d') rfl)).trans ?_
    exact hend
  | enter hset hread hfurther =>
    rename_i field fields t entries b
    rw [List.forall_mem_cons] at hentries
    have hlength := length_lt_length_enclosed '\x7b' '\x7d' depth
      (((field.name, t) :: entries).map entryText)
    rw [List.length_map, List.length_cons] at hlength
    have htext : enclosed '\x7b' '\x7d' depth (((field.name, t) :: entries).map entryText) ++ rest =
        '\x7b' :: (newline (depth + 1) ++ (entryText (field.name, t) ++
          furtherText depth '\x7d' (entries.map entryText) rest)) := by
      simp [enclosed_cons, furtherText]
    rw [htext]
    refine (run_bind run_discard).trans ?_
    rw [run_bind (peek_entryText (blank_newline _) _)]
    simp only [if_neg (show some '"' ≠ some '\x7d' by decide)]
    have hfirst : enterField (field :: fields) d bound empty ([] ++ (entryText (field.name, t) ++
        furtherText depth '\x7d' (entries.map entryText) rest)) = _ :=
      run_enterField blank_nil hall List.mem_cons_self hset (hread hentries.1)
        (ends_furtherText (Or.inr rfl) _)
    rw [List.nil_append] at hfirst
    rw [run_bind hfirst, run_bind (run_furtherFields hall hfurther (List.subset_cons_self _ _)
      hentries.2 (by omega))]
    exact hend

end records

/-! ### Whole texts -/

/-- A text of one value and blanks is read. -/
theorem read_eq {reader : Nat → Reader α} (hgap : Blank gap)
    (h : Reads (reader ((t ++ gap).length + 1)) t a) : read reader (t ++ gap) = .ok a := by
  have hends : Ends gap := List.append_nil gap ▸ ends_gap hgap ends_nil
  have hrest : gap.dropWhile isBlank = [] := by
    rw [← List.append_nil gap, List.dropWhile_append_of_pos hgap]
    rfl
  rw [read]
  show Except.bind (reader _ (t ++ gap)) _ = _
  rw [h.run_front hends]
  simp [Except.bind, hrest]
  rfl

end Transduction.Json
