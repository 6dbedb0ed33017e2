/-
Escaped text for labels and messages.

NUL, tab, carriage return, newline, both quotes and the backslash are written
with a backslash and a letter or themselves.  Any other character that is not
printable is written by its code point in lower-case hexadecimal digits.  A
character that extends a grapheme is written by its code point too, where it
stands alone or first and so has nothing to attach to; only the two halfwidth
sound marks can be read there and stay as they are.
-/
import Transduction.Text.CharacterTables

namespace Transduction.Text

/-- The short escapes: a backslash and one character. -/
def shortEscape? : Char → Option Char
  | '\x00' => some '0'
  | '\t' => some 't'
  | '\r' => some 'r'
  | '\n' => some 'n'
  | '\'' => some '\''
  | '"' => some '"'
  | '\\' => some '\\'
  | _ => none

/-- A code point in braces, in lower-case hexadecimal digits without padding. -/
def codePointEscape (c : Char) : List Char :=
  ['\\', 'u', '\x7b'] ++ Nat.toDigits 16 c.toNat ++ ['\x7d']

/-- A character behind another one: a grapheme extender has something to attach
to there and stays as it is. -/
def escapeInner (c : Char) : List Char :=
  match shortEscape? c with
  | some e => ['\\', e]
  | none => if isPrintable c then [c] else codePointEscape c

/-- The halfwidth voiced and semi-voiced sound marks: they extend a grapheme, but
have a width of their own. -/
def isHalfwidthSoundMark (c : Char) : Bool := c == '\uff9e' || c == '\uff9f'

/-- Whether a character cannot be read without another one in front of it. -/
def needsBase (c : Char) : Bool := extendsGrapheme c && !isHalfwidthSoundMark c

/-- A character that stands alone or begins a text. -/
def escapeChar (c : Char) : List Char :=
  match shortEscape? c with
  | some e => ['\\', e]
  | none =>
    if isPrintable c && !needsBase c then [c] else codePointEscape c

/-- A text: its first character as one that stands alone, the others as inner
characters. -/
def escapeText : List Char → List Char
  | [] => []
  | c :: cs => escapeChar c ++ cs.flatMap escapeInner

end Transduction.Text
