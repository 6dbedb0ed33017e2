/-
Running a machine on a word, all choices at once.

A label may be silent, and it may read a symbol.  `silent` and `reads` say so,
so the same simulation serves single symbols and ranges.  The states that the
machine may be in form a set, which a symbol advances in two steps: moves that
read the symbol, then silent moves.
-/
import Transduction.Machine.Basic

namespace Transduction

/-- A text, as the list of its characters. -/
abbrev Word := List Char

namespace Machine

variable {L : Type}

/-- The states reachable from a state by silent moves, the state included. -/
def silentClosure (silent : L → Bool) (m : Machine L) (q : Nat) : StateSet :=
  reachable m.size
    (fun p => (m.moves p).filterMap fun (l, t) => if silent l then some t else none) [q]

/-- The silent closure of every state. -/
def silentClosures (silent : L → Bool) (m : Machine L) : Array StateSet :=
  Array.ofFn fun q : Fin m.size => m.silentClosure silent q.val

/-- The union of the closures of the members of a set. -/
def closeUnder (closures : Array StateSet) (s : StateSet) : StateSet :=
  s.toList.foldl (fun t q => t.union ((closures[q]?).getD .empty)) .empty

/-- The targets of the moves that read a symbol from a member of the set. -/
def advance (reads : L → Char → Bool) (m : Machine L) (s : StateSet) (c : Char) : StateSet :=
  StateSet.ofList (s.toList.flatMap fun q =>
    (m.moves q).filterMap fun (l, t) => if reads l c then some t else none)

/-- The states in which the machine can be before it reads a symbol. -/
def startSet (silent : L → Bool) (m : Machine L) : StateSet :=
  closeUnder (m.silentClosures silent) (StateSet.ofList m.initialStates)

/-- Whether some run from an initial to an accepting state reads the word. -/
def recognizes (silent : L → Bool) (reads : L → Char → Bool) (m : Machine L) (w : Word) : Bool :=
  let closures := m.silentClosures silent
  let current := w.foldl (fun s c => closeUnder closures (m.advance reads s c))
    (closeUnder closures (StateSet.ofList m.initialStates))
  current.toList.any m.isAccepting

end Machine

end Transduction
