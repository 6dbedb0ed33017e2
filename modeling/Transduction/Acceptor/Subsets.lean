/-
The subset construction.

A state of the deterministic automaton is the set of states in which the
acceptor can be after a word.  A set without a move on a symbol has no move
there, so the automaton is partial and has no empty set among its states.
-/
import Transduction.Acceptor.Basic
import Transduction.Dfa.Basic

namespace Transduction.Acceptor

/-- The successors of a set of states by ascending symbol, where `closures`
gives the silent closure of each state. -/
def subsetMoves (a : Acceptor) (closures : Array StateSet) (symbols : List Char) (s : StateSet) :
    List (Char × StateSet) :=
  symbols.filterMap fun c =>
    let t := a.advance reads s c
    if t.isEmpty then none else some (c, Machine.closeUnder closures t)

/-- The reachable sets of states, each with its successors. -/
def subsets (a : Acceptor) : List (StateSet × List (Char × StateSet)) :=
  let closures := a.silentClosures Option.isNone
  let start := Machine.closeUnder closures (StateSet.ofList a.initialStates)
  explore (·.bits) (a.subsetMoves closures a.alphabet) (fun ms => ms.map (·.2)) (2 ^ a.size) [start]

/-- The deterministic automaton of the reachable sets of states. -/
def determinize (a : Acceptor) : Dfa :=
  Dfa.ofExploration (·.bits) (fun s : StateSet => s.toList.any a.isAccepting) a.subsets

end Transduction.Acceptor
