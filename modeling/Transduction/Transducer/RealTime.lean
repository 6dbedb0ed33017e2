/-
Transducers without silent moves, and the outputs of a word.

A real-time transducer reads exactly one symbol a move.  It is obtained from a
trimmed transducer by folding into each move the output of the silent moves in
front of it, and into a set of final outputs the output of the silent moves
behind the last symbol.  A state accepts when that set has a member.

A silent cycle that writes has no such form: it gives one input infinitely many
outputs.  `Transducer.toRealTime` refuses it and names the lowest state of the
trimmed transducer with a writing silent move on a silent cycle.  Where there
is none, a silent path that visits a state twice writes nothing in between, so
each pair of a state and an output is reached within fewer steps than there are
states.
-/
import Transduction.Transducer.Basic

namespace Transduction

/-- Why a transducer cannot be run on words. -/
inductive TransducerError where
  /-- A silent cycle through a writing move of the state gives some word
  infinitely many outputs. -/
  | unboundedOutput (state : Nat)
deriving DecidableEq, Repr

def TransducerError.message : TransducerError → String
  | unboundedOutput q => s!"Error: State {q} lies on an epsilon cycle which writes output!"

/-- A state of a real-time transducer: its moves as symbol, output and target,
and the outputs with which a run may end here. -/
structure RealTimeNode where
  initial : Bool
  moves : List (Char × Word × Nat)
  finalOutputs : List Word
deriving DecidableEq, Repr

/-- A transducer that reads exactly one symbol a move. -/
structure RealTime where
  nodes : Array RealTimeNode
deriving DecidableEq, Repr

namespace RealTime

def size (m : RealTime) : Nat := m.nodes.size

def moves (m : RealTime) (q : Nat) : List (Char × Word × Nat) := (m.nodes[q]?).elim [] (·.moves)

def finalOutputs (m : RealTime) (q : Nat) : List Word := (m.nodes[q]?).elim [] (·.finalOutputs)

def isInitial (m : RealTime) (q : Nat) : Bool := (m.nodes[q]?).elim false (·.initial)

def initialStates (m : RealTime) : List Nat := (List.range m.size).filter m.isInitial

/-- Pairs of a state and what has been written on the way to it. -/
abbrev Configurations := List (Nat × Word)

/-- The configurations after one more symbol. -/
def advance (m : RealTime) (current : Configurations) (c : Char) : Configurations :=
  ascending (current.flatMap fun (q, written) =>
    (m.moves q).filterMap fun (d, w, t) => if d = c then some (t, written ++ w) else none)

/-- All outputs for a word in ascending order; none outside the domain. -/
def process (m : RealTime) (w : Word) : List Word :=
  let last := w.foldl m.advance (m.initialStates.map fun q => (q, []))
  ascending (last.flatMap fun (q, written) => (m.finalOutputs q).map fun v => written ++ v)

end RealTime

namespace Transducer

/-- The silent moves of a state as pairs of a target and an output. -/
def silentMoves (m : Transducer) (q : Nat) : List (Nat × Word) :=
  (m.moves q).filterMap fun ((l, w), t) => if l = none then some (t, w) else none

/-- The states with a writing silent move whose target leads back silently. -/
def unboundedStates (m : Transducer) : List Nat :=
  let closures := m.silentClosures (fun l => l.1.isNone)
  (List.range m.size).filter fun q =>
    (m.silentMoves q).any fun (t, w) => !w.isEmpty && ((closures[t]?).getD .empty).contains q

/-- The pairs of a state and an output that the silent paths from a state
realize, each once. -/
def silentOutputs (m : Transducer) (q : Nat) : List (Nat × Word) :=
  let extend (reached : Nat × Word) : List (Nat × Word) :=
    (m.silentMoves reached.1).map fun (t, w) => (t, reached.2 ++ w)
  -- a pair is its own key: one state may be reached with several outputs
  (explore id extend id m.size [(q, [])]).map (·.1)

/-- The real-time node of a state. -/
def realTimeNode (m : Transducer) (q : Nat) : RealTimeNode :=
  let reached := m.silentOutputs q
  { initial := m.isInitial q
    moves := ascending (reached.flatMap fun (p, v) =>
      (m.moves p).filterMap fun ((l, w), t) => l.map fun c => (c, v ++ w, t))
    finalOutputs := ascending (reached.filterMap fun (p, v) =>
      if m.isAccepting p then some v else none) }

/-- The transducer without silent moves, unless a silent cycle writes. -/
def toRealTime (m : Transducer) : Except TransducerError RealTime :=
  let m := m.trim
  match m.unboundedStates with
  | q :: _ => .error (.unboundedOutput q)
  | [] => .ok { nodes := Array.ofFn fun q : Fin m.size => m.realTimeNode q.val }

/-- All outputs for a word in ascending order, unless some word has infinitely
many. -/
def process (m : Transducer) (w : Word) : Except TransducerError (List Word) :=
  m.toRealTime.map fun r => r.process w

end Transducer

end Transduction
