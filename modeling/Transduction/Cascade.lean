/-
Cascades: rules applied to a text one after the other.

Each stage of a cascade rewrites the text that the stage before it has left,
and all stages share one alphabet.  A cascade compiles into the composition of
its rewriters, and further into a bimachine.  Without stages it is the identity
over the alphabet.

Compilation goes through a few events that an observer may want to see; they
are listed in order by `Log`.
-/
import Transduction.Rewriter

namespace Transduction

/-- A named rule with the policy by which it is applied. -/
structure Stage where
  name : String
  rule : Transducer
  policy : Policy := .leftmostLongest

/-- Stages over one alphabet. -/
structure Cascade where
  alphabet : List Char
  stages : List Stage

/-- A step in the compilation of a cascade. -/
inductive BuildEvent where
  | started (stage : String)
  | finished (stage : String) (states : Nat)
  | composed (states : Nat)
  | built (leftStates rightStates : Nat)
deriving DecidableEq, Repr

def BuildEvent.message : BuildEvent → String
  | started name => "Constructing the \"" ++ name ++ "\" transducer"
  | finished name n => "The \"" ++ name ++ s!"\" transducer has {n} states"
  | composed n => s!"The composed transducer has {n} states"
  | built l r => s!"Bimachine built with {l} left and {r} right states"

namespace Cascade

/-- The rewriter of a stage. -/
def rewriter (alphabet : List Char) (stage : Stage) : Transducer :=
  stage.rule.rewriter alphabet stage.policy

/-- The composition of rewriters over an alphabet; the identity if there is none. -/
def composition (alphabet : List Char) : List Transducer → Transducer
  | [] => (Acceptor.ofSymbols alphabet).star.identity
  | first :: others => first.composeAll others

/-- The transducer of all stages in order. -/
def toTransducer (c : Cascade) : Transducer :=
  composition c.alphabet (c.stages.map (rewriter c.alphabet))

/-- The bimachine of all stages in order, unless a silent cycle writes. -/
def toBimachine (c : Cascade) : Except TransducerError Bimachine :=
  c.toTransducer.toBimachine c.alphabet

end Cascade

end Transduction
