/-
Transducers: machines that read one symbol or nothing and write a word a move.

A label pairs what a move reads with what it writes.  A transducer describes a
relation between words: the input and the output of each run from an initial to
an accepting state.

* `Transducer.declare`, `Transducer.ofWordPair` — transducers from their parts
  and from a pair of words;
* `Transducer.union`, `concat`, `plus`, `star` — the operations on relations;
* `Acceptor.identity`, `Acceptor.product`, `Transducer.domain` — the relations
  of languages, and the language a relation is defined on.
-/
import Transduction.Acceptor.Basic
import Transduction.Machine.Trim

namespace Transduction

/-- A machine whose moves read one symbol or nothing and write a word. -/
abbrev Transducer := Machine (Option Char × Word)

namespace Transducer

/-- The label that reads nothing and writes nothing. -/
def silent : Option Char × Word := (none, [])

/-- A transducer from its declaration, unless something is wrong with it. -/
def declare (size : Nat) (initial finals : List Nat)
    (arcs : List (Nat × (Option Char × Word) × Nat)) : Except ConstructionError Transducer :=
  Machine.declare (fun _ => .ok ()) ascending size initial finals arcs

/-- The symbols that the moves read, in ascending order. -/
def inputAlphabet (m : Transducer) : List Char :=
  ascending (m.nodes.toList.flatMap fun n => n.moves.filterMap (·.1.1))

/-- Maps one word to another.  The output is written by the move that reads the
last symbol, or by a single move that reads nothing where there is no symbol. -/
def ofWordPair (input output : Word) : Transducer where
  nodes :=
    let reading : List (Node (Option Char × Word)) :=
      match input with
      | [] => [{ initial := true, moves := [((none, output), 1)] }]
      | w => w.zipIdx.map fun (c, i) =>
        { initial := i == 0
          moves := [((some c, if i + 1 = w.length then output else []), i + 1)] }
    let last : Node (Option Char × Word) := { accepting := true }
    (reading ++ [last]).toArray

def union (a b : Transducer) : Transducer := Machine.union silent a b

def concat (a b : Transducer) : Transducer := Machine.concat silent a b

def plus (a : Transducer) : Transducer := Machine.plus silent a

def star (a : Transducer) : Transducer := Machine.star silent a

def trim (a : Transducer) : Transducer := Machine.trim a

/-- Accepts the words that have an output. -/
def domain (a : Transducer) : Acceptor := Machine.mapLabels (·.1) a

end Transducer

namespace Acceptor

/-- Maps every accepted word to itself. -/
def identity (a : Acceptor) : Transducer := Machine.mapLabels (fun l => (l, l.toList)) a

/-- Maps every accepted word of `a` to every accepted word of `b`: the input is
read first, writing nothing, and then the output is written, reading nothing. -/
def product (a b : Acceptor) : Transducer :=
  Machine.concat Transducer.silent (Machine.mapLabels (fun l => (l, [])) a)
    (Machine.mapLabels (fun l => (none, l.toList)) b)

end Acceptor

end Transduction
