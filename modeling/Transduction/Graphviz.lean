/-
Graphviz text.

A machine is drawn as a directed graph: one node a state, labelled with its
number and its marks, and one edge a move.  Labels are quoted, with a backslash
in front of a quote or a backslash, and a line end is written so that the line
is left-justified.
-/
import Transduction.Dfa.Basic
import Transduction.RangeAcceptor
import Transduction.Transducer.Basic

namespace Transduction

namespace Label

/-- A label that reads one symbol, or nothing. -/
def ofSymbol : Option Char → List Char
  | none => ['ε']
  | some c => Text.escapeChar c

/-- A label that reads a range; a range of one symbol is written as the symbol. -/
def ofRange : Option (Char × Char) → List Char
  | none => ['ε']
  | some (first, last) =>
    if first = last then Text.escapeChar first
    else Text.escapeChar first ++ '-' :: Text.escapeChar last

/-- A label that reads a symbol or nothing and writes a word. -/
def ofPair (l : Option Char × Word) : List Char := ofSymbol l.1 ++ ':' :: Text.escapeText l.2

end Label

/-- A drawing of a machine: how many states it has, which are initial or
accepting, and the labelled edges by state. -/
structure Drawing where
  size : Nat
  initial : List Nat
  accepting : List Nat
  edges : List (Nat × List Char × Nat)

namespace Drawing

/-- The drawing of a machine, where `label` writes a label. -/
def ofMachine {L : Type} (label : L → List Char) (m : Machine L) : Drawing where
  size := m.size
  initial := m.initialStates
  accepting := m.acceptingStates
  edges := (List.range m.size).flatMap fun q => (m.moves q).map fun (l, t) => (q, label l, t)

def ofAcceptor (a : Acceptor) : Drawing := ofMachine Label.ofSymbol a

def ofRangeAcceptor (a : RangeAcceptor) : Drawing := ofMachine Label.ofRange a

def ofTransducer (m : Transducer) : Drawing := ofMachine Label.ofPair m

def ofDfa (d : Dfa) : Drawing where
  size := d.size
  initial := [d.start]
  accepting := d.acceptingStates
  edges := (List.range d.size).flatMap fun q =>
    (d.row q).map fun (c, t) => (q, Text.escapeChar c, t)

/-- A character inside a quoted label. -/
def quoteChar : Char → List Char
  | '"' => ['\\', '"']
  | '\\' => ['\\', '\\']
  | '\n' => ['\\', 'l']
  | c => [c]

/-- A quoted label. -/
def quote (label : List Char) : List Char := '"' :: label.flatMap quoteChar ++ ['"']

/-- The label of a state: its marks on lines of their own, then its number. -/
def stateLabel (g : Drawing) (q : Nat) : List Char :=
  (if g.initial.contains q then "Start\n".toList else [])
    ++ (if g.accepting.contains q then "Accept\n".toList else [])
    ++ s!"State {q}".toList

/-- The text of a drawing: the nodes in order, then the edges in order. -/
def render (g : Drawing) : String :=
  let attributes (label : List Char) : List Char :=
    " [ label = ".toList ++ quote label ++ " ]\n".toList
  let nodes := (List.range g.size).flatMap fun q =>
    s!"    {q}".toList ++ attributes (g.stateLabel q)
  let edges := g.edges.flatMap fun (p, label, q) =>
    s!"    {p} -> {q}".toList ++ attributes label
  String.ofList ("digraph \x7b\n".toList ++ nodes ++ edges ++ "\x7d\n".toList)

end Drawing

end Transduction
