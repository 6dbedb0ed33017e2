/-
Rewriters: rules applied to a whole text.

A rewriter copies the text between matches of a rule and rewrites the matches,
over a closed alphabet.  Three policies say which matches are rewritten.

The matcher is the minimal automaton of the words that the rule rewrites.  A
guard is a set of matcher runs: those started at the positions copied since the
guard was last empty.  A step that would end a run in a match is not built, so
no match lies inside copied text.  Under the leftmost-longest policy the guard
lives on through matches, which rules out an earlier start, and when a match
ends its own run joins the guard, which rules out a longer match.

* `Policy.obligatory` — no match is left in copied text; overlapping matches
  give alternatives;
* `Policy.optional` — each match may be rewritten or copied;
* `Policy.leftmostLongest` — the longest match at the first position where one
  starts, and one output a match.
-/
import Transduction.Acceptor.Subsets
import Transduction.Bimachine.Compilation
import Transduction.Bimachine.Unfolding

namespace Transduction

/-- Which matches of a rule are rewritten. -/
inductive Policy where
  /-- Copied text holds no match; overlapping matches are alternatives. -/
  | obligatory
  /-- Every match may be rewritten or copied. -/
  | optional
  /-- From left to right, the longest match at the first position where one
  starts. -/
  | leftmostLongest
deriving DecidableEq, Repr

namespace Rewriter

/-- What a rewriter does: it copies, or it is inside a match, at a state of the
rule and, where longer matches matter, at a state of the matcher. -/
inductive Phase where
  | copying
  | matching (rule : Nat) (anchor : Option Nat)
deriving DecidableEq, Repr

/-- A state of a rewriter: its phase, and the matcher runs that must not end in
a match. -/
structure Scan where
  phase : Phase
  guard : StateSet
deriving DecidableEq, Repr

/-- The key of a state: the matching state if there is one, and the guard. -/
def Scan.key (s : Scan) : Option (Nat × Option Nat) × Nat :=
  match s.phase with
  | .copying => (none, s.guard.bits)
  | .matching rule anchor => (some (rule, anchor), s.guard.bits)

/-- What a rewriter is made from: the rule, the automaton of its domain, the
symbols of the text and the policy. -/
structure Plan where
  rule : Transducer
  matcher : Dfa
  symbols : List Char
  policy : Policy

namespace Plan

/-- The guard after a symbol, unless one of its runs ends in a match. -/
def step? (plan : Plan) (guard : StateSet) (c : Char) : Option StateSet :=
  let next := guard.toList.filterMap fun q => plan.matcher.delta q c
  if next.any plan.matcher.isAccepting then none else some (StateSet.ofList next)

/-- The moves that copy one symbol of the text. -/
def copyMoves (plan : Plan) (guard : StateSet) : List ((Option Char × Word) × Scan) :=
  plan.symbols.filterMap fun c =>
    let next :=
      match plan.policy with
      -- a match may be copied, so nothing is guarded
      | .optional => some StateSet.empty
      | _ => plan.step? (guard.insert plan.matcher.start) c
    next.map fun next => ((some c, [c]), ⟨.copying, next⟩)

/-- The silent moves from copying into the rule. -/
def beginMoves (plan : Plan) (guard : StateSet) : List ((Option Char × Word) × Scan) :=
  let (guard, anchor) :=
    match plan.policy with
    | .leftmostLongest => (guard, some plan.matcher.start)
    | _ => (StateSet.empty, none)
  plan.rule.initialStates.map fun q => (Transducer.silent, ⟨.matching q anchor, guard⟩)

/-- The moves of the rule inside a match. -/
def matchMoves (plan : Plan) (rule : Nat) (anchor : Option Nat) (guard : StateSet) :
    List ((Option Char × Word) × Scan) :=
  (plan.rule.moves rule).filterMap fun ((l, w), t) =>
    let next : Option Scan :=
      match l with
      | none => some ⟨.matching t anchor, guard⟩
      | some c =>
        -- a rule may read symbols that no text has
        if !plan.symbols.contains c then none
        else
          match plan.policy with
          | .leftmostLongest => do
            -- the run of this match is no part of its own guard
            let anchor ← plan.matcher.delta (← anchor) c
            let guard ← plan.step? guard c
            some ⟨.matching t (some anchor), guard⟩
          | _ => some ⟨.matching t anchor, guard⟩
    next.map fun next => ((l, w), next)

/-- The silent move from a match that is complete back to copying. -/
def endMoves (plan : Plan) (rule : Nat) (anchor : Option Nat) (guard : StateSet) :
    List ((Option Char × Word) × Scan) :=
  if plan.rule.isAccepting rule then
    -- from here on the run of the match rules out a longer one
    [(Transducer.silent, ⟨.copying, anchor.elim guard guard.insert⟩)]
  else []

/-- The moves of a rewriter state. -/
def moves (plan : Plan) (s : Scan) : List ((Option Char × Word) × Scan) :=
  match s.phase with
  | .copying => plan.copyMoves s.guard ++ plan.beginMoves s.guard
  | .matching rule anchor =>
    plan.matchMoves rule anchor s.guard ++ plan.endMoves rule anchor s.guard

/-- The start of a rewriter: copying, with no run to guard against. -/
def start : Scan := ⟨.copying, .empty⟩

/-- The rewriter of a plan. -/
def build (plan : Plan) : Transducer :=
  (Machine.explored Scan.key plan.moves
    ((1 + plan.rule.size * (plan.matcher.size + 1)) * 2 ^ plan.matcher.size) [start]
    (fun s => s = start) (fun s => s.phase = .copying)).trim

end Plan

/-- The identity of the non-empty words over the symbols that a rule reads. -/
def nonEmptyInputs (rule : Transducer) : Transducer :=
  (Acceptor.ofSymbols rule.inputAlphabet).plus.identity

/-- The rule restricted to non-empty inputs. -/
def properRule (rule : Transducer) : Transducer := (nonEmptyInputs rule).compose rule

/-- The rule restricted to one output an input, the one that its bimachine
settles on, if it has a bimachine. -/
def singleOutput (rule : Transducer) : Transducer :=
  match rule.toBimachine rule.inputAlphabet with
  | .ok b => b.toTransducer
  | .error _ => rule

/-- The rule as a policy applies it. -/
def appliedRule (rule : Transducer) : Policy → Transducer
  | .leftmostLongest => singleOutput (properRule rule)
  | _ => properRule rule

/-- The plan for an applied rule. -/
def plan (rule : Transducer) (alphabet : List Char) (policy : Policy) : Plan where
  rule := rule
  matcher := rule.domain.determinize.minimize
  symbols := ascending alphabet
  policy := policy

end Rewriter

/-- The rewriter of a rule over an alphabet.  Rule pairs with an empty input are
ignored, and every word over the alphabet has an output. -/
def Transducer.rewriter (rule : Transducer) (alphabet : List Char) (policy : Policy) :
    Transducer :=
  (Rewriter.plan (Rewriter.appliedRule rule policy) alphabet policy).build

end Transduction
