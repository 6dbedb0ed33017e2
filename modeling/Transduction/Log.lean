/-
What the constructions report.

A note is one thing worth reporting about a construction; it has a level and a
text.  `Logged α` is a value together with the notes made on the way, in order.
Each construction that reports has a logged form here, and the value of the
logged form is the value of the construction itself.

* `Note.level`, `Note.text` — how important a note is, and what it says;
* `Logged.determinize`, `minimize`, `compose`, `composeAll`, `toBimachine`,
  `rewriter` — the logged forms of the constructions;
* `Logged.cascadeTransducer`, `Logged.cascadeBimachine` — those of a cascade,
  with its build events among the notes.
-/
import Transduction.Cascade

namespace Transduction

/-- How important a note is. -/
inductive Level where
  | debug
  | info
  | warn
deriving DecidableEq, Repr

def Level.name : Level → String
  | debug => "DEBUG"
  | info => "INFO"
  | warn => "WARN"

/-- The name of a policy in notes. -/
def Policy.name : Policy → String
  | obligatory => "Obligatory"
  | optional => "Optional"
  | leftmostLongest => "LeftmostLongest"

/-- One thing worth reporting about a construction. -/
inductive Note where
  | subsets (deterministic states : Nat)
  | minimized (before after : Nat)
  | composition (explored remaining : Nat)
  | keepsOutputs (error : TransducerError)
  | rewriter (policy : Policy) (matcherStates rewriterStates : Nat)
  | bimachine (leftStates rightStates outputs : Nat)
  | build (event : BuildEvent)
  | bimachineSaved (file : String)
  | drawingSaved (file : String)
deriving DecidableEq, Repr

namespace Note

def level : Note → Level
  | subsets .. | minimized .. | composition .. | rewriter .. | bimachine .. => .debug
  | build _ | bimachineSaved _ | drawingSaved _ => .info
  | keepsOutputs _ => .warn

def text : Note → String
  | subsets m n => s!"Subset construction built {m} deterministic states from {n} states"
  | minimized m n => s!"Minimization reduced {m} states to {n}"
  | composition m n => s!"Composition explored {m} states, {n} remain after trimming"
  | keepsOutputs e => "Rule keeps all of its outputs: " ++ e.message
  | rewriter p m n =>
    p.name ++ s!" rewriter: matcher has {m} states, rewriter has {n} states"
  | bimachine l r n =>
    s!"Bimachine built with {l} left states, {r} right states and {n} outputs"
  | build event => event.message
  | bimachineSaved file => "Bimachine saved as " ++ file
  | drawingSaved file => "Automaton saved as " ++ file

/-- A note as one line: its level, a space and its text. -/
def line (note : Note) : String := note.level.name ++ " " ++ note.text

end Note

/-- A value with the notes made on the way to it, in order. -/
structure Logged (α : Type) where
  value : α
  notes : List Note := []

namespace Logged

instance : Monad Logged where
  pure a := ⟨a, []⟩
  bind x f := ⟨(f x.value).value, x.notes ++ (f x.value).notes⟩

instance : LawfulMonad Logged := LawfulMonad.mk' Logged
  (fun x => by simp [Functor.map]) (fun _ _ => rfl)
  (fun x f g => by simp [bind, List.append_assoc])

@[simp] theorem value_pure {α : Type} (a : α) : (pure a : Logged α).value = a := rfl

@[simp] theorem value_bind {α β : Type} (x : Logged α) (f : α → Logged β) :
    (x >>= f).value = (f x.value).value := rfl

/-- Makes one note. -/
def note (n : Note) : Logged Unit := ⟨(), [n]⟩

def determinize (a : Acceptor) : Logged Dfa :=
  let d := a.determinize
  ⟨d, [.subsets d.size a.size]⟩

def minimize (d : Dfa) : Logged Dfa :=
  let minimal := d.minimize
  ⟨minimal, [.minimized d.size minimal.size]⟩

def compose (a b : Transducer) : Logged Transducer :=
  let explored := a.composeUntrimmed b
  let trimmed := explored.trim
  ⟨trimmed, [.composition explored.size trimmed.size]⟩

def composeAll (a : Transducer) (others : List Transducer) : Logged Transducer :=
  others.foldlM compose a

def ofRealTime (m : RealTime) (symbols : List Char) : Logged Bimachine :=
  let b := Bimachine.unmerged m symbols
  let merged := Bimachine.mergeRight b.left b.right b.table
  ⟨merged, [.minimized b.right.size merged.right.size,
    .bimachine merged.left.size merged.right.size merged.table.length]⟩

def toBimachine (m : Transducer) (alphabet : List Char) :
    Logged (Except TransducerError Bimachine) :=
  match m.toRealTime with
  | .error e => pure (.error e)
  | .ok r => do return .ok (← ofRealTime r (ascending alphabet))

def singleOutput (rule : Transducer) : Logged Transducer := do
  match ← toBimachine rule rule.inputAlphabet with
  | .ok b => return b.toTransducer
  | .error e =>
    note (.keepsOutputs e)
    return rule

def appliedRule (rule : Transducer) (policy : Policy) : Logged Transducer := do
  let proper ← compose (Rewriter.nonEmptyInputs rule) rule
  match policy with
  | .leftmostLongest => singleOutput proper
  | _ => return proper

def rewriter (rule : Transducer) (alphabet : List Char) (policy : Policy) :
    Logged Transducer := do
  let applied ← appliedRule rule policy
  let matcher ← minimize (← determinize applied.domain)
  let plan : Rewriter.Plan :=
    { rule := applied, matcher := matcher, symbols := ascending alphabet, policy := policy }
  let built := plan.build
  note (.rewriter policy matcher.size built.size)
  return built

/-- The rewriter of a stage between its two build events. -/
def stage (alphabet : List Char) (s : Stage) : Logged Transducer := do
  note (.build (.started s.name))
  let built ← rewriter s.rule alphabet s.policy
  note (.build (.finished s.name built.size))
  return built

def composition (alphabet : List Char) : List Transducer → Logged Transducer
  | [] => return Cascade.composition alphabet []
  | first :: others => composeAll first others

def cascadeTransducer (c : Cascade) : Logged Transducer := do
  let rewriters ← c.stages.mapM (stage c.alphabet)
  let composed ← composition c.alphabet rewriters
  note (.build (.composed composed.size))
  return composed

def cascadeBimachine (c : Cascade) : Logged (Except TransducerError Bimachine) := do
  match ← toBimachine (← cascadeTransducer c) c.alphabet with
  | .error e => return .error e
  | .ok b =>
    note (.build (.built b.left.size b.right.size))
    return .ok b

/-! ### Logged values are the plain ones -/

@[simp] theorem value_determinize (a : Acceptor) : (determinize a).value = a.determinize := rfl

@[simp] theorem value_minimize (d : Dfa) : (minimize d).value = d.minimize := rfl

@[simp] theorem value_compose (a b : Transducer) : (compose a b).value = a.compose b := rfl

@[simp] theorem value_composeAll (a : Transducer) (others : List Transducer) :
    (composeAll a others).value = a.composeAll others := by
  induction others generalizing a with
  | nil => rfl
  | cons b others ih => exact ih (a.compose b)

@[simp] theorem value_toBimachine (m : Transducer) (alphabet : List Char) :
    (toBimachine m alphabet).value = m.toBimachine alphabet := by
  unfold toBimachine Transducer.toBimachine
  cases m.toRealTime <;> rfl

@[simp] theorem value_singleOutput (rule : Transducer) :
    (singleOutput rule).value = Rewriter.singleOutput rule := by
  unfold singleOutput Rewriter.singleOutput
  rw [value_bind, value_toBimachine]
  cases rule.toBimachine rule.inputAlphabet <;> rfl

@[simp] theorem value_appliedRule (rule : Transducer) (policy : Policy) :
    (appliedRule rule policy).value = Rewriter.appliedRule rule policy := by
  unfold appliedRule Rewriter.appliedRule Rewriter.properRule
  cases policy <;> simp only [value_bind, value_compose, value_pure, value_singleOutput]

@[simp] theorem value_rewriter (rule : Transducer) (alphabet : List Char) (policy : Policy) :
    (rewriter rule alphabet policy).value = rule.rewriter alphabet policy := by
  unfold rewriter Transducer.rewriter Rewriter.plan
  simp only [value_bind, value_appliedRule, value_determinize, value_minimize, value_pure]

@[simp] theorem value_stage (alphabet : List Char) (s : Stage) :
    (stage alphabet s).value = Cascade.rewriter alphabet s := by
  simp only [stage, Cascade.rewriter, value_bind, value_pure, value_rewriter]

@[simp] theorem value_composition (alphabet : List Char) (rewriters : List Transducer) :
    (composition alphabet rewriters).value = Cascade.composition alphabet rewriters := by
  cases rewriters with
  | nil => rfl
  | cons t ts => simp only [composition, Cascade.composition, value_composeAll]

theorem value_mapM_stage (alphabet : List Char) (ss : List Stage) :
    (ss.mapM (stage alphabet)).value = ss.map (Cascade.rewriter alphabet) := by
  induction ss with
  | nil => rfl
  | cons s ss ih =>
    simp only [List.mapM_cons, value_bind, value_pure, List.map_cons, ih, value_stage]

@[simp] theorem value_cascadeTransducer (c : Cascade) :
    (cascadeTransducer c).value = c.toTransducer := by
  simp only [cascadeTransducer, value_bind, value_pure, value_mapM_stage, value_composition,
    Cascade.toTransducer]

@[simp] theorem value_cascadeBimachine (c : Cascade) :
    (cascadeBimachine c).value = c.toBimachine := by
  unfold cascadeBimachine Cascade.toBimachine
  simp only [value_bind, value_cascadeTransducer, value_toBimachine]
  cases c.toTransducer.toBimachine c.alphabet <;> rfl

end Logged

end Transduction
