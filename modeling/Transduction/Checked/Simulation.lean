/-
Simulations that look every state up.

The states that a machine may be in are kept in a row of bits with one bit a state.  The silent
moves of a state are looked up in its row, and the closures of states in an array:

* `Storage.silentClosure?`, `Storage.silentClosures?`, `closeUnder?` — closing under silent moves;
* `Storage.advance?` — the moves that read one symbol;
* `Storage.recognizes?`, `Storage.silentlyReachable?`, with `Storage.recognizes?_ofMachine` and
  `Storage.silentlyReachable?_ofMachine` — where all moves lead to states nothing fails.
-/
import Transduction.Checked.Search
import Transduction.Proofs.Recognition
import Transduction.Proofs.Trim

namespace Transduction

/-! ### Closing a set of states -/

/-- The union of the closures of the members of a set, unless one of them has no closure. -/
def closeUnder? (closures : Array StateSet) (s : StateSet) : Option StateSet :=
  s.toList.foldlM (fun t q => (closures[q]?).map t.union) .empty

theorem closeUnder?_eq {closures : Array StateSet} {s : StateSet}
    (hs : ∀ q ∈ s, q < closures.size) :
    closeUnder? closures s = some (Machine.closeUnder closures s) := by
  refine (foldlM_eq_some_foldl (P := fun _ => True) trivial fun t _ q hq => ⟨?_, trivial⟩).1
  rw [Array.getElem?_eq_getElem (hs q (StateSet.mem_toList.mp hq))]
  rfl

namespace Storage

variable {L : Type}

/-! ### The steps of a simulation -/

/-- The targets of those moves of a state whose labels are chosen. -/
def targets? (s : Storage L) (chosen : L → Bool) (q : Nat) : Option (List Nat) :=
  (s.rows[q]?).map fun row => row.filterMap fun (l, t) => if chosen l then some t else none

/-- The states reachable from a state by silent moves, the state included. -/
def silentClosure? (silent : L → Bool) (s : Storage L) (q : Nat) : Option StateSet :=
  reachable? s.size (s.targets? silent) [q]

/-- The silent closure of every state. -/
def silentClosures? (silent : L → Bool) (s : Storage L) : Option (Array StateSet) :=
  ((List.range s.size).mapM (s.silentClosure? silent)).map List.toArray

/-- The targets of the moves that read a symbol from a member of the set. -/
def advance? (reads : L → Char → Bool) (s : Storage L) (current : StateSet) (c : Char) :
    Option StateSet := do
  let targets ← flatMap? (s.targets? (reads · c)) current.toList
  StateSet.ofList? s.size targets

/-- The states in which the machine can be before it reads a symbol. -/
def startSet? (s : Storage L) (closures : Array StateSet) : Option StateSet := do
  let initial ← StateSet.ofList? s.size (ones s.initial)
  closeUnder? closures initial

/-- The states in which the machine can be after one more symbol. -/
def step? (reads : L → Char → Bool) (s : Storage L) (closures : Array StateSet)
    (current : StateSet) (c : Char) : Option StateSet := do
  let next ← s.advance? reads current c
  closeUnder? closures next

/-- Whether some run from an initial to an accepting state reads the word. -/
def recognizes? (silent : L → Bool) (reads : L → Char → Bool) (s : Storage L) (w : Word) :
    Option Bool := do
  let closures ← s.silentClosures? silent
  let start ← s.startSet? closures
  let current ← w.foldlM (s.step? reads closures) start
  return current.toList.any (marked s.accepting)

/-- The states reachable from a state by silent moves, in ascending order; none from a state that
does not exist. -/
def silentlyReachable? (silent : L → Bool) (s : Storage L) (q : Nat) : Option (List Nat) :=
  if q < s.size then (s.silentClosure? silent q).map StateSet.toList else some []

/-! ### Nothing fails -/

variable {K : Keeping L} {m : Machine L} {silent chosen : L → Bool} {reads : L → Char → Bool}
  {q : Nat} {c : Char} {w : Word} {current : StateSet}

theorem targets?_ofMachine (hq : q < m.size) : (ofMachine K m).targets? chosen q =
    some ((m.moves q).filterMap fun (l, t) => if chosen l then some t else none) := by
  rw [targets?, rows_ofMachine hq]
  rfl

section closed

variable (hm : m.Closed)

include hm

theorem silentClosure?_ofMachine (hq : q < m.size) :
    (ofMachine K m).silentClosure? silent q = some (m.silentClosure silent q) := by
  rw [silentClosure?, size_ofMachine]
  refine reachable?_eq (List.forall_mem_singleton.mpr hq) fun p hp =>
    ⟨targets?_ofMachine hp, fun t ht => ?_⟩
  obtain ⟨⟨l, t'⟩, hmove, he⟩ := List.mem_filterMap.mp ht
  obtain ⟨_, he⟩ := Option.ite_none_right_eq_some.mp he
  exact Option.some.inj he ▸ hm p l t' hmove

theorem silentClosures?_ofMachine :
    (ofMachine K m).silentClosures? silent = some (m.silentClosures silent) := by
  rw [silentClosures?, size_ofMachine,
    mapM_eq_some_map fun q hq => silentClosure?_ofMachine hm (List.mem_range.mp hq),
    Option.map_some]
  refine congrArg some (Array.ext (by simp [Machine.silentClosures]) fun q _ _ => ?_)
  simp [Machine.silentClosures]

theorem advance?_ofMachine (hcurrent : ∀ q ∈ current, q < m.size) :
    (ofMachine K m).advance? reads current c = some (m.advance reads current c) := by
  rw [advance?, size_ofMachine, flatMap?_eq fun q hq =>
    targets?_ofMachine (hcurrent q (StateSet.mem_toList.mp hq)), Option.bind_eq_bind,
    Option.bind_some]
  refine StateSet.ofList?_eq fun t ht => ?_
  exact Machine.lt_size_of_mem_advance hm (StateSet.mem_ofList.mpr ht)

theorem closeUnder?_silentClosures (silent : L → Bool) (hcurrent : ∀ q ∈ current, q < m.size) :
    closeUnder? (m.silentClosures silent) current =
      some (Machine.closeUnder (m.silentClosures silent) current) ∧
    ∀ q ∈ Machine.closeUnder (m.silentClosures silent) current, q < m.size := by
  refine ⟨closeUnder?_eq fun q hq => ?_, fun q hq => ?_⟩
  · rw [Machine.silentClosures, Array.size_ofFn]
    exact hcurrent q hq
  · obtain ⟨p, hp, ls, hpath, _⟩ := (Machine.mem_closeUnder_silentClosures hm hcurrent).mp hq
    exact hm.path_lt hpath (hcurrent p hp)

theorem startSet?_ofMachine (silent : L → Bool) :
    (ofMachine K m).startSet? (m.silentClosures silent) = some (m.startSet silent) ∧
      ∀ q ∈ m.startSet silent, q < m.size := by
  have hinitial : ∀ q ∈ m.initialStates, q < m.size := fun q =>
    Machine.lt_size_of_mem_initialStates
  have hclosed := closeUnder?_silentClosures hm silent
    fun q hq => hinitial q (StateSet.mem_ofList.mp hq)
  rw [startSet?, size_ofMachine, ones_initial_ofMachine, StateSet.ofList?_eq hinitial,
    Option.bind_eq_bind, Option.bind_some]
  exact hclosed

theorem step?_ofMachine (hcurrent : ∀ q ∈ current, q < m.size) :
    (ofMachine K m).step? reads (m.silentClosures silent) current c =
      some (Machine.closeUnder (m.silentClosures silent) (m.advance reads current c)) ∧
    ∀ q ∈ Machine.closeUnder (m.silentClosures silent) (m.advance reads current c), q < m.size := by
  rw [step?, advance?_ofMachine hm hcurrent, Option.bind_eq_bind, Option.bind_some]
  exact closeUnder?_silentClosures hm silent fun q => Machine.lt_size_of_mem_advance hm

theorem recognizes?_ofMachine :
    (ofMachine K m).recognizes? silent reads w = some (Machine.recognizes silent reads m w) := by
  obtain ⟨hstart, hlt⟩ := startSet?_ofMachine (K := K) hm silent
  obtain ⟨hrun, _⟩ := foldlM_eq_some_foldl (l := w)
    (f := (ofMachine K m).step? reads (m.silentClosures silent))
    (P := fun current => ∀ q ∈ current, q < m.size) hlt
    fun current hcurrent c _ => step?_ofMachine hm hcurrent
  simp only [recognizes?, silentClosures?_ofMachine hm, hstart, hrun, Option.bind_eq_bind,
    Option.bind_some]
  refine congrArg some (congrArg (List.any _) (funext fun q => ?_))
  exact marked_accepting_ofMachine

theorem silentlyReachable?_ofMachine : (ofMachine K m).silentlyReachable? silent q =
    some (if q < m.size then (m.silentClosure silent q).toList else []) := by
  rw [silentlyReachable?, size_ofMachine]
  split
  · rw [silentClosure?_ofMachine hm ‹_›]
    rfl
  · rfl

end closed

end Storage

end Transduction
