/-
Searches that look things up.

A search reads a graph out of containers, keeps the states that it has met in rows of bits of a
fixed length, and numbers the items that it meets by a table.  Each of these may be asked for
something that it does not have:

* `StateSet.contains?`, `StateSet.insert?`, `StateSet.ofList?` — sets in a row of `size` bits;
* `explore?` — an exploration whose visits may fail, and `explore?_eq`: where no visit of an item
  fails that can be met, it is the exploration by these visits;
* `reachable?` — the states that a search leads to, in a row of bits;
* `Write.perState` — programs that add one state after the other, as late as possible: each of them
  right in front of the writes into it;
* `itemWrites?` — the writes of one item found, in which all items go by their numbers, and
  `Numbered.mapM_itemWrites?`: none fails where all targets have numbers;
* `Storage.explored?` — a machine built by a search, and `Storage.explored?_eq`: it is
  `Machine.explored`.
-/
import Transduction.Checked.Loops
import Transduction.Checked.Storage
import Transduction.Proofs.Explored

namespace Transduction

/-! ### Rows of bits -/

namespace StateSet

/-- Whether a bit is set, in a row of `size` bits. -/
def contains? (size : Nat) (s : StateSet) (q : Nat) : Option Bool :=
  if q < size then some (s.contains q) else none

/-- Sets a bit, in a row of `size` bits. -/
def insert? (size : Nat) (s : StateSet) (q : Nat) : Option StateSet :=
  if q < size then some (s.insert q) else none

/-- A row of `size` bits with the listed ones set. -/
def ofList? (size : Nat) (qs : List Nat) : Option StateSet := qs.foldlM (insert? size) empty

variable {size q : Nat} {s : StateSet} {qs : List Nat}

theorem contains?_eq (h : q < size) : contains? size s q = some (s.contains q) := if_pos h

theorem insert?_eq (h : q < size) : insert? size s q = some (s.insert q) := if_pos h

theorem ofList?_eq (h : ∀ q ∈ qs, q < size) : ofList? size qs = some (ofList qs) :=
  (foldlM_eq_some_foldl (P := fun _ => True) trivial
    fun _ _ q hq => ⟨insert?_eq (h q hq), trivial⟩).1

end StateSet

variable {L κ σ ι : Type} [Ord ι]

/-! ### Explorations -/

/-- Visits the items of a layer and then the layers behind it, at most `rounds` layers in all,
unless a visit fails. -/
def exploreLayers? (key : κ → ι) (visit? : κ → Option σ) (targets : σ → List κ) :
    Nat → Std.TreeSet ι → List κ → Option (List (κ × σ))
  | 0, _, _ => some []
  | _ + 1, _, [] => some []
  | rounds + 1, seen, layer => do
    let found ← layer.mapM fun k => (visit? k).map fun x => (k, x)
    let (seen', next) := unseen key seen (found.flatMap fun entry => targets entry.2)
    let behind ← exploreLayers? key visit? targets rounds seen' next
    return found ++ behind

/-- The items fewer than `rounds` steps away from the roots, unless a visit fails. -/
def explore? (key : κ → ι) (visit? : κ → Option σ) (targets : σ → List κ) (rounds : Nat)
    (roots : List κ) : Option (List (κ × σ)) :=
  let (seen, layer) := unseen key ∅ roots
  exploreLayers? key visit? targets rounds seen layer

section explore

variable [Std.TransOrd ι] {key : κ → ι} {visit? : κ → Option σ} {visit : κ → σ}
  {targets : σ → List κ} {rounds : Nat} {roots : List κ} {P : κ → Prop}

theorem exploreLayers?_eq
    (hP : ∀ k, P k → visit? k = some (visit k) ∧ ∀ t ∈ targets (visit k), P t)
    {seen : Std.TreeSet ι} {layer : List κ} (hlayer : ∀ k ∈ layer, P k) :
    exploreLayers? key visit? targets rounds seen layer =
      some (exploreLayers key visit targets rounds seen layer) := by
  induction rounds generalizing seen layer with
  | zero => rfl
  | succ rounds ih =>
    cases layer with
    | nil => rfl
    | cons k ks =>
      have hfound : (k :: ks).mapM (fun k => (visit? k).map fun x => (k, x)) =
          some ((k :: ks).map fun k => (k, visit k)) :=
        mapM_eq_some_map fun j hj => by rw [(hP j (hlayer j hj)).1, Option.map_some]
      have hnext := forall_mem_layerTargets hlayer fun j hj => (hP j hj).2
      rw [exploreLayers?, hfound, exploreLayers_cons, Option.bind_eq_bind, Option.bind_some]
      · refine Option.bind_eq_some_iff.mpr ⟨_, ih fun t ht => hnext t (mem_unseen ht).1, rfl⟩
      · exact nofun

/-- If no visit fails of what can be met, an exploration finds what it finds by these visits. -/
theorem explore?_eq (hroots : ∀ k ∈ roots, P k)
    (hP : ∀ k, P k → visit? k = some (visit k) ∧ ∀ t ∈ targets (visit k), P t) :
    explore? key visit? targets rounds roots = some (explore key visit targets rounds roots) :=
  exploreLayers?_eq hP fun k hk => hroots k (mem_unseen hk).1

end explore

/-- The states reachable from the roots, in a row of `size` bits. -/
def reachable? (size : Nat) (next? : Nat → Option (List Nat)) (roots : List Nat) :
    Option StateSet := do
  let found ← explore? id next? id size roots
  StateSet.ofList? size (found.map (·.1))

theorem reachable?_eq {size : Nat} {next? : Nat → Option (List Nat)} {next : Nat → List Nat}
    {roots : List Nat} (hroots : ∀ r ∈ roots, r < size)
    (hnext : ∀ q < size, next? q = some (next q) ∧ ∀ t ∈ next q, t < size) :
    reachable? size next? roots = some (reachable size next roots) := by
  rw [reachable?, explore?_eq hroots hnext]
  refine StateSet.ofList?_eq fun q hq => ?_
  obtain ⟨entry, hentry, rfl⟩ := List.mem_map.mp hq
  exact forall_mem_explore hentry hroots fun q hq => (hnext q hq).2

/-! ### Programs that add one state after the other -/

namespace Write

/-- Adds a state for each member of the list, right in front of the writes of that member. -/
def perState (items : List (List (Write L))) : List (Write L) :=
  items.flatMap fun ws => .state :: ws

variable {items : List (List (Write L))} {w : Write L} {size i : Nat}

theorem moveFrom?_eq_none {q : Nat} (hw : w.source? = some i) (hi : i ≠ q) :
    moveFrom? q w = none := by
  cases w with
  | move p l t =>
    obtain rfl : p = i := Option.some.inj hw
    exact if_neg hi
  | _ => rfl

theorem isState_eq_false (h : w.source? = some i) : w.isState = false := by
  cases w with
  | state => cases h
  | _ => rfl

theorem fits_perState
    (h : ∀ i ws, items[i]? = some ws → ∀ w ∈ ws, w.source? = some (size + i)) :
    Fits size (perState items) ∧ states (perState items) = items.length := by
  induction items generalizing size with
  | nil => exact ⟨trivial, rfl⟩
  | cons ws items ih =>
    have hws : ∀ w ∈ ws, w.source? = some size := h 0 ws rfl
    have hnone : states ws = 0 := states_eq_zero fun w hw => isState_eq_false (hws w hw)
    obtain ⟨hfits, hstates⟩ := @ih (size + 1) fun i ws' hi w hw => by
      rw [h (i + 1) ws' (by rwa [List.getElem?_cons_succ]) w hw]
      exact congrArg some (by omega)
    rw [perState, List.flatMap_cons, ← perState]
    refine ⟨⟨nofun, fits_append.mpr ⟨fits_of_forall_lt fun w hw q hq => ?_, ?_⟩⟩, ?_⟩
    · obtain rfl : q = size := by simpa [hws w hw] using hq.symm
      exact Nat.lt_succ_self q
    · rw [hnone]
      exact hfits
    · rw [List.cons_append, states_cons, states_append, hnone, hstates, List.length_cons]
      simp [isState]

theorem mem_perState (hw : w.source? = some i) : w ∈ perState items ↔ ∃ ws ∈ items, w ∈ ws := by
  have hne : w ≠ .state := fun h => by
    rw [h] at hw
    cases hw
  simp [perState, hne]

/-- The moves of a state are those of its own writes. -/
theorem filterMap_moveFrom?_perState {q : Nat}
    (h : ∀ i ws, items[i]? = some ws → ∀ w ∈ ws, w.source? = some (size + i)) :
    (perState items).filterMap (moveFrom? (size + q)) =
      ((items[q]?).getD []).filterMap (moveFrom? (size + q)) := by
  induction items generalizing size q with
  | nil => rfl
  | cons ws items ih =>
    have hws : ∀ w ∈ ws, w.source? = some size := h 0 ws rfl
    have hrest : ∀ i ws', items[i]? = some ws' → ∀ w ∈ ws', w.source? = some (size + 1 + i) :=
      fun i ws' hi w hw => by
        rw [h (i + 1) ws' (by rwa [List.getElem?_cons_succ]) w hw]
        exact congrArg some (by omega)
    rw [perState, List.flatMap_cons, ← perState, List.cons_append, List.filterMap_cons,
      List.filterMap_append]
    cases q with
    | zero =>
      -- all that follows writes into states further up
      have hnone : (perState items).filterMap (moveFrom? (size + 0)) = [] := by
        refine List.filterMap_eq_nil_iff.mpr fun w hw => ?_
        obtain ⟨ws', hws', hw⟩ := List.mem_flatMap.mp hw
        rcases List.mem_cons.mp hw with rfl | hw
        · rfl
        · obtain ⟨i, hi⟩ := List.getElem?_of_mem hws'
          exact moveFrom?_eq_none (hrest i ws' hi w hw) (by omega)
      rw [hnone]
      simp [moveFrom?]
    | succ q =>
      have hnone : ws.filterMap (moveFrom? (size + (q + 1))) = [] :=
        List.filterMap_eq_nil_iff.mpr fun w hw => moveFrom?_eq_none (hws w hw) (by omega)
      have hq : size + (q + 1) = size + 1 + q := by omega
      rw [hnone, List.getElem?_cons_succ, List.nil_append, hq]
      exact ih hrest

end Write

/-! ### The writes of the items found -/

/-- The writes into the state of an item found: its marks, and its moves by the numbers of their
targets. -/
def itemWrites? (key : κ → ι) (number : Std.TreeMap ι Nat) (initial : Nat → Bool)
    (accepting? : κ → Option Bool) (entry : κ × List (L × κ)) : Option (List (Write L)) := do
  let i ← number[key entry.1]?
  let moves ← entry.2.mapM fun (l, t) => (number[key t]?).map fun j => Write.move i l j
  let accepted ← accepting? entry.1
  return (if initial i then [.initial i] else []) ++ moves ++
    (if accepted then [.accepting i] else [])

/-- The moves of an item found, by the numbers of their targets. -/
def numberedMoves (key : κ → ι) (number : Std.TreeMap ι Nat) (entry : κ × List (L × κ)) :
    List (L × Nat) :=
  entry.2.filterMap fun (l, t) => (number[key t]?).map fun j => (l, j)

/-- The writes into state `i`, if it has these marks and moves. -/
def stateWrites (i : Nat) (initial accepting : Bool) (moves : List (L × Nat)) : List (Write L) :=
  (if initial then [.initial i] else []) ++ moves.map (fun (l, j) => .move i l j) ++
    (if accepting then [.accepting i] else [])

section stateWrites

variable {i j : Nat} {initial accepting : Bool} {moves : List (L × Nat)} {w : Write L} {l : L}

theorem source?_of_mem_stateWrites (h : w ∈ stateWrites i initial accepting moves) :
    w.source? = some i := by
  simp only [stateWrites, List.mem_append, List.mem_map] at h
  obtain (h | ⟨_, _, rfl⟩) | h := h
  · obtain ⟨_, rfl⟩ := List.mem_ite_nil_right.mp h |>.imp_right List.mem_singleton.mp
    rfl
  · rfl
  · obtain ⟨_, rfl⟩ := List.mem_ite_nil_right.mp h |>.imp_right List.mem_singleton.mp
    rfl

theorem filterMap_moveFrom?_stateWrites :
    (stateWrites i initial accepting moves).filterMap (Write.moveFrom? i) = moves := by
  have hmoves :
      (moves.map fun (l, j) => Write.move i l j).filterMap (Write.moveFrom? i) = moves := by
    rw [List.filterMap_map]
    refine (List.filterMap_congr fun move _ => ?_).trans List.filterMap_some
    exact if_pos rfl
  have hinitial : (if initial then [Write.initial (L := L) i] else []).filterMap
      (Write.moveFrom? i) = [] := by cases initial <;> rfl
  have haccepting : (if accepting then [Write.accepting (L := L) i] else []).filterMap
      (Write.moveFrom? i) = [] := by cases accepting <;> rfl
  rw [stateWrites, List.filterMap_append, List.filterMap_append, hmoves, hinitial, haccepting,
    List.nil_append, List.append_nil]

theorem initial_mem_stateWrites :
    Write.initial j ∈ stateWrites i initial accepting moves ↔ j = i ∧ initial = true := by
  cases initial <;> cases accepting <;> simp [stateWrites]

theorem accepting_mem_stateWrites :
    Write.accepting j ∈ stateWrites i initial accepting moves ↔ j = i ∧ accepting = true := by
  cases initial <;> cases accepting <;> simp [stateWrites]

end stateWrites

/-- The items found go by their positions, and the targets of their moves have numbers. -/
structure Numbered (key : κ → ι) (number : Std.TreeMap ι Nat) (found : List (κ × List (L × κ))) :
    Prop where
  self : ∀ i entry, found[i]? = some entry → number[key entry.1]? = some i
  target : ∀ entry ∈ found, ∀ l t, (l, t) ∈ entry.2 → ∃ j, number[key t]? = some j

section found

variable [Std.TransOrd ι] [Std.LawfulEqOrd ι] {key : κ → ι} {number : Std.TreeMap ι Nat}
  {next? : κ → Option (List (L × κ))} {next : κ → List (L × κ)} {bound : Nat} {roots : List κ}
  {found : List (κ × List (L × κ))} {initial : Nat → Bool} {accepting? : κ → Option Bool}
  {accepting : κ → Bool} {P : κ → Prop} {keys : List ι}

/-- If no more keys can be met than there are rounds, all targets have numbers. -/
theorem numbered_explore (hroots : ∀ k ∈ roots, P k)
    (hP : ∀ k, P k → ∀ l t, (l, t) ∈ next k → P t) (hkeys : ∀ k, P k → key k ∈ keys)
    (hbound : keys.length ≤ bound) :
    let found := explore key next (fun successors => successors.map (·.2)) bound roots
    Numbered key (numbering (found.map fun entry => key entry.1)) found := by
  intro found
  have hnodup : (found.map fun entry => key entry.1).Nodup := nodup_explore
  have hnumber {k : ι} {i : Nat} := getElem?_numbering (k := k) (i := i) hnodup
  refine ⟨fun i entry hi => hnumber.mpr (by rw [List.getElem?_map, hi, Option.map_some]),
    fun entry hentry l t ht => ?_⟩
  have htargets (k : κ) (hk : P k) : ∀ t ∈ (next k).map (·.2), P t := fun t ht => by
    obtain ⟨⟨l, _⟩, hl, rfl⟩ := List.mem_map.mp ht
    exact hP k hk l _ hl
  obtain ⟨entry', hentry', hkey⟩ := exists_mem_explore_of_target hentry hroots htargets hkeys
    hbound (List.mem_map.mpr ⟨(l, t), ht, rfl⟩)
  obtain ⟨j, hj⟩ := List.getElem?_of_mem hentry'
  exact ⟨j, hnumber.mpr (by rw [List.getElem?_map, hj, Option.map_some, hkey])⟩

omit [Std.TransOrd ι] [Std.LawfulEqOrd ι] in
/-- The writes of all items, where all targets have numbers. -/
theorem Numbered.mapM_itemWrites? (h : Numbered key number found) (initial : Nat → Bool)
    (haccepting : ∀ entry ∈ found, accepting? entry.1 = some (accepting entry.1)) :
    found.mapM (itemWrites? key number initial accepting?) =
      some (found.mapIdx fun i entry =>
        stateWrites i (initial i) (accepting entry.1) (numberedMoves key number entry)) := by
  refine mapM_eq_some_mapIdx fun i entry hi => ?_
  have hentry := List.mem_of_getElem? hi
  -- Every target has a number, since the search has found it.
  have hmoves : entry.2.mapM (fun (l, t) => (number[key t]?).map fun j => Write.move i l j) =
      some ((numberedMoves key number entry).map fun (l, j) => .move i l j) := by
    have htarget := h.target entry hentry
    rw [numberedMoves]
    generalize entry.2 = moves at htarget
    induction moves with
    | nil => rfl
    | cons move moves ih =>
      obtain ⟨l, t⟩ := move
      obtain ⟨j, hj⟩ := htarget l t List.mem_cons_self
      rw [List.mapM_cons, ih fun l t ht => htarget l t (List.mem_cons_of_mem _ ht),
        List.filterMap_cons]
      simp only [hj, Option.map_some]
      rfl
  rw [itemWrites?, h.self i entry hi, Option.bind_eq_bind, Option.bind_some, hmoves,
    haccepting entry hentry]
  rfl

end found

/-! ### Machines built by a search -/

/-- The writes that make a machine of nodes, one state after the other. -/
def nodeWrites (nodes : List (Node L)) : List (Write L) :=
  Write.perState (nodes.mapIdx fun i n => stateWrites i n.initial n.accepting n.moves)

section nodeWrites

variable {nodes : List (Node L)} {i : Nat} {ws : List (Write L)}

theorem source?_of_getElem?_stateWrites
    (h : (nodes.mapIdx fun i n => stateWrites i n.initial n.accepting n.moves)[i]? = some ws) :
    ∀ w ∈ ws, w.source? = some (0 + i) := by
  rw [List.getElem?_mapIdx] at h
  obtain ⟨n, _, rfl⟩ := Option.map_eq_some_iff.mp h
  rw [Nat.zero_add]
  exact fun _ => source?_of_mem_stateWrites

/-- A write into a state is made if it is one of those of its node. -/
theorem mem_nodeWrites {w : Write L} (hw : w.source? = some i) :
    w ∈ nodeWrites nodes ↔
      ∃ n, nodes[i]? = some n ∧ w ∈ stateWrites i n.initial n.accepting n.moves := by
  rw [nodeWrites, Write.mem_perState hw]
  constructor
  · rintro ⟨ws, hws, hmem⟩
    obtain ⟨j, hj⟩ := List.getElem?_of_mem hws
    have hsource := source?_of_getElem?_stateWrites hj w hmem
    obtain rfl : i = j := by simpa [hw] using hsource
    rw [List.getElem?_mapIdx] at hj
    obtain ⟨n, hn, rfl⟩ := Option.map_eq_some_iff.mp hj
    exact ⟨n, hn, hmem⟩
  · rintro ⟨n, hn, hmem⟩
    refine ⟨_, List.mem_of_getElem? (i := i) ?_, hmem⟩
    rw [List.getElem?_mapIdx, hn, Option.map_some]

namespace Storage

/-- A machine is made of nodes that have entered their moves one after the other. -/
theorem writes?_nodeWrites {K : Keeping L} (hK : K.Lawful) :
    empty.writes? K (nodeWrites nodes) = some (ofMachine K { nodes := (nodes.map fun n =>
      { n with moves := n.moves.foldl (fun row move => K.enter move row) [] }).toArray }) := by
  have hsource (i : Nat) (ws : List (Write L)) (h : (nodes.mapIdx fun i n =>
      stateWrites i n.initial n.accepting n.moves)[i]? = some ws) :
      ∀ w ∈ ws, w.source? = some (0 + i) := source?_of_getElem?_stateWrites h
  obtain ⟨hfits, hstates⟩ := Write.fits_perState hsource
  refine writes?_of_nothing hK hfits ?_ (fun q => ?_) (fun q => ?_) fun q => ?_
  · rw [nodeWrites, hstates]
    simp [Machine.size]
  · have hq := Write.filterMap_moveFrom?_perState (q := q) hsource
    rw [Nat.zero_add] at hq
    rw [nodeWrites, hq, List.getElem?_mapIdx]
    simp only [Machine.moves, List.getElem?_toArray, List.getElem?_map]
    cases nodes[q]? with
    | none => rfl
    | some n => simp [filterMap_moveFrom?_stateWrites]
  · rw [mem_nodeWrites rfl]
    simp only [Machine.isInitial, List.getElem?_toArray, List.getElem?_map,
      initial_mem_stateWrites]
    cases nodes[q]? <;> simp
  · rw [mem_nodeWrites rfl]
    simp only [Machine.isAccepting, List.getElem?_toArray, List.getElem?_map,
      accepting_mem_stateWrites]
    cases nodes[q]? <;> simp

variable [Ord L] [Std.TransOrd L] [Std.LawfulEqOrd L] {symbol? : L → Option Char}

theorem foldl_ordered_eq_ascending {moves : List (L × Nat)} :
    moves.foldl (fun row move => (Keeping.ordered symbol?).enter move row) [] =
      ascending moves := by
  refine eq_of_pairwise_lt (pairwise_foldl_ordered .nil) (ascending_pairwise _) fun entry => ?_
  rw [mem_foldl_ordered, mem_ascending, or_iff_left List.not_mem_nil]

/-- Nodes that list their moves in order are written as they are. -/
theorem writes?_nodeWrites_ordered {m : Machine L}
    (hm : ∀ n ∈ m.nodes.toList, n.moves.Pairwise fun x y => compare x y = .lt) :
    empty.writes? (.ordered symbol?) (nodeWrites m.nodes.toList) =
      some (ofMachine (.ordered symbol?) m) := by
  have hnodes : (m.nodes.toList.map fun n => { n with
      moves := n.moves.foldl (fun row move => (Keeping.ordered symbol?).enter move row) [] }) =
      m.nodes.toList := by
    refine (List.map_congr_left fun n hn => ?_).trans (List.map_id _)
    rw [foldl_ordered_eq_ascending, ascending_eq_self (hm n hn)]
    rfl
  rw [writes?_nodeWrites Keeping.lawful_ordered, hnodes]

/-- A machine of the items found, with the roots as its initial states. -/
def ofExploration? (symbol? : L → Option Char) (key : κ → ι) (roots : List κ)
    (accepting? : κ → Option Bool) (found : List (κ × List (L × κ))) : Option (Storage L) := do
  let number := numbering (found.map fun entry => key entry.1)
  let starts ← roots.mapM fun k => number[key k]?
  let items ← found.mapM (itemWrites? key number starts.contains accepting?)
  empty.writes? (.ordered symbol?) (Write.perState items)

/-- A machine of the items that a search finds, with the roots as its initial states. -/
def explored? (symbol? : L → Option Char) (key : κ → ι) (next? : κ → Option (List (L × κ)))
    (bound : Nat) (roots : List κ) (accepting? : κ → Option Bool) : Option (Storage L) := do
  let found ← explore? key next? (fun successors => successors.map (·.2)) bound roots
  ofExploration? symbol? key roots accepting? found

end Storage

end nodeWrites

namespace Storage

variable [Ord L] [Std.TransOrd L] [Std.LawfulEqOrd L] [Std.TransOrd ι] [Std.LawfulEqOrd ι]
  {symbol? : L → Option Char} {key : κ → ι} {next? : κ → Option (List (L × κ))}
  {next : κ → List (L × κ)} {bound : Nat} {roots : List κ} {initial : κ → Bool}
  {accepting? : κ → Option Bool} {accepting : κ → Bool} {P : κ → Prop} {keys : List ι}

omit [Std.TransOrd ι] [Std.LawfulEqOrd ι] in
/-- The containers are filled with the machine of the items found, if their targets and the roots
are among them. -/
theorem ofExploration?_eq {found : List (κ × List (L × κ))}
    (hnumbered : Numbered key (numbering (found.map fun entry => key entry.1)) found)
    (hroots : ∀ r ∈ roots, ∃ entry ∈ found, key entry.1 = key r)
    (haccepting : ∀ entry ∈ found, accepting? entry.1 = some (accepting entry.1))
    (hinitial : ∀ entry ∈ found, initial entry.1 = true ↔ ∃ r ∈ roots, key r = key entry.1) :
    ofExploration? symbol? key roots accepting? found = some (ofMachine (.ordered symbol?)
      (Machine.ofExploration key initial accepting found)) := by
  rw [ofExploration?, Machine.ofExploration]
  generalize numbering (found.map fun entry => key entry.1) = number at *
  have hstarts : roots.mapM (fun k => number[key k]?) =
      some (roots.map fun k => (number[key k]?).getD 0) := by
    refine mapM_eq_some_map fun r hr => ?_
    obtain ⟨entry, hentry, he⟩ := hroots r hr
    obtain ⟨i, hi⟩ := List.getElem?_of_mem hentry
    rw [← he, hnumbered.self i entry hi]
    rfl
  -- an item is initial if its number is that of a root
  have hcontains {i : Nat} {entry : κ × List (L × κ)} (hi : found[i]? = some entry) :
      (roots.map fun k => (number[key k]?).getD 0).contains i = initial entry.1 := by
    rw [Bool.eq_iff_iff, List.contains_iff_mem, List.mem_map,
      hinitial entry (List.mem_of_getElem? hi)]
    refine exists_congr fun r => and_congr_right fun hr => ?_
    obtain ⟨entry', hentry', he⟩ := hroots r hr
    obtain ⟨j, hj⟩ := List.getElem?_of_mem hentry'
    rw [← he, hnumbered.self j entry' hj, Option.getD_some]
    constructor
    · rintro rfl
      rw [Option.some.inj (hj.symm.trans hi)]
    · intro hkey
      have := hnumbered.self j entry' hj
      rw [hkey, hnumbered.self i entry hi] at this
      exact (Option.some.inj this).symm
  have hitems := hnumbered.mapM_itemWrites?
    (roots.map fun k => (number[key k]?).getD 0).contains haccepting
  have hnodes : (found.mapIdx fun i entry =>
      stateWrites i ((roots.map fun k => (number[key k]?).getD 0).contains i)
        (accepting entry.1) (numberedMoves key number entry)) =
      (found.map fun entry => ({
        initial := initial entry.1
        accepting := accepting entry.1
        moves := numberedMoves key number entry } : Node L)).mapIdx
        fun i n => stateWrites i n.initial n.accepting n.moves := by
    refine List.ext_getElem? fun i => ?_
    simp only [List.getElem?_map, List.getElem?_mapIdx]
    cases hi : found[i]? with
    | none => rfl
    | some entry => simp only [Option.map_some, hcontains hi]
  simp only [hstarts, hitems, Option.bind_eq_bind, Option.bind_some]
  rw [hnodes, ← nodeWrites, writes?_nodeWrites Keeping.lawful_ordered, List.map_map]
  refine congrArg (fun nodes => some (ofMachine _ ⟨nodes.toArray⟩))
    (List.map_congr_left fun entry _ => ?_)
  rw [Function.comp_apply, foldl_ordered_eq_ascending]
  rfl

/-- If nothing fails for items that can be met, and there are as many rounds as keys, the containers
are filled with the machine of the items found. -/
theorem explored?_eq (hroots : ∀ k ∈ roots, P k)
    (hnext : ∀ k, P k → next? k = some (next k) ∧ ∀ l t, (l, t) ∈ next k → P t)
    (haccepting : ∀ k, P k → accepting? k = some (accepting k))
    (hinitial : ∀ k, P k → (initial k = true ↔ ∃ r ∈ roots, key r = key k))
    (hkeys : ∀ k, P k → key k ∈ keys) (hbound : keys.length ≤ bound) :
    explored? symbol? key next? bound roots accepting? =
      some (ofMachine (.ordered symbol?)
        (Machine.explored key next bound roots initial accepting)) := by
  have htargets (k : κ) (hk : P k) : ∀ t ∈ (next k).map (·.2), P t := fun t ht => by
    obtain ⟨⟨l, _⟩, hl, rfl⟩ := List.mem_map.mp ht
    exact (hnext k hk).2 l _ hl
  have hfound : explore? key next? (fun successors => successors.map (·.2)) bound roots =
      some (explore key next (fun successors => successors.map (·.2)) bound roots) :=
    explore?_eq hroots fun k hk => ⟨(hnext k hk).1, htargets k hk⟩
  -- What holds of the roots and passes on to targets holds of all items found.
  have holds (entry : κ × List (L × κ)) (hentry : entry ∈ explore key next
      (fun successors => successors.map (·.2)) bound roots) : P entry.1 :=
    forall_mem_explore hentry hroots htargets
  rw [explored?, hfound, Option.bind_eq_bind, Option.bind_some, Machine.explored]
  refine ofExploration?_eq (numbered_explore hroots (fun k hk => (hnext k hk).2) hkeys hbound)
    (fun r hr => ?_) (fun entry hentry => haccepting _ (holds entry hentry))
    fun entry hentry => hinitial _ (holds entry hentry)
  have hpos : 0 < keys.length := List.length_pos_of_mem (hkeys r (hroots r hr))
  exact exists_mem_explore_of_root hr (Nat.lt_of_lt_of_le hpos hbound)

end Storage

end Transduction
