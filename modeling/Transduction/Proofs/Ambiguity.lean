/-
Graphs and machines with at most one run.

A run names the states it visits, so runs with the same labels may still differ.  A run
of a machine that numbers the items of a graph lifts to a trail of the graph:

* `Unambiguous` — no two trails between marked items have labels with a property;
* `Renumbers.unambiguous` — a machine that numbers each item once has no more runs
  than the graph has trails;
* `Machine.unambiguous_explored`, `unambiguous_trim` — so neither an exploration nor
  leaving out useless states adds a run.
-/
import Mathlib.Data.List.Forall2
import Mathlib.Data.List.Nodup
import Transduction.Proofs.Explored
import Transduction.Proofs.Trim

namespace Transduction

variable {L κ ι : Type}

/-- The steps lead from an item marked initial to one marked accepting. -/
def Spans (next : κ → List (L × κ)) (initial accepting : κ → Bool) (k : κ)
    (steps : List (L × κ)) : Prop :=
  initial k = true ∧ ∃ r, Trail next k steps r ∧ accepting r = true

/-- No two trails between marked items have labels with the property. -/
def Unambiguous (next : κ → List (L × κ)) (initial accepting : κ → Bool)
    (P : List L → Prop) : Prop :=
  ∀ k k' steps steps', Spans next initial accepting k steps →
    Spans next initial accepting k' steps' → P (steps.map (·.1)) → P (steps'.map (·.1)) →
    k = k' ∧ steps = steps'

theorem Machine.accepted_iff_spans {m : Machine L} {p : Nat} {steps : List (L × Nat)} :
    m.Accepted p steps ↔ Spans m.moves m.isInitial m.isAccepting p steps := by
  simp only [Accepted, Spans, run_iff_trail]

/-! ### Machines that number items -/

namespace Renumbers

variable {m : Machine L} {items : List κ} {next : κ → List (L × κ)} {initial accepting : κ → Bool}
  {i j : Nat} {k : κ} {steps : List (L × Nat)} {P : List L → Prop}

/-- The step of a machine and the step of the graph that it stands for. -/
def SameStep (items : List κ) (step : L × Nat) (lifted : L × κ) : Prop :=
  step.1 = lifted.1 ∧ items[step.2]? = some lifted.2

/-- A run of the machine lifts to a trail of the graph. -/
theorem exists_trail (h : Renumbers m items next initial accepting) (hrun : Trail m.moves i steps j)
    (hi : items[i]? = some k) :
    ∃ lifted r, Trail next k lifted r ∧ items[j]? = some r ∧
      List.Forall₂ (SameStep items) steps lifted := by
  induction hrun generalizing k with
  | nil i => exact ⟨[], k, .nil k, hi, .nil⟩
  | cons hmove _ ih =>
    obtain ⟨k', t, hk', hnext, ht⟩ := (h.mem_moves _ _ _).mp hmove
    obtain rfl : k' = k := Option.some.inj (hk'.symm.trans hi)
    obtain ⟨lifted, r, htrail, hr, hsame⟩ := ih ht
    exact ⟨_ :: lifted, r, .cons hnext htrail, hr, .cons ⟨rfl, ht⟩ hsame⟩

/-- A run of the machine between marked states lifts to a trail between marked items. -/
theorem exists_spans (h : Renumbers m items next initial accepting)
    (hspans : Spans m.moves m.isInitial m.isAccepting i steps) :
    ∃ k lifted, Spans next initial accepting k lifted ∧ items[i]? = some k ∧
      List.Forall₂ (SameStep items) steps lifted := by
  obtain ⟨hi, j, hrun, hj⟩ := hspans
  obtain ⟨k, hk, hinitial⟩ := (h.isInitial_iff i).mp hi
  obtain ⟨lifted, r, htrail, hr, hsame⟩ := h.exists_trail hrun hk
  obtain ⟨r', hr', haccepting⟩ := (h.isAccepting_iff j).mp hj
  obtain rfl : r' = r := Option.some.inj (hr'.symm.trans hr)
  exact ⟨k, lifted, ⟨hinitial, r', htrail, haccepting⟩, hk, hsame⟩

theorem labels_eq_of_sameSteps {lifted : List (L × κ)}
    (h : List.Forall₂ (SameStep items) steps lifted) : steps.map (·.1) = lifted.map (·.1) := by
  induction h with
  | nil => rfl
  | cons hstep _ ih => rw [List.map_cons, List.map_cons, hstep.1, ih]

/-- A machine that numbers each item once has no more runs than the graph has trails. -/
theorem unambiguous (h : Renumbers m items next initial accepting) (hitems : items.Nodup)
    (hgraph : Unambiguous next initial accepting P) :
    Unambiguous m.moves m.isInitial m.isAccepting P := by
  have number_eq : ∀ (i i' : Nat) (k : κ), items[i]? = some k → items[i']? = some k → i = i' := by
    intro i i' k hi hi'
    have hlt : i < items.length := (List.getElem?_eq_some_iff.mp hi).1
    exact (List.getElem?_inj hlt hitems).mp (hi.trans hi'.symm)
  have left_unique : Relator.LeftUnique (SameStep (L := L) items) := by
    intro step lifted step' hstep hstep'
    exact Prod.ext (hstep.1.trans hstep'.1.symm) (number_eq _ _ _ hstep.2 hstep'.2)
  intro i i' steps steps' hspans hspans' hP hP'
  obtain ⟨k, lifted, hlifted, hi, hsame⟩ := h.exists_spans hspans
  obtain ⟨k', lifted', hlifted', hi', hsame'⟩ := h.exists_spans hspans'
  rw [labels_eq_of_sameSteps hsame] at hP
  rw [labels_eq_of_sameSteps hsame'] at hP'
  obtain ⟨rfl, rfl⟩ := hgraph k k' lifted lifted' hlifted hlifted' hP hP'
  exact ⟨number_eq i i' k hi hi', List.left_unique_forall₂' left_unique hsame hsame'⟩

end Renumbers

namespace Machine

variable {P : List L → Prop}

theorem unambiguous_explored [Ord ι] [Std.TransOrd ι] [Std.LawfulEqOrd ι] [Ord L] [Std.TransOrd L]
    [Std.LawfulEqOrd L] {key : κ → ι} (hkey : Function.Injective key) {next : κ → List (L × κ)}
    {bound : Nat} {roots : List κ} {initial accepting : κ → Bool}
    (h : Unambiguous next initial accepting P) :
    Unambiguous (explored key next bound roots initial accepting).moves
      (explored key next bound roots initial accepting).isInitial
      (explored key next bound roots initial accepting).isAccepting P := by
  refine (renumbers_explored hkey).unambiguous (List.Nodup.of_map key ?_) h
  rw [exploredItems, List.map_map]
  exact nodup_explore

theorem unambiguous_trim {m : Machine L} (h : Unambiguous m.moves m.isInitial m.isAccepting P) :
    Unambiguous m.trim.moves m.trim.isInitial m.trim.isAccepting P := by
  rcases m.trim_cases with ⟨_, htrim⟩ | ⟨_, htrim⟩
  · rw [htrim]
    exact (renumbers_restrict m.nodup_usefulStates).unambiguous m.nodup_usefulStates h
  · rw [htrim]
    intro _ _ _ _ hspans
    -- the lone state accepts nothing
    obtain ⟨_, r, _, hr⟩ := hspans
    rw [isAccepting_lone] at hr
    cases hr

end Machine

end Transduction
