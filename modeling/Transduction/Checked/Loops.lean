/-
Loops whose steps may fail.

A checked computation gives nothing as soon as it asks for something that is not there.  Where
each step of a loop succeeds, the loop does what the plain one does:

* `mapM_eq_some_map`, `mapM_eq_some_mapIdx` — one answer for each item of a list, which may
  depend on its position;
* `mapM_range_eq_some` — the items of a list by their positions;
* `filterMap?`, `filter?`, `flatMap?`, `any?` — the loops that put answers together, each with its
  equation;
* `foldlM_eq_some_foldl` — a state that the items change one after the other, where the steps rely
  on something that they keep;
* `EndsLike`, `EndsLike.andThen` — computations that may also refuse what they are given.
-/
import Mathlib.Data.List.Basic

namespace Transduction

variable {α β σ : Type}

theorem mapM_eq_some_map {f : α → Option β} {g : α → β} {xs : List α}
    (h : ∀ x ∈ xs, f x = some (g x)) : xs.mapM f = some (xs.map g) := by
  induction xs with
  | nil => rfl
  | cons x xs ih =>
    rw [List.mapM_cons, h x List.mem_cons_self, ih fun y hy => h y (List.mem_cons_of_mem x hy)]
    rfl

theorem mapM_eq_some_mapIdx {f : α → Option β} {g : Nat → α → β} {xs : List α}
    (h : ∀ i x, xs[i]? = some x → f x = some (g i x)) : xs.mapM f = some (xs.mapIdx g) := by
  induction xs generalizing g with
  | nil => rfl
  | cons x xs ih =>
    have hxs : xs.mapM f = some (xs.mapIdx fun i => g (i + 1)) := ih fun i => h (i + 1)
    rw [List.mapM_cons, h 0 x rfl, hxs, List.mapIdx_cons]
    rfl

/-- A loop over positions finds the items of a list. -/
theorem mapM_range_eq_some {f : Nat → Option β} {ys : List β}
    (h : ∀ i y, ys[i]? = some y → f i = some y) : (List.range ys.length).mapM f = some ys := by
  rw [List.range_eq_range', ← List.zipIdx_map_snd 0 ys, List.mapM_map]
  refine (mapM_eq_some_map (g := Prod.fst) fun entry hentry => ?_).trans ?_
  · exact h _ _ (List.mk_mem_zipIdx_iff_getElem?.mp hentry)
  · rw [List.zipIdx_map_fst]

/-- If a loop has succeeded, so has each step of it. -/
theorem isSome_of_mapM_eq_some {f : α → Option β} {xs : List α} {ys : List β}
    (h : xs.mapM f = some ys) : ∀ x ∈ xs, (f x).isSome = true := by
  induction xs generalizing ys with
  | nil => exact fun _ hx => absurd hx List.not_mem_nil
  | cons x xs ih =>
    rw [List.mapM_cons] at h
    obtain ⟨y, hy, h⟩ := Option.bind_eq_some_iff.mp h
    obtain ⟨ys, hys, _⟩ := Option.bind_eq_some_iff.mp h
    refine List.forall_mem_cons.mpr ⟨?_, ih hys⟩
    rw [hy]
    rfl

/-- The answers of the items that have one. -/
def filterMap? (f : α → Option (Option β)) (xs : List α) : Option (List β) :=
  (xs.mapM f).map (·.filterMap id)

/-- The items that have a property. -/
def filter? (f : α → Option Bool) (xs : List α) : Option (List α) :=
  filterMap? (fun x => (f x).map fun b => if b then some x else none) xs

/-- The answers of all items, put one behind the other. -/
def flatMap? (f : α → Option (List β)) (xs : List α) : Option (List β) :=
  (xs.mapM f).map List.flatten

/-- Whether some item has a property.  All items are asked. -/
def any? (f : α → Option Bool) (xs : List α) : Option Bool := (xs.mapM f).map (·.any id)

theorem filterMap?_eq {f : α → Option (Option β)} {g : α → Option β} {l : List α}
    (h : ∀ x ∈ l, f x = some (g x)) : filterMap? f l = some (l.filterMap g) := by
  rw [filterMap?, mapM_eq_some_map h, Option.map_some, List.filterMap_map]
  rfl

theorem filter?_eq {f : α → Option Bool} {g : α → Bool} {l : List α}
    (h : ∀ x ∈ l, f x = some (g x)) : filter? f l = some (l.filter g) := by
  rw [filter?, ← List.filterMap_eq_filter]
  exact filterMap?_eq fun x hx => by rw [h x hx]; rfl

theorem flatMap?_eq {f : α → Option (List β)} {g : α → List β} {l : List α}
    (h : ∀ x ∈ l, f x = some (g x)) : flatMap? f l = some (l.flatMap g) := by
  rw [flatMap?, mapM_eq_some_map h]
  rfl

theorem any?_eq {f : α → Option Bool} {g : α → Bool} {l : List α}
    (h : ∀ x ∈ l, f x = some (g x)) : any? f l = some (l.any g) := by
  rw [any?, mapM_eq_some_map h, Option.map_some, List.any_map]
  rfl

theorem foldlM_eq_some_foldl {f : σ → α → Option σ} {g : σ → α → σ} {P : σ → Prop} {l : List α}
    {s : σ} (hs : P s) (h : ∀ s, P s → ∀ x ∈ l, f s x = some (g s x) ∧ P (g s x)) :
    l.foldlM f s = some (l.foldl g s) ∧ P (l.foldl g s) := by
  induction l generalizing s with
  | nil => exact ⟨rfl, hs⟩
  | cons x l ih =>
    obtain ⟨hx, hP⟩ := h s hs x List.mem_cons_self
    rw [List.foldlM_cons, hx]
    exact ih hP fun s hs y hy => h s hs y (List.mem_cons_of_mem x hy)

/-! ### Computations that refuse or fail -/

/-- Goes on with what a computation has given, unless it fails or has refused. -/
def andThen? {ε : Type} (x : Option (Except ε α)) (f : α → Option (Except ε β)) :
    Option (Except ε β) :=
  x.bind fun
    | .error e => some (.error e)
    | .ok a => f a

/-- A computation does not fail, and it ends like another one that cannot fail: with the same error,
or with related values. -/
inductive EndsLike {ε : Type} (R : α → β → Prop) : Option (Except ε α) → Except ε β → Prop where
  | error (e : ε) : EndsLike R (some (.error e)) (.error e)
  | ok {a : α} {b : β} : R a b → EndsLike R (some (.ok a)) (.ok b)

namespace EndsLike

variable {α' β' ε : Type} {R : α → β → Prop} {S : α' → β' → Prop} {T : α → β' → Prop}
  {x : Option (Except ε α)} {y : Except ε β}

theorem imp {R' : α → β → Prop} (h : EndsLike R x y) (himp : ∀ a b, R a b → R' a b) :
    EndsLike R' x y := by
  cases h with
  | error e => exact .error e
  | ok hab => exact .ok (himp _ _ hab)

theorem andThen {f : α → Option (Except ε α')} {g : β → Except ε β'} (h : EndsLike R x y)
    (hf : ∀ a b, R a b → EndsLike S (f a) (g b)) : EndsLike S (andThen? x f) (y >>= g) := by
  cases h with
  | error e => exact .error e
  | ok hab => exact hf _ _ hab

theorem bind_pure {g : β → β'} (h : EndsLike R x y) (hg : ∀ a b, R a b → T a (g b)) :
    EndsLike T x (y >>= fun b => pure (g b)) := by
  cases h with
  | error e => exact .error e
  | ok hab => exact .ok (hg _ _ hab)

/-- A computation that cannot fail ends like itself. -/
theorem refl (y : Except ε α) : EndsLike (fun a b => a = b) (some y) y := by
  cases y with
  | error e => exact .error e
  | ok a => exact .ok rfl

theorem eq_some {x : Option (Except ε α)} {y : Except ε α}
    (h : EndsLike (fun a b => a = b) x y) : x = some y := by
  cases h with
  | error e => rfl
  | ok hab => rw [hab]

/-- Where values are related to what they stand for, the one computation is the other. -/
theorem eq_map {f : β → α} (h : EndsLike (fun a b => a = f b) x y) : x = some (y.map f) := by
  cases h with
  | error e => rfl
  | ok hab => rw [hab]; rfl

end EndsLike

end Transduction
