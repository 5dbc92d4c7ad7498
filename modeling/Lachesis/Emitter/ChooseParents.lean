import Lachesis.Dag

/-!
`ChooseParents` of `emitter/ancestor`, for any strategies, among them those that go by a metric.
-/

namespace Lachesis.Ancestor

open Dag

/-- `Choose`, at the one call that `ChooseParents` makes of it: the parents so far and the options. -/
abbrev SearchStrategy := List EventID → List EventID → Nat

/-- `Slice` of a set walks over a map, in any order. -/
structure Slicing where
  slice : Finset EventID → List EventID
  nodup : ∀ set, (slice set).Nodup
  mem_slice : ∀ set x, x ∈ slice set ↔ x ∈ set

/-- The loop of `MetricStrategy.Choose` from index `i` on, with `maxI` and `maxWeight`. -/
def heaviest (metricFn : EventID → UInt64) : Nat → List EventID → Nat × UInt64 → Nat × UInt64
  | _, [], best => best
  | i, opt :: rest, best =>
    let weight := metricFn opt
    heaviest metricFn (i + 1) rest (if best.2 = 0 ∨ weight > best.2 then (i, weight) else best)

def metricStrategy (metricFn : EventID → UInt64) : SearchStrategy :=
  fun _ options => (heaviest metricFn 0 options (0, 0)).1

/-- The loop of `ChooseParents`. An index that is not one of the options panics. -/
def chooseFrom (order : Slicing) :
    List SearchStrategy → List EventID → Finset EventID → Option (List EventID)
  | [], parents, _ => some parents
  | strategy :: rest, parents, optionsSet =>
    if 0 < optionsSet.card then
      let curOptions := order.slice optionsSet
      match curOptions[strategy parents curOptions]? with
      | some best => chooseFrom order rest (parents ++ [best]) (optionsSet.erase best)
      | none => none
    else some parents

def chooseParents (order : Slicing) (existingParents options : List EventID)
    (strategies : List SearchStrategy) : Option (List EventID) :=
  chooseFrom order strategies existingParents (options.toFinset \ existingParents.toFinset)

def SearchStrategy.Lawful (strategy : SearchStrategy) : Prop :=
  ∀ parents options, options ≠ [] → strategy parents options < options.length

/-- After the options of `seen`: none yet, or a heaviest one. -/
def Leads (metricFn : EventID → UInt64) (seen : List EventID) (best : Nat × UInt64) : Prop :=
  seen = [] ∧ best = (0, 0) ∨
    (∃ x, seen[best.1]? = some x ∧ metricFn x = best.2) ∧ ∀ y ∈ seen, metricFn y ≤ best.2

theorem heaviest_leads {metricFn : EventID → UInt64} {seen rest : List EventID} {best : Nat × UInt64}
    (leads : Leads metricFn seen best) :
    Leads metricFn (seen ++ rest) (heaviest metricFn seen.length rest best) := by
  induction rest generalizing seen best with
  | nil => simpa [heaviest] using leads
  | cons opt rest ih =>
    rw [heaviest, ← List.singleton_append, ← List.append_assoc]
    have length : seen.length + 1 = (seen ++ [opt]).length := by simp
    rw [length]
    apply ih
    have light : ∀ y ∈ seen, metricFn y ≤ best.2 := by
      rcases leads with ⟨rfl, _⟩ | ⟨_, light⟩
      · simp
      · exact light
    right
    split
    · next better =>
      refine ⟨⟨opt, by simp, rfl⟩, fun y member => ?_⟩
      have below : best.2 ≤ metricFn opt := by
        rcases better with zero | above
        · exact zero ▸ UInt64.zero_le
        · exact UInt64.le_of_lt above
      rcases List.mem_append.mp member with before | now
      · exact UInt64.le_trans (light y before) below
      · exact List.mem_singleton.mp now ▸ UInt64.le_refl _
    · next worse =>
      obtain ⟨some_, above⟩ := not_or.mp worse
      rcases leads with ⟨_, rfl⟩ | ⟨⟨x, found, weighs⟩, _⟩
      · exact absurd rfl some_
      have place := (List.getElem?_eq_some_iff.mp found).1
      refine ⟨⟨x, (List.getElem?_append_left place).trans found, weighs⟩, fun y member => ?_⟩
      rcases List.mem_append.mp member with before | now
      · exact light y before
      · exact List.mem_singleton.mp now ▸ UInt64.not_lt.mp above

theorem metricStrategy_heaviest (metricFn : EventID → UInt64) (parents : List EventID)
    {options : List EventID} (some_ : options ≠ []) :
    ∃ x, options[metricStrategy metricFn parents options]? = some x ∧
      ∀ y ∈ options, metricFn y ≤ metricFn x := by
  have leads : Leads metricFn ([] ++ options) (heaviest metricFn 0 options (0, 0)) :=
    heaviest_leads (.inl ⟨rfl, rfl⟩)
  rcases leads with ⟨none_, _⟩ | ⟨⟨x, found, weighs⟩, light⟩
  · exact absurd none_ some_
  · exact ⟨x, found, fun y member => weighs ▸ light y member⟩

theorem metricStrategy_lawful (metricFn : EventID → UInt64) : (metricStrategy metricFn).Lawful := by
  intro parents options some_
  obtain ⟨x, found, _⟩ := metricStrategy_heaviest metricFn parents some_
  exact (List.getElem?_eq_some_iff.mp found).1

/-- One option for each strategy as long as there are any; one that goes by a metric gets a heaviest
of those left. -/
structure Picks (strategies : List SearchStrategy) (set : Finset EventID) (chosen : List EventID) :
    Prop where
  nodup : chosen.Nodup
  options : ∀ x ∈ chosen, x ∈ set
  length : chosen.length = min strategies.length set.card
  heaviest : ∀ k metricFn x, strategies[k]? = some (metricStrategy metricFn) → chosen[k]? = some x →
    ∀ y ∈ set, y ∉ chosen.take k → metricFn y ≤ metricFn x

theorem chooseFrom_picks (order : Slicing) {strategies : List SearchStrategy}
    (lawful : ∀ strategy ∈ strategies, strategy.Lawful) (parents : List EventID)
    (set : Finset EventID) :
    ∃ chosen, chooseFrom order strategies parents set = some (parents ++ chosen) ∧
      Picks strategies set chosen := by
  induction strategies generalizing parents set with
  | nil => exact ⟨[], by simp [chooseFrom], by simp, by simp, by simp, by simp⟩
  | cons strategy rest ih =>
    rw [chooseFrom]
    split
    · next left_ =>
      have some_ : order.slice set ≠ [] := by
        obtain ⟨x, member⟩ := Finset.card_pos.mp left_
        exact List.ne_nil_of_mem ((order.mem_slice set x).mpr member)
      have inside := lawful strategy List.mem_cons_self parents _ some_
      obtain ⟨best, found⟩ : ∃ best, (order.slice set)[strategy parents (order.slice set)]? =
          some best := ⟨_, List.getElem?_eq_getElem inside⟩
      have member : best ∈ set := (order.mem_slice set best).mp (List.mem_of_getElem? found)
      obtain ⟨chosen, runs, nodup, options, length, heaviest⟩ :=
        ih (fun s later => lawful s (List.mem_cons_of_mem _ later)) (parents ++ [best])
          (set.erase best)
      refine ⟨best :: chosen, by simpa [found] using runs, ?_, ?_, ?_, ?_⟩
      · grind
      · grind
      · grind
      · intro k metricFn x names picked y inSet before
        cases k with
        | zero =>
          cases names
          cases picked
          obtain ⟨x, first, light⟩ := metricStrategy_heaviest metricFn parents some_
          cases found.symm.trans first
          exact light y ((order.mem_slice set y).mpr inSet)
        | succ k =>
          rw [List.take_succ_cons, List.mem_cons, not_or] at before
          exact heaviest k metricFn x names picked y (Finset.mem_erase.mpr ⟨before.1, inSet⟩) before.2
    · next none_ =>
      have empty : set.card = 0 := by omega
      exact ⟨[], by simp, by simp, by simp, by simp [empty], by simp⟩

/-- `ChooseParents` keeps the given parents and appends different ones: one for each strategy, as long
as there are options that are not parents yet. -/
theorem chooseParents_picks (order : Slicing) (existing options : List EventID)
    (strategies : List SearchStrategy) (lawful : ∀ strategy ∈ strategies, strategy.Lawful)
    (distinct : existing.Nodup) :
    ∃ chosen, chooseParents order existing options strategies = some (existing ++ chosen) ∧
      (existing ++ chosen).Nodup ∧
      Picks strategies (options.toFinset \ existing.toFinset) chosen := by
  obtain ⟨chosen, runs, picks⟩ := chooseFrom_picks order lawful existing
    (options.toFinset \ existing.toFinset)
  refine ⟨chosen, runs, List.Nodup.append distinct picks.nodup ?_, picks⟩
  intro x old new
  have fresh := picks.options x new
  simp [old] at fresh

/-- Three strategies, and two events beside the self-parent. -/
theorem chooseParents_picks_two : ∃ (order : Slicing) (chosen : List EventID),
    chooseParents order [1] [1, 2, 3] (.replicate 3 (metricStrategy fun id => .ofNat id.toNat)) =
      some ([1] ++ chosen) ∧ chosen.length = 2 := by
  let order : Slicing := ⟨Finset.toList, Finset.nodup_toList, fun _ _ => Finset.mem_toList⟩
  obtain ⟨chosen, runs, _, picks⟩ := chooseParents_picks order [1] [1, 2, 3]
    (.replicate 3 (metricStrategy fun id => .ofNat id.toNat))
    (fun _ member => (List.eq_of_mem_replicate member) ▸ metricStrategy_lawful _) (by decide)
  exact ⟨order, chosen, runs, picks.length.trans (by decide)⟩

end Lachesis.Ancestor
