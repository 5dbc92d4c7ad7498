import Lachesis.Pos.Builder

/-!
The weight counter of `inter/pos/stake.go` with its 32-bit sums, over what `Build` returns.
It runs in step with `Pos.WeightCounter`, whose sums are exact.
-/

namespace Lachesis.Pos.Machine

open Dag WeightedQuorum

structure WeightCounter where
  validators : Validators
  already : List Bool
  quorum : Nat
  sum : Nat

def Validators.quorum (vv : Validators) : Nat := (vv.totalWeight * 2 % 2 ^ 32 / 3 + 1) % 2 ^ 32

def Validators.newCounter (vv : Validators) : WeightCounter :=
  { validators := vv
    already := List.replicate vv.len false
    quorum := vv.quorum
    sum := 0 }

namespace WeightCounter

def countByIdx (s : WeightCounter) (validatorIdx : Nat) : Except Panic (Bool × WeightCounter) :=
  match s.already[validatorIdx]? with
  | none => .error .indexOutOfRange
  | some true => .ok (false, s)
  | some false => do
    let weight ← s.validators.getWeightByIdx validatorIdx
    .ok (true, { s with
      already := s.already.set validatorIdx true
      sum := (s.sum + weight) % 2 ^ 32 })

def count (s : WeightCounter) (v : ValidatorID) : Except Panic (Bool × WeightCounter) :=
  s.countByIdx (s.validators.getIdx v)

def hasQuorum (s : WeightCounter) : Bool := decide (s.quorum ≤ s.sum)

end WeightCounter

inductive CountCall where
  | count (v : ValidatorID)
  | countByIdx (validatorIdx : Nat)

namespace CountCall

def run (s : WeightCounter) : CountCall → Except Panic (Bool × WeightCounter)
  | .count v => s.count v
  | .countByIdx validatorIdx => s.countByIdx validatorIdx

def runAll (s : WeightCounter) : List CountCall → Except Panic (List Bool × WeightCounter)
  | [] => .ok ([], s)
  | call :: rest => do
    let (result, s) ← call.run s
    let (results, s) ← runAll s rest
    .ok (result :: results, s)

def target (vv : Validators) : CountCall → Option ValidatorID
  | .count v => if v ∈ vv.sortedIDs then some v else none
  | .countByIdx validatorIdx => vv.sortedIDs[validatorIdx]?

def counted (vv : Validators) (calls : List CountCall) : Finset ValidatorID :=
  (calls.filterMap (target vv)).toFinset

end CountCall

section Simulation

variable {vv : Validators} {pv : Pos.Validators} {s : WeightCounter} {ps : Pos.WeightCounter}
  {done : Finset ValidatorID} {call : CountCall} {v : ValidatorID}

theorem Refines.quorum (refines : Refines vv pv) : vv.quorum = pv.quorum := by
  have limit : pv.totalWeight ≤ 2 ^ 31 - 1 := pv.limited
  rw [Validators.quorum, refines.totalWeight, Pos.Validators.quorum,
    Nat.mod_eq_of_lt (show pv.totalWeight * 2 < 2 ^ 32 by omega), Nat.mod_eq_of_lt (by omega)]

theorem Refines.sortedIDs (refines : Refines vv pv) : vv.sortedIDs = pv.sortedIDs := by
  rw [Validators.sortedIDs, refines.cache]
  rfl

structure Follows (s : WeightCounter) (ps : Pos.WeightCounter) (pv : Pos.Validators)
    (done : Finset ValidatorID) : Prop where
  refines : Refines s.validators pv
  already : s.already = ps.already
  quorum : s.quorum = ps.quorum
  sum : s.sum = ps.sum
  counted : Counted ps pv done

theorem follows_new (refines : Refines vv pv) : Follows vv.newCounter pv.newCounter pv ∅ where
  refines := refines
  already := by rw [Validators.newCounter, Pos.Validators.newCounter, refines.len]
  quorum := refines.quorum
  sum := rfl
  counted := newCounter_counted pv

theorem Follows.count (follows : Follows s ps pv done) (listed : v ∈ pv.sortedIDs) :
    ∃ t, s.countByIdx (pv.getIdx v) = .ok (decide (v ∉ done), t) ∧ t.validators = s.validators ∧
      Follows t (ps.count v).2 pv (insert v done) := by
  have grown := count_counted follows.counted listed
  have flag := follows.counted.flags v listed
  have inside : pv.getIdx v < ps.already.length := follows.counted.length ▸ getIdx_lt listed
  have here := List.getElem?_eq_getElem inside
  rw [here, Option.getD_some] at flag
  rw [WeightCounter.countByIdx, follows.already, here, flag]
  by_cases seen : v ∈ done
  · simp only [seen, decide_true, not_true_eq_false, decide_false]
    rw [count_seen follows.counted seen] at grown ⊢
    exact ⟨s, rfl, rfl, follows.refines, follows.already, follows.quorum, follows.sum, grown⟩
  · simp only [seen, decide_false, not_false_eq_true, decide_true,
      follows.refines.getWeightByIdx (getIdx_lt listed)]
    have fits : (ps.count v).2.sum < 2 ^ 32 := by
      have limit : pv.totalWeight ≤ 2 ^ 31 - 1 := pv.limited
      rw [totalWeight_eq_mass] at limit
      have within := mass_mono pv.get grown.members
      rw [grown.sum]
      omega
    have counts : ps.count v = (true, { ps with
        already := ps.already.set (pv.getIdx v) true
        sum := ps.sum + pv.getWeightByIdx (pv.getIdx v) }) := by
      simp [Pos.WeightCounter.count, Pos.WeightCounter.countByIdx, follows.counted.validators, here,
        flag, seen]
    rw [counts] at fits grown ⊢
    refine ⟨_, rfl, rfl, follows.refines, rfl, follows.quorum, ?_, grown⟩
    rw [follows.sum]
    exact Nat.mod_eq_of_lt fits

theorem Follows.run (follows : Follows s ps pv done) (aimed : call.target s.validators = some v) :
    ∃ t pt, call.run s = .ok (decide (v ∉ done), t) ∧ t.validators = s.validators ∧
      Follows t pt pv (insert v done) := by
  have listed : v ∈ pv.sortedIDs ∧ call.run s = s.countByIdx (pv.getIdx v) := by
    cases call with
    | count w =>
      simp only [CountCall.target, follows.refines.sortedIDs] at aimed
      split_ifs at aimed with member
      cases aimed
      exact ⟨member, by rw [← follows.refines.getIdx]; rfl⟩
    | countByIdx i =>
      simp only [CountCall.target, follows.refines.sortedIDs] at aimed
      exact ⟨List.mem_of_getElem? aimed, by rw [getIdx_of_getElem aimed]; rfl⟩
  obtain ⟨t, result, same, next⟩ := follows.count listed.1
  exact ⟨t, _, listed.2.trans result, same, next⟩

theorem Follows.runAll {calls : List CountCall} (follows : Follows s ps pv done)
    (members : ∀ call ∈ calls, (call.target s.validators).isSome) :
    ∃ results t pt, CountCall.runAll s calls = .ok (results, t) ∧
      Follows t pt pv (done ∪ CountCall.counted s.validators calls) ∧
      results.length = calls.length ∧ ∀ i v, (calls[i]?.bind (·.target s.validators)) = some v →
        results[i]? = some (decide (v ∉ done ∪ CountCall.counted s.validators (calls.take i))) := by
  induction calls generalizing s ps done with
  | nil => exact ⟨[], s, ps, rfl, by simpa [CountCall.counted] using follows, rfl, by simp⟩
  | cons call rest ih =>
    obtain ⟨w, aimed⟩ := Option.isSome_iff_exists.mp (members call List.mem_cons_self)
    obtain ⟨t, pt, first, same, next⟩ := follows.run aimed
    obtain ⟨results, u, pu, later, ended, length, each⟩ := ih next
      (same ▸ fun call member => members call (List.mem_cons_of_mem _ member))
    rw [same] at ended each
    have grown : ∀ more, insert w done ∪ CountCall.counted s.validators more =
        done ∪ CountCall.counted s.validators (call :: more) := by
      intro more
      simp [CountCall.counted, aimed]
    refine ⟨decide (w ∉ done) :: results, u, pu, ?_, grown rest ▸ ended, by simp [length], ?_⟩
    · rw [CountCall.runAll, first]
      dsimp only [bind, Except.bind]
      rw [later]
    · rintro (_ | i) v found
      · cases aimed.symm.trans found
        simp [CountCall.counted]
      · rw [List.getElem?_cons_succ, each i v (by simpa using found), grown]
        simp

end Simulation

/-- Counting over a group that `Build` returned: the sum is the exact weight of the members counted so
far, and two quorums share more than a third. -/
theorem counting_exact {sorting : Sorting} {values : ValidatorsBuilder} {vv : Validators}
    (built : values.build sorting = .ok vv) :
    vv.totalWeight = mass vv.get vv.sortedIDs.toFinset ∧ vv.totalWeight * 2 < 2 ^ 32 ∧
    (∀ calls : List CountCall, (∀ call ∈ calls, (call.target vv).isSome) →
      ∃ results s, CountCall.runAll vv.newCounter calls = .ok (results, s) ∧
        s.sum = mass vv.get (CountCall.counted vv calls) ∧ results.length = calls.length ∧
        (∀ i v, (calls[i]?.bind (·.target vv)) = some v →
          results[i]? = some (decide (v ∉ CountCall.counted vv (calls.take i)))) ∧
        (s.hasQuorum = true ↔ 2 * vv.totalWeight < 3 * s.sum) ∧
        (vv.sortedIDs ≠ [] → CountCall.counted vv calls = vv.sortedIDs.toFinset →
          s.hasQuorum = true)) ∧
    ∀ (calls calls' : List CountCall) results results' s s',
      (∀ call ∈ calls, (call.target vv).isSome) → (∀ call ∈ calls', (call.target vv).isSome) →
      CountCall.runAll vv.newCounter calls = .ok (results, s) →
      CountCall.runAll vv.newCounter calls' = .ok (results', s') →
      s.hasQuorum = true → s'.hasQuorum = true →
      vv.totalWeight < 3 * mass vv.get (CountCall.counted vv calls ∩ CountCall.counted vv calls') := by
  obtain ⟨pv, refines, _⟩ := build_refines built
  have get : vv.get = pv.get := funext fun _ => refines.get
  have total : vv.totalWeight = mass vv.get vv.sortedIDs.toFinset := by
    rw [refines.totalWeight, totalWeight_eq_mass, get, refines.sortedIDs, Pos.Validators.group]
  have limit : vv.totalWeight ≤ 2 ^ 31 - 1 := by
    rw [refines.totalWeight]
    exact pv.limited
  have runs : ∀ calls : List CountCall, (∀ call ∈ calls, (call.target vv).isSome) →
      ∃ results s ps, CountCall.runAll vv.newCounter calls = .ok (results, s) ∧
        Follows s ps pv (CountCall.counted vv calls) ∧ results.length = calls.length ∧
        (∀ i v, (calls[i]?.bind (·.target vv)) = some v →
          results[i]? = some (decide (v ∉ CountCall.counted vv (calls.take i)))) ∧
        (s.hasQuorum = true ↔ 2 * vv.totalWeight < 3 * s.sum) := by
    intro calls members
    obtain ⟨results, s, ps, run, follows, length, each⟩ := (follows_new refines).runAll members
    simp only [Finset.empty_union] at follows each
    refine ⟨results, s, ps, run, follows, length, each, ?_⟩
    rw [WeightCounter.hasQuorum, decide_eq_true_iff, follows.quorum, follows.counted.quorum,
      Pos.Validators.quorum, refines.totalWeight]
    omega
  refine ⟨total, by omega, ?_, ?_⟩
  · intro calls members
    obtain ⟨results, s, ps, run, follows, length, each, quorum⟩ := runs calls members
    have sum : s.sum = mass vv.get (CountCall.counted vv calls) := by
      rw [follows.sum, follows.counted.sum, get]
    refine ⟨results, s, run, sum, length, each, quorum, ?_⟩
    intro nonempty whole
    obtain ⟨first, rest, ids⟩ := List.exists_cons_of_ne_nil nonempty
    have positive : 0 < pv.get first := get_pos (by rw [← refines.sortedIDs, ids]; simp)
    have part : mass vv.get {first} ≤ vv.totalWeight := by
      rw [total]
      exact mass_mono _ (by simp [ids])
    rw [mass, Finset.sum_singleton, get] at part
    rw [quorum, sum, whole, ← total]
    omega
  · intro calls calls' results results' s s' members members' run run' heavy heavy'
    obtain ⟨_, t, _, again, follows, _, _, quorum⟩ := runs calls members
    obtain ⟨_, t', _, again', follows', _, _, quorum'⟩ := runs calls' members'
    cases run.symm.trans again
    cases run'.symm.trans again'
    have overlap := mass_overlap pv.get pv.group _ _ follows.counted.members
      follows'.counted.members
    rw [quorum, follows.sum, follows.counted.sum] at heavy
    rw [quorum', follows'.sum, follows'.counted.sum] at heavy'
    rw [← totalWeight_eq_mass, ← refines.totalWeight] at overlap
    rw [get]
    omega

/-- A validator that is counted twice adds its weight once, and two quorums share the heaviest one. -/
theorem counting_exact_three : ∃ vv s s',
    (ValidatorsBuilder.setAll [⟨1, 5⟩, ⟨2, 5⟩, ⟨3, 7⟩]).build insertionSorting = .ok vv ∧
    CountCall.runAll vv.newCounter [.count 1, .count 1, .countByIdx 0] = .ok ([true, false, true], s) ∧
    CountCall.runAll vv.newCounter [.count 3, .count 2] = .ok ([true, true], s') ∧
    s.sum = mass vv.get (CountCall.counted vv [.count 1, .count 1, .countByIdx 0]) ∧
    vv.totalWeight < 3 * mass vv.get (CountCall.counted vv [.count 1, .count 1, .countByIdx 0] ∩
      CountCall.counted vv [.count 3, .count 2]) := by
  have built : (ValidatorsBuilder.setAll [⟨1, 5⟩, ⟨2, 5⟩, ⟨3, 7⟩]).build insertionSorting = .ok _ := rfl
  obtain ⟨_, _, counts, overlap⟩ := counting_exact built
  obtain ⟨_, _, run, sum, _⟩ := counts [.count 1, .count 1, .countByIdx 0] (by decide)
  cases run
  exact ⟨_, _, _, built, rfl, rfl, sum, overlap _ _ _ _ _ _ (by decide) (by decide) rfl rfl rfl rfl⟩

end Lachesis.Pos.Machine
