import Lachesis.Vecengine.Branches

/-!
Merged `HighestBefore` entries. An entry covers a set of sequence numbers when it holds
the least and the greatest of them; merging covers the union, and a fork mark absorbs
whatever it is merged with. The two loops over the creators mark all branches of a
creator or none.
-/

namespace Lachesis.Vecengine

open Dag Pos Vecfc HighestBeforeSeq

structure Covers (p : Nat → Prop) (s : BranchSeq) : Prop where
  positive : ∀ n, p n → 0 < n
  bounds : ∀ n, p n → s.minSeq ≤ n ∧ n ≤ s.seq
  reached : s.seq ≠ 0 → p s.seq ∧ p s.minSeq
  blank : s.seq = 0 → s = .empty

namespace Covers

variable {p q : Nat → Prop} {s : BranchSeq}

theorem unmarked (covers : Covers p s) : s.isForkDetected = false := by
  by_cases zero : s.seq = 0
  · rw [covers.blank zero]
    rfl
  · exact BranchSeq.unmarked_of_seq (by omega)

theorem congr (covers : Covers p s) (same : ∀ n, p n ↔ q n) : Covers q s where
  positive := fun n holds => covers.positive n ((same n).mpr holds)
  bounds := fun n holds => covers.bounds n ((same n).mpr holds)
  reached := fun nonzero => by
    obtain ⟨top, low⟩ := covers.reached nonzero
    exact ⟨(same _).mp top, (same _).mp low⟩
  blank := covers.blank

theorem ofEmpty (none : ∀ n, ¬ p n) : Covers p .empty where
  positive := fun n holds => absurd holds (none n)
  bounds := fun n holds => absurd holds (none n)
  reached := fun nonzero => absurd rfl nonzero
  blank := fun _ => rfl

theorem single {n : Nat} (positive : 0 < n) : Covers (fun m => m = n) ⟨n, n⟩ where
  positive := fun m same => same ▸ positive
  bounds := fun m same => by subst m; exact ⟨le_rfl, le_rfl⟩
  reached := fun _ => ⟨rfl, rfl⟩
  blank := fun zero => by simp only at zero; omega

theorem isEmpty_iff (covers : Covers p s) : s.seq = 0 ↔ ∀ n, ¬ p n := by
  constructor
  · intro zero n holds
    have := (covers.bounds n holds).2
    have := covers.positive n holds
    omega
  · intro none
    by_contra nonzero
    exact none _ (covers.reached nonzero).1

theorem merge {mine his : BranchSeq} (left : Covers p mine) (right : Covers q his) :
    Covers (fun n => p n ∨ q n) (merge mine his) := by
  unfold HighestBeforeSeq.merge
  by_cases hisZero : his.seq = 0
  · rw [if_pos ⟨hisZero, right.unmarked⟩]
    refine left.congr fun n => ?_
    simp [right.isEmpty_iff.mp hisZero n]
  rw [if_neg (by simp [hisZero]), if_neg (by simp [left.unmarked]),
    if_neg (by simp [right.unmarked])]
  obtain ⟨hisTop, hisLow⟩ := right.reached hisZero
  by_cases myZero : mine.seq = 0
  · simp only [myZero, true_or, ↓reduceIte, Nat.zero_max]
    refine right.congr fun n => ?_
    simp [left.isEmpty_iff.mp myZero n]
  obtain ⟨myTop, myLow⟩ := left.reached myZero
  refine ⟨?_, ?_, ?_, ?_⟩
  · rintro n (holds | holds)
    · exact left.positive n holds
    · exact right.positive n holds
  · rintro n (holds | holds)
    · have := left.bounds n holds
      simp only [myZero, false_or, le_max_iff]
      split <;> omega
    · have := right.bounds n holds
      simp only [myZero, false_or, le_max_iff]
      split <;> omega
  · grind
  · intro zero
    simp only at zero
    omega

theorem foldl_merge {α : Type} {cover : α → Nat → Prop} {entry : α → BranchSeq} :
    ∀ (parents : List α) {p : Nat → Prop} {s : BranchSeq}, Covers p s →
      (∀ a ∈ parents, Covers (cover a) (entry a)) →
      Covers (fun n => p n ∨ ∃ a ∈ parents, cover a n)
        ((parents.map entry).foldl HighestBeforeSeq.merge s) := by
  intro parents
  induction parents with
  | nil => intro p s covers _; exact covers.congr fun n => by simp
  | cons a rest ih =>
    intro p s covers each
    have first := covers.merge (each a List.mem_cons_self)
    have all := ih first fun b member => each b (List.mem_cons_of_mem a member)
    refine all.congr fun n => ?_
    simp only [List.mem_cons, exists_eq_or_imp]
    tauto

end Covers

theorem merge_mark_left (his : BranchSeq) :
    merge .forkDetectedSeq his = .forkDetectedSeq := by
  unfold merge
  split
  · rfl
  · rfl

theorem merge_mark_right (mine : BranchSeq) :
    merge mine .forkDetectedSeq = .forkDetectedSeq := by
  unfold merge
  by_cases marked : mine.isForkDetected = true
  · rw [if_neg (by simp), if_pos marked, BranchSeq.eq_mark.mp marked]
  · rw [if_neg (by simp), if_neg marked, if_pos (by simp)]

theorem foldl_merge_mark (entries : List BranchSeq) :
    entries.foldl merge .forkDetectedSeq = .forkDetectedSeq := by
  induction entries with
  | nil => rfl
  | cons s rest ih => rw [List.foldl_cons, merge_mark_left, ih]

theorem foldl_merge_marked : ∀ (entries : List BranchSeq) (s : BranchSeq),
    .forkDetectedSeq ∈ entries → entries.foldl merge s = .forkDetectedSeq := by
  intro entries
  induction entries with
  | nil => simp
  | cons first rest ih =>
    intro s member
    rcases List.mem_cons.mp member with rfl | later
    · rw [List.foldl_cons, merge_mark_right, foldl_merge_mark]
    · exact ih _ later

theorem collectParents_get (num : Nat) : ∀ (vecs : List (EventID × HighestBeforeSeq))
    (before : HighestBeforeSeq), ∃ result,
      collectParents num (vecs.map fun v => (v.1, some v.2)) before = .ok result ∧
      ∀ b, result.get b = if b < num
        then (vecs.map fun v => v.2.get b).foldl merge (before.get b) else before.get b := by
  intro vecs
  induction vecs with
  | nil => intro before; exact ⟨before, rfl, fun b => by simp⟩
  | cons v rest ih =>
    intro before
    obtain ⟨result, run, entries⟩ := ih (before.collectFrom v.2 num)
    refine ⟨result, run, fun b => ?_⟩
    rw [entries b, get_collectFrom]
    by_cases below : b < num
    · simp only [below, ↓reduceIte, List.map_cons, List.foldl_cons]
    · simp only [below, ↓reduceIte]

theorem foldl_setForkDetected (branches : List Nat) (before : HighestBeforeSeq) (b : Nat) :
    (branches.foldl HighestBeforeSeq.setForkDetected before).get b =
      if b ∈ branches then .forkDetectedSeq else before.get b := by
  induction branches generalizing before with
  | nil => simp
  | cons branch rest ih =>
    rw [List.foldl_cons, ih]
    by_cases later : b ∈ rest
    · simp [later]
    · simp only [later, ↓reduceIte, HighestBeforeSeq.setForkDetected, get_set, List.mem_cons,
        or_false]

theorem any_congr_mem {α : Type} {xs : List α} {p q : α → Bool}
    (same : ∀ a ∈ xs, p a = q a) : xs.any p = xs.any q := by
  rw [Bool.eq_iff_iff, List.any_eq_true, List.any_eq_true]
  exact exists_congr fun a => and_congr_right fun member => by rw [same a member]

section Creators

variable {vv : Validators} {bi : BranchesInfo}

variable {n a a' m : Nat} {before before' : HighestBeforeSeq}

theorem get_setForkDetected (consistent : bi.Consistent vv) (listed : n < vv.len)
    (before : HighestBeforeSeq) (b : Nat) : (setForkDetected bi before n).get b =
      if b < bi.width ∧ bi.creatorIdx b = n then .forkDetectedSeq else before.get b := by
  rw [setForkDetected, consistent.initial n listed, foldl_setForkDetected]
  simp only [consistent.mem n listed]

/-- A loop over the creators that marks all branches of a creator or none, on grounds
that concern this creator's entries only. -/
theorem foldl_creators (consistent : bi.Consistent vv)
    {turn : HighestBeforeSeq → Nat → HighestBeforeSeq} {marks : HighestBeforeSeq → Nat → Bool}
    (turns : ∀ before n, turn before n = if marks before n then setForkDetected bi before n else before)
    (own : ∀ before before' n, n < vv.len →
      (∀ b, b < bi.width → bi.creatorIdx b = n → before.get b = before'.get b) →
      marks before n = marks before' n)
    (before : HighestBeforeSeq) (b : Nat) :
    ((List.range vv.len).foldl turn before).get b =
      if b < bi.width ∧ marks before (bi.creatorIdx b) = true
      then .forkDetectedSeq else before.get b := by
  have upTo : ∀ k ≤ vv.len, ∀ b, ((List.range k).foldl turn before).get b =
      if b < bi.width ∧ bi.creatorIdx b < k ∧ marks before (bi.creatorIdx b) = true
      then .forkDetectedSeq else before.get b := by
    intro k
    induction k with
    | zero => simp
    | succ k ih =>
      intro within b
      have rest := ih (by omega)
      rw [List.range_succ, List.foldl_append, List.foldl_cons, List.foldl_nil, turns]
      have same : marks ((List.range k).foldl turn before) k = marks before k := by
        refine own _ _ k (by omega) fun b below creator => ?_
        rw [rest b, if_neg (by omega)]
      rw [same]
      by_cases marked : marks before k = true
      · rw [if_pos marked, get_setForkDetected consistent (by omega), rest b]
        by_cases below : b < bi.width
        · grind
        · simp [below]
      · grind
  rw [upTo vv.len le_rfl b]
  by_cases below : b < bi.width
  · simp only [below, true_and, consistent.known b below]
  · simp [below]

def spreadMarks (bi : BranchesInfo) (before : HighestBeforeSeq) (n : Nat) : Bool :=
  decide (1 < (bi.byCreator n).length) && (bi.byCreator n).any before.isForkDetected

def detectMarks (bi : BranchesInfo) (before : HighestBeforeSeq) (n : Nat) : Bool :=
  !before.isForkDetected n && (bi.byCreator n).any fun a => (bi.byCreator n).any (overlaps before a)

theorem spreadMarks_congr (consistent : bi.Consistent vv) (listed : n < vv.len)
    (same : ∀ b, b < bi.width → bi.creatorIdx b = n → before.get b = before'.get b) :
    spreadMarks bi before n = spreadMarks bi before' n := by
  unfold spreadMarks
  congr 1
  refine any_congr_mem fun a member => ?_
  obtain ⟨below, creator⟩ := (consistent.mem n listed a).mp member
  simp only [HighestBeforeSeq.isForkDetected, same a below creator]

theorem detectMarks_congr (consistent : bi.Consistent vv) (listed : n < vv.len)
    (same : ∀ b, b < bi.width → bi.creatorIdx b = n → before.get b = before'.get b) :
    detectMarks bi before n = detectMarks bi before' n := by
  have initial : before.get n = before'.get n :=
    same n (listed.trans_le consistent.wide) (consistent.initial n listed)
  have entries : ∀ a ∈ bi.byCreator n, before.get a = before'.get a := by
    intro a member
    obtain ⟨below, creator⟩ := (consistent.mem n listed a).mp member
    exact same a below creator
  unfold detectMarks
  simp only [HighestBeforeSeq.isForkDetected, initial]
  congr 1
  refine any_congr_mem fun a member => any_congr_mem fun a' member' => ?_
  unfold overlaps HighestBeforeSeq.isEmpty HighestBeforeSeq.seq HighestBeforeSeq.minSeq
  rw [entries a member, entries a' member']

theorem foldl_spreadForks (consistent : bi.Consistent vv) (before : HighestBeforeSeq) (b : Nat) :
    ((List.range vv.len).foldl (spreadForks bi) before).get b =
      if b < bi.width ∧ spreadMarks bi before (bi.creatorIdx b) = true
      then .forkDetectedSeq else before.get b := by
  refine foldl_creators consistent ?_ (fun _ _ _ => spreadMarks_congr consistent) before b
  intro before n
  unfold spreadForks spreadMarks
  by_cases lone : (bi.byCreator n).length ≤ 1
  · have few : ¬ 1 < (bi.byCreator n).length := by omega
    simp [lone, few]
  · have many : 1 < (bi.byCreator n).length := by omega
    simp [lone, many]

theorem foldl_detectForks (consistent : bi.Consistent vv) (before : HighestBeforeSeq) (b : Nat) :
    ((List.range vv.len).foldl (detectForks bi) before).get b =
      if b < bi.width ∧ detectMarks bi before (bi.creatorIdx b) = true
      then .forkDetectedSeq else before.get b := by
  refine foldl_creators consistent ?_ (fun _ _ _ => detectMarks_congr consistent) before b
  intro before n
  unfold detectForks detectMarks
  cases before.isForkDetected n <;> simp

/-- The two loops together: a creator's branches are all marked if a parent's mark is among
them, or if two of them overlap. -/
theorem get_highestBefore (consistent : bi.Consistent vv) (before : HighestBeforeSeq) (b : Nat) :
    (highestBefore vv bi before).get b =
      if bi.atLeastOneFork vv = true ∧ b < bi.width ∧
        (spreadMarks bi before (bi.creatorIdx b) = true ∨
          detectMarks bi before (bi.creatorIdx b) = true)
      then .forkDetectedSeq else before.get b := by
  unfold highestBefore
  cases forked : bi.atLeastOneFork vv with
  | false => simp
  | true =>
    simp only [↓reduceIte, true_and]
    rw [foldl_detectForks consistent, foldl_spreadForks consistent]
    by_cases below : b < bi.width
    · by_cases spread : spreadMarks bi before (bi.creatorIdx b) = true
      · simp [below, spread]
      · have same : detectMarks bi ((List.range vv.len).foldl (spreadForks bi) before)
            (bi.creatorIdx b) = detectMarks bi before (bi.creatorIdx b) :=
          detectMarks_congr consistent (consistent.known b below) fun a _ creator => by
            rw [foldl_spreadForks consistent, creator, if_neg (by simp [spread])]
        simp only [below, true_and, same, spread, Bool.false_eq_true, false_or, ↓reduceIte]
    · simp [below]

theorem overlaps_iff {p p' : Nat → Prop} (covers : Covers p (before.get a))
    (covers' : Covers p' (before.get a')) :
    overlaps before a a' = true ↔ a ≠ a' ∧ (∃ n n', p n ∧ p' n' ∧ n ≤ n') ∧
      ∃ n n', p n ∧ p' n' ∧ n' ≤ n := by
  have filled : overlaps before a a' = true ↔ a ≠ a' ∧ (before.get a).seq ≠ 0 ∧
      (before.get a').seq ≠ 0 ∧ (before.get a).minSeq ≤ (before.get a').seq ∧
      (before.get a').minSeq ≤ (before.get a).seq := by
    simp only [overlaps, Bool.and_eq_true, decide_eq_true_eq, and_assoc]
    simp [HighestBeforeSeq.isEmpty, HighestBeforeSeq.seq, HighestBeforeSeq.minSeq,
      covers.unmarked, covers'.unmarked]
  rw [filled]
  constructor
  · rintro ⟨different, some, some', low, high⟩
    obtain ⟨top, least⟩ := covers.reached some
    obtain ⟨top', least'⟩ := covers'.reached some'
    exact ⟨different, ⟨_, _, least, top', low⟩, _, _, top, least', high⟩
  · rintro ⟨different, ⟨n, n', holds, holds', low⟩, m, m', upper, upper', high⟩
    have := covers.positive n holds
    have := covers'.positive n' holds'
    have := covers.bounds n holds
    have := covers.bounds m upper
    have := covers'.bounds n' holds'
    have := covers'.bounds m' upper'
    exact ⟨different, by omega, by omega, by omega, by omega⟩

theorem detectMarks_iff (consistent : bi.Consistent vv) (listed : m < vv.len) {p : Nat → Nat → Prop}
    (covers : ∀ a < bi.width, bi.creatorIdx a = m → Covers (p a) (before.get a)) :
    detectMarks bi before m = true ↔ ∃ a a', a ≠ a' ∧
      (a < bi.width ∧ bi.creatorIdx a = m) ∧ (a' < bi.width ∧ bi.creatorIdx a' = m) ∧
      (∃ n n', p a n ∧ p a' n' ∧ n ≤ n') ∧ ∃ n n', p a n ∧ p a' n' ∧ n' ≤ n := by
  have initial : before.isForkDetected m = false :=
    (covers m (listed.trans_le consistent.wide) (consistent.initial m listed)).unmarked
  simp only [detectMarks, initial, Bool.not_false, Bool.true_and, List.any_eq_true,
    consistent.mem m listed]
  constructor
  · rintro ⟨a, own, a', own', overlap⟩
    obtain ⟨different, rest⟩ :=
      (overlaps_iff (covers a own.1 own.2) (covers a' own'.1 own'.2)).mp overlap
    exact ⟨a, a', different, own, own', rest⟩
  · rintro ⟨a, a', different, own, own', rest⟩
    exact ⟨a, own, a', own',
      (overlaps_iff (covers a own.1 own.2) (covers a' own'.1 own'.2)).mpr ⟨different, rest⟩⟩

theorem spreadMarks_iff (consistent : bi.Consistent vv) (listed : m < vv.len) :
    spreadMarks bi before m = true ↔ 1 < (bi.byCreator m).length ∧
      ∃ a < bi.width, bi.creatorIdx a = m ∧ before.get a = .forkDetectedSeq := by
  simp only [spreadMarks, Bool.and_eq_true, decide_eq_true_eq, List.any_eq_true,
    consistent.mem m listed, HighestBeforeSeq.isForkDetected, BranchSeq.eq_mark, and_assoc]

theorem forked_of_two (consistent : bi.Consistent vv) (different : a ≠ a') (below : a < bi.width)
    (below' : a' < bi.width) (same : bi.creatorIdx a = bi.creatorIdx a') :
    bi.atLeastOneFork vv = true ∧ 1 < (bi.byCreator (bi.creatorIdx a)).length := by
  have listed := consistent.known a below
  constructor
  · rw [BranchesInfo.atLeastOneFork, decide_eq_true_eq]
    by_contra narrow
    have wide := consistent.wide
    have first := consistent.initial a (by omega)
    have second := consistent.initial a' (by omega)
    omega
  · have member := (consistent.mem _ listed a).mpr ⟨below, rfl⟩
    have member' := (consistent.mem _ listed a').mpr ⟨below', same.symm⟩
    by_contra short
    obtain ⟨only, is⟩ := List.length_eq_one_iff.mp
      (le_antisymm (by omega) (List.length_pos_of_mem member))
    rw [is, List.mem_singleton] at member member'
    exact different (member.trans member'.symm)

end Creators

end Lachesis.Vecengine
