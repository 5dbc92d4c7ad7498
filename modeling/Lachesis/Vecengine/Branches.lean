import Lachesis.Graph
import Lachesis.Vecengine.Engine

/-!
Global branches. What holds for any choice of a branch (`Consistent`, `Extends`) is kept
apart from what holds as long as no validator is denied a new branch (`Chains`): then
each branch is a line of self-ancestors, and it is the tips of these lines that count
against `maxBranchesPerValidator`.
-/

namespace Lachesis.Vecengine

open Dag Pos Vecfc

/-- The three arrays of `BranchesInfo` tell the same story. -/
structure BranchesInfo.Consistent (vv : Validators) (bi : BranchesInfo) : Prop where
  lastSeqs : bi.branchIDLastSeq.length = bi.width
  creators : bi.branchIDByCreators.length = vv.len
  wide : vv.len ≤ bi.width
  initial : ∀ n < vv.len, bi.creatorIdx n = n
  known : ∀ b < bi.width, bi.creatorIdx b < vv.len
  mem : ∀ n < vv.len, ∀ b, b ∈ bi.byCreator n ↔ b < bi.width ∧ bi.creatorIdx b = n
  nodup : ∀ n, (bi.byCreator n).Nodup

structure BranchesInfo.Extends (bi later : BranchesInfo) : Prop where
  width : bi.width ≤ later.width
  creatorIdx : ∀ b < bi.width, later.creatorIdx b = bi.creatorIdx b

namespace BranchesInfo

variable {vv : Validators} {bi : BranchesInfo}

theorem Extends.refl (bi : BranchesInfo) : bi.Extends bi := ⟨le_rfl, fun _ _ => rfl⟩

@[simp] theorem byCreator_setLastSeq (b seq : Nat) :
    (bi.setLastSeq b seq).byCreator = bi.byCreator := rfl

theorem lastSeq_setLastSeq (consistent : bi.Consistent vv) {b : Nat} (below : b < bi.width)
    (other seq : Nat) :
    (bi.setLastSeq b seq).lastSeq other = if other = b then seq else bi.lastSeq other := by
  have length := consistent.lastSeqs
  simp only [lastSeq, setLastSeq, List.getElem?_set]
  by_cases same : other = b
  · subst other
    rw [if_pos rfl, if_pos rfl, if_pos (by omega)]
    rfl
  · rw [if_neg (Ne.symm same), if_neg same]

theorem setLastSeq_consistent (consistent : bi.Consistent vv) (b seq : Nat) :
    (bi.setLastSeq b seq).Consistent vv where
  lastSeqs := (List.length_set ..).trans consistent.lastSeqs
  creators := consistent.creators
  wide := consistent.wide
  initial := consistent.initial
  known := consistent.known
  mem := consistent.mem
  nodup := consistent.nodup

theorem setLastSeq_extends (b seq : Nat) : bi.Extends (bi.setLastSeq b seq) :=
  ⟨le_rfl, fun _ _ => rfl⟩

def addBranch (bi : BranchesInfo) (me seq : Nat) : BranchesInfo :=
  { branchIDLastSeq := bi.branchIDLastSeq ++ [seq]
    branchIDCreatorIdxs := bi.branchIDCreatorIdxs ++ [me]
    branchIDByCreators :=
      bi.branchIDByCreators.set me (bi.byCreator me ++ [bi.branchIDLastSeq.length]) }

theorem width_addBranch (me seq : Nat) : (bi.addBranch me seq).width = bi.width + 1 := by
  simp [width, addBranch]

theorem getD_append_singleton {α : Type} (xs : List α) (x d : α) (i : Nat) :
    (xs ++ [x])[i]?.getD d = if i = xs.length then x else xs[i]?.getD d := by
  rw [List.getElem?_append]
  split
  · rw [if_neg (by omega)]
  · grind

theorem creatorIdx_addBranch (me seq b : Nat) :
    (bi.addBranch me seq).creatorIdx b = if b = bi.width then me else bi.creatorIdx b :=
  getD_append_singleton ..

theorem lastSeq_addBranch (consistent : bi.Consistent vv) (me seq b : Nat) :
    (bi.addBranch me seq).lastSeq b = if b = bi.width then seq else bi.lastSeq b := by
  rw [← consistent.lastSeqs]
  exact getD_append_singleton ..

variable {me : Nat}

theorem byCreator_addBranch (consistent : bi.Consistent vv) (listed : me < vv.len) (seq n : Nat) :
    (bi.addBranch me seq).byCreator n =
      if n = me then bi.byCreator me ++ [bi.width] else bi.byCreator n := by
  have length := consistent.creators
  simp only [byCreator, addBranch, List.getElem?_set]
  by_cases same : n = me
  · subst n
    rw [if_pos rfl, if_pos rfl, if_pos (by omega), consistent.lastSeqs]
    rfl
  · rw [if_neg (Ne.symm same), if_neg same]

theorem addBranch_extends (me seq : Nat) : bi.Extends (bi.addBranch me seq) := by
  refine ⟨by rw [width_addBranch]; omega, fun b below => ?_⟩
  rw [creatorIdx_addBranch, if_neg (by omega)]

theorem addBranch_consistent (consistent : bi.Consistent vv) (listed : me < vv.len) (seq : Nat) :
    (bi.addBranch me seq).Consistent vv where
  lastSeqs := by
    rw [width_addBranch, ← consistent.lastSeqs]
    exact List.length_append
  creators := by simpa [addBranch] using consistent.creators
  wide := by
    have wide := consistent.wide
    rw [width_addBranch]
    omega
  initial := by
    intro n below
    have wide := consistent.wide
    rw [creatorIdx_addBranch, if_neg (by omega)]
    exact consistent.initial n below
  known := by
    intro b below
    rw [width_addBranch] at below
    rw [creatorIdx_addBranch]
    split
    · exact listed
    · exact consistent.known b (by omega)
  mem := by
    intro n below b
    rw [byCreator_addBranch consistent listed, width_addBranch, creatorIdx_addBranch]
    have before := consistent.mem n below b
    grind
  nodup := by
    intro n
    rw [byCreator_addBranch consistent listed]
    split
    · refine List.nodup_append.mpr ⟨consistent.nodup me, by simp, ?_⟩
      rintro b old c new rfl
      have below := ((consistent.mem me listed b).mp old).1
      rw [List.mem_singleton.mp new] at below
      exact lt_irrefl _ below
    · exact consistent.nodup n

theorem byCreator_initial {vv : Validators} {n : Nat} (below : n < vv.len) :
    (newInitialBranchesInfo vv).byCreator n = [n] := by
  simp [newInitialBranchesInfo, byCreator, List.getElem?_range below]

theorem initial_consistent (vv : Validators) : (newInitialBranchesInfo vv).Consistent vv := by
  have creator : ∀ b, b < vv.len → (newInitialBranchesInfo vv).creatorIdx b = b := by
    intro b below
    simp [newInitialBranchesInfo, creatorIdx, List.getElem?_range below]
  have width : (newInitialBranchesInfo vv).width = vv.len := by
    simp [BranchesInfo.width, newInitialBranchesInfo]
  refine ⟨?_, by simp [newInitialBranchesInfo], width.ge, creator, ?_, ?_, ?_⟩
  · simp [BranchesInfo.width, newInitialBranchesInfo]
  · intro b below
    rw [creator b (width ▸ below)]
    exact width ▸ below
  · intro n below b
    rw [byCreator_initial below, width, List.mem_singleton]
    constructor
    · rintro rfl
      exact ⟨below, creator b below⟩
    · rintro ⟨inside, same⟩
      rw [← same, creator b inside]
  · intro n
    by_cases below : n < vv.len
    · rw [byCreator_initial below]
      simp
    · have past : ((List.range vv.len).map fun i => [i])[n]? = none := by simp; omega
      simp [byCreator, newInitialBranchesInfo, past]

theorem lastSeq_initial (vv : Validators) (b : Nat) : (newInitialBranchesInfo vv).lastSeq b = 0 := by
  simp only [lastSeq, newInitialBranchesInfo, List.getElem?_replicate]
  split <;> rfl

end BranchesInfo

section Choice

variable {Store : Type} {c : Callbacks Store} {vv : Validators} {bi : BranchesInfo}

/-- The ways in which `fillGlobalBranchID` finds a branch for an event of validator `me`. -/
inductive Choice (bi : BranchesInfo) (me : Nat) (selfBranch : Option Nat) (e : Event) :
    Nat → BranchesInfo → Prop where
  /-- The first event of the validator takes its initial branch. -/
  | first (alone : selfBranch = none) (empty : bi.lastSeq me = 0) :
      Choice bi me selfBranch e me (bi.setLastSeq me e.seq)
  /-- The branch of the self-parent goes on. -/
  | next {b : Nat} (self : selfBranch = some b) (follows : bi.lastSeq b + 1 = e.seq) :
      Choice bi me selfBranch e b (bi.setLastSeq b e.seq)
  /-- A new fork gets a new branch. -/
  | fork (alone : selfBranch = none → bi.lastSeq me ≠ 0)
      (passed : ∀ b, selfBranch = some b → bi.lastSeq b + 1 ≠ e.seq)
      (room : (bi.byCreator me).length < maxBranchesPerValidator) :
      Choice bi me selfBranch e bi.width (bi.addBranch me e.seq)
  /-- A new fork beyond the cap shares the most recent branch. -/
  | shared {b : Nat} (alone : selfBranch = none → bi.lastSeq me ≠ 0)
      (passed : ∀ b, selfBranch = some b → bi.lastSeq b + 1 ≠ e.seq)
      (full : maxBranchesPerValidator ≤ (bi.byCreator me).length)
      (last : (bi.byCreator me).getLast? = some b) :
      Choice bi me selfBranch e b
        (if bi.lastSeq b < e.seq then bi.setLastSeq b e.seq else bi)

variable {selfBranch : Option Nat} {e : Event} {me : Nat}

theorem forkBranch_choice (consistent : bi.Consistent vv)
    (alone : selfBranch = none → bi.lastSeq me ≠ 0)
    (passed : ∀ b, selfBranch = some b → bi.lastSeq b + 1 ≠ e.seq) :
    Choice bi me selfBranch e (forkBranch bi e me).1 (forkBranch bi e me).2 := by
  by_cases full : maxBranchesPerValidator ≤ (bi.byCreator me).length
  · cases last : (bi.byCreator me).getLast? with
    | none =>
      rw [List.getLast?_eq_none_iff] at last
      simp [last, maxBranchesPerValidator] at full
    | some b =>
      simp only [forkBranch, full, ↓reduceIte, last, Option.getD_some]
      exact .shared alone passed full last
  · simp only [forkBranch, full, ↓reduceIte]
    rw [consistent.lastSeqs]
    have room := Choice.fork alone passed (by omega)
    rwa [BranchesInfo.addBranch, consistent.lastSeqs] at room

theorem fillGlobalBranchID_choice (consistent : bi.Consistent vv) {s : Store} (me : Nat)
    (known : match e.selfParent with
      | none => selfBranch = none
      | some p => selfBranch.isSome ∧ c.readEventBranch s p = selfBranch) :
    ∃ b later, fillGlobalBranchID c vv bi s e me = .ok (b, none, later) ∧
      Choice bi me selfBranch e b later := by
  have length := consistent.lastSeqs
  have wide := consistent.wide
  have sane : ¬ (bi.branchIDCreatorIdxs.length ≠ bi.branchIDLastSeq.length ∨
      bi.branchIDCreatorIdxs.length < vv.len) := by
    simp only [BranchesInfo.width] at length wide
    omega
  unfold fillGlobalBranchID
  rw [if_neg sane]
  cases self : e.selfParent with
  | none =>
    simp only [self] at known ⊢
    by_cases empty : bi.lastSeq me = 0
    · exact ⟨_, _, by rw [if_pos empty], .first known empty⟩
    · exact ⟨_, _, by rw [if_neg empty], forkBranch_choice consistent (fun _ => empty)
        (by simp [known])⟩
  | some p =>
    simp only [self] at known ⊢
    obtain ⟨some, read⟩ := known
    obtain ⟨b, rfl⟩ := Option.isSome_iff_exists.mp some
    simp only [getEventBranchID, read, bind, Except.bind]
    by_cases follows : bi.lastSeq b + 1 = e.seq
    · exact ⟨_, _, by rw [if_pos follows], .next rfl follows⟩
    · refine ⟨_, _, by rw [if_neg follows], forkBranch_choice consistent (by simp) ?_⟩
      rintro b' same
      cases same
      exact follows

theorem Choice.sound {b : Nat} {later : BranchesInfo} (choice : Choice bi me selfBranch e b later)
    (consistent : bi.Consistent vv) (listed : me < vv.len)
    (selfKnown : ∀ b, selfBranch = some b → b < bi.width ∧ bi.creatorIdx b = me) :
    later.Consistent vv ∧ bi.Extends later ∧ b < later.width ∧ later.creatorIdx b = me := by
  cases choice with
  | first =>
    exact ⟨BranchesInfo.setLastSeq_consistent consistent _ _, BranchesInfo.setLastSeq_extends _ _,
      listed.trans_le consistent.wide, consistent.initial me listed⟩
  | next self =>
    obtain ⟨below, creator⟩ := selfKnown b self
    exact ⟨BranchesInfo.setLastSeq_consistent consistent _ _, BranchesInfo.setLastSeq_extends _ _,
      below, creator⟩
  | fork =>
    refine ⟨BranchesInfo.addBranch_consistent consistent listed _,
      BranchesInfo.addBranch_extends _ _, ?_, ?_⟩
    · rw [BranchesInfo.width_addBranch]
      omega
    · rw [BranchesInfo.creatorIdx_addBranch, if_pos rfl]
  | shared _ _ _ last =>
    obtain ⟨below, creator⟩ :=
      (consistent.mem me listed b).mp (List.mem_of_getLast? last)
    split
    · exact ⟨BranchesInfo.setLastSeq_consistent consistent _ _,
        BranchesInfo.setLastSeq_extends _ _, below, creator⟩
    · exact ⟨consistent, .refl bi, below, creator⟩

end Choice

end Lachesis.Vecengine
