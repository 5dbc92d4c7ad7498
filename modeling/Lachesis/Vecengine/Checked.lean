import Lachesis.Vecengine.Branches
import Lachesis.Library.Triples

/-!
The engine over arrays that need not agree. Here every slice access may panic, and the error that
`Add` returns is kept; `Engine` leaves both out, and where the three arrays of `BranchesInfo` agree
the two compute the same.
-/

namespace Lachesis.Vecengine

open Dag Pos Vecfc Triples

def element {A : Type} (xs : List A) (i : Nat) : Except Halt A :=
  match xs[i]? with
  | some x => .ok x
  | none => .error .indexOutOfRange

/-- An interface of the source: nil, or a pointer, which may itself be nil. -/
inductive Interface (A : Type) where
  | nil
  | pointer (value : Option A)

inductive AddError where
  | branch (err : BranchError)
  /-- "processed out of order, parent not found (inconsistent DB), parent=%s" -/
  | parentNotFound (parent : EventID)
  deriving DecidableEq

section Engine

variable {Store : Type} (c : Callbacks Store) (source : EventSource) (validators : Validators)

def getHighestBeforeI (s : Store) (id : EventID) : Interface HighestBeforeSeq × Store :=
  let (vec, s) := c.getHighestBefore s id
  (.pointer vec, s)

def forkBranchChecked (bi : BranchesInfo) (e : Event) (meIdx : Nat) :
    Except Halt (Nat × BranchesInfo) := do
  let own ← element bi.branchIDByCreators meIdx
  if maxBranchesPerValidator ≤ own.length then
    let lastBranch ← element own (own.length - 1)
    let lastSeq ← element bi.branchIDLastSeq lastBranch
    .ok (lastBranch, if lastSeq < e.seq then bi.setLastSeq lastBranch e.seq else bi)
  else
    let newBranchID := bi.branchIDLastSeq.length
    .ok (newBranchID,
      { branchIDLastSeq := bi.branchIDLastSeq ++ [e.seq]
        branchIDCreatorIdxs := bi.branchIDCreatorIdxs ++ [meIdx]
        branchIDByCreators := bi.branchIDByCreators.set meIdx (own ++ [newBranchID]) })

def fillGlobalBranchIDChecked (bi : BranchesInfo) (s : Store) (e : Event) (meIdx : Nat) :
    Except Halt (Nat × Option BranchError × BranchesInfo) :=
  -- sanity checks
  if bi.branchIDCreatorIdxs.length ≠ bi.branchIDLastSeq.length ∨
      bi.branchIDCreatorIdxs.length < validators.len then
    .ok (0, some .inconsistentLen, bi)
  else
    match e.selfParent with
    | none => do
        let lastSeq ← element bi.branchIDLastSeq meIdx
        if lastSeq = 0 then .ok (meIdx, none, bi.setLastSeq meIdx e.seq)
        else do
          let (branchID, bi) ← forkBranchChecked bi e meIdx
          .ok (branchID, none, bi)
    | some selfParent => do
        let selfParentBranchID ← getEventBranchID c s selfParent
        let lastSeq ← element bi.branchIDLastSeq selfParentBranchID
        if lastSeq + 1 = e.seq then
          .ok (selfParentBranchID, none, bi.setLastSeq selfParentBranchID e.seq)
        else do
          let (branchID, bi) ← forkBranchChecked bi e meIdx
          .ok (branchID, none, bi)

/-- The parents' vectors, or the error about the first interface that is nil. -/
def loadParentsChecked : List EventID → Store →
    Except Halt (Except AddError (List (EventID × Option HighestBeforeSeq)) × Store)
  | [], s => .ok (.ok [], s)
  | p :: rest, s => do
      let _ ← getEventBranchID c s p
      match getHighestBeforeI c s p with
      | (.nil, s) => .ok (.error (.parentNotFound p), s)
      | (.pointer vec, s) => do
          let (vecs, s) ← loadParentsChecked rest s
          .ok (vecs.map ((p, vec) :: ·), s)

/-- A nil pointer is noticed once `CollectFrom` reads an entry. -/
def collectParentsChecked (num : Nat) :
    List (EventID × Option HighestBeforeSeq) → HighestBeforeSeq → Except Halt HighestBeforeSeq
  | [], before => .ok before
  | (p, none) :: rest, before =>
    if num = 0 then collectParentsChecked num rest before else .error (.nilVector p)
  | (_, some vec) :: rest, before => collectParentsChecked num rest (before.collectFrom vec num)

def setForkDetectedChecked (bi : BranchesInfo) (before : HighestBeforeSeq) (branchID : Nat) :
    Except Halt HighestBeforeSeq := do
  let creatorIdx ← element bi.branchIDCreatorIdxs branchID
  let own ← element bi.branchIDByCreators creatorIdx
  .ok (own.foldl HighestBeforeSeq.setForkDetected before)

def spreadForksChecked (bi : BranchesInfo) (before : HighestBeforeSeq) (n : Nat) :
    Except Halt HighestBeforeSeq := do
  let own ← element bi.branchIDByCreators n
  if own.length ≤ 1 then .ok before
  else if own.any before.isForkDetected then setForkDetectedChecked bi before n
  else .ok before

def detectForksChecked (bi : BranchesInfo) (before : HighestBeforeSeq) (n : Nat) :
    Except Halt HighestBeforeSeq :=
  if before.isForkDetected n then .ok before
  else do
    let own ← element bi.branchIDByCreators n
    if own.any fun a => own.any (overlaps before a) then setForkDetectedChecked bi before n
    else .ok before

def highestBeforeChecked (bi : BranchesInfo) (before : HighestBeforeSeq) :
    Except Halt HighestBeforeSeq :=
  if bi.atLeastOneFork validators then do
    let before ← (List.range validators.len).foldlM (spreadForksChecked bi) before
    (List.range validators.len).foldlM (detectForksChecked bi) before
  else .ok before

/-- The error of `fillGlobalBranchID` is overwritten by the one of `DfsSubgraph`, which goes to
`crit`. -/
def fillEventVectorsChecked (bi : BranchesInfo) (s : Store) (e : Event) :
    Except Halt (Option AddError × BranchesInfo × Store) := do
  let meIdx := validators.getIdx e.creator
  let before := HighestBeforeSeq.new bi.width
  let after := LowestAfterSeq.new bi.width
  let (meBranchID, _, bi) ← fillGlobalBranchIDChecked c validators bi s e meIdx
  match ← loadParentsChecked c e.parents s with
  | (.error err, s) => .ok (some err, bi, s)
  | (.ok parentsVecs, s) => do
      let after := after.initWithEvent meBranchID e
      let before := before.initWithEvent meBranchID e
      let before ← collectParentsChecked bi.width parentsVecs before
      let before ← highestBeforeChecked validators bi before
      let s ← dfsSubgraph c source meBranchID e s
      let s := c.setHighestBefore s e.id before
      let s := c.setLowestAfter s e.id after
      .ok (none, bi, c.setEventBranchID s e.id meBranchID)

end Engine

section Agreement

variable {Store : Type} {c : Callbacks Store} {source : EventSource} {vv : Validators}
  {bi : BranchesInfo}

variable {A : Type} {b n me : Nat} {e : Event} {s : Store}

theorem element_of_lt {xs : List A} {i : Nat} (below : i < xs.length) (d : A) :
    element xs i = .ok (xs[i]?.getD d) := by
  rw [element, List.getElem?_eq_getElem below]
  rfl

theorem element_lastSeq (consistent : bi.Consistent vv) (below : b < bi.width) :
    element bi.branchIDLastSeq b = .ok (bi.lastSeq b) :=
  element_of_lt (consistent.lastSeqs.symm ▸ below) 0

theorem element_byCreator (consistent : bi.Consistent vv) (below : n < vv.len) :
    element bi.branchIDByCreators n = .ok (bi.byCreator n) :=
  element_of_lt (consistent.creators.symm ▸ below) []

theorem forkBranchChecked_eq (consistent : bi.Consistent vv) (e : Event) (listed : me < vv.len) :
    forkBranchChecked bi e me = .ok (forkBranch bi e me) := by
  unfold forkBranchChecked forkBranch
  rw [element_byCreator consistent listed]
  simp only [bind, Except.bind]
  split
  · next full =>
    have positive : 0 < (bi.byCreator me).length :=
      (Nat.succ_pos _).trans_le full
    have last : element (bi.byCreator me) ((bi.byCreator me).length - 1) =
        .ok ((bi.byCreator me).getLast?.getD 0) := by
      rw [List.getLast?_eq_getElem?]
      exact element_of_lt (Nat.sub_lt positive one_pos) 0
    have below : (bi.byCreator me).getLast?.getD 0 < bi.width := by
      obtain ⟨b, is⟩ := Option.isSome_iff_exists.mp
        (List.getLast?_isSome.mpr (List.ne_nil_of_length_pos positive))
      rw [is]
      exact ((consistent.mem me listed b).mp (List.mem_of_getLast? is)).1
    rw [last]
    simp only [element_lastSeq consistent below]
  · rfl

def SelfKnown (c : Callbacks Store) (bi : BranchesInfo) (s : Store) (e : Event) (me : Nat) : Prop :=
  ∀ p b, e.selfParent = some p → c.readEventBranch s p = some b → b < bi.width ∧ bi.creatorIdx b = me

theorem fillGlobalBranchIDChecked_eq (consistent : bi.Consistent vv) (listed : me < vv.len)
    (self : SelfKnown c bi s e me) :
    fillGlobalBranchIDChecked c vv bi s e me = fillGlobalBranchID c vv bi s e me := by
  unfold fillGlobalBranchIDChecked fillGlobalBranchID
  split
  · rfl
  · cases isParent : e.selfParent with
    | none =>
      dsimp only
      rw [element_lastSeq consistent (listed.trans_le consistent.wide)]
      simp only [bind, Except.bind, forkBranchChecked_eq consistent e listed]
    | some p =>
      cases read : c.readEventBranch s p with
      | none => simp [getEventBranchID, read, bind, Except.bind]
      | some b =>
        have below := (self p b isParent read).1
        simp only [getEventBranchID, read, bind, Except.bind, element_lastSeq consistent below,
          forkBranchChecked_eq consistent e listed]

theorem loadParentsChecked_eq : ∀ (parents : List EventID) (s : Store),
    loadParentsChecked c parents s = (loadParents c parents s).map fun r => (.ok r.1, r.2) := by
  intro parents
  induction parents with
  | nil => exact fun _ => rfl
  | cons p rest ih =>
    intro s
    rw [loadParentsChecked, loadParents]
    cases getEventBranchID c s p with
    | error halt => rfl
    | ok b =>
      simp only [bind, Except.bind, getHighestBeforeI, ih]
      generalize loadParents c rest (c.getHighestBefore s p).2 = loaded
      cases loaded <;> rfl

theorem collectParentsChecked_eq {num : Nat} (positive : num ≠ 0) :
    ∀ (vecs : List (EventID × Option HighestBeforeSeq)) (before : HighestBeforeSeq),
      collectParentsChecked num vecs before = collectParents num vecs before := by
  intro vecs
  induction vecs with
  | nil => exact fun _ => rfl
  | cons vec rest ih =>
    intro before
    obtain ⟨p, _ | vec⟩ := vec
    · rw [collectParentsChecked, if_neg positive, collectParents]
    · rw [collectParentsChecked, collectParents, ih]

theorem setForkDetectedChecked_eq (consistent : bi.Consistent vv) (before : HighestBeforeSeq)
    (below : n < bi.width) :
    setForkDetectedChecked bi before n = .ok (setForkDetected bi before n) := by
  have creator : element bi.branchIDCreatorIdxs n = .ok (bi.creatorIdx n) := element_of_lt below 0
  unfold setForkDetectedChecked
  rw [creator]
  simp only [bind, Except.bind, element_byCreator consistent (consistent.known n below)]
  rfl

theorem spreadForksChecked_eq (consistent : bi.Consistent vv) (before : HighestBeforeSeq)
    (below : n < vv.len) : spreadForksChecked bi before n = .ok (spreadForks bi before n) := by
  unfold spreadForksChecked spreadForks
  rw [element_byCreator consistent below]
  simp only [bind, Except.bind,
    setForkDetectedChecked_eq consistent before (below.trans_le consistent.wide)]
  split
  · rfl
  · split <;> rfl

theorem detectForksChecked_eq (consistent : bi.Consistent vv) (before : HighestBeforeSeq)
    (below : n < vv.len) : detectForksChecked bi before n = .ok (detectForks bi before n) := by
  unfold detectForksChecked detectForks
  rw [element_byCreator consistent below]
  simp only [bind, Except.bind,
    setForkDetectedChecked_eq consistent before (below.trans_le consistent.wide)]
  split
  · rfl
  · split <;> rfl

theorem foldlM_ok {S : Type} {f : S → A → Except Halt S} {g : S → A → S} :
    ∀ (items : List A) (s : S), (∀ x ∈ items, ∀ s, f s x = .ok (g s x)) →
      items.foldlM f s = .ok (items.foldl g s) := by
  intro items
  induction items with
  | nil => exact fun _ _ => rfl
  | cons x rest ih =>
    intro s each
    rw [List.foldlM_cons, each x List.mem_cons_self s, List.foldl_cons]
    exact ih _ fun y member => each y (List.mem_cons_of_mem x member)

theorem highestBeforeChecked_eq (consistent : bi.Consistent vv) (before : HighestBeforeSeq) :
    highestBeforeChecked vv bi before = .ok (highestBefore vv bi before) := by
  unfold highestBeforeChecked highestBefore
  split
  · rw [foldlM_ok _ _ fun n inside before =>
      spreadForksChecked_eq consistent before (List.mem_range.mp inside)]
    exact foldlM_ok _ _ fun n inside before =>
      detectForksChecked_eq consistent before (List.mem_range.mp inside)
  · rfl

theorem fillGlobalBranchID_keeps (consistent : bi.Consistent vv) {err : Option BranchError}
    {later : BranchesInfo} (listed : me < vv.len) (self : SelfKnown c bi s e me)
    (found : fillGlobalBranchID c vv bi s e me = .ok (b, err, later)) : later.Consistent vv := by
  have sound : ∀ selfBranch, (match e.selfParent with
      | none => selfBranch = none
      | some p => selfBranch.isSome ∧ c.readEventBranch s p = selfBranch) →
      (∀ a, selfBranch = some a → a < bi.width ∧ bi.creatorIdx a = me) → later.Consistent vv := by
    intro selfBranch known within
    obtain ⟨_, _, run, choice⟩ := fillGlobalBranchID_choice consistent me known
    cases run.symm.trans found
    exact (choice.sound consistent listed within).1
  cases isParent : e.selfParent with
  | none => exact sound none (by rw [isParent]) nofun
  | some p =>
    cases read : c.readEventBranch s p with
    | none =>
      unfold fillGlobalBranchID at found
      split at found
      · cases found
        exact consistent
      · simp [isParent, getEventBranchID, read, bind, Except.bind] at found
    | some a =>
      refine sound (some a) ?_ fun b is => ?_
      · rw [isParent]
        exact ⟨rfl, read⟩
      · cases is
        exact self p _ isParent read

theorem fillEventVectorsChecked_eq (consistent : bi.Consistent vv)
    (listed : e.creator ∈ vv.sortedIDs) (self : SelfKnown c bi s e (vv.getIdx e.creator)) :
    fillEventVectorsChecked c source vv bi s e =
      (fillEventVectors c source vv bi s e).map fun r => (none, r.1, r.2) := by
  have below := getIdx_lt listed
  unfold fillEventVectorsChecked fillEventVectors
  dsimp only
  rw [fillGlobalBranchIDChecked_eq consistent below self, loadParentsChecked_eq]
  cases found : fillGlobalBranchID c vv bi s e (vv.getIdx e.creator) with
  | error halt => rfl
  | ok choice =>
    obtain ⟨b, err, later⟩ := choice
    have agree := fillGlobalBranchID_keeps consistent below self found
    have wide : later.width ≠ 0 := (below.trans_le agree.wide).ne_bot
    cases loadParents c e.parents s with
    | error halt => rfl
    | ok loaded =>
      obtain ⟨vecs, s⟩ := loaded
      simp only [bind, Except.bind, Except.map, collectParentsChecked_eq wide,
        highestBeforeChecked_eq agree]
      cases collectParents later.width vecs _ with
      | error halt => rfl
      | ok before => cases dfsSubgraph c source b e s <;> rfl

theorem fillGlobalBranchIDChecked_none (s : Store) (e : Event) (me : Nat)
    (sane : ¬ (bi.branchIDCreatorIdxs.length ≠ bi.branchIDLastSeq.length ∨
      bi.branchIDCreatorIdxs.length < vv.len)) :
    Ensures (fillGlobalBranchIDChecked c vv bi s e me) fun r => r.2.1 = none := by
  have forked : Ensures (do
      let (branchID, bi) ← forkBranchChecked bi e me
      Except.ok (branchID, (none : Option BranchError), bi)) fun r => r.2.1 = none :=
    ensures_bind (ensures_any _) fun _ _ => ensures_ok rfl
  unfold fillGlobalBranchIDChecked
  rw [if_neg sane]
  cases e.selfParent with
  | none =>
    refine ensures_bind (ensures_any _) fun lastSeq _ => ?_
    split
    · exact ensures_ok rfl
    · exact forked
  | some p =>
    refine ensures_bind (ensures_any _) fun b _ => ?_
    refine ensures_bind (ensures_any _) fun lastSeq _ => ?_
    split
    · exact ensures_ok rfl
    · exact forked

theorem fillEventVectorsChecked_none (s : Store) (e : Event) :
    Ensures (fillEventVectorsChecked c source vv bi s e) fun r => r.1 = none := by
  unfold fillEventVectorsChecked
  dsimp only
  rw [loadParentsChecked_eq]
  refine ensures_bind (ensures_any _) fun choice _ => ?_
  cases loadParents c e.parents s with
  | error halt => exact ensures_error
  | ok loaded =>
    change Ensures (collectParentsChecked choice.2.2.width loaded.1 _ >>= fun _ => _) _
    refine ensures_bind (ensures_any _) fun before _ => ?_
    refine ensures_bind (ensures_any _) fun merged _ => ?_
    exact ensures_bind (ensures_any _) fun walked _ => ensures_ok rfl

end Agreement

end Lachesis.Vecengine
