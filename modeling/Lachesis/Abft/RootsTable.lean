import Lachesis.Abft.Store
import Lachesis.Kvdb.FlushableOverlay
import Lachesis.Library.BigEndian
import Lachesis.Library.Transition

/-!
The table of roots as it lies in the database of an epoch: one key for each root, made of its frame,
its validator and its event, with an empty value. `GetFrameRoots` reads it through a cache of frames,
to which `AddRoot` appends. Frames and validators are those of `uint32`.
-/

namespace Lachesis.Abft.RootsTable

open Dag Kvdb Simplewlru Transition BigEndian

def frameSize : Nat := 4

def validatorIDSize : Nat := 4

def eventIDSize : Nat := 32

def rootRecordKey (r : RootAndSlot) : Bytes :=
  encode frameSize r.slot.frame ++ encode validatorIDSize r.slot.validator ++
    encode eventIDSize r.id.toNat

inductive Fault where
  /-- crit: "roots table: incorrect key len=%d" -/
  | incorrectKeyLen (len : Nat)
  /-- crit: "roots table: invalid frame=%d, expected=%d" -/
  | invalidFrame (frame expected : Nat)
  /-- crit: an error of the table -/
  | failed (err : Error)
  /-- The table is nil before an epoch is opened. -/
  | notOpened

/-- The root that a key of frame `f` stands for. -/
def decodeKey (f : Nat) (key : Bytes) : Except Fault RootAndSlot :=
  if key.length ≠ frameSize + validatorIDSize + eventIDSize then .error (.incorrectKeyLen key.length)
  else
    let r : RootAndSlot :=
      { slot :=
          { frame := decode (key.take frameSize)
            validator := decode ((key.drop frameSize).take validatorIDSize) }
        id := BitVec.ofNat 256 (decode (key.drop (frameSize + validatorIDSize))) }
    if r.slot.frame ≠ f then .error (.invalidFrame r.slot.frame f) else .ok r

def decodeKeys (f : Nat) : List Bytes → Except Fault (List RootAndSlot)
  | [] => .ok []
  | key :: rest =>
    match decodeKey f key with
    | .error fault => .error fault
    | .ok r =>
      match decodeKeys f rest with
      | .error fault => .error fault
      | .ok rr => .ok (r :: rr)

/-- The tables that `getEpochDB` finds for each epoch, the epoch that is open, and the cache. -/
structure RootsStore (S : Type) where
  tables : Nat → S
  opened : Option Nat
  frameRoots : Cache Nat (List RootAndSlot)

namespace RootsStore

variable {S : Type}

def new (tables : Nat → S) (maxWeight maxSize : Nat) : RootsStore S :=
  ⟨tables, none, .new maxWeight maxSize⟩

variable (store : Kvdb.Store S) (s : RootsStore S)

def openEpochDB (epoch : Nat) : RootsStore S :=
  { s with frameRoots := s.frameRoots.purge, opened := some epoch }

def addRoot (root : Event) (frame : Nat) : Except Fault (RootsStore S) :=
  match s.opened with
  | none => .error .notOpened
  | some epoch =>
    let r : RootAndSlot := ⟨root.id, ⟨frame, root.creator⟩⟩
    match store.put (s.tables epoch) (rootRecordKey r) [] with
    | .error err => .error (.failed err)
    | .ok table =>
      let s := { s with tables := Function.update s.tables epoch table }
      match s.frameRoots.get frame with
      | (some rr, cache) =>
        .ok { s with frameRoots := cache.add frame (rr ++ [r]) (rr ++ [r]).length }
      | (none, cache) => .ok { s with frameRoots := cache }

/-- The frames of the loop of `AddRoot`, which counts in `uint32` and does not end at the last of
them. -/
def loopFrames (selfParentFrame frame : Nat) : Option (List Nat) :=
  if frame = 2 ^ 32 - 1 then none
  else
    let first := (selfParentFrame + 1) % 2 ^ 32
    some (List.range' first (frame + 1 - first))

def addRoots (root : Event) (frames : List Nat) : Except Fault (RootsStore S) :=
  frames.foldlM (fun s frame => s.addRoot store root frame) s

def getFrameRoots (f : Nat) : Except Fault (List RootAndSlot × RootsStore S) :=
  match s.frameRoots.get f with
  | (some rr, cache) => .ok (rr, { s with frameRoots := cache })
  | (none, cache) =>
    match s.opened with
    | none => .error .notOpened
    | some epoch =>
      match store.newIterator (s.tables epoch) (encode frameSize f) [] with
      | .error err => .error (.failed err)
      | .ok pairs =>
        match decodeKeys f (pairs.map Prod.fst) with
        | .error fault => .error fault
        | .ok rr => .ok (rr, { s with frameRoots := cache.add f rr rr.length })

end RootsStore

inductive Action where
  | openEpochDB (epoch : Nat)
  | addRoot (selfParentFrame : Nat) (root : Event)
  | getFrameRoots (f : Nat)

def step {S : Type} (store : Kvdb.Store S) (s : RootsStore S) : Action → Option (RootsStore S)
  | .openEpochDB epoch => some (s.openEpochDB epoch)
  | .addRoot selfParentFrame root =>
    match RootsStore.loopFrames selfParentFrame root.frame with
    | none => none
    | some frames => (s.addRoots store root frames).toOption
  | .getFrameRoots f => (s.getFrameRoots store f).toOption.map Prod.snd

def Action.Typed : Action → Prop
  | .openEpochDB _ => True
  | .addRoot selfParentFrame root =>
    selfParentFrame < 2 ^ 32 ∧ root.frame < 2 ^ 32 ∧ root.creator < 2 ^ 32
  | .getFrameRoots f => f < 2 ^ 32

def Action.rootID : Action → Option EventID
  | .addRoot _ root => some root.id
  | _ => none

def addedIn (epoch : Nat) : Option Nat → List Action → List RootAndSlot
  | _, [] => []
  | _, .openEpochDB next :: rest => addedIn epoch (some next) rest
  | opened, .addRoot selfParentFrame root :: rest =>
    (if opened = some epoch then
      ((RootsStore.loopFrames selfParentFrame root.frame).getD []).map
        fun frame => (⟨root.id, ⟨frame, root.creator⟩⟩ : RootAndSlot)
    else []) ++ addedIn epoch opened rest
  | opened, .getFrameRoots _ :: rest => addedIn epoch opened rest

section Keys

def Fits (r : RootAndSlot) : Prop := r.slot.frame < 2 ^ 32 ∧ r.slot.validator < 2 ^ 32

variable {r r' : RootAndSlot}

theorem decodeKey_rootRecordKey (fits : Fits r) : decodeKey r.slot.frame (rootRecordKey r) = .ok r := by
  have width : (rootRecordKey r).length = frameSize + validatorIDSize + eventIDSize := by
    simp [rootRecordKey, Nat.add_assoc]
  have frame : (rootRecordKey r).take frameSize = encode frameSize r.slot.frame := by
    rw [rootRecordKey, List.append_assoc]
    exact List.take_left' (length_encode _ _)
  have later : (rootRecordKey r).drop frameSize =
      encode validatorIDSize r.slot.validator ++ encode eventIDSize r.id.toNat := by
    rw [rootRecordKey, List.append_assoc]
    exact List.drop_left' (length_encode _ _)
  have last : (rootRecordKey r).drop (frameSize + validatorIDSize) = encode eventIDSize r.id.toNat :=
    List.drop_left' (by simp)
  have decodeFrame := @decode_encode frameSize _ fits.1
  have decodeValidator := @decode_encode validatorIDSize _ fits.2
  have decodeID := @decode_encode eventIDSize _ r.id.isLt
  rw [decodeKey, if_neg (not_not.mpr width), frame, later, List.take_left' (length_encode _ _), last,
    decodeFrame, decodeValidator, decodeID, BitVec.ofNat_toNat, BitVec.setWidth_eq]
  exact if_neg (not_not.mpr rfl)

theorem rootRecordKey_inj (fits : Fits r) (fits' : Fits r')
    (same : rootRecordKey r = rootRecordKey r') : r = r' := by
  have left := decodeKey_rootRecordKey fits
  have frame : r.slot.frame = r'.slot.frame := by
    have bytes := congrArg (List.take frameSize) same
    simp only [rootRecordKey, List.append_assoc, List.take_left' (length_encode frameSize _)] at bytes
    exact encode_inj fits.1 fits'.1 bytes
  rw [same, frame, decodeKey_rootRecordKey fits'] at left
  exact (Except.ok.inj left).symm

theorem frame_prefix_iff {f : Nat} (fits : Fits r) (small : f < 2 ^ 32) :
    encode frameSize f <+: rootRecordKey r ↔ r.slot.frame = f := by
  have own : encode frameSize r.slot.frame <+: rootRecordKey r := by
    rw [rootRecordKey, List.append_assoc]
    exact List.prefix_append _ _
  constructor
  · intro starts
    have same := (List.prefix_of_prefix_length_le starts own (by simp)).eq_of_length (by simp)
    exact (encode_inj small fits.1 same).symm
  · rintro rfl
    exact own

theorem decodeKeys_map {f : Nat} {rr : List RootAndSlot}
    (fits : ∀ r ∈ rr, Fits r ∧ r.slot.frame = f) : decodeKeys f (rr.map rootRecordKey) = .ok rr := by
  induction rr with
  | nil => rfl
  | cons r rest ih =>
    obtain ⟨⟨fitsR, rfl⟩, later⟩ := List.forall_mem_cons.mp fits
    rw [List.map_cons, decodeKeys, decodeKey_rootRecordKey fitsR, ih later]

end Keys

section Coherence

variable {S : Type} {store : Kvdb.Store S} {map : OrderedMap store}

structure Stores (map : OrderedMap store) (table : S) (known : List RootAndSlot) : Prop where
  valid : map.Valid table
  contents : ∀ k, map.contents table k = if k ∈ known.map rootRecordKey then some [] else none

def RootsOf (known : List RootAndSlot) (f : Nat) (rr : List RootAndSlot) : Prop :=
  rr.Perm (known.filter fun r => r.slot.frame = f)

structure Inv (map : OrderedMap store) (s : RootsStore S) (known : Nat → List RootAndSlot) : Prop where
  tables : ∀ epoch, Stores map (s.tables epoch) (known epoch)
  fits : ∀ epoch, ∀ r ∈ known epoch, Fits r
  nodup : ∀ epoch, (known epoch).Nodup
  cached : s.frameRoots.Holds fun f rr =>
    ∃ epoch, s.opened = some epoch ∧ RootsOf (known epoch) f rr

variable {s : RootsStore S} {known : Nat → List RootAndSlot}

theorem exists_roots {P : RootAndSlot → Prop} {keys : List Bytes}
    (all : ∀ k ∈ keys, ∃ r, P r ∧ rootRecordKey r = k) :
    ∃ rr : List RootAndSlot, rr.map rootRecordKey = keys ∧ ∀ r ∈ rr, P r := by
  induction keys with
  | nil => exact ⟨[], rfl, by simp⟩
  | cons k rest ih =>
    obtain ⟨⟨r, meets, is⟩, later⟩ := List.forall_mem_cons.mp all
    obtain ⟨rr, keys, meetsLater⟩ := ih later
    exact ⟨r :: rr, by rw [List.map_cons, is, keys], List.forall_mem_cons.mpr ⟨meets, meetsLater⟩⟩

variable {roots : List RootAndSlot} {table : S} {f epoch frame : Nat} {r : RootAndSlot}
  {root : Event} {frames : List Nat} {a : Action} {t : RootsStore S}

theorem Stores.scan (stores : Stores map table roots) (fits : ∀ r ∈ roots, Fits r)
    (nodup : roots.Nodup) (small : f < 2 ^ 32) :
    ∃ pairs rr, store.newIterator table (encode frameSize f) [] = .ok pairs ∧
      decodeKeys f (pairs.map Prod.fst) = .ok rr ∧ RootsOf roots f rr := by
  obtain ⟨pairs, found, listing⟩ := map.newIterator stores.valid (encode frameSize f) []
  have listed : ∀ k, k ∈ pairs.map Prod.fst ↔
      ∃ r, (r ∈ roots ∧ r.slot.frame = f) ∧ rootRecordKey r = k := by
    intro k
    constructor
    · intro member
      obtain ⟨⟨_, v⟩, inside, rfl⟩ := List.mem_map.mp member
      obtain ⟨value, starts, _⟩ := (listing.mem _ v).mp inside
      rw [stores.contents, Option.ite_none_right_eq_some] at value
      obtain ⟨r, isRoot, is⟩ := List.mem_map.mp value.1
      rw [← is, frame_prefix_iff (fits r isRoot) small] at starts
      exact ⟨r, ⟨isRoot, starts⟩, is⟩
    · rintro ⟨r, ⟨isRoot, frame⟩, rfl⟩
      have starts := (frame_prefix_iff (fits r isRoot) small).mpr frame
      refine List.mem_map.mpr ⟨(rootRecordKey r, []), (listing.mem _ _).mpr ⟨?_, starts, ?_⟩, rfl⟩
      · rw [stores.contents, if_pos (List.mem_map_of_mem isRoot)]
      · rw [List.append_nil]
        exact le_of_prefixed starts
  obtain ⟨rr, keys, are⟩ := exists_roots fun k member => (listed k).mp member
  refine ⟨pairs, rr, found, ?_, ?_⟩
  · rw [← keys]
    exact decodeKeys_map fun r member => ⟨fits r (are r member).1, (are r member).2⟩
  · have distinct : rr.Nodup := by
      refine .of_map rootRecordKey ?_
      rw [keys]
      exact (List.pairwise_map.mpr listing.ascending).imp ne_of_lt
    rw [RootsOf, List.perm_ext_iff_of_nodup distinct (nodup.filter _)]
    intro r
    rw [List.mem_filter, decide_eq_true_iff]
    refine ⟨are r, fun isRoot => ?_⟩
    have there := (listed (rootRecordKey r)).mpr ⟨r, isRoot, rfl⟩
    rw [← keys] at there
    obtain ⟨r', member, same⟩ := List.mem_map.mp there
    rwa [← rootRecordKey_inj (fits r' (are r' member).1) (fits r isRoot.1) same]

theorem getFrameRoots_spec (inv : Inv map s known) (opened : s.opened = some epoch)
    (small : f < 2 ^ 32) : ∃ rr t, s.getFrameRoots store f = .ok (rr, t) ∧
      RootsOf (known epoch) f rr ∧ t.opened = s.opened ∧ Inv map t known := by
  obtain ⟨kept, hit⟩ := Cache.get_holds inv.cached f
  rw [RootsStore.getFrameRoots]
  generalize s.frameRoots.get f = lookup at kept hit
  obtain ⟨found, cache⟩ := lookup
  cases found with
  | some rr =>
    obtain ⟨_, same, roots⟩ := hit rr rfl
    cases opened.symm.trans same
    exact ⟨rr, _, rfl, roots, rfl, inv.tables, inv.fits, inv.nodup, kept⟩
  | none =>
    obtain ⟨pairs, rr, iterated, decoded, roots⟩ :=
      (inv.tables epoch).scan (inv.fits epoch) (inv.nodup epoch) small
    refine ⟨rr, { s with frameRoots := cache.add f rr rr.length }, ?_, roots, rfl, inv.tables,
      inv.fits, inv.nodup, ?_⟩
    · simp only [opened, iterated, decoded]
    · exact Cache.add_holds (fun ent member _ => kept ent member) ⟨epoch, opened, roots⟩

theorem getFrameRoots_unopened (inv : Inv map s known) (unopened : s.opened = none) :
    s.getFrameRoots store f = .error .notOpened := by
  obtain ⟨_, hit⟩ := Cache.get_holds inv.cached f
  rw [RootsStore.getFrameRoots]
  generalize s.frameRoots.get f = lookup at hit
  obtain ⟨found, cache⟩ := lookup
  cases found with
  | some rr =>
    obtain ⟨_, same, _⟩ := hit rr rfl
    cases unopened.symm.trans same
  | none => simp only [unopened]

theorem Stores.put (stores : Stores map table roots) (r : RootAndSlot) :
    ∃ after, store.put table (rootRecordKey r) [] = .ok after ∧
      Stores map after (roots ++ [r]) := by
  obtain ⟨after, done, valid, contents⟩ := map.put stores.valid (rootRecordKey r) []
  refine ⟨after, done, valid, fun k => ?_⟩
  rw [contents, Contents.apply, List.map_append, List.map_singleton]
  by_cases same : k = rootRecordKey r
  · rw [same, Function.update_self, if_pos (by simp)]
  · rw [Function.update_of_ne same, stores.contents]
    simp [same]

theorem RootsOf.snoc_other {rr : List RootAndSlot} (known : RootsOf roots f rr)
    (other : f ≠ r.slot.frame) : RootsOf (roots ++ [r]) f rr := by
  simpa [RootsOf, List.filter_append, List.filter_cons, other.symm] using known

theorem RootsOf.snoc {roots rr : List RootAndSlot} {r : RootAndSlot}
    (known : RootsOf roots r.slot.frame rr) : RootsOf (roots ++ [r]) r.slot.frame (rr ++ [r]) := by
  simpa [RootsOf, List.filter_append] using known.append_right [r]

def learn (known : Nat → List RootAndSlot) (epoch : Nat) (rr : List RootAndSlot) :
    Nat → List RootAndSlot :=
  Function.update known epoch (known epoch ++ rr)

@[simp] theorem learn_self (epoch : Nat) (rr : List RootAndSlot) :
    learn known epoch rr epoch = known epoch ++ rr := Function.update_self ..

theorem learn_of_ne {other : Nat} (ne : other ≠ epoch) (rr : List RootAndSlot) :
    learn known epoch rr other = known other := Function.update_of_ne ne ..

theorem learn_learn (epoch : Nat) (first later : List RootAndSlot) :
    learn (learn known epoch first) epoch later = learn known epoch (first ++ later) := by
  rw [learn, learn_self, List.append_assoc, learn, Function.update_idem, learn]

theorem learn_eq (epoch : Nat) (rr : List RootAndSlot) :
    learn known epoch rr = fun e => known e ++ if some epoch = some e then rr else [] := by
  funext e
  by_cases same : e = epoch
  · simp [same]
  · rw [learn_of_ne same, if_neg (by simpa using Ne.symm same), List.append_nil]

theorem addRoot_spec (inv : Inv map s known) (opened : s.opened = some epoch)
    (fits : Fits ⟨root.id, ⟨frame, root.creator⟩⟩)
    (fresh : ⟨root.id, ⟨frame, root.creator⟩⟩ ∉ known epoch) :
    ∃ t, s.addRoot store root frame = .ok t ∧ t.opened = s.opened ∧
      Inv map t (learn known epoch [⟨root.id, ⟨frame, root.creator⟩⟩]) := by
  obtain ⟨tables, current, frameRoots⟩ := s
  obtain rfl : current = some epoch := opened
  generalize is : (⟨root.id, ⟨frame, root.creator⟩⟩ : RootAndSlot) = r at fits fresh
  have frameIs : frame = r.slot.frame := by rw [← is]
  obtain ⟨after, done, stores⟩ := (inv.tables epoch).put r
  -- everything but the cache
  have rest : ∀ cache : Cache Nat (List RootAndSlot), (cache.Holds fun f rr =>
      ∃ e, some epoch = some e ∧ RootsOf (learn known epoch [r] e) f rr) →
      Inv map ⟨Function.update tables epoch after, some epoch, cache⟩ (learn known epoch [r]) := by
    refine fun cache cached => ⟨fun other => ?_, fun other => ?_, fun other => ?_, cached⟩ <;>
    by_cases same : other = epoch
    · rw [same]
      simpa using stores
    · simpa [Function.update_of_ne same, learn_of_ne same] using inv.tables other
    · rw [same, learn_self]
      exact List.forall_mem_append.mpr ⟨inv.fits epoch, by simpa using fits⟩
    · rw [learn_of_ne same]
      exact inv.fits other
    · rw [same, learn_self]
      exact List.nodup_append.mpr ⟨inv.nodup epoch, List.nodup_singleton r, by
        rintro x old y new rfl
        exact fresh (List.mem_singleton.mp new ▸ old)⟩
    · rw [learn_of_ne same]
      exact inv.nodup other
  have others : ∀ {f rr}, f ≠ frame → (∃ e, some epoch = some e ∧ RootsOf (known e) f rr) →
      ∃ e, some epoch = some e ∧ RootsOf (learn known epoch [r] e) f rr := by
    rintro f rr ne ⟨e, same, roots⟩
    cases same
    exact ⟨epoch, rfl, by simpa using roots.snoc_other (frameIs ▸ ne)⟩
  simp only [RootsStore.addRoot, is, done]
  obtain ⟨kept, hit⟩ := Cache.get_holds inv.cached frame
  have miss := @Cache.get_none _ _ _ frameRoots frame
  generalize frameRoots.get frame = lookup at kept hit miss
  obtain ⟨found, cache⟩ := lookup
  cases found with
  | some rr =>
    obtain ⟨_, same, roots⟩ := hit rr rfl
    cases same
    refine ⟨_, rfl, rfl, rest _ (Cache.add_holds ?_ ⟨epoch, rfl, ?_⟩)⟩
    · exact fun ent member ne => others ne (kept ent member)
    · rw [learn_self, frameIs]
      exact RootsOf.snoc (frameIs ▸ roots)
  | none =>
    obtain ⟨rfl, away⟩ := miss rfl
    exact ⟨_, rfl, rfl, rest _ fun ent member =>
      others (away ent member) (inv.cached ent member)⟩

theorem addRoots_spec (small : root.creator < 2 ^ 32)
    (smallFrames : ∀ frame ∈ frames, frame < 2 ^ 32) (nodup : frames.Nodup) (inv : Inv map s known)
    (opened : s.opened = some epoch)
    (fresh : ∀ frame ∈ frames, ⟨root.id, ⟨frame, root.creator⟩⟩ ∉ known epoch) :
    ∃ t, s.addRoots store root frames = .ok t ∧ t.opened = s.opened ∧
      Inv map t (learn known epoch (frames.map fun frame => ⟨root.id, ⟨frame, root.creator⟩⟩)) := by
  induction frames generalizing s known with
  | nil => exact ⟨s, rfl, rfl, by simpa [learn] using inv⟩
  | cons frame rest ih =>
    obtain ⟨smallFrame, smallRest⟩ := List.forall_mem_cons.mp smallFrames
    obtain ⟨apart, nodup⟩ := List.nodup_cons.mp nodup
    obtain ⟨new, freshRest⟩ := List.forall_mem_cons.mp fresh
    obtain ⟨t, first, openedT, inv⟩ := addRoot_spec inv opened ⟨smallFrame, small⟩ new
    obtain ⟨u, later, openedU, inv⟩ := ih smallRest nodup inv (openedT.trans opened)
      fun other member => by
        rw [learn_self, List.mem_append, List.mem_singleton, not_or]
        exact ⟨freshRest other member, by simpa using ne_of_mem_of_not_mem member apart⟩
    refine ⟨u, ?_, openedU.trans openedT, ?_⟩
    · rw [RootsStore.addRoots, List.foldlM_cons, first]
      exact later
    · rw [learn_learn] at inv
      exact inv

def Action.openedAfter (opened : Option Nat) : Action → Option Nat
  | .openEpochDB epoch => some epoch
  | _ => opened

theorem addedIn_cons (epoch : Nat) (opened : Option Nat) (a : Action) (rest : List Action) :
    addedIn epoch opened (a :: rest) =
      addedIn epoch opened [a] ++ addedIn epoch (a.openedAfter opened) rest := by
  cases a <;> simp [addedIn, Action.openedAfter]

theorem addedIn_ids {opened : Option Nat} (member : r ∈ addedIn epoch opened [a]) :
    a.rootID = some r.id := by
  cases a with
  | addRoot selfParentFrame root =>
    by_cases current : opened = some epoch
    · simp only [addedIn, current, ↓reduceIte, List.append_nil, List.mem_map] at member
      obtain ⟨frame, _, rfl⟩ := member
      rfl
    · simp [addedIn, current] at member
  | openEpochDB _ => nomatch member
  | getFrameRoots _ => nomatch member

theorem loopFrames_facts {selfParentFrame : Nat}
    (looped : RootsStore.loopFrames selfParentFrame frame = some frames) :
    frames.Nodup ∧ ∀ f ∈ frames, f ≤ frame := by
  rw [RootsStore.loopFrames] at looped
  split_ifs at looped
  cases looped
  refine ⟨List.nodup_range', fun f member => ?_⟩
  rw [List.mem_range'_1] at member
  omega

theorem step_spec (inv : Inv map s known) (typed : a.Typed)
    (fresh : ∀ id, a.rootID = some id → ∀ epoch, ∀ r ∈ known epoch, r.id ≠ id)
    (move : step store s a = some t) : t.opened = a.openedAfter s.opened ∧
      Inv map t fun epoch => known epoch ++ addedIn epoch s.opened [a] := by
  cases a with
  | openEpochDB epoch =>
    cases move
    simp only [addedIn, List.append_nil]
    exact ⟨rfl, inv.tables, inv.fits, inv.nodup, Cache.purge_holds⟩
  | getFrameRoots f =>
    simp only [addedIn, List.append_nil]
    rw [step] at move
    obtain ⟨⟨rr, _⟩, returned, rfl⟩ := Option.map_eq_some_iff.mp move
    cases opened : s.opened with
    | some epoch =>
      obtain ⟨rr', t', done, _, same, inv⟩ := getFrameRoots_spec inv opened typed
      rw [done] at returned
      cases returned
      exact ⟨same.trans opened, inv⟩
    | none =>
      rw [getFrameRoots_unopened inv opened] at returned
      cases returned
  | addRoot selfParentFrame root =>
    obtain ⟨_, smallFrame, smallCreator⟩ := typed
    rw [step] at move
    cases looped : RootsStore.loopFrames selfParentFrame root.frame with
    | none => simp [looped] at move
    | some frames =>
      obtain ⟨nodup, upTo⟩ := loopFrames_facts looped
      simp only [looped] at move
      simp only [addedIn, looped, Option.getD_some, List.append_nil]
      cases opened : s.opened with
      | some epoch =>
        obtain ⟨u, done, same, inv⟩ := addRoots_spec smallCreator
          (fun frame member => (upTo frame member).trans_lt smallFrame) nodup inv opened
          (fun frame _ member => fresh root.id rfl epoch _ member rfl)
        rw [done] at move
        cases move
        rw [learn_eq] at inv
        exact ⟨same.trans opened, inv⟩
      | none =>
        -- the loop has nothing to add, or fails at once
        cases frames with
        | nil =>
          cases move
          exact ⟨opened, by simpa using inv⟩
        | cons frame rest =>
          have fails : s.addRoots store root (frame :: rest) = .error .notOpened := by
            rw [RootsStore.addRoots, List.foldlM_cons, RootsStore.addRoot, opened]
            rfl
          rw [fails] at move
          cases move

theorem run_spec (inv : Inv map s known) {actions : List Action}
    (distinct : (actions.filterMap Action.rootID).Nodup)
    (fresh : ∀ id ∈ actions.filterMap Action.rootID, ∀ epoch, ∀ r ∈ known epoch, r.id ≠ id)
    (run : Transition.Run (step store) (fun _ a => a.Typed) s actions t) :
    Inv map t fun epoch => known epoch ++ addedIn epoch s.opened actions := by
  induction run generalizing known with
  | nil s => simpa [addedIn] using inv
  | @cons s t u a rest typed move _ ih =>
    have own : ∀ id, a.rootID = some id → id ∈ (a :: rest).filterMap Action.rootID :=
      fun id is => List.mem_filterMap.mpr ⟨a, List.mem_cons_self, is⟩
    obtain ⟨opened, inv⟩ := step_spec inv typed (fun id is => fresh id (own id is)) move
    have apart : ∀ id ∈ rest.filterMap Action.rootID, a.rootID ≠ some id := by grind
    have later : rest.filterMap Action.rootID <:+ (a :: rest).filterMap Action.rootID :=
      (List.suffix_cons a rest).filterMap _
    have inv := ih inv (distinct.sublist later.sublist) fun id member epoch r known => by
      rcases List.mem_append.mp known with old | new
      · exact fresh id (later.subset member) epoch r old
      · exact fun same => apart id member (same ▸ addedIn_ids new)
    simp only [opened] at inv
    simpa only [List.append_assoc, ← addedIn_cons] using inv

theorem inv_new {fresh : S} (creates : Creates map fresh) (maxWeight maxSize : Nat) :
    Inv map (.new (fun _ => fresh) maxWeight maxSize) fun _ => [] :=
  ⟨fun _ => ⟨creates.valid, fun k => by rw [RootsStore.new, creates.empty]; rfl⟩, by simp, by simp,
    Cache.new_holds maxWeight maxSize⟩

/-- In every run over new tables in which no event is added twice, whatever the limits of the cache,
`GetFrameRoots` returns the roots that were added for the frame in the open epoch, each once. -/
theorem frameRoots_coherent {fresh : S} (creates : Creates map fresh) (maxWeight maxSize : Nat)
    {actions : List Action} (distinct : (actions.filterMap Action.rootID).Nodup)
    (run : Transition.Run (step store) (fun _ a => a.Typed) (.new (fun _ => fresh) maxWeight maxSize) actions s) :
    (∀ epoch f, s.opened = some epoch → f < 2 ^ 32 → ∃ rr t,
      s.getFrameRoots store f = .ok (rr, t) ∧ rr.Nodup ∧
      rr.Perm ((addedIn epoch none actions).filter fun r => r.slot.frame = f)) ∧
    (∀ r, Fits r → decodeKey r.slot.frame (rootRecordKey r) = .ok r) ∧
    ∀ r f, Fits r → f < 2 ^ 32 → (encode frameSize f <+: rootRecordKey r ↔ r.slot.frame = f) := by
  refine ⟨fun epoch f opened small => ?_, fun r => decodeKey_rootRecordKey,
    fun r f => frame_prefix_iff⟩
  have inv := run_spec (inv_new creates maxWeight maxSize) distinct (by simp) run
  obtain ⟨rr, t, returned, roots, _, _⟩ := getFrameRoots_spec inv opened small
  have perm : rr.Perm ((addedIn epoch none actions).filter fun r => r.slot.frame = f) := roots
  exact ⟨rr, t, returned, perm.nodup_iff.mpr ((inv.nodup epoch).filter _), perm⟩

set_option maxRecDepth 4000 in
/-- A cache that has room for one frame of one root: the second frame takes its place, and the entry
of two roots is evicted as it is added. -/
theorem frameRoots_coherent_evicted : ∃ s rr t,
    Transition.Run (step memorydb) (fun _ a => a.Typed) (.new (fun _ => .wrap ()) 1 1)
      [.openEpochDB 1, .addRoot 0 ⟨1, 1, 1, 7, [], 1, 21⟩, .getFrameRoots 1, .getFrameRoots 2,
        .addRoot 0 ⟨1, 1, 2, 8, [], 1, 22⟩] s ∧
    s.getFrameRoots memorydb 1 = .ok (rr, t) ∧
    rr.Perm [⟨21, ⟨1, 7⟩⟩, ⟨22, ⟨1, 8⟩⟩] := by
  obtain ⟨s, run, opened⟩ : ∃ s, Transition.Run (step memorydb) (fun _ a => a.Typed)
      (.new (fun _ => .wrap ()) 1 1) [.openEpochDB 1, .addRoot 0 ⟨1, 1, 1, 7, [], 1, 21⟩,
        .getFrameRoots 1, .getFrameRoots 2, .addRoot 0 ⟨1, 1, 2, 8, [], 1, 22⟩] s ∧
      s.opened = some 1 :=
    ⟨_, .of_foldlM (by simp [Action.Typed]) rfl, rfl⟩
  obtain ⟨rr, t, returned, _, perm⟩ :=
    (frameRoots_coherent creates_memorydb 1 1 (by decide) run).1 1 1 opened (by decide)
  exact ⟨s, rr, t, run, returned, perm⟩

end Coherence

end Lachesis.Abft.RootsTable
