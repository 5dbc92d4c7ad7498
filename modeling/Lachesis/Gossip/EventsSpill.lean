import Lachesis.Gossip.EventsReleased

/-!
What `spillIncompletes` evicts. The source has a loop for a buffer without `IsImportant` and another
one with it; both evict the entry that `victim` names, one at a time, for as long as a limit is
exceeded.
-/

namespace Lachesis.Gossip.Dagordering.EventsBuffer

open Dag Simplewlru Triples

variable {World Err : Type} (callback : Callback World Err)

def removeOldest (s : EventsBuffer World Err) : Option (Pushed × EventsBuffer World Err) :=
  match s.incompletes.evictList with
  | [] => none
  | oldest :: rest =>
    some (oldest.value, { s with incompletes := { s.incompletes with evictList := rest } })

def spillEvent (s : EventsBuffer World Err) (e : Pushed) : EventsBuffer World Err :=
  releaseEvent callback (s.dropEvent e .spilledEvent) e

def Exceeds (limit : Metric) (s : EventsBuffer World Err) : Prop :=
  limit.num < s.incompletes.len ∨ limit.size < s.incompletes.weight

instance (limit : Metric) (s : EventsBuffer World Err) : Decidable (Exceeds limit s) :=
  inferInstanceAs (Decidable (_ ∨ _))

def spillFast (limit : Metric) : Nat → EventsBuffer World Err → EventsBuffer World Err
  | 0, s => s
  | rounds + 1, s =>
    if Exceeds limit s then
      match s.removeOldest with
      | none => s
      | some (e, s) => spillFast limit rounds (s.spillEvent callback e)
    else s

def spillFirst (isImportant : Event → Bool) (s : EventsBuffer World Err) :
    List EventID → Option (EventsBuffer World Err)
  | [] => none
  | k :: keys =>
    match s.incompletes.peek k with
    | none => spillFirst isImportant s keys
    | some e =>
      if isImportant e.event then spillFirst isImportant s keys
      else some ((s.remove k).spillEvent callback e)

def spillSlow (isImportant : Event → Bool) (limit : Metric) :
    Nat → EventsBuffer World Err → EventsBuffer World Err
  | 0, s => s
  | rounds + 1, s =>
    if Exceeds limit s then
      match spillFirst callback isImportant s s.incompletes.keys with
      | some s => spillSlow isImportant limit rounds s
      | none =>
        match s.removeOldest with
        | none => s
        | some (e, s) => spillSlow isImportant limit rounds (s.spillEvent callback e)
    else s

variable {callback}

section Paths

variable {s : EventsBuffer World Err}

variable {oldest : Entry EventID Pushed} {rest : List (Entry EventID Pushed)}
  {isImportant : Event → Bool}

theorem Keyed.filter_head (keyed : s.Keyed) (is : s.incompletes.evictList = oldest :: rest) :
    s.incompletes.evictList.filter (fun ent => ent.key ≠ oldest.key) = rest := by
  have nodup := keyed.nodup
  rw [Cache.keys, is, List.map_cons, List.nodup_cons] at nodup
  rw [is, List.filter_cons_of_neg (by simp), List.filter_eq_self]
  intro ent member
  have other : ent.key ≠ oldest.key := fun same =>
    nodup.1 (List.mem_map.mpr ⟨ent, member, same⟩)
  simpa using other

/-- What the source takes off the back of its list is the head here. -/
theorem removeOldest_head (callback : Callback World Err) (keyed : s.Keyed)
    (more : EventsBuffer World Err → EventsBuffer World Err) :
    (match s.removeOldest with
      | none => s
      | some (e, t) => more (t.spillEvent callback e)) =
      match s.incompletes.evictList.head? with
      | none => s
      | some ent => more (s.evict callback ent) := by
  cases is : s.incompletes.evictList with
  | nil => rw [removeOldest, is]; rfl
  | cons oldest rest =>
    rw [removeOldest, is, List.head?_cons]
    dsimp only
    rw [evict, remove, Cache.remove, keyed.filter_head is]
    rfl

theorem spillFirst_eq (isImportant : Event → Bool) (keyed : s.Keyed) :
    ∀ entries : List (Entry EventID Pushed), entries ⊆ s.incompletes.evictList →
      spillFirst callback isImportant s (entries.map Entry.key) =
        (entries.find? fun ent => ¬ isImportant ent.value.event).map (s.evict callback) := by
  intro entries
  induction entries with
  | nil => exact fun _ => rfl
  | cons ent rest ih =>
    intro inside
    have member := inside List.mem_cons_self
    have later := ih fun other listed => inside (List.mem_cons_of_mem ent listed)
    rw [List.map_cons, spillFirst, keyed.peek member]
    dsimp only
    cases important : isImportant ent.value.event with
    | true =>
      rw [if_pos rfl, later, List.find?_cons_of_neg (by simp [important])]
    | false =>
      rw [if_neg Bool.false_ne_true, List.find?_cons_of_pos (by simp [important])]
      rfl

theorem Keyed.evict (keyed : s.Keyed) (ent : Entry EventID Pushed) :
    (s.evict callback ent).Keyed := by
  refine keyed.sublist ?_
  rw [EventsBuffer.evict, releaseEvent_incompletes, dropEvent_incompletes]
  exact List.filter_sublist

theorem spillRounds_fast (plain : callback.isImportant = none) (limit : Metric) :
    ∀ (rounds : Nat) (s : EventsBuffer World Err), s.Keyed →
      spillRounds callback limit rounds s = spillFast callback limit rounds s := by
  intro rounds
  induction rounds with
  | zero => exact fun _ _ => rfl
  | succ rounds ih =>
    intro s keyed
    rw [spillRounds, spillFast]
    refine if_congr Iff.rfl ?_ rfl
    rw [victim, plain, removeOldest_head callback keyed]
    dsimp only
    cases s.incompletes.evictList.head? with
    | none => rfl
    | some oldest => exact ih _ (keyed.evict oldest)

theorem spillRounds_slow (given : callback.isImportant = some isImportant) (limit : Metric) :
    ∀ (rounds : Nat) (s : EventsBuffer World Err), s.Keyed →
      spillRounds callback limit rounds s = spillSlow callback isImportant limit rounds s := by
  intro rounds
  induction rounds with
  | zero => exact fun _ _ => rfl
  | succ rounds ih =>
    intro s keyed
    rw [spillRounds, spillSlow]
    refine if_congr Iff.rfl ?_ rfl
    rw [victim, given, Cache.keys, spillFirst_eq isImportant keyed _ (List.Subset.refl _)]
    dsimp only
    cases found : s.incompletes.evictList.find? fun ent => ¬ isImportant ent.value.event with
    | some ent => exact ih _ (keyed.evict ent)
    | none =>
      dsimp only [Option.map_none]
      rw [removeOldest_head callback keyed]
      cases s.incompletes.evictList.head? with
      | none => rfl
      | some oldest => exact ih _ (keyed.evict oldest)

theorem spillSlow_eq_spillFast (never : ∀ e, isImportant e = false) (limit : Metric) :
    ∀ (rounds : Nat) (s : EventsBuffer World Err), s.Keyed →
      spillSlow callback isImportant limit rounds s = spillFast callback limit rounds s := by
  intro rounds
  induction rounds with
  | zero => exact fun _ _ => rfl
  | succ rounds ih =>
    intro s keyed
    rw [spillSlow, spillFast]
    refine if_congr Iff.rfl ?_ rfl
    rw [Cache.keys, spillFirst_eq isImportant keyed _ (List.Subset.refl _),
      removeOldest_head callback keyed, removeOldest_head callback keyed]
    cases s.incompletes.evictList with
    | nil => rfl
    | cons oldest rest =>
      rw [List.find?_cons_of_pos (by simp [never])]
      exact ih _ (keyed.evict oldest)

end Paths

section Evictions

structure Aged (s : EventsBuffer World Err) : Prop where
  keyed : s.Keyed
  ascending : s.buffered.Pairwise fun p q => p.serial < q.serial
  used : ∀ p ∈ s.buffered, p.serial < s.pushes
  limits : s.incompletes.maxWeight = maxInt32 ∧ s.incompletes.maxSize = maxInt32

def SameFrame (s t : EventsBuffer World Err) : Prop :=
  t.pushes = s.pushes ∧ t.incompletes.maxWeight = s.incompletes.maxWeight ∧
    t.incompletes.maxSize = s.incompletes.maxSize

variable {t s : EventsBuffer World Err} {limit : Metric} {ent : Entry EventID Pushed}

theorem SameFrame.trans {u : EventsBuffer World Err} (first : SameFrame s t)
    (second : SameFrame t u) : SameFrame s u :=
  ⟨second.1.trans first.1, second.2.1.trans first.2.1, second.2.2.trans first.2.2⟩

theorem SameBooks.frame (same : SameBooks s t) : SameFrame s t :=
  ⟨same.pushes, by rw [same.incompletes], by rw [same.incompletes]⟩

theorem releaseEvent_frame (s : EventsBuffer World Err) (e : Pushed) :
    SameFrame s (releaseEvent callback s e) :=
  ⟨releaseEvent_pushes s e, by rw [releaseEvent_incompletes], by rw [releaseEvent_incompletes]⟩

theorem remove_frame (s : EventsBuffer World Err) (id : EventID) : SameFrame s (s.remove id) :=
  ⟨rfl, rfl, rfl⟩

theorem Aged.of_sublist (aged : Aged s)
    (fewer : t.incompletes.evictList.Sublist s.incompletes.evictList) (frame : SameFrame s t) :
    Aged t where
  keyed := aged.keyed.sublist fewer
  ascending := aged.ascending.sublist (fewer.map Entry.value)
  used p inside := frame.1 ▸ aged.used p ((fewer.map Entry.value).subset inside)
  limits := ⟨frame.2.1.trans aged.limits.1, frame.2.2.trans aged.limits.2⟩

theorem dropEvent_frame (s : EventsBuffer World Err) (e : Pushed) (err : DropError Err) :
    SameFrame s (s.dropEvent e err) := (dropEvent_books s e err).frame

theorem evict_evictList (s : EventsBuffer World Err) (ent : Entry EventID Pushed) :
    (s.evict callback ent).incompletes.evictList =
      s.incompletes.evictList.filter (fun other => other.key ≠ ent.key) := by
  rw [evict, releaseEvent_incompletes, dropEvent_incompletes]
  rfl

theorem evict_frame (s : EventsBuffer World Err) (ent : Entry EventID Pushed) :
    SameFrame s (s.evict callback ent) :=
  ((remove_frame s ent.key).trans (dropEvent_frame _ _ _)).trans (releaseEvent_frame _ _)

theorem Aged.evict {s : EventsBuffer World Err} (aged : Aged s) (ent : Entry EventID Pushed) :
    Aged (s.evict callback ent) := by
  refine aged.of_sublist ?_ (evict_frame s ent)
  rw [evict_evictList]
  exact List.filter_sublist

variable (callback) in
def important (p : Pushed) : Bool :=
  match callback.isImportant with
  | none => false
  | some isImportant => isImportant p.event

variable (callback) in
/-- The entry is buffered, it is important only if all are, and no other entry that is as important
is older. -/
structure Chosen (s : EventsBuffer World Err) (ent : Entry EventID Pushed) : Prop where
  inside : ent ∈ s.incompletes.evictList
  lastResort : important callback ent.value = true →
    ∀ p ∈ s.buffered, important callback p = true
  oldest : ∀ p ∈ s.buffered, important callback p = important callback ent.value →
    ent.value.serial ≤ p.serial

variable (callback) in
/-- Evictions one after the other, each while a limit is exceeded, until none is. -/
inductive Spills (limit : Metric) :
    EventsBuffer World Err → List Pushed → EventsBuffer World Err → Prop where
  | done {s : EventsBuffer World Err} (within : ¬ Exceeds limit s) : Spills limit s [] s
  | evict {s t : EventsBuffer World Err} {ent : Entry EventID Pushed} {rest : List Pushed}
      (exceeds : Exceeds limit s) (chosen : Chosen callback s ent)
      (later : Spills limit (s.evict callback ent) rest t) : Spills limit s (ent.value :: rest) t

theorem Spills.within {evicted : List Pushed} (spills : Spills callback limit s evicted t) :
    ¬ Exceeds limit t := by
  induction spills with
  | done within => exact within
  | evict _ _ _ ih => exact ih

theorem Aged.find_oldest (aged : Aged s) {p : Entry EventID Pushed → Bool}
    (found : s.incompletes.evictList.find? p = some ent) :
    ∀ other ∈ s.incompletes.evictList, p other = true → ent.value.serial ≤ other.value.serial := by
  have sorted := aged.ascending
  rw [buffered, List.pairwise_map] at sorted
  generalize s.incompletes.evictList = entries at found sorted
  induction entries with
  | nil => cases found
  | cons first rest ih =>
    obtain ⟨before, sorted⟩ := List.pairwise_cons.mp sorted
    intro other inside meets
    cases holds : p first with
    | true => grind
    | false => grind

theorem Aged.head_oldest (aged : Aged s) (first : s.incompletes.evictList.head? = some ent) :
    ∀ p ∈ s.buffered, ent.value.serial ≤ p.serial := by
  intro p inside
  obtain ⟨other, member, rfl⟩ := List.mem_map.mp inside
  have found : s.incompletes.evictList.find? (fun _ => true) = some ent := by
    cases is : s.incompletes.evictList with
    | nil => rw [is] at first; cases first
    | cons oldest rest => rw [is] at first; exact first
  exact aged.find_oldest found other member rfl

theorem victim_chosen (aged : Aged s) (chosen : victim callback s = some ent) :
    Chosen callback s ent := by
  have inside := victim_mem chosen
  unfold victim at chosen
  cases given : callback.isImportant with
  | none =>
    rw [given] at chosen
    refine ⟨inside, fun is => ?_, fun p member _ => aged.head_oldest chosen p member⟩
    rw [important, given] at is
    cases is
  | some isImportant =>
    have reads : ∀ p, important callback p = isImportant p.event := fun p => by
      rw [important, given]
    rw [given] at chosen
    dsimp only at chosen
    split at chosen
    · next first found =>
      cases chosen
      have plain : isImportant ent.value.event = false := by simpa using List.find?_some found
      refine ⟨inside, fun is => ?_, fun p member same => ?_⟩
      · rw [reads, plain] at is
        cases is
      · obtain ⟨other, listed, rfl⟩ := List.mem_map.mp member
        rw [reads, reads, plain] at same
        exact aged.find_oldest found other listed (by simp [same])
    · next missing =>
      refine ⟨inside, fun _ p member => ?_, fun p member _ => aged.head_oldest chosen p member⟩
      obtain ⟨other, listed, rfl⟩ := List.mem_map.mp member
      rw [reads]
      simpa using List.find?_eq_none.mp missing other listed

theorem victim_some (callback : Callback World Err) (exceeds : Exceeds limit s) :
    ∃ ent, victim callback s = some ent := by
  have nonempty : s.incompletes.evictList ≠ [] := by
    intro empty
    rw [Exceeds, Cache.len, Cache.weight, empty] at exceeds
    simp at exceeds
  have first : ∃ ent, s.incompletes.evictList.head? = some ent :=
    Option.isSome_iff_exists.mp (List.isSome_head?.mpr nonempty)
  unfold victim
  split
  · exact first
  · split
    · exact ⟨_, rfl⟩
    · exact first

theorem spillRounds_spills (limit : Metric) : ∀ (rounds : Nat) (s : EventsBuffer World Err),
    Aged s → s.incompletes.len ≤ rounds →
    ∃ evicted, Spills callback limit s evicted (spillRounds callback limit rounds s) := by
  intro rounds
  induction rounds with
  | zero =>
    intro s aged few
    refine ⟨[], .done fun exceeds => ?_⟩
    obtain ⟨ent, chosen⟩ := victim_some callback exceeds
    have inside := victim_mem chosen
    rw [List.length_eq_zero_iff.mp (Nat.le_zero.mp few)] at inside
    cases inside
  | succ rounds ih =>
    intro s aged few
    change ∃ evicted, Spills callback limit s evicted (if Exceeds limit s then _ else s)
    by_cases exceeds : Exceeds limit s
    · obtain ⟨ent, chosen⟩ := victim_some callback exceeds
      rw [if_pos exceeds, chosen]
      have shorter := @evict_len _ _ callback _ _ (victim_mem chosen)
      obtain ⟨rest, later⟩ := ih (s.evict callback ent) (aged.evict ent) (by omega)
      exact ⟨_, .evict exceeds (victim_chosen aged chosen) later⟩
    · rw [if_neg exceeds]
      exact ⟨[], .done exceeds⟩

end Evictions

section Runs

theorem pushEventInner_fewer : ∀ (fuel : Nat) (e : Pushed) (list : Option (List Pushed))
    (recheck : Bool) (s : EventsBuffer World Err),
    Ensures (pushEventInner callback fuel e list recheck s) fun r =>
      r.2.incompletes.evictList.Sublist (s.incompletes.evictList ++
        if recheck then [] else [⟨e.event.id, e, callback.size e.event⟩]) ∧
      SameFrame s r.2 := by
  intro fuel
  induction fuel with
  | zero => exact fun _ _ _ _ => ensures_error
  | succ fuel ih =>
    intro e list recheck s
    have grown : ∀ {t : EventsBuffer World Err},
        t.incompletes.evictList.Sublist s.incompletes.evictList →
        t.incompletes.evictList.Sublist (s.incompletes.evictList ++
          if recheck then [] else [⟨e.event.id, e, callback.size e.event⟩]) :=
      fun fewer => fewer.trans (List.sublist_append_left _ _)
    rw [pushEventInner]
    split
    · refine ensures_ok ⟨grown ?_, ?_⟩
      · rw [releaseEvent_incompletes]
        split
        · exact List.filter_sublist
        · rw [dropEvent_incompletes]
          exact List.filter_sublist
      · refine SameFrame.trans ?_ (releaseEvent_frame _ e)
        split
        · exact remove_frame s _
        · exact (remove_frame s _).trans (dropEvent_frame _ _ _)
    · split
      · refine ensures_ok ?_
        cases recheck with
        | true => exact ⟨grown (.refl _), rfl, rfl, rfl⟩
        | false =>
          refine ⟨(Cache.normalize_suffix _ _ _).sublist.trans ?_, rfl, rfl, rfl⟩
          exact List.filter_sublist.append (.refl _)
      · next parents _ =>
        have same := @processCompleteEvent_books _ _ callback s e parents
        split
        · next t run =>
          rw [run] at same
          refine ensures_ok ⟨grown (List.filter_sublist.trans ?_), ?_⟩
          · rw [releaseEvent_incompletes, same.incompletes]
          · exact (same.frame.trans (releaseEvent_frame t e)).trans (remove_frame _ _)
        · next t run =>
          rw [run] at same
          have start : (releaseEvent callback t e).incompletes.evictList.Sublist
              s.incompletes.evictList ∧ SameFrame s (releaseEvent callback t e) := by
            refine ⟨?_, same.frame.trans (releaseEvent_frame t e)⟩
            rw [releaseEvent_incompletes, same.incompletes]
          have nested : ∀ whole : List Pushed, ∀ child ∈ whole, ∀ u : EventsBuffer World Err,
              (u.incompletes.evictList.Sublist s.incompletes.evictList ∧ SameFrame s u) →
              Ensures (pushEventInner callback fuel child (some whole) true u) fun r =>
                r.2.incompletes.evictList.Sublist s.incompletes.evictList ∧ SameFrame s r.2 := by
            intro whole child _ u sofar
            refine ensures_mono (ih child (some whole) true u) fun r later => ?_
            rw [if_pos rfl, List.append_nil] at later
            exact ⟨later.1.trans sofar.1, sofar.2.trans later.2⟩
          refine ensures_bind (visitChildren_invariant _ _ _ (nested _) start)
            fun u visited => ensures_ok ⟨grown (List.filter_sublist.trans visited.1), visited.2⟩

variable {s t : EventsBuffer World Err} {limit : Metric} {evicted : List Pushed}

theorem instantiate_aged (aged : Aged s) (de : Event) (peer : String) :
    Aged (s.instantiate de peer).2 where
  keyed := ⟨aged.keyed.key, aged.keyed.nodup⟩
  ascending := aged.ascending
  used p inside := Nat.lt_succ_of_lt (aged.used p inside)
  limits := aged.limits

theorem Aged.grown {e : Pushed} {size : Nat} (aged : Aged s)
    (absent : s.incompletes.peek e.event.id = none) (own : e.serial < s.pushes)
    (newest : ∀ p ∈ s.buffered, p.serial < e.serial)
    (fewer : t.incompletes.evictList.Sublist (s.incompletes.evictList ++ [⟨e.event.id, e, size⟩]))
    (frame : SameFrame s t) : Aged t := by
  have noEntry := aged.keyed.absent absent
  constructor
  · constructor
    · intro ent member
      rcases List.mem_append.mp (fewer.subset member) with old | new
      · exact aged.keyed.key ent old
      · rw [List.mem_singleton.mp new]
    · refine (fewer.map Entry.key).nodup ?_
      rw [List.map_append, List.nodup_append]
      refine ⟨aged.keyed.nodup, List.nodup_singleton _, ?_⟩
      intro key old _ new same
      obtain ⟨ent, member, rfl⟩ := List.mem_map.mp old
      rw [List.map_singleton, List.mem_singleton] at new
      refine noEntry ent.value (List.mem_map.mpr ⟨ent, member, rfl⟩) ?_
      rw [← aged.keyed.key ent member, same, new]
  · refine List.Pairwise.sublist (fewer.map Entry.value) ?_
    rw [List.map_append, List.pairwise_append]
    refine ⟨aged.ascending, List.pairwise_singleton _ _, fun p old q new => ?_⟩
    rw [List.map_singleton, List.mem_singleton] at new
    exact new ▸ newest p old
  · intro p inside
    have listed := (fewer.map Entry.value).subset inside
    rw [List.map_append, List.mem_append] at listed
    rw [frame.1]
    rcases listed with old | new
    · exact aged.used p old
    · rw [List.map_singleton, List.mem_singleton] at new
      exact new ▸ own
  · exact ⟨frame.2.1.trans aged.limits.1, frame.2.2.trans aged.limits.2⟩

theorem pushEventInner_aged {s : EventsBuffer World Err} {e : Pushed} (aged : Aged s)
    (absent : s.incompletes.peek e.event.id = none) (own : e.serial < s.pushes)
    (newest : ∀ p ∈ s.buffered, p.serial < e.serial) (fuel : Nat) :
    Ensures (pushEventInner callback fuel e none false s) fun r => Aged r.2 := by
  refine ensures_mono (pushEventInner_fewer fuel e none false s) fun r later => ?_
  obtain ⟨fewer, frame⟩ := later
  rw [if_neg Bool.false_ne_true] at fewer
  exact aged.grown absent own newest fewer frame

theorem Spills.aged (spills : Spills callback limit s evicted t) (aged : Aged s) : Aged t := by
  induction spills with
  | done => exact aged
  | evict _ _ _ ih => exact ih (aged.evict _)

theorem Spills.frame (spills : Spills callback limit s evicted t) : SameFrame s t := by
  induction spills with
  | done => exact ⟨rfl, rfl, rfl⟩
  | evict _ _ _ ih => exact (evict_frame _ _).trans ih

theorem spillIncompletes_spills (callback : Callback World Err) (limit : Metric) (aged : Aged s) :
    ∃ evicted, Spills callback limit s evicted (s.spillIncompletes callback limit) :=
  spillRounds_spills limit _ s aged le_rfl

theorem spillIncompletes_within (within : ¬ Exceeds limit s) :
    s.spillIncompletes callback limit = s := by
  rw [spillIncompletes]
  cases s.incompletes.len with
  | zero => rfl
  | succ rounds => exact if_neg within

/-- A push comes to some state `mid` and spills from there. -/
theorem pushEvent_mid {P : EventsBuffer World Err → Prop} (within : ¬ Exceeds limit s) {de : Event}
    {peer : String}
    (known : P (releaseEvent callback ((s.instantiate de peer).2.dropEvent ⟨s.pushes, de, peer⟩
      .duplicateEvent) ⟨s.pushes, de, peer⟩))
    (fresh : s.incompletes.peek de.id = none →
      Ensures (pushEventInner callback (s.incompletes.len + 2) ⟨s.pushes, de, peer⟩ none false
        (s.instantiate de peer).2) fun r => P r.2) :
    Ensures (s.pushEvent callback limit de peer) fun r =>
      ∃ mid, P mid ∧ r.2 = mid.spillIncompletes callback limit ∧
        (s.incompletes.peek de.id = none →
          pushEventInner callback (s.incompletes.len + 2) ⟨s.pushes, de, peer⟩ none false
            (s.instantiate de peer).2 = .ok (r.1, mid)) := by
  refine pushEvent_cases (Ensures · _) (fun old found => ?_) fun absent => ?_
  · refine ensures_ok ⟨_, known, (spillIncompletes_within ?_).symm, fun absent => ?_⟩
    · change ¬ Exceeds limit (releaseEvent callback (dropEvent _ _ _) _)
      rw [Exceeds, releaseEvent_incompletes, dropEvent_incompletes]
      exact within
    · cases absent.symm.trans found
  · exact ensures_bind (fun r inner => inner) fun r inner =>
      ensures_ok ⟨r.2, fresh absent _ inner, rfl, fun _ => inner⟩

theorem known_aged (aged : Aged s) (de : Event) (peer : String) :
    Aged (releaseEvent callback ((s.instantiate de peer).2.dropEvent ⟨s.pushes, de, peer⟩
      .duplicateEvent) ⟨s.pushes, de, peer⟩) := by
  refine (instantiate_aged aged de peer).of_sublist ?_
    ((dropEvent_frame _ _ _).trans (releaseEvent_frame _ _))
  rw [releaseEvent_incompletes, dropEvent_incompletes]

theorem fresh_aged (aged : Aged s) {de : Event} (peer : String)
    (absent : s.incompletes.peek de.id = none) :
    Ensures (pushEventInner callback (s.incompletes.len + 2) ⟨s.pushes, de, peer⟩ none false
      (s.instantiate de peer).2) fun r => Aged r.2 :=
  pushEventInner_aged (e := ⟨s.pushes, de, peer⟩) (instantiate_aged aged de peer) absent
    (Nat.lt_succ_self _) aged.used _

theorem step_aged (aged : Aged s) (within : ¬ Exceeds limit s) (a : Action) :
    Ensures (step callback limit s a) fun t => Aged t ∧ ¬ Exceeds limit t := by
  cases a with
  | push de peer =>
    refine ensures_bind (pushEvent_mid within (known_aged aged de peer) (fresh_aged aged peer))
      fun r spilled => ensures_ok ?_
    obtain ⟨mid, before, is, _⟩ := spilled
    obtain ⟨evicted, spills⟩ := spillIncompletes_spills callback limit before
    rw [is]
    exact ⟨spills.aged before, spills.within⟩
  | clear =>
    obtain ⟨evicted, spills⟩ := spillIncompletes_spills callback ⟨0, 0⟩ aged
    refine ensures_ok ⟨spills.aged aged, fun exceeds => spills.within ?_⟩
    exact exceeds.imp (Nat.zero_le _).trans_lt (Nat.zero_le _).trans_lt

theorem new_aged (limit : Metric) (world : World) :
    Aged (new world : EventsBuffer World Err) ∧
      ¬ Exceeds limit (new world : EventsBuffer World Err) := by
  refine ⟨⟨⟨nofun, List.nodup_nil⟩, .nil, nofun, rfl, rfl⟩, ?_⟩
  rintro (many | heavy)
  · exact absurd many (Nat.not_lt_zero _)
  · exact absurd heavy (Nat.not_lt_zero _)

theorem run_aged (limit : Metric) (world : World) (actions : List Action) :
    Ensures (actions.foldlM (step callback limit) (new world)) fun s =>
      Aged s ∧ ¬ Exceeds limit s :=
  ensures_foldlM (fun _ a holds => step_aged holds.1 holds.2 a) actions _ (new_aged limit world)

end Runs

end Lachesis.Gossip.Dagordering.EventsBuffer
