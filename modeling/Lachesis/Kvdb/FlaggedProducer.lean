import Lachesis.Kvdb.PoolDrops

/-!
`flaggedproducer`: a store that writes a dirty mark before the first change after a flush. The
flag in memory, the mark and the data are three separate writes; clients and a flush run
concurrently, one atomic access or one underlying write at a time.
-/

namespace Lachesis.Kvdb

open Transition

namespace Flagged

inductive Job where
  | client (writes : List Write)
  | flush (id : Bytes)

/-- Where a call is: the last two are for `Flush` only, and for calls that have returned. -/
inductive Pc where
  | load
  | setFlag
  | putMark
  | write
  | reset
  | returned (ok : Bool)
  deriving DecidableEq

structure Thread where
  job : Job
  pc : Pc

/-- `since` is the data at the time the present mark was written; `mu` is who holds the producer's
mutex. -/
structure State where
  contents : Contents
  since : Contents
  dirty : Bool
  mu : Option Nat
  threads : Nat → Option Thread

inductive Action where
  | start (t : Nat) (job : Job)
  | load (t : Nat)
  | setFlag (t : Nat)
  | putMark (t : Nat) (ok : Bool)
  | write (t : Nat) (ok : Bool)
  | reset (t : Nat)

section Model

variable (flushIDKey : Bytes)

def Job.writes : Job → List Write
  | .client writes => writes
  | .flush id => [⟨flushIDKey, some (cleanPrefix :: id)⟩]

def State.goTo (s : State) (t : Nat) (thread : Thread) (pc : Pc) : State :=
  { s with threads := Function.update s.threads t (some { thread with pc := pc }) }

def State.leave (s : State) (t : Nat) (thread : Thread) (ok : Bool) : State :=
  { s.goTo t thread (.returned ok) with mu := if s.mu = some t then none else s.mu }

def State.put (s : State) (writes : List Write) : State :=
  { s with contents := s.contents.applyAll writes
           since := if ∃ w ∈ writes, w.key = flushIDKey then s.contents.applyAll writes else s.since }

def State.step (s : State) : Action → Option State
  | .start t job =>
    match s.threads t, job with
    | none, .client _ => some (s.goTo t ⟨job, .load⟩ .load)
    | none, .flush _ => if s.mu = none then some { s.goTo t ⟨job, .load⟩ .load with mu := some t } else none
    | some _, _ => none
  | .load t =>
    match s.threads t with
    | some thread => if thread.pc = .load
        then some (s.goTo t thread (if s.dirty then .write else .setFlag)) else none
    | none => none
  | .setFlag t =>
    match s.threads t with
    | some thread => if thread.pc = .setFlag
        then some { s.goTo t thread .putMark with dirty := true } else none
    | none => none
  | .putMark t ok =>
    match s.threads t with
    | some thread => if thread.pc = .putMark
        then some (if ok then (s.put flushIDKey [⟨flushIDKey, some [dirtyPrefix]⟩]).goTo t thread .write
          else s.leave t thread false) else none
    | none => none
  | .write t ok =>
    match s.threads t with
    | some thread => if thread.pc = .write
        then some (if ok then
            let s := s.put flushIDKey (thread.job.writes flushIDKey)
            match thread.job with
            | .client _ => s.leave t thread true
            | .flush _ => s.goTo t thread .reset
          else s.leave t thread false) else none
    | none => none
  | .reset t =>
    match s.threads t with
    | some thread => if thread.pc = .reset
        then some { s.leave t thread true with dirty := false } else none
    | none => none

def State.opened (contents : Contents) : State := ⟨contents, contents, false, none, fun _ => none⟩

def State.Marked (s : State) : Prop := ∃ mark, s.contents flushIDKey = some mark ∧ [dirtyPrefix] <+: mark

def State.Honest (s : State) : Prop :=
  ∀ mark, s.contents flushIDKey = some mark →
    ¬ SameData flushIDKey (some s.contents) (some s.since) → [dirtyPrefix] <+: mark

/-- Clients leave the mark alone. No call finds the flag set while another is between setting it and
writing the mark, or a flush between its mark and the flag; the clean mark is not written while a
call is about to write; the write of a dirty mark does not fail unless there is one. -/
def Careful (s : State) : Action → Prop
  | .start _ job => ∀ writes, job = .client writes → ∀ w ∈ writes, w.key ≠ flushIDKey
  | .load _ => s.dirty = true →
      ∀ u thread, s.threads u = some thread → thread.pc ≠ .putMark ∧ thread.pc ≠ .reset
  | .putMark _ ok => ok = true ∨ s.Marked flushIDKey
  | .write t ok => ∀ id pc, s.threads t = some ⟨.flush id, pc⟩ → ok = true →
      ∀ u thread, s.threads u = some thread → thread.pc = .write → u = t
  | _ => True

end Model

section Proof

variable {flushIDKey : Bytes} {s s' : State} {t : Nat} {thread : Thread}

def State.Settled (s : State) (u : Nat) : Prop :=
  ∀ thread, s.threads u = some thread → thread.pc ≠ .putMark ∧ thread.pc ≠ .reset

structure Inv (flushIDKey : Bytes) (s : State) : Prop where
  honest : s.Honest flushIDKey
  flag : s.dirty = true → (∀ u, s.Settled u) → s.Marked flushIDKey
  writing : ∀ u thread, s.threads u = some thread → thread.pc = .write → s.Marked flushIDKey
  reserved : ∀ u thread writes, s.threads u = some thread → thread.job = .client writes →
    ∀ w ∈ writes, w.key ≠ flushIDKey

theorem inv_opened (contents : Contents) : Inv flushIDKey (.opened contents) where
  honest _ _ differs := absurd (.refl _) differs
  flag := nofun
  writing := nofun
  reserved := nofun

theorem inv_moved (inv : Inv flushIDKey s) {pc : Pc}
    (moved : s'.threads = Function.update s.threads t (some { thread with pc := pc }))
    (own : ∀ writes, thread.job = .client writes → ∀ w ∈ writes, w.key ≠ flushIDKey)
    (honest : s'.Honest flushIDKey)
    (flag : s'.dirty = true → pc ≠ .putMark → pc ≠ .reset → (∀ u, u ≠ t → s.Settled u) →
      s'.Marked flushIDKey)
    (writing : pc = .write ∨ (∃ u other, u ≠ t ∧ s.threads u = some other ∧ other.pc = .write) →
      s'.Marked flushIDKey) : Inv flushIDKey s' := by
  have others : ∀ u, u ≠ t → s'.threads u = s.threads u := fun u apart => by
    rw [moved, Function.update_of_ne apart]
  have here : s'.threads t = some { thread with pc := pc } := by rw [moved, Function.update_self]
  refine ⟨honest, fun dirty settled => ?_, fun u other found at_ => ?_, fun u other writes found job => ?_⟩
  · obtain ⟨notMark, notReset⟩ := settled t _ here
    refine flag dirty notMark notReset fun u apart other found => ?_
    exact settled u other ((others u apart).trans found)
  · grind
  · by_cases same : u = t
    · subst same
      cases here.symm.trans found
      exact own writes job
    · exact inv.reserved u other writes ((others u same).symm.trans found) job

theorem inv_goTo (inv : Inv flushIDKey s) {pc : Pc} (contents : s'.contents = s.contents)
    (since : s'.since = s.since)
    (moved : s'.threads = Function.update s.threads t (some { thread with pc := pc }))
    (own : ∀ writes, thread.job = .client writes → ∀ w ∈ writes, w.key ≠ flushIDKey)
    (flag : s'.dirty = true → pc ≠ .putMark → pc ≠ .reset → (∀ u, u ≠ t → s.Settled u) →
      s.Marked flushIDKey)
    (here : pc = .write → s.Marked flushIDKey) : Inv flushIDKey s' := by
  have same : s'.Marked flushIDKey ↔ s.Marked flushIDKey := by rw [State.Marked, State.Marked, contents]
  refine inv_moved inv moved own ?_ (fun dirty notMark notReset others => same.mpr
    (flag dirty notMark notReset others)) fun why => same.mpr ?_
  · rw [State.Honest, contents, since]
    exact inv.honest
  · rcases why with write | ⟨u, other, _, found, at_⟩
    · exact here write
    · exact inv.writing u other found at_

variable {writes : List Write}

theorem honest_put (marks : ∃ w ∈ writes, w.key = flushIDKey) (s : State) :
    (s.put flushIDKey writes).Honest flushIDKey := by
  intro _ _ differs
  rw [State.put, if_pos marks] at differs
  exact absurd (.refl _) differs

theorem marked_put (others : ∀ w ∈ writes, w.key ≠ flushIDKey) (marked : s.Marked flushIDKey) :
    (s.put flushIDKey writes).Marked flushIDKey := by
  obtain ⟨mark, has, dirty⟩ := marked
  exact ⟨mark, (applyAll_untouched others).trans has, dirty⟩

theorem Marked.honest (marked : s.Marked flushIDKey) : s.Honest flushIDKey := by
  intro mark has _
  obtain ⟨mark', has', dirty⟩ := marked
  cases has.symm.trans has'
  exact dirty

theorem inv_start {job : Job} (inv : Inv flushIDKey s)
    (careful : Careful flushIDKey s (.start t job))
    (move : s.step flushIDKey (.start t job) = some s') : Inv flushIDKey s' := by
  have enters : ∀ mu, s.threads t = none →
      Inv flushIDKey { s.goTo t ⟨job, .load⟩ .load with mu := mu } := by
    intro mu free
    refine @inv_goTo _ s _ t ⟨job, .load⟩ inv .load rfl rfl rfl careful (fun dirty _ _ others => ?_) nofun
    refine inv.flag dirty fun u thread found => ?_
    by_cases same : u = t
    · rw [same, free] at found
      cases found
    · exact others u same thread found
  cases free : s.threads t with
  | some _ =>
    simp only [State.step, free] at move
    cases move
  | none =>
    cases job with
    | client writes =>
      simp only [State.step, free] at move
      cases move
      exact enters s.mu free
    | flush id =>
      simp only [State.step, free] at move
      split at move
      · cases move
        exact enters (some t) free
      · cases move

theorem inv_write {ok : Bool} (inv : Inv flushIDKey s)
    (careful : Careful flushIDKey s (.write t ok)) (found : s.threads t = some thread)
    (at_ : thread.pc = .write) :
    Inv flushIDKey (if ok then
      let s := s.put flushIDKey (thread.job.writes flushIDKey)
      match thread.job with
      | .client _ => s.leave t thread true
      | .flush _ => s.goTo t thread .reset
    else s.leave t thread false) := by
  have own := fun writes => inv.reserved t thread writes found
  have marked := inv.writing t thread found at_
  cases ok with
  | false => exact inv_goTo inv rfl rfl rfl own (fun _ _ _ _ => marked) nofun
  | true =>
    cases job : thread.job with
    | client writes =>
      have still := marked_put (own writes job) marked
      exact inv_moved inv rfl own (Marked.honest still) (fun _ _ _ _ => still) fun _ => still
    | flush id =>
      have marks : ∃ w ∈ (Job.flush id).writes flushIDKey, w.key = flushIDKey :=
        ⟨_, List.mem_singleton_self _, rfl⟩
      have honest : ((s.put flushIDKey ((Job.flush id).writes flushIDKey)).goTo t thread
          .reset).Honest flushIDKey := honest_put marks s
      refine inv_moved inv rfl own honest
        (fun _ _ reset => absurd rfl reset) ?_
      rintro (wrong | ⟨u, other, apart, has, writes⟩)
      · cases wrong
      · have this : s.threads t = some ⟨.flush id, thread.pc⟩ := by rw [found, ← job]
        exact absurd (careful id thread.pc this rfl u other has writes) apart

theorem step_inv {a : Action} (inv : Inv flushIDKey s) (careful : Careful flushIDKey s a)
    (move : s.step flushIDKey a = some s') : Inv flushIDKey s' := by
  cases a with
  | start t job => exact inv_start inv careful move
  | load t =>
    rw [State.step] at move
    split at move
    · next thread found =>
      split at move
      · cases move
        have own := fun writes => inv.reserved t thread writes found
        cases dirty : s.dirty with
        | true =>
          have marked := inv.flag dirty (careful dirty)
          exact inv_goTo inv rfl rfl rfl own (fun _ _ _ _ => marked) fun _ => marked
        | false =>
          refine inv_goTo inv rfl rfl rfl own (fun wrong => ?_) nofun
          cases dirty.symm.trans wrong
      · cases move
    · cases move
  | setFlag t =>
    rw [State.step] at move
    split at move
    · next thread found =>
      split at move
      · cases move
        exact inv_goTo inv rfl rfl rfl (fun writes => inv.reserved t thread writes found)
          (fun _ mark => absurd rfl mark) nofun
      · cases move
    · cases move
  | putMark t ok =>
    rw [State.step] at move
    split at move
    · next thread found =>
      split at move
      · cases move
        have own := fun writes => inv.reserved t thread writes found
        cases ok with
        | true =>
          have marked : (s.put flushIDKey [⟨flushIDKey, some [dirtyPrefix]⟩]).Marked flushIDKey :=
            ⟨[dirtyPrefix], Function.update_self .., List.prefix_rfl⟩
          exact inv_moved inv rfl own (Marked.honest marked) (fun _ _ _ _ => marked) fun _ => marked
        | false =>
          have marked := careful.resolve_left nofun
          exact inv_goTo inv rfl rfl rfl own (fun _ _ _ _ => marked) nofun
      · cases move
    · cases move
  | write t ok =>
    rw [State.step] at move
    split at move
    · next thread found =>
      split at move
      · next at_ =>
        cases move
        exact inv_write inv careful found at_
      · cases move
    · cases move
  | reset t =>
    rw [State.step] at move
    split at move
    · next thread found =>
      split at move
      · cases move
        exact inv_goTo inv rfl rfl rfl (fun writes => inv.reserved t thread writes found) nofun nofun
      · cases move
    · cases move

/-- A clean mark is never on modified data, and a check rejects the store as long as its data is
modified. -/
theorem clean_mark_honest {contents : Contents} {actions : List Action}
    (run : Run (State.step flushIDKey) (Careful flushIDKey) (.opened contents) actions s) :
    s.Honest flushIDKey ∧
    ∀ {S : Type} {store : Store S} (map : ReadMap store) (dbs : List (Name × S)) (name : Name) (db : S)
      (flushID : Option Bytes), (∀ x ∈ dbs, map.Valid x.2) → (name, db) ∈ dbs →
      map.contents db = s.contents → s.contents flushIDKey ≠ none →
      ¬ SameData flushIDKey (some s.contents) (some s.since) →
      (checkDBsSynced store dbs flushIDKey flushID).2 ≠ none := by
  have inv : Inv flushIDKey s :=
    run.invariant (fun _ _ _ inv careful move => step_inv inv careful move) (inv_opened contents)
  refine ⟨inv.honest, fun map dbs name db flushID valid inside holds has differs check => ?_⟩
  obtain ⟨mark, has⟩ := Option.ne_none_iff_exists'.mp has
  obtain ⟨accepted, verdict⟩ : ∃ accepted,
      checkDBsSynced _ dbs flushIDKey flushID = (accepted, none) := ⟨_, Prod.ext rfl check⟩
  have synced := (checkDBsSynced_iff valid flushID accepted).mp verdict
  exact (synced.marks (name, db) inside mark (by rw [holds]; exact has)).1 (inv.honest mark has differs)

end Proof

def flushedStore : State := .opened (Function.update (fun _ => none) [9] (some [cleanPrefix, 1]))

/-- One write: the mark is dirty. -/
theorem clean_mark_honest_put : ∃ s, Run (State.step [9]) (Careful [9]) flushedStore
    [.start 0 (.client [⟨[5], some [6]⟩]), .load 0, .setFlag 0, .putMark 0 true, .write 0 true] s ∧
    ¬ SameData [9] (some s.contents) (some s.since) ∧
    ∀ mark, s.contents [9] = some mark → [dirtyPrefix] <+: mark := by
  have started : Careful [9] flushedStore (.start 0 (.client [⟨[5], some [6]⟩])) := by
    rintro writes ⟨⟩
    simp
  have run : Run (State.step [9]) (Careful [9]) flushedStore
      [.start 0 (.client [⟨[5], some [6]⟩]), .load 0, .setFlag 0, .putMark 0 true, .write 0 true] _ :=
    .cons started rfl (.cons (fun dirty => (nomatch dirty)) rfl (.cons trivial rfl
      (.cons (.inl rfl) rfl (.cons (fun _ _ found => (nomatch found)) rfl (.nil _)))))
  have honest := (clean_mark_honest run).1
  refine ⟨_, run, ?_, fun mark has => honest mark has ?_⟩
  · exact fun same => (nomatch same [5] (by decide))
  · exact fun same => (nomatch same [5] (by decide))

def Overlooks (actions : List Action) : Prop :=
  ∃ s, actions.foldlM (State.step [9]) flushedStore = some s ∧ ¬ s.Honest [9]

/-- The mark is not written and the client tries again; a second writer finds the flag set before
the mark is written; a flush writes its mark between a writer's mark and its data. -/
theorem clean_mark_modified :
    Overlooks [.start 0 (.client [⟨[5], some [6]⟩]), .load 0, .setFlag 0, .putMark 0 false,
      .start 1 (.client [⟨[5], some [6]⟩]), .load 1, .write 1 true] ∧
    Overlooks [.start 0 (.client []), .load 0, .setFlag 0, .start 1 (.client [⟨[5], some [6]⟩]),
      .load 1, .write 1 true] ∧
    Overlooks [.start 0 (.client [⟨[5], some [6]⟩]), .load 0, .setFlag 0, .putMark 0 true,
      .start 1 (.flush [2]), .load 1, .write 1 true, .write 0 true] := by
  refine ⟨⟨_, rfl, fun honest => ?_⟩, ⟨_, rfl, fun honest => ?_⟩, ⟨_, rfl, fun honest => ?_⟩⟩
  · exact absurd (honest _ rfl fun same => (nomatch same [5] (by decide))) (by decide)
  · exact absurd (honest _ rfl fun same => (nomatch same [5] (by decide))) (by decide)
  · exact absurd (honest _ rfl fun same => (nomatch same [5] (by decide))) (by decide)

end Flagged

end Lachesis.Kvdb
