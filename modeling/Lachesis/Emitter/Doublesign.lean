import Mathlib

/-!
`emitter/doublesign`: how long a node waits before it may emit. A `time.Time` is the number
of nanoseconds since the zero time; a `time.Duration` has 64 bits and its arithmetic wraps.
-/

namespace Lachesis.Doublesign

inductive WaitError where
  /-- "no connections" -/
  | noConnections
  /-- "P2P synchronization isn't finished" -/
  | p2pSyncOngoing
  /-- "not downloaded all the self-events" -/
  | selfEventsOngoing
  /-- "just joined the validators group" -/
  | justBecameValidator
  /-- "recently connected" -/
  | justConnected
  /-- "waiting additional time" -/
  | justP2PSynced
  deriving DecidableEq

structure SyncStatus where
  peersNum : Int
  now : Int
  lastConnected : Int
  p2pSynced : Int
  becameValidator : Int
  externalSelfEventCreated : Int
  externalSelfEventDetected : Int

def SyncStatus.since (s : SyncStatus) (t : Int) : Int64 :=
  Int64.ofInt (max (-2 ^ 63) (min (2 ^ 63 - 1) (s.now - t)))

structure MaxWaitError where
  wait : Int64
  waitErr : Option WaitError

def MaxWaitError.apply (m : MaxWaitError) (wait : Int64) (waitErr : WaitError) : MaxWaitError :=
  if m.wait < wait then ⟨wait, some waitErr⟩ else m

/-- One of the five conditions: the moment it counts from, and its error. -/
abbrev Condition := Int × WaitError

def SyncStatus.check (s : SyncStatus) (threshold : Int64) (max : MaxWaitError) (c : Condition) :
    MaxWaitError :=
  if s.since c.1 < threshold then max.apply (threshold - s.since c.1) c.2 else max

def SyncStatus.conditions (s : SyncStatus) : List Condition :=
  [(s.externalSelfEventDetected, .selfEventsOngoing),
    (s.externalSelfEventCreated, .selfEventsOngoing),
    (s.becameValidator, .justBecameValidator),
    (s.lastConnected, .justConnected),
    (s.p2pSynced, .justP2PSynced)]

def syncedToEmit (s : SyncStatus) (threshold : Int64) : Int64 × Option WaitError :=
  if s.peersNum = 0 then (0, some .noConnections)
  else if s.p2pSynced = 0 then (0, some .p2pSyncOngoing)
  else
    let max := s.conditions.foldl (s.check threshold) ⟨0, none⟩
    (max.wait, max.waitErr)

section Waits

variable {s : SyncStatus} {threshold : Int64} {c : Condition} {conditions : List Condition}

def SyncStatus.shortfall (s : SyncStatus) (threshold : Int64) (c : Condition) : Int :=
  threshold.toInt - (s.since c.1).toInt

theorem met_iff : threshold ≤ s.since c.1 ↔ s.shortfall threshold c ≤ 0 := by
  rw [Int64.le_iff_toInt_le, SyncStatus.shortfall]
  omega

theorem unmet_iff : s.since c.1 < threshold ↔ 0 < s.shortfall threshold c := by
  rw [← Int64.not_le, met_iff, Int.not_le]

structure Longest (s : SyncStatus) (threshold : Int64) (conditions : List Condition)
    (m : MaxWaitError) : Prop where
  bound : ∀ c ∈ conditions, s.shortfall threshold c ≤ m.wait.toInt
  attained : (m.wait = 0 ∧ m.waitErr = none) ∨ 0 < m.wait.toInt ∧
    ∃ c ∈ conditions, m.waitErr = some c.2 ∧ m.wait.toInt = s.shortfall threshold c

theorem Longest.check {m : MaxWaitError} (longest : Longest s threshold conditions m)
    (small : s.shortfall threshold c < 2 ^ 63) :
    Longest s threshold (conditions ++ [c]) (s.check threshold m c) := by
  have grown : ∀ (t : MaxWaitError), m.wait.toInt ≤ t.wait.toInt →
      s.shortfall threshold c ≤ t.wait.toInt →
      ∀ d ∈ conditions ++ [c], s.shortfall threshold d ≤ t.wait.toInt := by
    intro t more own d member
    rcases List.mem_append.mp member with before | last
    · exact (longest.bound d before).trans more
    · rw [List.mem_singleton.mp last]
      exact own
  -- The state is kept where the condition asks for no more than the wait so far.
  have kept : s.shortfall threshold c ≤ m.wait.toInt → Longest s threshold (conditions ++ [c]) m := by
    intro enough
    refine ⟨grown m le_rfl enough, longest.attained.imp_right ?_⟩
    rintro ⟨positive, d, member, attains⟩
    exact ⟨positive, d, List.mem_append_left _ member, attains⟩
  have waits : 0 ≤ m.wait.toInt := by
    rcases longest.attained with ⟨zero, _⟩ | ⟨positive, _⟩
    · rw [zero]
      rfl
    · exact positive.le
  unfold SyncStatus.check
  split_ifs with unmet
  · have exact : (threshold - s.since c.1).toInt = s.shortfall threshold c := by
      rw [unmet_iff] at unmet
      unfold SyncStatus.shortfall at unmet small ⊢
      rw [Int64.toInt_sub, Int.bmod_eq_of_le (by omega) (by omega)]
    unfold MaxWaitError.apply
    split_ifs with longer
    · rw [Int64.lt_iff_toInt_lt, exact] at longer
      refine ⟨grown _ (exact ▸ longer.le) exact.ge, .inr ⟨exact ▸ waits.trans_lt longer, ?_⟩⟩
      exact ⟨c, List.mem_append_right _ List.mem_cons_self, rfl, exact⟩
    · rw [Int64.lt_iff_toInt_lt, exact] at longer
      exact kept (Int.not_lt.mp longer)
  · have met := met_iff.mp (Int64.not_lt.mp unmet)
    exact kept (met.trans waits)

theorem longest_conditions (small : ∀ c ∈ conditions, s.shortfall threshold c < 2 ^ 63) :
    Longest s threshold conditions (conditions.foldl (s.check threshold) ⟨0, none⟩) := by
  induction conditions using List.reverseRecOn with
  | nil => exact ⟨by simp, .inl ⟨rfl, rfl⟩⟩
  | append_singleton conditions c ih =>
    rw [List.foldl_append]
    exact (ih fun d member => small d (List.mem_append_left _ member)).check
      (small c (List.mem_append_right _ List.mem_cons_self))

end Waits

/-- A node with a peer that is synced emits after every waiting period, and else learns the
longest of them, exactly when no period is missing more than a duration can hold. -/
theorem syncedToEmit_exact_iff (s : SyncStatus) (threshold : Int64) (peers : 0 < s.peersNum)
    (synced : s.p2pSynced ≠ 0) :
    (((syncedToEmit s threshold).2 = none ↔ ∀ c ∈ s.conditions, threshold ≤ s.since c.1) ∧
      ((∃ c ∈ s.conditions, s.since c.1 < threshold) → 0 < (syncedToEmit s threshold).1 ∧
        (∀ c ∈ s.conditions, s.shortfall threshold c ≤ (syncedToEmit s threshold).1.toInt) ∧
        ∃ c ∈ s.conditions, (syncedToEmit s threshold).2 = some c.2 ∧
          (syncedToEmit s threshold).1.toInt = s.shortfall threshold c)) ↔
      ∀ c ∈ s.conditions, s.shortfall threshold c < 2 ^ 63 := by
  constructor
  · rintro ⟨_, longest⟩ c member
    by_contra wide
    have bound := (longest ⟨c, member, unmet_iff.mpr (by omega)⟩).2.1 c member
    have limit := (syncedToEmit s threshold).1.toInt_lt
    omega
  · intro small
    obtain ⟨bound, attained⟩ := longest_conditions small
    rw [syncedToEmit, if_neg peers.ne', if_neg synced]
    generalize s.conditions.foldl (s.check threshold) ⟨0, none⟩ = m at bound attained ⊢
    simp only [met_iff, unmet_iff]
    rcases attained with ⟨zero, idle⟩ | ⟨waits, c, member, named, attains⟩
    · have met : ∀ c ∈ s.conditions, s.shortfall threshold c ≤ 0 := by
        intro c member
        have most := bound c member
        rwa [zero] at most
      refine ⟨iff_of_true idle met, ?_⟩
      rintro ⟨c, member, unmet⟩
      exact absurd unmet (Int.not_lt.mpr (met c member))
    · refine ⟨iff_of_false (by simp [named]) ?_, ?_⟩
      · intro met
        have less := met c member
        omega
      · intro _
        exact ⟨Int64.lt_iff_toInt_lt.mpr waits, bound, c, member, named, attains⟩

/-- A moment 292 years ahead lifts the protection: the wait wraps below zero. -/
theorem far_future_emits :
    let s : SyncStatus := ⟨1, 10, 1, 1, 10 + 2 ^ 63, 1, 1⟩
    s.since s.becameValidator < 1 ∧ syncedToEmit s 1 = (0, none) := by
  decide

theorem syncedToEmit_exact_waiting :
    let s : SyncStatus := ⟨1, 10, 8, 1, 1, 1, 1⟩
    (∀ c ∈ s.conditions, s.shortfall 5 c < 2 ^ 63) ∧ (syncedToEmit s 5).2 ≠ none := by
  have small : ∀ c ∈ SyncStatus.conditions ⟨1, 10, 8, 1, 1, 1, 1⟩,
      SyncStatus.shortfall ⟨1, 10, 8, 1, 1, 1, 1⟩ 5 c < 2 ^ 63 := by decide
  refine ⟨small, ?_⟩
  intro none
  exact absurd (((syncedToEmit_exact_iff _ 5 (by decide) (by decide)).mpr small).1.mp none)
    (by decide)

end Lachesis.Doublesign
