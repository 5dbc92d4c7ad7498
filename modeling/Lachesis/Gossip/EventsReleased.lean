import Lachesis.Gossip.EventsOrder

/-!
What `Released` is called with, and what the steps of a push leave as it is.
-/

namespace Lachesis.Gossip.Dagordering.EventsBuffer

open Dag Simplewlru Triples

variable {World Err : Type}

def delivered (calls : List (Call Err)) : List Pushed :=
  calls.filterMap fun call => match call with
    | .released e _ => some e
    | _ => none

structure SameBooks (s t : EventsBuffer World Err) : Prop where
  incompletes : t.incompletes = s.incompletes
  marks : ∀ n, (t.marks n).released = (s.marks n).released
  calls : delivered t.calls = delivered s.calls
  pushes : t.pushes = s.pushes

theorem dropEvent_books (s : EventsBuffer World Err) (e : Pushed) (err : DropError Err) :
    SameBooks s (s.dropEvent e err) := by
  refine ⟨dropEvent_incompletes s e err, fun n => ?_, by rw [dropEvent_calls], ?_⟩
  · unfold dropEvent
    split
    · by_cases own : n = e.serial
      · subst own
        simp
      · simp [own]
    · rfl
  · unfold dropEvent
    split <;> rfl

variable {callback : Callback World Err}

theorem checkEvent_books (s : EventsBuffer World Err) (e : Pushed) (parents : List Event) :
    SameBooks s (checkEvent callback s e parents).2 := by
  unfold checkEvent
  split
  · exact ⟨rfl, fun _ => rfl, rfl, rfl⟩
  · exact ⟨rfl, fun _ => rfl, by simp [delivered], rfl⟩

theorem SameBooks.trans {s t u : EventsBuffer World Err} (first : SameBooks s t)
    (second : SameBooks t u) : SameBooks s u :=
  ⟨second.incompletes.trans first.incompletes, fun n => (second.marks n).trans (first.marks n),
    second.calls.trans first.calls, second.pushes.trans first.pushes⟩

theorem processCompleteEvent_books (s : EventsBuffer World Err) (e : Pushed)
    (parents : List Event) : SameBooks s (processCompleteEvent callback s e parents).2 := by
  have first := @checkEvent_books _ _ callback s e parents
  unfold processCompleteEvent
  generalize checkEvent callback s e parents = result at first ⊢
  obtain ⟨_ | err, mid⟩ := result
  · dsimp only at first ⊢
    generalize callback.process mid.world e.event = result
    obtain ⟨_ | err, world⟩ := result
    · exact first.trans ⟨rfl, fun _ => rfl, by simp [delivered], rfl⟩
    · refine (first.trans ?_).trans (dropEvent_books _ e _)
      refine ⟨rfl, fun n => ?_, by simp [delivered], rfl⟩
      by_cases own : n = e.serial
      · subst own
        simp
      · simp [own]
  · exact first.trans (dropEvent_books _ e _)

theorem releaseEvent_marks (s : EventsBuffer World Err) (e : Pushed) (n : Nat) :
    ((releaseEvent callback s e).marks n).released =
      if n = e.serial then true else (s.marks n).released := by
  have marks : (releaseEvent callback s e).marks =
      Function.update s.marks e.serial ⟨(s.marks e.serial).err, true⟩ := by
    dsimp only [releaseEvent]
    split <;> rfl
  rw [marks]
  by_cases own : n = e.serial
  · subst own
    simp
  · simp [own]

theorem releaseEvent_pushes (s : EventsBuffer World Err) (e : Pushed) :
    (releaseEvent callback s e).pushes = s.pushes := by
  dsimp only [releaseEvent]
  split <;> rfl

theorem releaseEvent_delivered (notify : callback.released.isSome) (s : EventsBuffer World Err)
    (e : Pushed) : delivered (releaseEvent callback s e).calls =
      delivered s.calls ++ if (s.marks e.serial).released then [] else [e] := by
  obtain ⟨notified, given⟩ := Option.isSome_iff_exists.mp notify
  cases done : (s.marks e.serial).released <;> simp [releaseEvent, given, done, delivered]

theorem releaseEvent_remove (s : EventsBuffer World Err) (e : Pushed) (id : EventID) :
    releaseEvent callback (s.remove id) e = (releaseEvent callback s e).remove id := by
  simp only [releaseEvent, remove]
  split <;> rfl

theorem buffered_release (s : EventsBuffer World Err) (e : Pushed) :
    (releaseEvent callback s e).buffered = s.buffered := by
  rw [buffered, releaseEvent_incompletes]
  rfl

section Push

variable {s : EventsBuffer World Err}

theorem remove_of_absent {id : EventID} (keyed : s.Keyed) (absent : ∀ p ∈ s.buffered, p.event.id ≠ id) :
    s.remove id = s := by
  have same : s.incompletes.remove id = s.incompletes := by
    rw [Cache.remove]
    congr 1
    refine List.filter_eq_self.mpr fun ent member => ?_
    have other := absent ent.value (List.mem_map.mpr ⟨ent, member, rfl⟩)
    simpa [keyed.key ent member] using other
  rw [remove, same]

theorem SameBooks.buffered {t : EventsBuffer World Err} (same : SameBooks s t) :
    t.buffered = s.buffered := by
  rw [EventsBuffer.buffered, same.incompletes]
  rfl

theorem dropEvent_remove (s : EventsBuffer World Err) (e : Pushed) (err : DropError Err)
    (id : EventID) : (s.remove id).dropEvent e err = (s.dropEvent e err).remove id := by
  unfold dropEvent remove
  cases (s.marks e.serial).err <;> rfl

theorem victim_mem {ent : Entry EventID Pushed} (chosen : victim callback s = some ent) :
    ent ∈ s.incompletes.evictList := by
  unfold victim at chosen
  split at chosen
  · exact List.mem_of_mem_head? chosen
  · split at chosen
    · next found =>
      cases chosen
      exact List.mem_of_find?_eq_some found
    · exact List.mem_of_mem_head? chosen

theorem evict_len {ent : Entry EventID Pushed} (inside : ent ∈ s.incompletes.evictList) :
    (s.evict callback ent).incompletes.len < s.incompletes.len := by
  rw [evict, releaseEvent_incompletes, dropEvent_incompletes]
  refine List.length_filter_lt_length_iff_exists.mpr ⟨ent, inside, by simp⟩

theorem spillRounds_empty : ∀ (rounds : Nat) (s : EventsBuffer World Err),
    s.incompletes.len ≤ rounds → (spillRounds callback ⟨0, 0⟩ rounds s).incompletes.evictList = [] := by
  intro rounds
  induction rounds with
  | zero => exact fun s few => List.length_eq_zero_iff.mp (Nat.le_zero.mp few)
  | succ rounds ih =>
    intro s few
    rw [spillRounds]
    split
    · split
      · next none =>
        unfold victim at none
        split at none
        · exact List.head?_eq_none_iff.mp none
        · split at none
          · cases none
          · exact List.head?_eq_none_iff.mp none
      · next ent chosen =>
        exact ih _ (Nat.lt_succ_iff.mp ((evict_len (victim_mem chosen)).trans_le few))
    · next within =>
      refine List.length_eq_zero_iff.mp ?_
      simp only [not_or, not_lt, Nat.le_zero] at within
      exact within.1

end Push

end Lachesis.Gossip.Dagordering.EventsBuffer
