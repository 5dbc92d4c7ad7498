import Lachesis.Abft.Frames
import Lachesis.Library.Triples

/-!
What the roots of a store are: the table of the open epoch and the cache of frames agree. Reading
changes the cache alone; adding a root changes the two.
-/

namespace Lachesis.Abft.Store

open Dag Simplewlru Triples

structure RootsIn (R : RootAndSlot → Prop) (f : Nat) (rr : List RootAndSlot) : Prop where
  nodup : rr.Nodup
  mem : ∀ r, r ∈ rr ↔ R r ∧ r.slot.frame = f

/-- The open epoch is `epoch`, and its roots are those that satisfy `R`. -/
structure Rooted (s : Store) (epoch : Nat) (R : RootAndSlot → Prop) : Prop where
  opened : s.opened = some epoch
  nodup : (s.epochDBs epoch).roots.Nodup
  mem : ∀ r, r ∈ (s.epochDBs epoch).roots ↔ R r
  cached : s.frameRoots.Holds (RootsIn R)

def withRoots (s : Store) (epoch : Nat) (roots : List RootAndSlot)
    (cache : Cache Nat (List RootAndSlot)) : Store :=
  { s with epochDBs := Function.update s.epochDBs epoch { s.epochDBs epoch with roots := roots }
           frameRoots := cache }

variable {s : Store} {epoch : Nat} {R : RootAndSlot → Prop}

theorem Rooted.epochTable (rooted : Rooted s epoch R) : s.epochTable = .ok (s.epochDBs epoch) := by
  rw [Store.epochTable, rooted.opened]

theorem getFrameRoots_rooted (rooted : Rooted s epoch R) (f : Nat) :
    ∃ rr cache, s.getFrameRoots f = .ok (rr, { s with frameRoots := cache }) ∧ RootsIn R f rr ∧
      Rooted { s with frameRoots := cache } epoch R := by
  obtain ⟨lastDecided, state, dbs, current, frameRoots⟩ := s
  obtain rfl : current = some epoch := rooted.opened
  obtain ⟨kept, hit⟩ := Cache.get_holds rooted.cached f
  rw [getFrameRoots]
  generalize frameRoots.get f = lookup at kept hit
  obtain ⟨found, cache⟩ := lookup
  cases found with
  | some rr => exact ⟨rr, cache, rfl, hit rr rfl, rfl, rooted.nodup, rooted.mem, kept⟩
  | none =>
    have roots : RootsIn R f ((dbs epoch).roots.filter fun r => r.slot.frame = f) :=
      ⟨rooted.nodup.filter _, fun r => by rw [List.mem_filter, rooted.mem, decide_eq_true_iff]⟩
    exact ⟨_, _, rfl, roots, rfl, rooted.nodup, rooted.mem,
      Cache.add_holds (fun ent member _ => kept ent member) roots⟩

variable {roots : List RootAndSlot} {root : Event}

theorem mem_putRoot {r x : RootAndSlot} : x ∈ putRoot roots r ↔ x ∈ roots ∨ x = r := by
  rw [putRoot]
  split_ifs with known
  · exact ⟨.inl, fun member => member.elim id fun same => same ▸ known⟩
  · rw [List.mem_orderedInsert, or_comm]

theorem nodup_putRoot (r : RootAndSlot) (nodup : roots.Nodup) : (putRoot roots r).Nodup := by
  rw [putRoot]
  split_ifs with known
  · exact nodup
  · exact (List.perm_orderedInsert keyLe r roots).nodup_iff.mpr (List.nodup_cons.mpr ⟨known, nodup⟩)

theorem addRoot_rooted (rooted : Rooted s epoch R) {frame : Nat} (fresh : ¬ R (rootAt root frame)) :
    ∃ roots cache, s.addRoot root frame = .ok (s.withRoots epoch roots cache) ∧
      Rooted (s.withRoots epoch roots cache) epoch fun r => R r ∨ r = rootAt root frame := by
  obtain ⟨lastDecided, state, dbs, current, frameRoots⟩ := s
  obtain rfl : current = some epoch := rooted.opened
  have table : ∀ cache : Cache Nat (List RootAndSlot),
      cache.Holds (RootsIn fun r => R r ∨ r = rootAt root frame) →
      Rooted (withRoots ⟨lastDecided, state, dbs, some epoch, frameRoots⟩ epoch
        (putRoot (dbs epoch).roots (rootAt root frame)) cache) epoch
        fun r => R r ∨ r = rootAt root frame := by
    intro cache cached
    refine ⟨rfl, ?_, fun r => ?_, cached⟩ <;> simp only [withRoots, Function.update_self]
    · exact nodup_putRoot _ rooted.nodup
    · rw [mem_putRoot, rooted.mem]
  -- the cached frames other than the root's own stay right
  have others : ∀ {f rr}, f ≠ frame → RootsIn R f rr →
      RootsIn (fun r => R r ∨ r = rootAt root frame) f rr := by
    intro f rr ne roots
    refine ⟨roots.nodup, fun r => (roots.mem r).trans ⟨fun ⟨old, same⟩ => ⟨.inl old, same⟩, ?_⟩⟩
    rintro ⟨old | rfl, same⟩
    · exact ⟨old, same⟩
    · exact absurd same.symm ne
  obtain ⟨kept, hit⟩ := Cache.get_holds rooted.cached frame
  have miss := @Cache.get_none _ _ _ frameRoots frame
  have run : addRoot ⟨lastDecided, state, dbs, some epoch, frameRoots⟩ root frame =
      .ok (withRoots ⟨lastDecided, state, dbs, some epoch, frameRoots⟩ epoch
        (putRoot (dbs epoch).roots (rootAt root frame))
        ((frameRoots.get frame).1.elim (frameRoots.get frame).2 fun rr =>
          (frameRoots.get frame).2.add frame (rr ++ [rootAt root frame])
            (rr ++ [rootAt root frame]).length)) := by
    simp only [addRoot, epochTable, setEpochTable, bind, Except.bind]
    rcases frameRoots.get frame with ⟨_ | rr, cache⟩ <;> rfl
  rw [run]
  generalize frameRoots.get frame = lookup at kept hit miss
  obtain ⟨found, cache⟩ := lookup
  cases found with
  | some rr =>
    have roots := hit rr rfl
    refine ⟨_, _, rfl, table _ (Cache.add_holds (fun ent member ne => others ne (kept ent member))
      ⟨?_, fun r => ?_⟩)⟩
    · refine List.nodup_append.mpr ⟨roots.nodup, List.nodup_singleton _, ?_⟩
      rintro x old y new rfl
      exact fresh (List.mem_singleton.mp new ▸ ((roots.mem _).mp old).1)
    · rw [List.mem_append, List.mem_singleton, roots.mem]
      constructor
      · rintro (⟨old, same⟩ | rfl)
        · exact ⟨.inl old, same⟩
        · exact ⟨.inr rfl, rfl⟩
      · grind
  | none =>
    obtain ⟨rfl, away⟩ := miss rfl
    exact ⟨_, _, rfl, table _ fun ent member =>
      others (away ent member) (rooted.cached ent member)⟩

theorem withRoots_self (s : Store) (epoch : Nat) :
    s.withRoots epoch (s.epochDBs epoch).roots s.frameRoots = s := by
  rw [withRoots, Function.update_eq_self]

@[simp] theorem withRoots_withRoots (roots roots' : List RootAndSlot)
    (cache cache' : Cache Nat (List RootAndSlot)) :
    (s.withRoots epoch roots cache).withRoots epoch roots' cache' =
      s.withRoots epoch roots' cache' := by
  simp [withRoots]

theorem Rooted.congr {R' : RootAndSlot → Prop} (rooted : Rooted s epoch R)
    (same : ∀ r, R r ↔ R' r) : Rooted s epoch R' := by
  obtain rfl : R = R' := funext fun r => propext (same r)
  exact rooted

theorem addRoots_rooted (rooted : Rooted s epoch R) {selfParentFrame : Nat}
    (fresh : ∀ f ∈ slots selfParentFrame root.frame, ¬ R (rootAt root f)) :
    ∃ roots cache, s.addRoots selfParentFrame root = .ok (s.withRoots epoch roots cache) ∧
      Rooted (s.withRoots epoch roots cache) epoch fun r =>
        R r ∨ ∃ f ∈ slots selfParentFrame root.frame, r = rootAt root f := by
  have distinct : (slots selfParentFrame root.frame).Nodup := List.nodup_range'
  rw [addRoots]
  generalize slots selfParentFrame root.frame = frames at fresh distinct
  induction frames generalizing s R with
  | nil => exact ⟨_, _, congrArg Except.ok (withRoots_self s epoch).symm,
      (withRoots_self s epoch).symm ▸ rooted.congr (by simp)⟩
  | cons frame rest ih =>
    obtain ⟨new, later⟩ := List.forall_mem_cons.mp fresh
    obtain ⟨apart, distinct⟩ := List.nodup_cons.mp distinct
    obtain ⟨roots, cache, first, rooted⟩ := addRoot_rooted rooted new
    obtain ⟨roots', cache', run, rooted⟩ := ih rooted (fun f member => by
      rintro (old | same)
      · exact later f member old
      · rw [rootAt, rootAt, RootAndSlot.mk.injEq, Slot.mk.injEq] at same
        exact apart (same.2.1 ▸ member)) distinct
    rw [withRoots_withRoots] at run rooted
    refine ⟨roots', cache', ?_, rooted.congr fun r => ?_⟩
    · rw [List.foldlM_cons, first]
      exact run
    · simp [or_assoc]

end Lachesis.Abft.Store
