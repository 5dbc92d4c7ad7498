import Lachesis.Gossip.Itemsfetcher
import Lachesis.Library.Transition

/-!
The two maps of the fetcher: what `announces` holds of the notifications that came in, and that
`fetching` is no larger than `announces`.
-/

namespace Lachesis.Gossip.Itemsfetcher

open Simplewlru Transition

section Normalize

variable {K V : Type} {maxWeight maxSize : Nat}

theorem evicted_append_normalize (maxWeight maxSize : Nat) : ∀ entries : List (Entry K V),
    evicted maxWeight maxSize entries ++ Cache.normalize maxWeight maxSize entries = entries := by
  intro entries
  induction entries with
  | nil => rfl
  | cons oldest rest ih =>
    rw [evicted, Cache.normalize]
    split
    · rw [List.cons_append, ih]
    · rfl

theorem normalize_weight_le (maxWeight maxSize : Nat) : ∀ entries : List (Entry K V),
    ((Cache.normalize maxWeight maxSize entries).map Entry.weight).sum ≤ maxWeight := by
  intro entries
  induction entries with
  | nil => exact Nat.zero_le _
  | cons oldest rest ih =>
    rw [Cache.normalize]
    split
    · exact ih
    · next fits => exact not_lt.mp fun beyond => fits (.inl beyond)

variable {ent : Entry K V}

theorem mem_normalize_snoc (fits : ent.weight ≤ maxWeight) (room : 1 ≤ maxSize) :
    ∀ entries, ent ∈ Cache.normalize maxWeight maxSize (entries ++ [ent]) := by
  intro entries
  induction entries with
  | nil =>
    rw [List.nil_append, Cache.normalize_of_fits (by simpa using fits) room]
    exact List.mem_singleton_self ent
  | cons oldest rest ih =>
    rw [List.cons_append, Cache.normalize]
    split
    · exact ih
    · simp

theorem normalize_snoc_heavy (heavy : maxWeight < ent.weight) :
    ∀ entries, Cache.normalize maxWeight maxSize (entries ++ [ent]) = [] := by
  intro entries
  induction entries with
  | nil => simp [Cache.normalize, heavy]
  | cons oldest rest ih =>
    rw [List.cons_append, Cache.normalize, if_pos, ih]
    left
    simp only [List.map_cons, List.map_append, List.sum_cons, List.sum_append]
    omega

end Normalize

variable {ID PeerID Requester : Type} [DecidableEq ID]

section Cache

variable {V : Type} (c : Cache ID V)

theorem filter_get (id : ID) :
    (c.get id).2.evictList.filter (fun ent => ent.key ≠ id) =
      c.evictList.filter (fun ent => ent.key ≠ id) := by
  unfold Cache.get
  split
  · rfl
  · next ent found =>
    have same : ent.key = id := by simpa using List.find?_some found
    dsimp only
    rw [List.filter_append, List.filter_filter]
    simp [same]

theorem get_limits (id : ID) :
    (c.get id).2.maxWeight = c.maxWeight ∧ (c.get id).2.maxSize = c.maxSize := by
  unfold Cache.get
  split <;> exact ⟨rfl, rfl⟩

theorem get_peek (id : ID) : (c.get id).1 = c.peek id := by
  unfold Cache.get Cache.peek
  split
  · next missing => rw [missing]; rfl
  · next ent found => rw [found]; rfl

theorem get_subperm (id : ID) : (c.get id).2.evictList.Subperm c.evictList := by
  unfold Cache.get
  split
  · exact .refl _
  · next ent found =>
    have own : ent ∈ c.evictList.filter (fun other => !decide (other.key ≠ id)) :=
      List.mem_filter.mpr ⟨List.mem_of_find?_eq_some found, by simpa using List.find?_some found⟩
    have whole := List.filter_append_perm (fun other : Entry ID V => other.key ≠ id) c.evictList
    exact ((List.singleton_sublist.mpr own).append_left _).subperm.trans whole.subperm

variable {c : Cache ID V} {id : ID} {value : V} {ent : Entry ID V}

theorem mem_get_keys {key : ID} (inside : key ∈ c.keys) : key ∈ (c.get id).2.keys := by
  obtain ⟨ent, member, rfl⟩ := List.mem_map.mp inside
  unfold Cache.get
  split
  · exact inside
  · next own found =>
    refine List.mem_map.mpr ?_
    by_cases same : ent.key = id
    · exact ⟨own, by simp, by rw [same]; simpa using List.find?_some found⟩
    · exact ⟨ent, List.mem_append_left _ (List.mem_filter.mpr ⟨member, decide_eq_true same⟩), rfl⟩

theorem mem_keys_peek (found : c.peek id = some value) :
    ∃ ent ∈ c.evictList, ent.key = id ∧ ent.value = value := by
  obtain ⟨ent, is, rfl⟩ := Option.map_eq_some_iff.mp found
  exact ⟨ent, List.mem_of_find?_eq_some is, by simpa using List.find?_some is, rfl⟩

theorem peek_none (missing : c.peek id = none) : id ∉ c.keys := by
  intro inside
  obtain ⟨ent, member, rfl⟩ := List.mem_map.mp inside
  have none_ := List.find?_eq_none.mp (Option.map_eq_none_iff.mp missing) ent member
  exact none_ (decide_eq_true rfl)

theorem peek_of_mem (keyed : c.keys.Nodup) (inside : ent ∈ c.evictList) :
    c.peek ent.key = some ent.value := by
  rw [Cache.peek]
  cases found : c.evictList.find? (fun other => other.key = ent.key) with
  | none => exact absurd (decide_eq_true rfl) (List.find?_eq_none.mp found ent inside)
  | some other =>
    have same : other.key = ent.key := by simpa using List.find?_some found
    rw [List.inj_on_of_nodup_map keyed (List.mem_of_find?_eq_some found) inside same]
    rfl

theorem mem_add {weight : Nat} (inside : ent ∈ (c.add id value weight).evictList) :
    ent = ⟨id, value, weight⟩ ∨ ent ∈ c.evictList ∧ ent.key ≠ id := by
  rcases List.mem_append.mp (Cache.mem_of_mem_normalize inside) with old | new
  · grind
  · exact .inl (List.mem_singleton.mp new)

theorem entries_nodup (keyed : c.keys.Nodup) (id : ID) (value : V) (weight : Nat) :
    ((c.evictList.filter (fun ent => ent.key ≠ id) ++
      [(⟨id, value, weight⟩ : Entry ID V)]).map Entry.key).Nodup := by
  rw [List.map_append, List.nodup_append]
  refine ⟨(List.filter_sublist.map Entry.key).nodup keyed, List.nodup_singleton _, ?_⟩
  intro key old _ new same
  obtain ⟨ent, member, rfl⟩ := List.mem_map.mp old
  have other := of_decide_eq_true (List.mem_filter.mp member).2
  exact other (same.trans (List.mem_singleton.mp new))

theorem add_nodup (keyed : c.keys.Nodup) (id : ID) (value : V) (weight : Nat) :
    (c.add id value weight).keys.Nodup :=
  ((Cache.normalize_suffix _ _ _).sublist.map Entry.key).nodup (entries_nodup keyed id value weight)

end Cache

section Announce

variable (data : AnnounceData PeerID Requester) (noFetching : Bool) (now : Int)

def stored (f : Fetcher ID PeerID Requester) (id : ID) : List (AnnounceData PeerID Requester) :=
  (f.announces.peek id).getD []

theorem announce_announces (f : Fetcher ID PeerID Requester) (toFetch : List ID) (id : ID) :
    (announce data noFetching now (f, toFetch) id).1.announces =
      f.announces.add id (stored f id ++ [data] ++ [data]) ((stored f id).length + 1) := by
  have entries := filter_get f.announces id
  have limits := get_limits f.announces id
  have found := get_peek f.announces id
  unfold announce getAnnounces add stored
  dsimp only
  rw [found]
  have same : (f.announces.get id).2.add id ((f.announces.peek id).getD [] ++ [data] ++ [data])
      ((f.announces.peek id).getD [] ++ [data]).length =
      f.announces.add id ((f.announces.peek id).getD [] ++ [data] ++ [data])
        (((f.announces.peek id).getD []).length + 1) := by
    unfold Cache.add
    dsimp only
    rw [entries, limits.1, limits.2, List.length_append, List.length_singleton]
  split
  · exact same
  · split
    · exact same
    · exact same

end Announce

section Books

variable {D : Type}

def doubled (heard : List D) : List D := heard.flatMap fun data => [data, data]

theorem doubled_snoc (heard : List D) (data : D) :
    doubled (heard ++ [data]) = doubled heard ++ [data] ++ [data] := by
  simp [doubled]

theorem doubled_length (heard : List D) : (doubled heard).length = 2 * heard.length := by
  induction heard with
  | nil => rfl
  | cons data rest ih =>
    rw [doubled, List.flatMap_cons, List.length_append]
    change 2 + (doubled rest).length = _
    rw [ih, List.length_cons]
    omega

/-- The notifications of each item since it was last forgotten. -/
abbrev Heard (ID PeerID Requester : Type) := ID → List (AnnounceData PeerID Requester)

def keep (f : Fetcher ID PeerID Requester) (heard : Heard ID PeerID Requester) :
    Heard ID PeerID Requester :=
  fun id => if id ∈ f.announces.keys then heard id else []

/-- The entries hold what was heard since, twice, and charge one record less than they hold. -/
structure Books (limit : Nat) (f : Fetcher ID PeerID Requester)
    (heard : Heard ID PeerID Requester) : Prop where
  limits : f.announces.maxWeight = limit ∧ f.announces.maxSize = limit
  keyed : f.announces.keys.Nodup
  entry : ∀ ent ∈ f.announces.evictList, heard ent.key ≠ [] ∧
    ent.value = doubled (heard ent.key) ∧ ent.weight + 1 = ent.value.length
  forgotten : ∀ id, id ∉ f.announces.keys → heard id = []
  weight : f.announces.weight ≤ limit

variable {limit : Nat} {f g : Fetcher ID PeerID Requester} {heard : Heard ID PeerID Requester}

theorem Books.stored (books : Books limit f heard) (id : ID) :
    Itemsfetcher.stored f id = doubled (heard id) := by
  rw [Itemsfetcher.stored]
  cases found : f.announces.peek id with
  | none =>
    rw [books.forgotten id (peek_none found)]
    rfl
  | some value =>
    obtain ⟨ent, inside, rfl, rfl⟩ := mem_keys_peek found
    exact (books.entry ent inside).2.1

theorem announce_books (books : Books limit f heard) (data : AnnounceData PeerID Requester)
    (noFetching : Bool) (now : Int) (toFetch : List ID) (id : ID) :
    Books limit (announce data noFetching now (f, toFetch) id).1
      (keep (announce data noFetching now (f, toFetch) id).1
        (Function.update heard id (heard id ++ [data]))) := by
  have announces := announce_announces data noFetching now f toFetch id
  generalize (announce data noFetching now (f, toFetch) id).1 = g at announces
  rw [books.stored id] at announces
  refine ⟨?_, ?_, fun ent inside => ?_, fun other missing => if_neg missing, ?_⟩
  · rw [announces]
    exact books.limits
  · rw [announces]
    exact add_nodup books.keyed _ _ _
  · have held : ent.key ∈ g.announces.keys := List.mem_map_of_mem inside
    rw [announces] at inside
    rw [keep, if_pos held]
    rcases mem_add inside with rfl | ⟨old, other⟩
    · rw [Function.update_self, doubled_snoc]
      exact ⟨by simp, rfl, by simp⟩
    · rw [Function.update_of_ne other]
      exact books.entry ent old
  · rw [announces, Cache.weight]
    exact (normalize_weight_le _ _ _).trans books.limits.1.le

def Shrinks (f g : Fetcher ID PeerID Requester) : Prop :=
  g.announces.maxWeight = f.announces.maxWeight ∧ g.announces.maxSize = f.announces.maxSize ∧
    g.announces.evictList.Subperm f.announces.evictList

omit [DecidableEq ID] in
theorem Shrinks.trans {h : Fetcher ID PeerID Requester} (first : Shrinks f g)
    (second : Shrinks g h) : Shrinks f h :=
  ⟨second.1.trans first.1, second.2.1.trans first.2.1, second.2.2.trans first.2.2⟩

omit [DecidableEq ID] in
theorem shrinks_foldl {A S : Type} {next : S → A → S} (view : S → Fetcher ID PeerID Requester)
    (each : ∀ s a, Shrinks (view s) (view (next s a))) :
    ∀ (items : List A) (s : S), Shrinks (view s) (view (items.foldl next s)) := by
  intro items
  induction items with
  | nil => exact fun s => ⟨rfl, rfl, .refl _⟩
  | cons a rest ih => exact fun s => (each s a).trans (ih (next s a))

theorem Books.shrink (books : Books limit f heard) (shrinks : Shrinks f g) :
    Books limit g (keep g heard) := by
  obtain ⟨weight, size, entries⟩ := shrinks
  refine ⟨⟨weight.trans books.limits.1, size.trans books.limits.2⟩, ?_, fun ent inside => ?_,
    fun other missing => if_neg missing, ?_⟩
  · obtain ⟨kept, perm, sub⟩ := entries
    exact ((perm.map Entry.key).nodup_iff).mp ((sub.map Entry.key).nodup books.keyed)
  · have held : ent.key ∈ g.announces.keys := List.mem_map_of_mem inside
    rw [keep, if_pos held]
    exact books.entry ent (entries.subset inside)
  · obtain ⟨kept, perm, sub⟩ := entries
    rw [Cache.weight, ← (perm.map Entry.weight).sum_eq]
    exact ((sub.map Entry.weight).sum_le_sum fun _ _ => Nat.zero_le _).trans books.weight

theorem getAnnounces_shrinks (f : Fetcher ID PeerID Requester) (id : ID) :
    Shrinks f (getAnnounces f id).2 :=
  ⟨(get_limits f.announces id).1, (get_limits f.announces id).2, get_subperm f.announces id⟩

theorem forgetHash_shrinks (f : Fetcher ID PeerID Requester) (id : ID) :
    Shrinks f (forgetHash f id) := by
  unfold forgetHash
  split
  · exact ⟨rfl, rfl, List.filter_sublist.subperm⟩
  · exact ⟨rfl, rfl, .refl _⟩

variable [DecidableEq PeerID]

theorem recheck_shrinks (cfg : Config) (now : Int) (clock : ID → Int) (pick : ID → Nat)
    (s : Fetcher ID PeerID Requester × Requests ID PeerID Requester) (id : ID) :
    Shrinks s.1 (recheck cfg now clock pick s id).1 := by
  obtain ⟨f, request⟩ := s
  have looked := getAnnounces_shrinks f id
  unfold recheck
  dsimp only
  split
  · exact looked
  · split
    · exact looked.trans (forgetHash_shrinks _ id)
    · split <;> split <;> exact looked

theorem tick_shrinks (cfg : Config) (onlyInterested : List ID → List ID) (now : Int)
    (clock : ID → Int) (pick : ID → Nat) (f : Fetcher ID PeerID Requester) :
    Shrinks f (tick cfg onlyInterested now clock pick f) :=
  (shrinks_foldl Prod.fst (recheck_shrinks cfg now clock pick) _ (f, ∅)).trans
    (shrinks_foldl (fun g => g) forgetHash_shrinks _ _)

def hear (data : AnnounceData PeerID Requester) (noFetching : Bool) (now : Int)
    (w : (Fetcher ID PeerID Requester × List ID) × Heard ID PeerID Requester) (id : ID) :
    (Fetcher ID PeerID Requester × List ID) × Heard ID PeerID Requester :=
  let next := announce data noFetching now w.1 id
  (next, keep next.1 (Function.update w.2 id (w.2 id ++ [data])))

def heardAfter (cfg : Config) (f : Fetcher ID PeerID Requester) (heard : Heard ID PeerID Requester) :
    Action ID PeerID Requester → Heard ID PeerID Requester
  | .notification onlyInterested suspend now data ids =>
    ((onlyInterested ids).foldl (hear data suspend now) ((f, []), heard)).2
  | a => keep (step cfg f a) heard

def follow (cfg : Config) (w : Fetcher ID PeerID Requester × Heard ID PeerID Requester)
    (a : Action ID PeerID Requester) :
    Fetcher ID PeerID Requester × Heard ID PeerID Requester :=
  (step cfg w.1 a, heardAfter cfg w.1 w.2 a)

omit [DecidableEq PeerID] in
theorem foldl_hear_fst (data : AnnounceData PeerID Requester) (noFetching : Bool) (now : Int) :
    ∀ (ids : List ID) (w : (Fetcher ID PeerID Requester × List ID) × Heard ID PeerID Requester),
      (ids.foldl (hear data noFetching now) w).1 = ids.foldl (announce data noFetching now) w.1 := by
  intro ids
  induction ids with
  | nil => exact fun _ => rfl
  | cons id rest ih => exact fun w => ih _

omit [DecidableEq PeerID] in
theorem foldl_hear_books (data : AnnounceData PeerID Requester) (noFetching : Bool) (now : Int) :
    ∀ (ids : List ID) (w : (Fetcher ID PeerID Requester × List ID) × Heard ID PeerID Requester),
      Books limit w.1.1 w.2 → Books limit (ids.foldl (hear data noFetching now) w).1.1
        (ids.foldl (hear data noFetching now) w).2 := by
  intro ids
  induction ids with
  | nil => exact fun _ books => books
  | cons id rest ih =>
    exact fun w books => ih _ (announce_books books data noFetching now w.1.2 id)

omit [DecidableEq PeerID] in
theorem processNotification_announces (onlyInterested : List ID → List ID) (suspend : Bool)
    (now : Int) (f : Fetcher ID PeerID Requester) (data : AnnounceData PeerID Requester)
    (ids : List ID) :
    (processNotification onlyInterested suspend now f data ids).announces =
        ((onlyInterested ids).foldl (announce data suspend now) (f, [])).1.announces ∧
    (processNotification onlyInterested suspend now f data ids).fetching =
        ((onlyInterested ids).foldl (announce data suspend now) (f, [])).1.fetching := by
  unfold processNotification
  dsimp only
  split
  · next empty =>
    rw [List.length_eq_zero_iff.mp empty]
    exact ⟨rfl, rfl⟩
  · split <;> exact ⟨rfl, rfl⟩

omit [DecidableEq ID] [DecidableEq PeerID] in
theorem Books.congr (books : Books limit f heard) (same : g.announces = f.announces) :
    Books limit g heard :=
  ⟨same ▸ books.limits, same ▸ books.keyed, same ▸ books.entry, same ▸ books.forgotten,
    same ▸ books.weight⟩

theorem follow_books (cfg : Config) (books : Books limit f heard) (a : Action ID PeerID Requester) :
    Books limit (follow cfg (f, heard) a).1 (follow cfg (f, heard) a).2 := by
  cases a with
  | notification onlyInterested suspend now data ids =>
    have batch := foldl_hear_books data suspend now (onlyInterested ids) ((f, []), heard) books
    refine batch.congr ?_
    rw [foldl_hear_fst]
    exact (processNotification_announces onlyInterested suspend now f data ids).1
  | receivedItems ids => exact books.shrink (shrinks_foldl (fun g => g) forgetHash_shrinks ids f)
  | fetchTimer onlyInterested now clock pick =>
    exact books.shrink (tick_shrinks cfg onlyInterested now clock pick f)

theorem run_books (cfg : Config) (actions : List (Action ID PeerID Requester)) :
    Books cfg.hashLimit (actions.foldl (follow cfg) (new cfg, fun _ => [])).1
      (actions.foldl (follow cfg) (new cfg, fun _ => [])).2 := by
  have start : Books cfg.hashLimit (new cfg : Fetcher ID PeerID Requester) (fun _ => []) :=
    ⟨⟨rfl, rfl⟩, List.nodup_nil, nofun, fun _ _ => rfl, Nat.zero_le _⟩
  generalize (new cfg : Fetcher ID PeerID Requester) = f at start
  generalize (fun _ => [] : Heard ID PeerID Requester) = heard at start
  induction actions generalizing f heard with
  | nil => exact start
  | cons a rest ih => exact ih _ _ (follow_books cfg start a)

def retained (f : Fetcher ID PeerID Requester) : Nat :=
  (f.announces.evictList.map fun ent => ent.value.length).sum

def Exact (limit : Nat) (f : Fetcher ID PeerID Requester) (heard : Heard ID PeerID Requester) :
    Prop :=
  (∀ ent ∈ f.announces.evictList, ent.value = heard ent.key ∧ ent.weight = ent.value.length) ∧
    retained f ≤ limit

omit [DecidableEq ID] [DecidableEq PeerID] in
theorem Books.exact_iff (books : Books limit f heard) :
    Exact limit f heard ↔ f.announces.evictList = [] := by
  constructor
  · intro exact_
    refine List.eq_nil_iff_forall_not_mem.mpr fun ent inside => ?_
    have charged := (exact_.1 ent inside).2
    have less := (books.entry ent inside).2.2
    omega
  · intro empty
    refine ⟨by rw [empty]; nofun, ?_⟩
    rw [retained, empty]
    exact Nat.zero_le _

omit [DecidableEq ID] [DecidableEq PeerID] in
theorem Books.weighs (books : Books limit f heard) {ent}
    (inside : ent ∈ f.announces.evictList) :
    1 ≤ ent.weight ∧ ent.value.length ≤ 2 * ent.weight := by
  obtain ⟨some_, is, charged⟩ := books.entry ent inside
  have twice := doubled_length (heard ent.key)
  have positive := List.length_pos_iff.mpr some_
  rw [← is] at twice
  omega

omit [DecidableEq ID] [DecidableEq PeerID] in
theorem Books.retained_le (books : Books limit f heard) : retained f ≤ 2 * limit := by
  have total : retained f ≤ (f.announces.evictList.map fun ent => 2 * ent.weight).sum :=
    List.sum_le_sum fun ent inside => (books.weighs inside).2
  rw [List.sum_map_mul_left] at total
  exact total.trans (Nat.mul_le_mul_left 2 books.weight)

def after (cfg : Config) (actions : List (Action ID PeerID Requester)) :
    Fetcher ID PeerID Requester × Heard ID PeerID Requester :=
  actions.foldl (follow cfg) (new cfg, fun _ => [])

def Ignored (cfg : Config) : Action ID PeerID Requester → Prop
  | .notification onlyInterested _ _ _ ids => cfg.hashLimit = 0 ∨ onlyInterested ids = []
  | _ => True

def Distinct : Action ID PeerID Requester → Prop
  | .notification onlyInterested _ _ _ ids => (onlyInterested ids).Nodup
  | _ => True

variable {other : ID} {cfg : Config} {a : Action ID PeerID Requester}

omit [DecidableEq PeerID] in
theorem announce_keys (data : AnnounceData PeerID Requester) (noFetching : Bool) (now : Int)
    (s : Fetcher ID PeerID Requester × List ID) {id : ID} (different : other ≠ id)
    (inside : other ∈ (announce data noFetching now s id).1.announces.keys) :
    other ∈ s.1.announces.keys := by
  obtain ⟨f, toFetch⟩ := s
  rw [announce_announces] at inside
  obtain ⟨ent, member, rfl⟩ := List.mem_map.mp inside
  rcases mem_add member with rfl | ⟨old, _⟩
  · exact absurd rfl different
  · exact List.mem_map_of_mem old

omit [DecidableEq PeerID] in
theorem foldl_announce_keys (data : AnnounceData PeerID Requester) (noFetching : Bool) (now : Int) :
    ∀ (ids : List ID) (s : Fetcher ID PeerID Requester × List ID), other ∉ ids →
      other ∈ (ids.foldl (announce data noFetching now) s).1.announces.keys →
      other ∈ s.1.announces.keys := by
  intro ids
  induction ids with
  | nil => exact fun _ _ inside => inside
  | cons id rest ih =>
    intro s fresh inside
    obtain ⟨different, fresh⟩ := not_or.mp (mt List.mem_cons.mpr fresh)
    exact announce_keys data noFetching now s different (ih _ fresh inside)

theorem follow_retains (books : Books cfg.hashLimit f heard) (empty : f.announces.evictList = [])
    (distinct : Distinct a) (heeded : ¬ Ignored cfg a) :
    (step cfg f a).announces.evictList ≠ [] := by
  cases a with
  | receivedItems | fetchTimer => exact absurd trivial heeded
  | notification onlyInterested suspend now data ids =>
    obtain ⟨positive, some_⟩ := not_or.mp heeded
    rw [step, (processNotification_announces onlyInterested suspend now f data ids).1]
    change (onlyInterested ids).Nodup at distinct
    obtain ⟨front, last, split⟩ := (List.eq_nil_or_concat (onlyInterested ids)).resolve_left some_
    rw [List.concat_eq_append] at split
    rw [split] at distinct ⊢
    rw [List.foldl_append, List.foldl_cons, List.foldl_nil]
    have fresh : last ∉ front := fun inside =>
      (List.disjoint_of_nodup_append distinct) inside (List.mem_singleton_self last)
    have batch := foldl_hear_books data suspend now front ((f, []), heard) books
    rw [foldl_hear_fst] at batch
    have missing : last ∉ (front.foldl (announce data suspend now) (f, [])).1.announces.keys := by
      intro inside
      have held := foldl_announce_keys data suspend now front _ fresh inside
      rw [Cache.keys, empty] at held
      cases held
    generalize front.foldl (announce data suspend now) (f, []) = s at batch missing
    obtain ⟨g, toFetch⟩ := s
    have unheard := batch.forgotten last missing
    rw [announce_announces, batch.stored, unheard]
    exact List.ne_nil_of_mem (mem_normalize_snoc
      (by rw [batch.limits.1]; exact Nat.one_le_iff_ne_zero.mpr positive)
      (by rw [batch.limits.2]; exact Nat.one_le_iff_ne_zero.mpr positive) _)

theorem ignored_empty (empty : f.announces.evictList = []) (ignored : Ignored cfg a)
    (books : Books cfg.hashLimit (step cfg f a) heard) :
    (step cfg f a).announces.evictList = [] := by
  have shrunk : Shrinks f (step cfg f a) → (step cfg f a).announces.evictList = [] := by
    intro shrinks
    have entries := shrinks.2.2
    rw [empty] at entries
    exact List.subperm_nil.mp entries
  cases a with
  | receivedItems ids => exact shrunk (shrinks_foldl (fun g => g) forgetHash_shrinks ids f)
  | fetchTimer onlyInterested now clock pick =>
    exact shrunk (tick_shrinks cfg onlyInterested now clock pick f)
  | notification onlyInterested suspend now data ids =>
    rcases ignored with none_ | uninterested
    · -- every entry weighs at least one
      refine List.eq_nil_iff_forall_not_mem.mpr fun ent inside => ?_
      have heavy := (books.weighs inside).1
      have light : ent.weight ≤ _ := List.single_le_sum (fun _ _ => Nat.zero_le _) _
        (List.mem_map_of_mem (f := Entry.weight) inside)
      have room := books.weight
      rw [Cache.weight] at room
      omega
    · rw [step, (processNotification_announces onlyInterested suspend now f data ids).1,
        uninterested]
      exact empty

theorem after_snoc (cfg : Config) (actions : List (Action ID PeerID Requester))
    (a : Action ID PeerID Requester) : after cfg (actions ++ [a]) = follow cfg (after cfg actions) a := by
  rw [after, List.foldl_append]
  rfl

theorem ignored_run {actions : List (Action ID PeerID Requester)}
    (ignored : ∀ a ∈ actions, Ignored cfg a) : (after cfg actions).1.announces.evictList = [] := by
  induction actions using List.reverseRecOn with
  | nil => rfl
  | append_singleton before a ih =>
    have earlier := ih fun b inside => ignored b (List.mem_append_left _ inside)
    have books := run_books cfg (before ++ [a])
    change Books _ (after cfg (before ++ [a])).1 _ at books
    rw [after_snoc] at books ⊢
    exact ignored_empty earlier (ignored a (by simp)) books

/-- In every run the stored list holds each notification twice, and the weight is one less than its
length. -/
theorem announcements_doubled (cfg : Config) (actions : List (Action ID PeerID Requester)) :
    (∀ ent ∈ (after cfg actions).1.announces.evictList,
      ent.value = doubled ((after cfg actions).2 ent.key) ∧ ent.weight + 1 = ent.value.length) ∧
    retained (after cfg actions).1 ≤ 2 * cfg.hashLimit ∧
    (Exact cfg.hashLimit (after cfg actions).1 (after cfg actions).2 ↔
      (after cfg actions).1.announces.evictList = []) ∧
    ((∀ a ∈ actions, Ignored cfg a) →
      Exact cfg.hashLimit (after cfg actions).1 (after cfg actions).2) ∧
    ((∀ a ∈ actions, Distinct a) → (∀ before, before <+: actions →
      Exact cfg.hashLimit (after cfg before).1 (after cfg before).2) →
      ∀ a ∈ actions, Ignored cfg a) := by
  have books := run_books cfg actions
  refine ⟨fun ent inside => (books.entry ent inside).2, books.retained_le, books.exact_iff,
    fun ignored => books.exact_iff.mpr (ignored_run ignored), fun distinct exact_ a inside => ?_⟩
  obtain ⟨before, later, rfl⟩ := List.append_of_mem inside
  by_contra heeded
  have earlier := run_books cfg before
  have empty := earlier.exact_iff.mp (exact_ before (List.prefix_append _ _))
  have then_ := (run_books cfg (before ++ [a])).exact_iff.mp
    (exact_ (before ++ [a]) ⟨later, by simp⟩)
  change (after cfg (before ++ [a])).1.announces.evictList = [] at then_
  rw [after_snoc] at then_
  exact follow_retains earlier empty (distinct a inside) heeded then_

end Books

section Sample

def sampleConfig (hashLimit : Nat) : Config where
  forgetTimeout := 60
  arriveTimeout := 2
  gatherSlack := 1
  hashLimit := hashLimit

def announces (ids : List Nat) : Action Nat Nat Nat := .notification (fun ids => ids) false 0 ⟨0, 1, 0⟩ ids

end Sample

/-- One notification of one item, with room for one record. -/
theorem announcement_stored_twice :
    (after (sampleConfig 1) [announces [5]]).2 5 = [⟨0, 1, 0⟩] ∧
    (after (sampleConfig 1) [announces [5]]).1.announces.evictList =
      [⟨5, [⟨0, 1, 0⟩, ⟨0, 1, 0⟩], 1⟩] ∧
    retained (after (sampleConfig 1) [announces [5]]).1 = 2 ∧
    ¬ Exact 1 (after (sampleConfig 1) [announces [5]]).1
      (after (sampleConfig 1) [announces [5]]).2 := by
  refine ⟨rfl, rfl, rfl, fun exact_ => ?_⟩
  have charged := (exact_.1 ⟨5, [⟨0, 1, 0⟩, ⟨0, 1, 0⟩], 1⟩ List.mem_cons_self).2
  cases charged

/-- Nothing is held after an item was announced and received. -/
theorem announcements_doubled_received :
    Exact 10 (after (sampleConfig 10) [announces [5], .receivedItems [5]]).1
      (after (sampleConfig 10) [announces [5], .receivedItems [5]]).2 :=
  (announcements_doubled (sampleConfig 10) [announces [5], .receivedItems [5]]).2.2.1.mpr rfl

section Orphans

variable {f : Fetcher ID PeerID Requester}

def Covered (f : Fetcher ID PeerID Requester) : Prop :=
  ∀ id, id ∈ f.fetching → id ∈ f.announces.keys

theorem mem_foldl_erase {V : Type} {id : ID} : ∀ (dropped : List (Entry ID V))
    (fetching : AList fun _ : ID => FetchingItem PeerID Requester),
    id ∈ dropped.foldl (fun fetching ent => fetching.erase ent.key) fetching ↔
      id ∈ fetching ∧ id ∉ dropped.map Entry.key := by
  intro dropped
  induction dropped with
  | nil => simp
  | cons ent rest ih =>
    intro fetching
    rw [List.foldl_cons, ih, AList.mem_erase, List.map_cons, List.mem_cons, not_or]
    exact ⟨fun ⟨⟨other, inside⟩, later⟩ => ⟨inside, other, later⟩,
      fun ⟨inside, other, later⟩ => ⟨⟨other, inside⟩, later⟩⟩

theorem add_covered (covered : Covered f) (id : ID) (anns : List (AnnounceData PeerID Requester))
    (weight : Nat) : Covered (add f id anns weight) := by
  intro other inside
  obtain ⟨before, kept⟩ := (mem_foldl_erase _ _).mp inside
  have split := evicted_append_normalize f.announces.maxWeight f.announces.maxSize
    (f.announces.evictList.filter (fun ent => ent.key ≠ id) ++ [⟨id, anns, weight⟩])
  have listed : other ∈ (f.announces.evictList.filter (fun ent => ent.key ≠ id) ++
      [(⟨id, anns, weight⟩ : Entry ID _)]).map Entry.key := by
    obtain ⟨ent, member, rfl⟩ := List.mem_map.mp (covered other before)
    refine List.mem_map.mpr ?_
    by_cases same : ent.key = id
    · exact ⟨⟨id, anns, weight⟩, by simp, same.symm⟩
    · exact ⟨ent, List.mem_append_left _ (List.mem_filter.mpr ⟨member, decide_eq_true same⟩), rfl⟩
  rw [← split, List.map_append, List.mem_append] at listed
  exact listed.resolve_left kept

theorem getAnnounces_covered (covered : Covered f) (id : ID) : Covered (getAnnounces f id).2 :=
  fun other inside => mem_get_keys (covered other inside)

theorem forgetHash_covered (covered : Covered f) (id : ID) : Covered (forgetHash f id) := by
  unfold forgetHash
  split
  · intro other inside
    obtain ⟨different, inside⟩ := AList.mem_erase.mp inside
    obtain ⟨ent, member, rfl⟩ := List.mem_map.mp (covered other inside)
    exact List.mem_map.mpr ⟨ent, List.mem_filter.mpr ⟨member, decide_eq_true different⟩, rfl⟩
  · exact covered

section Batch

variable (data : AnnounceData PeerID Requester) (noFetching : Bool) (now : Int) (toFetch : List ID)
  (id : ID)

theorem announce_mem (weight : (stored f id).length + 1 ≤ f.announces.maxWeight)
    (size : 1 ≤ f.announces.maxSize) :
    id ∈ (announce data noFetching now (f, toFetch) id).1.announces.keys := by
  rw [announce_announces]
  exact List.mem_map.mpr ⟨_, mem_normalize_snoc weight size _, rfl⟩

theorem announce_covered (covered : Covered f) (fits : noFetching = true ∨
      (stored f id).length + 1 ≤ f.announces.maxWeight ∧ 1 ≤ f.announces.maxSize) :
    Covered (announce data noFetching now (f, toFetch) id).1 := by
  have held : noFetching = false →
      id ∈ (announce data noFetching now (f, toFetch) id).1.announces.keys := by
    intro fetches
    rcases fits with none_ | fits
    · rw [none_] at fetches
      cases fetches
    · exact announce_mem _ _ _ _ _ fits.1 fits.2
  have added := add_covered (getAnnounces_covered covered id) id
    ((getAnnounces f id).1 ++ [data] ++ [data]) ((getAnnounces f id).1 ++ [data]).length
  unfold announce at held ⊢
  dsimp only at held ⊢
  split
  · exact added
  · next fetches =>
    rw [if_neg fetches] at held
    split
    · exact added
    · next unknown =>
      rw [if_neg unknown] at held
      intro other inside
      rcases (AList.mem_insert _).mp inside with rfl | before
      · exact held (Bool.eq_false_iff.mpr fetches)
      · exact added other before

theorem announce_fetching (s : Fetcher ID PeerID Requester × List ID) :
    id ∈ (announce data false now s id).1.fetching := by
  obtain ⟨f, toFetch⟩ := s
  unfold announce
  dsimp only
  rw [if_neg Bool.false_ne_true]
  split
  · next known => exact known
  · exact (AList.mem_insert _).mpr (.inl rfl)

/-- The batch can be taken in: whatever is stored of an item of it already, with two more records
for each time the batch names it, the item is never charged with more than the limit. -/
def Fits (f : Fetcher ID PeerID Requester) (ids : List ID) : Prop :=
  ∀ id ∈ ids, (stored f id).length + 2 * ids.count id ≤ f.announces.maxWeight + 1 ∧
    1 ≤ f.announces.maxSize

theorem stored_announce (keyed : f.announces.keys.Nodup) (other : ID) :
    (stored (announce data noFetching now (f, toFetch) id).1 other).length ≤
      (stored f other).length + if other = id then 2 else 0 := by
  have announces := announce_announces data noFetching now f toFetch id
  generalize (announce data noFetching now (f, toFetch) id).1 = g at announces
  rw [stored]
  cases found : g.announces.peek other with
  | none => exact Nat.zero_le _
  | some value =>
    obtain ⟨ent, inside, rfl, rfl⟩ := mem_keys_peek found
    rw [announces] at inside
    rcases mem_add inside with rfl | ⟨old, different⟩
    · simp
    · rw [stored, peek_of_mem keyed old]
      exact Nat.le_add_right _ _

structure Tidy (limit : Nat) (f : Fetcher ID PeerID Requester) : Prop where
  limits : f.announces.maxWeight = limit ∧ f.announces.maxSize = limit
  keyed : f.announces.keys.Nodup
  covered : Covered f

variable {limit : Nat}

omit [DecidableEq ID] in
theorem Tidy.shrink {g : Fetcher ID PeerID Requester} (tidy : Tidy limit f) (shrinks : Shrinks f g)
    (covered : Covered g) : Tidy limit g := by
  obtain ⟨weight, size, kept, perm, sub⟩ := shrinks
  exact ⟨⟨weight.trans tidy.limits.1, size.trans tidy.limits.2⟩,
    ((perm.map Entry.key).nodup_iff).mp ((sub.map Entry.key).nodup tidy.keyed), covered⟩

theorem announce_tidy (tidy : Tidy limit f) (fits : noFetching = true ∨
      (stored f id).length + 1 ≤ f.announces.maxWeight ∧ 1 ≤ f.announces.maxSize) :
    Tidy limit (announce data noFetching now (f, toFetch) id).1 := by
  refine ⟨?_, ?_, announce_covered data noFetching now toFetch id tidy.covered fits⟩
  · rw [announce_announces]
    exact tidy.limits
  · rw [announce_announces]
    exact add_nodup tidy.keyed _ _ _

theorem foldl_announce_tidy : ∀ (ids : List ID) (s : Fetcher ID PeerID Requester × List ID), Tidy limit s.1 →
      (noFetching = true ∨ Fits s.1 ids) →
      Tidy limit (ids.foldl (announce data noFetching now) s).1 := by
  intro ids
  induction ids with
  | nil => exact fun _ tidy _ => tidy
  | cons id rest ih =>
    rintro ⟨f, toFetch⟩ tidy fits
    refine ih _ (announce_tidy data noFetching now toFetch id tidy ?_) ?_
    · refine fits.imp_right fun fits => ?_
      obtain ⟨room, size⟩ := fits id List.mem_cons_self
      rw [List.count_cons_self] at room
      change (stored f id).length + 2 * (rest.count id + 1) ≤ f.announces.maxWeight + 1 at room
      exact ⟨show (stored f id).length + 1 ≤ f.announces.maxWeight by omega, size⟩
    · refine fits.imp_right fun fits other inside => ?_
      obtain ⟨room, size⟩ := fits other (List.mem_cons_of_mem id inside)
      have grows := stored_announce data noFetching now toFetch id tidy.keyed other
      rw [announce_announces]
      refine ⟨?_, size⟩
      change _ ≤ f.announces.maxWeight + 1
      rw [List.count_cons] at room
      dsimp only at room
      by_cases same : other = id
      · subst same
        simp only [if_true, BEq.rfl] at grows room
        omega
      · grind

end Batch

variable {limit : Nat} [DecidableEq PeerID]

theorem recheck_covered (cfg : Config) (now : Int) (clock : ID → Int) (pick : ID → Nat)
    (request : Requests ID PeerID Requester) (covered : Covered f) (id : ID) :
    Covered (recheck cfg now clock pick (f, request) id).1 := by
  have looked := getAnnounces_covered covered id
  have found := get_peek f.announces id
  unfold recheck
  dsimp only
  split
  · exact looked
  · next oldest later is =>
    split
    · exact forgetHash_covered looked id
    · have held : id ∈ (getAnnounces f id).2.announces.keys := by
        cases peeked : f.announces.peek id with
        | none =>
          rw [getAnnounces] at is
          dsimp only at is
          rw [found, peeked] at is
          cases is
        | some value =>
          obtain ⟨ent, inside, rfl, _⟩ := mem_keys_peek peeked
          exact mem_get_keys (List.mem_map_of_mem inside)
      have refetched : ∀ item, Covered { (getAnnounces f id).2 with
          fetching := (getAnnounces f id).2.fetching.insert id item } := by
        intro item other inside
        rcases (AList.mem_insert _).mp inside with rfl | before
        · exact held
        · exact looked other before
      split <;> split <;> first | exact refetched _ | exact looked

theorem foldl_recheck_tidy (cfg : Config) (now : Int) (clock : ID → Int) (pick : ID → Nat) :
    ∀ (ids : List ID) (s : Fetcher ID PeerID Requester × Requests ID PeerID Requester),
      Tidy limit s.1 → Tidy limit (ids.foldl (recheck cfg now clock pick) s).1 := by
  intro ids
  induction ids with
  | nil => exact fun _ tidy => tidy
  | cons id rest ih =>
    rintro ⟨f, request⟩ tidy
    exact ih _ (tidy.shrink (recheck_shrinks cfg now clock pick (f, request) id)
      (recheck_covered cfg now clock pick request tidy.covered id))

omit [DecidableEq PeerID] in
theorem foldl_forgetHash_tidy : ∀ (ids : List ID) (f : Fetcher ID PeerID Requester),
    Tidy limit f → Tidy limit (ids.foldl forgetHash f) := by
  intro ids
  induction ids with
  | nil => exact fun _ tidy => tidy
  | cons id rest ih =>
    exact fun f tidy => ih _ (tidy.shrink (forgetHash_shrinks f id)
      (forgetHash_covered tidy.covered id))

/-- A notification is suspended or fits; nothing is asked of the other messages. -/
def Admissible (f : Fetcher ID PeerID Requester) : Action ID PeerID Requester → Prop
  | .notification onlyInterested suspend _ _ ids => suspend = true ∨ Fits f (onlyInterested ids)
  | _ => True

theorem step_tidy {cfg : Config} (tidy : Tidy limit f) {a : Action ID PeerID Requester}
    (admissible : Admissible f a) : Tidy limit (step cfg f a) := by
  cases a with
  | notification onlyInterested suspend now data ids =>
    have batch := foldl_announce_tidy data suspend now (onlyInterested ids) (f, []) tidy admissible
    obtain ⟨announces, fetching⟩ :=
      processNotification_announces onlyInterested suspend now f data ids
    refine ⟨?_, ?_, fun id inside => ?_⟩
    · rw [step, announces]
      exact batch.limits
    · rw [step, announces]
      exact batch.keyed
    · rw [step, fetching] at inside
      rw [step, announces]
      exact batch.covered id inside
  | receivedItems ids => exact foldl_forgetHash_tidy ids f tidy
  | fetchTimer onlyInterested now clock pick =>
    have done := foldl_forgetHash_tidy
      (f.announces.keys.filter fun id => id ∉ onlyInterested f.announces.keys) _
      (foldl_recheck_tidy cfg now clock pick (onlyInterested f.announces.keys) (f, ∅) tidy)
    exact ⟨done.limits, done.keyed, done.covered⟩

omit [DecidableEq PeerID] in
theorem forgetHash_forgets : ∀ (ids : List ID) (f : Fetcher ID PeerID Requester) (id : ID),
    (id ∈ ids ∨ id ∉ f.announces.keys) → id ∉ (ids.foldl forgetHash f).announces.keys := by
  intro ids
  induction ids with
  | nil => exact fun f id either => either.resolve_left List.not_mem_nil
  | cons first rest ih =>
    intro f id either
    refine ih _ id ?_
    have gone : id = first ∨ id ∉ f.announces.keys → id ∉ (forgetHash f first).announces.keys := by
      intro either inside
      unfold forgetHash at inside
      split at inside
      · obtain ⟨ent, member, rfl⟩ := List.mem_map.mp inside
        obtain ⟨old, other⟩ := List.mem_filter.mp member
        rcases either with same | missing
        · exact of_decide_eq_true other same
        · exact missing (List.mem_map_of_mem old)
      · grind
    rcases either with inside | missing
    · grind
    · exact .inr (gone (.inr missing))

/-- In a run whose notifications are all suspended or fit, no item is being fetched that is not
announced, and an item that is received is in neither map. -/
theorem no_orphans {cfg : Config} {actions : List (Action ID PeerID Requester)}
    (run : Run (fun f a => some (step cfg f a)) Admissible (new cfg) actions f) :
    (∀ id, id ∈ f.fetching → id ∈ f.announces.keys) ∧
    (∀ ids, ∀ id ∈ ids, id ∉ (step cfg f (.receivedItems ids)).announces.keys ∧
      id ∉ (step cfg f (.receivedItems ids)).fetching) ∧
    ∀ onlyInterested now data ids id, onlyInterested ids = [id] →
      (Covered (step cfg f (.notification onlyInterested false now data ids)) ↔
        Admissible f (.notification onlyInterested false now data ids)) := by
  have start : Tidy cfg.hashLimit (new cfg : Fetcher ID PeerID Requester) :=
    ⟨⟨rfl, rfl⟩, List.nodup_nil, nofun⟩
  have tidy : Tidy cfg.hashLimit f :=
    run.invariant (fun _ _ _ holds meets move => Option.some.inj move ▸ step_tidy holds meets) start
  refine ⟨tidy.covered, fun ids id inside => ?_, fun onlyInterested now data ids id single => ?_⟩
  · have gone := forgetHash_forgets ids f id (.inl inside)
    exact ⟨gone, fun fetched => gone ((foldl_forgetHash_tidy ids f tidy).covered id fetched)⟩
  · refine ⟨fun covered => ?_, fun admissible => (step_tidy tidy admissible).covered⟩
    have announces := (processNotification_announces onlyInterested false now f data ids).1
    have fetching := (processNotification_announces onlyInterested false now f data ids).2
    rw [single, List.foldl_cons, List.foldl_nil] at announces fetching
    have held := covered id (by rw [step, fetching]; exact announce_fetching data now id _)
    rw [step, announces, announce_announces] at held
    by_contra refused
    have heavy : f.announces.maxWeight < (stored f id).length + 1 := by
      by_contra light
      refine refused (.inr ?_)
      rw [single]
      intro other inside
      rw [List.mem_singleton.mp inside, List.count_singleton_self]
      have weight := tidy.limits.1
      have size := tidy.limits.2
      omega
    rw [Cache.keys, Cache.add, normalize_snoc_heavy heavy] at held
    cases held

end Orphans

/-- An item that may be charged with no record at all is being fetched for ever. -/
theorem orphan_left : ∃ f : Fetcher Nat Nat Nat,
    Run (fun f a => some (step (sampleConfig 0) f a)) (fun _ _ => True) (new (sampleConfig 0))
      [announces [5], .receivedItems [5]] f ∧
    5 ∈ f.fetching ∧ 5 ∉ f.announces.keys := by
  refine ⟨_, .of_foldlM (fun _ _ _ => trivial) rfl, AList.lookup_isSome.mp rfl, ?_⟩
  decide

/-- Two items, one of them announced twice. -/
theorem no_orphans_repeated : ∃ f : Fetcher Nat Nat Nat,
    Run (fun f a => some (step (sampleConfig 10) f a)) Admissible (new (sampleConfig 10))
      [announces [5, 6, 5]] f ∧ 5 ∈ f.fetching ∧ 5 ∈ f.announces.keys := by
  have fits : Admissible (new (sampleConfig 10) : Fetcher Nat Nat Nat) (announces [5, 6, 5]) := by
    refine .inr fun id inside => ?_
    fin_cases inside <;> decide
  have reached : Run (fun f a => some (step (sampleConfig 10) f a)) Admissible
      (new (sampleConfig 10) : Fetcher Nat Nat Nat) [announces [5, 6, 5]] _ :=
    .cons fits rfl (.nil _)
  have fetched : 5 ∈ (step (sampleConfig 10) (new (sampleConfig 10) : Fetcher Nat Nat Nat)
      (announces [5, 6, 5])).fetching := AList.lookup_isSome.mp rfl
  exact ⟨_, reached, fetched, (no_orphans reached).1 5 fetched⟩

end Lachesis.Gossip.Itemsfetcher
