import Lachesis.Kvdb.Routing

/-!
The formats of a routing table stand in the order in which Go happens to walk through the map, and
the first one that takes a request wins. Restarts with one configuration may route differently,
and then `Verify` refuses what an earlier one has recorded.
-/

namespace Lachesis.Kvdb.MultiDB

open Transition

inductive VerifyFailure where
  /-- "failed to open DB %s: %v" -/
  | openDB (name : Bytes) (err : Error)
  /-- "failed to read tables for %s: %v" -/
  | readTables (name : Bytes) (failure : Failure)
  /-- "DB type for '%s' doesn't match to previous instance: '%s' != '%s'" -/
  | type (req new old : Bytes)
  /-- "DB name for '%s' doesn't match to previous instance: '%s' != '%s'" -/
  | name (req new old : Bytes)
  /-- "table for '%s' doesn't match to previous instance: '%s' != '%s'" -/
  | table (req new old : Bytes)
  deriving DecidableEq

section Model

def verifyRecord (oldLoc : DBLocator) (old : TableRecord) (newRoute : Route) :
    Except VerifyFailure Unit :=
  if oldLoc.type ≠ newRoute.type then .error (.type old.req newRoute.type oldLoc.type)
  else if oldLoc.name ≠ newRoute.name then .error (.name old.req newRoute.name oldLoc.name)
  else if old.table ≠ newRoute.table then .error (.table old.req newRoute.table old.table)
  else .ok ()

variable (p : Producer)

def verifyDB (oldLoc : DBLocator) : List TableRecord → Option (Except VerifyFailure Unit)
  | [] => some (.ok ())
  | old :: records =>
    match p.routeOf old.req with
    | none => none
    | some newRoute =>
      match verifyRecord oldLoc old newRoute with
      | .error failure => some (.error failure)
      | .ok () => verifyDB oldLoc records

def verifyRecords : List (DBLocator × List TableRecord) → Option (Except VerifyFailure Unit)
  | [] => some (.ok ())
  | (oldLoc, records) :: rest =>
    match verifyDB p oldLoc records with
    | some (.ok ()) => verifyRecords rest
    | stopped => stopped

variable {S : Type} (store : Store S) (rlp : Encoding) (create : S)

/-- `names` lists what `Names` of the producers returns, producer by producer. -/
def getRecords (faults : DBLocator → Faults) (s : Disk S) :
    (names : List DBLocator) → Except VerifyFailure (List (DBLocator × List TableRecord))
  | [] => .ok []
  | locator :: rest =>
    match (faults locator).openDB with
    | some err => .error (.openDB locator.name err)
    | none =>
      match readTablesList store rlp p (faults locator).get ((s locator).getD create) with
      | .error failure => .error (.readTables locator.name failure)
      | .ok records => (getRecords faults s rest).map ((locator, records) :: ·)

def verify (faults : DBLocator → Faults) (s : Disk S) (names : List DBLocator) :
    Option (Except VerifyFailure Unit) :=
  match getRecords p store rlp create faults s names with
  | .error failure => some (.error failure)
  | .ok dbRecords => verifyRecords p dbRecords

end Model

def ScanfRoute.take (fmt : ScanfRoute) (req : Bytes) : Option Route :=
  (fmt.name req).map fun name => ⟨fmt.type, name, fmt.table, fmt.noDrop⟩

namespace Config

variable (compile : Bytes → Bytes → Option (Bytes → Option Bytes)) (c : Config)

def exactRoute (req : Bytes) : Option Route :=
  (c.routes.find? fun entry => entry.1 = req ∧ IsExact entry).map Prod.snd

def formatRoutes (req : Bytes) : List Route := (c.formats compile).filterMap fun fmt => fmt.take req

def matched (req : Bytes) : Bool :=
  (c.exactRoute req).isSome || !(c.formatRoutes compile req).isEmpty

/-- At the nearest part of the request's path that matches, there is an exact route or the formats
that match give the same one. -/
def Settled (req : Bytes) : Prop :=
  let stem := (pathOf (c.matched compile) req).stem
  c.exactRoute stem ≠ none ∨
    ∀ a ∈ c.formatRoutes compile stem, ∀ b ∈ c.formatRoutes compile stem, a = b

instance (req : Bytes) : Decidable (c.Settled compile req) :=
  inferInstanceAs (Decidable (_ ∨ _))

variable {compile c} {p q : Producer} {req : Bytes}

variable {route : Route}

theorem exactRoute_eq_some :
    c.exactRoute req = some route ↔ (req, route) ∈ c.routes ∧ IsExact (req, route) := by
  rw [exactRoute, Option.map_eq_some_iff]
  constructor
  · grind
  · rintro ⟨inside, exactly⟩
    have found : (c.routes.find? fun entry => entry.1 = req ∧ IsExact entry).isSome :=
      List.find?_isSome.mpr ⟨_, inside, by simpa using exactly⟩
    obtain ⟨entry, found⟩ := Option.isSome_iff_exists.mp found
    have fits := List.find?_some found
    simp only [decide_eq_true_eq] at fits
    -- the key stands in the table once
    have same := List.inj_on_of_nodup_map c.distinct (List.mem_of_find?_eq_some found) inside fits.1
    exact ⟨entry, found, by rw [same]⟩

theorem Makes.lookup (makes : c.Makes compile p) (req : Bytes) :
    p.lookup req =
      (c.exactRoute req).or (p.routingFmt.findSome? fun fmt => fmt.take req) := by
  have table : p.routingTable req = c.exactRoute req := by
    ext route
    rw [makes.routingTable, exactRoute_eq_some]
  rw [Producer.lookup, table]
  cases c.exactRoute req with
  | some route => rfl
  | none => rfl

theorem Makes.mem_formatRoutes (makes : c.Makes compile p)
    (found : p.routingFmt.findSome? (fun fmt => fmt.take req) = some route) :
    route ∈ c.formatRoutes compile req := by
  obtain ⟨fmt, inside, taken⟩ := List.exists_of_findSome?_eq_some found
  exact List.mem_filterMap.mpr ⟨fmt, makes.routingFmt.mem_iff.mp inside, taken⟩

theorem Makes.findSome_none (makes : c.Makes compile p) :
    p.routingFmt.findSome? (fun fmt => fmt.take req) = none ↔ c.formatRoutes compile req = [] := by
  rw [List.findSome?_eq_none_iff, formatRoutes, List.filterMap_eq_nil_iff]
  exact forall_congr' fun fmt => by rw [makes.routingFmt.mem_iff]

theorem Makes.matched (makes : c.Makes compile p) : p.matched = c.matched compile := by
  funext req
  rw [Producer.matched, makes.lookup, Config.matched]
  cases c.exactRoute req with
  | some route => rfl
  | none =>
    rw [Option.none_or, Option.isSome_none, Bool.false_or, Bool.eq_iff_iff, Bool.not_eq_true',
      List.isEmpty_eq_false_iff, Option.isSome_iff_ne_none, Ne, Ne, makes.findSome_none]

theorem Makes.routeOf (makes : c.Makes compile p) (req : Bytes) :
    p.routeOf req = (p.lookup (pathOf (c.matched compile) req).stem).map fun dest =>
      dest.along (pathOf (c.matched compile) req) := by
  rw [Producer.routeOf_path, makes.matched]

theorem Makes.leading (makes : c.Makes compile p) {fmt : ScanfRoute}
    (inside : fmt ∈ c.formats compile) :
    ∃ q, c.Makes compile q ∧ ∃ rest, q.routingFmt = fmt :: rest := by
  obtain ⟨entry, member, format⟩ := List.mem_filterMap.mp inside
  have perm : (entry :: c.routes.erase entry).Perm c.routes := (List.perm_cons_erase member).symm
  obtain ⟨order, same, made⟩ := makes
  obtain ⟨⟨default, there, empty⟩, compiles, _⟩ := newProducer_ok.mp made
  refine ⟨_, ⟨_, perm, newProducer_ok.mpr ⟨⟨default, ?_, empty⟩, ?_, rfl⟩⟩, ?_⟩
  · exact perm.mem_iff.mpr (same.mem_iff.mp there)
  · intro entry inside
    exact compiles entry (same.mem_iff.mpr (perm.mem_iff.mp inside))
  · rw [foldl_added_routingFmt, List.filterMap_cons, format]
    exact ⟨_, rfl⟩

theorem Settled.lookup (settled : c.Settled compile req) (first : c.Makes compile p)
    (second : c.Makes compile q) :
    q.lookup (pathOf (c.matched compile) req).stem =
      p.lookup (pathOf (c.matched compile) req).stem := by
  rw [first.lookup, second.lookup]
  rcases settled with exactly | agree
  · obtain ⟨route, found⟩ := Option.ne_none_iff_exists'.mp exactly
    rw [found, Option.some_or, Option.some_or]
  · congr 1
    cases one : p.routingFmt.findSome? fun fmt =>
        fmt.take (pathOf (c.matched compile) req).stem with
    | none => exact second.findSome_none.mpr (first.findSome_none.mp one)
    | some a =>
      cases other : q.routingFmt.findSome? fun fmt =>
          fmt.take (pathOf (c.matched compile) req).stem with
      | none =>
        rw [first.findSome_none.mpr (second.findSome_none.mp other)] at one
        cases one
      | some b => rw [agree b (second.mem_formatRoutes other) a (first.mem_formatRoutes one)]

/-- All orders route a request alike if and only if it is settled. -/
theorem settled_iff (makes : c.Makes compile p) :
    (∀ q, c.Makes compile q → q.routeOf req = p.routeOf req) ↔ c.Settled compile req := by
  constructor
  · intro alike
    by_cases exactly : c.exactRoute (pathOf (c.matched compile) req).stem = none
    · right
      -- with the format of `a` in front, `a` is the route of the stem
      have leads : ∀ a ∈ c.formatRoutes compile (pathOf (c.matched compile) req).stem,
          p.lookup (pathOf (c.matched compile) req).stem = some a := by
        intro a inside
        obtain ⟨fmt, member, taken⟩ := List.mem_filterMap.mp inside
        obtain ⟨q, made, rest, order⟩ := makes.leading member
        have first : q.lookup (pathOf (c.matched compile) req).stem = some a := by
          rw [made.lookup, exactly, order, Option.none_or, List.findSome?_cons, taken]
        have same := alike q made
        rw [made.routeOf, makes.routeOf] at same
        rw [← first]
        exact (Option.map_injective (Route.along_injective _) same).symm
      intro a insideA b insideB
      have same := (leads a insideA).symm.trans (leads b insideB)
      exact Option.some.inj same
    · exact .inl exactly
  · intro settled q made
    rw [made.routeOf, makes.routeOf, settled.lookup makes made]

end Config

section Verification

variable {p : Producer}

def Agrees (p : Producer) (loc : DBLocator) (record : TableRecord) : Prop :=
  ∃ noDrop, p.routeOf record.req = some ⟨loc.type, loc.name, record.table, noDrop⟩

theorem verifyDB_ok {loc : DBLocator} {records : List TableRecord}
    (agree : ∀ record ∈ records, Agrees p loc record) : verifyDB p loc records = some (.ok ()) := by
  induction records with
  | nil => rfl
  | cons old rest ih =>
    obtain ⟨⟨noDrop, routed⟩, later⟩ := List.forall_mem_cons.mp agree
    rw [verifyDB, routed]
    simp only [verifyRecord, ne_eq, not_true_eq_false, if_false]
    exact ih later

theorem verifyRecords_ok {dbs : List (DBLocator × List TableRecord)}
    (agree : ∀ x ∈ dbs, ∀ record ∈ x.2, Agrees p x.1 record) :
    verifyRecords p dbs = some (.ok ()) := by
  induction dbs with
  | nil => rfl
  | cons first rest ih =>
    obtain ⟨here, later⟩ := List.forall_mem_cons.mp agree
    rw [verifyRecords, verifyDB_ok here]
    exact ih later

variable {S : Type} {store : Store S} {map : OrderedMap store} {rlp : Encoding} {create : S}

theorem getRecords_ok (creates : Creates map create) {s : Disk S} (well : WellRecorded map rlp p s)
    {faults : DBLocator → Faults}
    (works : ∀ loc, (faults loc).openDB = none ∧ (faults loc).get = none) (names : List DBLocator) :
    ∃ dbs, getRecords p store rlp create faults s names = .ok dbs ∧
      ∀ x ∈ dbs, recorded store rlp p s x.1 = .ok x.2 := by
  induction names with
  | nil => exact ⟨[], rfl, nofun⟩
  | cons locator rest ih =>
    obtain ⟨dbs, later, known⟩ := ih
    obtain ⟨records, sound, read⟩ := well.opened creates locator
    refine ⟨(locator, records) :: dbs, ?_, List.forall_mem_cons.mpr ⟨read, known⟩⟩
    rw [getRecords, (works locator).1]
    dsimp only
    rw [(works locator).2, sound.read]
    dsimp only
    rw [later]
    rfl

end Verification

section Sessions

variable {S : Type}

structure Session (S : Type) where
  producer : Producer
  disk : Disk S

inductive Event where
  | call (action : Action)
  /-- The process starts again with a producer. -/
  | restart (p : Producer)

def Session.step (store : Store S) (rlp : Encoding) (create : S) (s : Session S) :
    Event → Option (Session S)
  | .call action =>
    (MultiDB.step store rlp s.producer create s.disk action).map fun disk => ⟨s.producer, disk⟩
  | .restart p => some ⟨p, s.disk⟩

/-- Only settled requests are opened, no client overwrites the records, and a restart uses the same
configuration, in any order. -/
def Config.Admits (compile : Bytes → Bytes → Option (Bytes → Option Bytes)) (c : Config)
    (_ : Session S) : Event → Prop
  | .call (.openDB _ req) => c.Settled compile req
  | .call (.write _ writes) => ∀ w ∈ writes, w.key ≠ c.tableRecordsKey
  | .restart p => c.Makes compile p

variable {compile : Bytes → Bytes → Option (Bytes → Option Bytes)} {c : Config}
  {store : Store S} {map : OrderedMap store} {rlp : Encoding} {create : S} {s t : Session S}

def Session.Holds (store : Store S) (rlp : Encoding) (s : Session S) (loc : DBLocator)
    (record : TableRecord) : Prop :=
  ∃ records, recorded store rlp s.producer s.disk loc = .ok records ∧ record ∈ records

/-- What a record comes from: a settled request that is routed to its database and table. -/
structure Backed (compile : Bytes → Bytes → Option (Bytes → Option Bytes)) (c : Config)
    (p : Producer) (loc : DBLocator) (record : TableRecord) : Prop where
  used : p.usedProducers loc.type = true
  settled : c.Settled compile record.req
  agrees : Agrees p loc record

structure Traced (compile : Bytes → Bytes → Option (Bytes → Option Bytes)) (c : Config)
    (map : OrderedMap store) (rlp : Encoding) (s : Session S) : Prop where
  made : c.Makes compile s.producer
  well : WellRecorded map rlp s.producer s.disk
  backed : ∀ loc record, s.Holds store rlp loc record → Backed compile c s.producer loc record

variable {p q : Producer}

theorem recorded_key (same : p.tableRecordsKey = q.tableRecordsKey) (disk : Disk S)
    (loc : DBLocator) : recorded store rlp p disk loc = recorded store rlp q disk loc := by
  simp only [recorded, readTablesList, same]

theorem WellRecorded.key {disk : Disk S} (well : WellRecorded map rlp p disk)
    (same : p.tableRecordsKey = q.tableRecordsKey) : WellRecorded map rlp q disk := by
  intro loc db found
  obtain ⟨records, valid, read, apart⟩ := well loc db found
  refine ⟨records, valid, ?_, apart⟩
  rw [← read]
  simp only [readTablesList, same]

theorem Backed.other {loc : DBLocator} {record : TableRecord}
    (backed : Backed compile c p loc record) (first : c.Makes compile p)
    (second : c.Makes compile q) : Backed compile c q loc record := by
  refine ⟨?_, backed.settled, ?_⟩
  · rw [second.usedProducers, ← first.usedProducers]
    exact backed.used
  · obtain ⟨noDrop, routed⟩ := backed.agrees
    exact ⟨noDrop, ((Config.settled_iff first).mpr backed.settled q second).trans routed⟩

section Steps

variable (traced : Traced compile c map rlp s)

include traced

theorem Traced.holds_restart {p : Producer} (made : c.Makes compile p) (loc : DBLocator)
    (record : TableRecord) :
    Session.Holds store rlp ⟨p, s.disk⟩ loc record ↔ s.Holds store rlp loc record := by
  have key : p.tableRecordsKey = s.producer.tableRecordsKey :=
    made.tableRecordsKey.trans traced.made.tableRecordsKey.symm
  rw [Session.Holds, recorded_key key, Session.Holds]

theorem Traced.restart {p : Producer} (made : c.Makes compile p) :
    Traced compile c map rlp ⟨p, s.disk⟩ := by
  refine ⟨made, traced.well.key ?_, fun loc record held => ?_⟩
  · exact traced.made.tableRecordsKey.trans made.tableRecordsKey.symm
  · exact (traced.backed loc record ((traced.holds_restart made loc record).mp held)).other
      traced.made made

theorem Traced.openDB (creates : Creates map create) {faults : Faults} {req : Bytes}
    {result : Except Failure ClosableTable} {disk : Disk S} (settled : c.Settled compile req)
    (done : openDB store rlp s.producer create faults s.disk req = some (result, disk)) :
    Traced compile c map rlp ⟨s.producer, disk⟩ ∧
    (∀ loc record, s.Holds store rlp loc record →
      Session.Holds store rlp ⟨s.producer, disk⟩ loc record) ∧
    ∀ given, result = .ok given → s.producer.routeOf req =
        some ⟨given.underlying.type, given.underlying.name, given.table, given.noDrop⟩ ∧
      Session.Holds store rlp ⟨s.producer, disk⟩ given.underlying ⟨req, given.table⟩ := by
  obtain ⟨route, routed, ⟨failure, rfl, rfl⟩ |
    ⟨used, db, before, after, rfl, read, grown, sound, outcome⟩⟩ :=
    openDB_cases creates traced.well done
  · exact ⟨traced, fun _ _ held => held, nofun⟩
  have here := @recorded_update _ _ _ _ _ s.disk route.dbLocator _ _ sound
  refine ⟨⟨traced.made, traced.well.update sound, ?_⟩, ?_, ?_⟩
  · rintro loc record ⟨records, known, inside⟩
    by_cases same : loc = route.dbLocator
    · subst same
      obtain rfl : after = records := by simpa using here.symm.trans known
      -- an old record, or the one of the request
      have old : record ∈ before ∨ record = ⟨req, route.table⟩ := by grind
      rcases old with old | rfl
      · exact traced.backed _ _ ⟨before, read, old⟩
      · exact ⟨used, settled, route.noDrop, routed⟩
    · exact traced.backed _ _ ⟨records, (recorded_other same).symm.trans known, inside⟩
  · rintro loc record ⟨records, known, inside⟩
    by_cases same : loc = route.dbLocator
    · subst same
      obtain rfl : before = records := by simpa using read.symm.trans known
      refine ⟨after, here, ?_⟩
      rcases grown with rfl | rfl
      · exact inside
      · exact List.mem_append_left _ inside
    · exact ⟨records, (recorded_other same).trans known, inside⟩
  · rintro given rfl
    rcases outcome with ⟨failure, wrong, _⟩ | ⟨same, own⟩
    · cases wrong
    · cases same
      exact ⟨routed, after, here, own⟩

theorem Traced.step (creates : Creates map create) {e : Event} (admits : c.Admits compile s e)
    (move : s.step store rlp create e = some t) :
    Traced compile c map rlp t ∧
    ∀ loc record, s.Holds store rlp loc record → t.Holds store rlp loc record := by
  cases e with
  | restart p =>
    cases move
    exact ⟨traced.restart admits, fun loc record => (traced.holds_restart admits loc record).mpr⟩
  | call action =>
    obtain ⟨disk, moved, rfl⟩ := Option.map_eq_some_iff.mp move
    cases action with
    | openDB faults req =>
      obtain ⟨⟨result, disk⟩, done, rfl⟩ := Option.map_eq_some_iff.mp moved
      obtain ⟨after, kept, _⟩ := traced.openDB creates admits done
      exact ⟨after, kept⟩
    | write loc writes =>
      have spares : ∀ w ∈ writes, w.key ≠ s.producer.tableRecordsKey := by
        rw [traced.made.tableRecordsKey]
        exact admits
      obtain ⟨well, same⟩ := step_write traced.well spares moved
      refine ⟨⟨traced.made, well, ?_⟩, ?_⟩
      · rintro loc record ⟨records, known, inside⟩
        exact traced.backed loc record ⟨records, (same loc).symm.trans known, inside⟩
      · rintro loc record ⟨records, known, inside⟩
        exact ⟨records, (same loc).trans known, inside⟩

theorem Traced.run (creates : Creates map create) {events : List Event}
    (run : Run (Session.step store rlp create) (c.Admits compile) s events t) :
    Traced compile c map rlp t ∧
    ∀ loc record, s.Holds store rlp loc record → t.Holds store rlp loc record := by
  induction run with
  | nil s => exact ⟨traced, fun _ _ held => held⟩
  | cons admits move _ ih =>
    obtain ⟨traced, first⟩ := traced.step creates admits move
    obtain ⟨traced, later⟩ := ih traced
    exact ⟨traced, fun loc record held => later loc record (first loc record held)⟩

theorem Traced.verify (creates : Creates map create) {q : Producer} (made : c.Makes compile q)
    {faults : DBLocator → Faults}
    (works : ∀ loc, (faults loc).openDB = none ∧ (faults loc).get = none) (names : List DBLocator) :
    verify q store rlp create faults s.disk names = some (.ok ()) := by
  have other := traced.restart made
  obtain ⟨dbs, read, known⟩ := getRecords_ok creates other.well works names
  dsimp only at read known
  rw [MultiDB.verify, read]
  apply verifyRecords_ok
  intro x inside record member
  exact (other.backed x.1 record ⟨x.2, known x inside, member⟩).agrees

end Steps

end Sessions

/-- All orders of a routing table route a request alike if and only if the request is settled, and then
`Verify` accepts the records of any order. -/
theorem orders_route_alike {S : Type} {store : Store S} {map : OrderedMap store} {rlp : Encoding}
    {create : S} (creates : Creates map create)
    {compile : Bytes → Bytes → Option (Bytes → Option Bytes)} {c : Config} {p : Producer}
    (makes : c.Makes compile p) :
    (∀ req, (∀ q, c.Makes compile q → q.routeOf req = p.routeOf req) ↔ c.Settled compile req) ∧
    ∀ events s, Run (Session.step store rlp create) (c.Admits compile) ⟨p, fun _ => none⟩ events s →
      (∀ q, c.Makes compile q → ∀ faults names,
        (∀ loc, (faults loc).openDB = none ∧ (faults loc).get = none) →
        verify q store rlp create faults s.disk names = some (.ok ())) ∧
      ∀ faults req given disk later t, c.Settled compile req →
        openDB store rlp s.producer create faults s.disk req = some (.ok given, disk) →
        Run (Session.step store rlp create) (c.Admits compile) ⟨s.producer, disk⟩ later t →
        ∀ q, c.Makes compile q → ∀ faults', faults'.openDB = none → faults'.get = none →
          openDB store rlp q create faults' t.disk req = some (.ok given, t.disk) := by
  have start : Traced compile c map rlp ⟨p, fun _ => none⟩ := by
    refine ⟨makes, fun _ _ found => (nomatch found), ?_⟩
    rintro loc record ⟨records, known, inside⟩
    cases known
    nomatch inside
  refine ⟨fun req => Config.settled_iff makes, fun events s run => ?_⟩
  obtain ⟨traced, _⟩ := start.run creates run
  refine ⟨fun q made faults names works => traced.verify creates made works names, ?_⟩
  intro faults req given disk later t settled opened rest q made faults' opens reads
  obtain ⟨after, _, answered⟩ := traced.openDB creates settled opened
  obtain ⟨routed, held⟩ := answered given rfl
  obtain ⟨last, kept⟩ := after.run creates rest
  have other := last.restart made
  obtain ⟨records, known, own⟩ := (last.holds_restart made _ _).mpr (kept _ _ held)
  have backed := other.backed _ _ ⟨records, known, own⟩
  have same := ((Config.settled_iff traced.made).mpr settled q made).trans routed
  exact openDB_again creates other.well same backed.used known own opens reads

section Sample

def overlapping : Config where
  producers _ := true
  routes := [([], ⟨[108], [109], [], false⟩), ([101, 37, 100], ⟨[108], [101, 37, 100], [], false⟩),
    ([101, 37, 115], ⟨[107], [101, 37, 115], [], false⟩)]
  distinct := by decide
  tableRecordsKey := [0]

def swapped : List (Bytes × Route) :=
  [([], ⟨[108], [109], [], false⟩), ([101, 37, 115], ⟨[107], [101, 37, 115], [], false⟩),
    ([101, 37, 100], ⟨[108], [101, 37, 100], [], false⟩)]

end Sample

/-- A request that no format takes is settled, and any order finds it again. -/
theorem orders_route_alike_default : ∃ p q given disk,
    overlapping.Makes (filters Fmtfilter.ascii) p ∧ overlapping.Makes (filters Fmtfilter.ascii) q ∧
    openDB memorydb marked p (.wrap ()) .never (fun _ => none) [97] = some (.ok given, disk) ∧
    openDB memorydb marked q (.wrap ()) .never disk [97] = some (.ok given, disk) := by
  obtain ⟨p, q, given, disk, first, second, opened⟩ : ∃ p q given disk,
      newProducer (filters Fmtfilter.ascii) (fun _ => true) overlapping.routes [0] = .ok p ∧
      newProducer (filters Fmtfilter.ascii) (fun _ => true) swapped [0] = .ok q ∧
      openDB memorydb marked p (.wrap ()) .never (fun _ => none) [97] = some (.ok given, disk) :=
    ⟨_, _, _, _, rfl, rfl, rfl⟩
  have makes : overlapping.Makes (filters Fmtfilter.ascii) p := ⟨_, .refl _, first⟩
  have makes' : overlapping.Makes (filters Fmtfilter.ascii) q := ⟨swapped, by decide, second⟩
  have settled : overlapping.Settled (filters Fmtfilter.ascii) [97] := by
    left
    rw [pathOf_root (by decide) (by decide)]
    decide
  exact ⟨p, q, given, disk, makes, makes', opened,
    ((orders_route_alike creates_memorydb makes).2 [] _ (.nil _)).2 .never _ _ _ [] _ settled opened
      (.nil _) q makes' .never rfl rfl⟩

/-- The order of the formats decides where `e1` is, and after a restart in the other order `Verify`
refuses the record. -/
theorem order_decides : ∃ p q given disk,
    overlapping.Makes (filters Fmtfilter.ascii) p ∧ overlapping.Makes (filters Fmtfilter.ascii) q ∧
    p.routeOf [101, 49] = some ⟨[108], [101, 49], [], false⟩ ∧
    q.routeOf [101, 49] = some ⟨[107], [101, 49], [], false⟩ ∧
    openDB memorydb marked p (.wrap ()) .never (fun _ => none) [101, 49] = some (.ok given, disk) ∧
    given.underlying = ⟨[108], [101, 49]⟩ ∧
    verify q memorydb marked (.wrap ()) (fun _ => .never) disk [given.underlying] =
      some (.error (.type [101, 49] [107] [108])) :=
  ⟨_, _, _, _, ⟨_, .refl _, rfl⟩, ⟨swapped, by decide, rfl⟩, by decide, by decide, rfl, rfl, rfl⟩

end Lachesis.Kvdb.MultiDB
