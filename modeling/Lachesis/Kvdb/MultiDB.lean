import Lachesis.Kvdb.FlushableOverlay
import Lachesis.Library.Transition

/-!
`multidb`: a producer that routes each request to a database of one of several producers and to a
table in it. Every database holds, under a reserved key, the list of the requests that it was opened
for with their tables; a request whose table overlaps that of another one is refused.
-/

namespace Lachesis.Kvdb.MultiDB

open Transition

structure Route where
  type : Bytes
  name : Bytes
  table : Bytes
  noDrop : Bool
  deriving DecidableEq

/-- A route whose name is computed from the request, where the request matches. -/
structure ScanfRoute where
  name : Bytes → Option Bytes
  type : Bytes
  table : Bytes
  noDrop : Bool

structure DBLocator where
  type : Bytes
  name : Bytes
  deriving DecidableEq

def Route.dbLocator (r : Route) : DBLocator := ⟨r.type, r.name⟩

structure TableRecord where
  req : Bytes
  table : Bytes
  deriving DecidableEq

structure Producer where
  routingTable : Bytes → Option Route
  routingFmt : List ScanfRoute
  /-- The types of the used producers that are there. -/
  usedProducers : Bytes → Bool
  tableRecordsKey : Bytes

inductive Failure where
  /-- "default route must always be defined" -/
  | noDefaultRoute
  /-- A format of the routing table does not compile. -/
  | badFormat
  /-- "missing producer '%s'" -/
  | missingProducer (type : Bytes)
  /-- An error of the underlying producer or store. -/
  | underlying (err : Error)
  /-- The list of the records is unreadable. -/
  | undecodable
  /-- "DB %s/%s, re-assigning table for req %s: new='%s' != old='%s'" -/
  | reassigning (type name req new old : Bytes)
  /-- "DB %s/%s, conflicting tables for reqs: new=%s:'%s'~old=%s:'%s'" -/
  | conflicting (type name req new oldReq old : Bytes)
  deriving DecidableEq

def percent : Fin 256 := 37

def slash : Fin 256 := 47

/-- `routes` lists the routing table in the order in which Go walks through the map, and
`compileFilter` is `fmtfilter.CompileFilter`. -/
def newProducer (compileFilter : Bytes → Bytes → Option (Bytes → Option Bytes))
    (producers : Bytes → Bool) (routes : List (Bytes × Route)) (tableRecordsKey : Bytes) :
    Except Failure Producer :=
  if routes.all fun entry => entry.1 ≠ [] then .error .noDefaultRoute
  else
    routes.foldlM (fun p entry =>
        let (req, route) := entry
        let p := { p with usedProducers := Function.update p.usedProducers route.type (producers route.type) }
        if percent ∉ req ∧ percent ∉ route.name then
          .ok { p with routingTable := Function.update p.routingTable req (some route) }
        else
          match compileFilter req route.name with
          | none => .error .badFormat
          | some fn =>
            .ok { p with routingFmt := p.routingFmt ++ [⟨fn, route.type, route.table, route.noDrop⟩] })
      ⟨fun _ => none, [], fun _ => false, tableRecordsKey⟩

def splitLast (req : Bytes) : Option (Bytes × Bytes) :=
  match req.reverse.span (· ≠ slash) with
  | (_, []) => none
  | (last, _ :: before) => some (before.reverse, last.reverse)

namespace Producer

variable (p : Producer)

def lookup (req : Bytes) : Option Route :=
  match p.routingTable req with
  | some dest => some dest
  | none =>
    p.routingFmt.findSome? fun fmt =>
      (fmt.name req).map fun name => ⟨fmt.type, name, fmt.table, fmt.noDrop⟩

def routeFrom : (fuel : Nat) → (req rightPartTable rightPartName : Bytes) → Option Route
  | 0, _, _, _ => none
  | fuel + 1, req, rightPartTable, rightPartName =>
    match p.lookup req with
    | some dest =>
      some ⟨dest.type, dest.name ++ rightPartName, dest.table ++ rightPartTable, dest.noDrop⟩
    | none =>
      match splitLast req with
      -- if root, then it refers to DB name, not table
      | none => routeFrom fuel [] rightPartTable req
      | some (before, last) => routeFrom fuel before (rightPartTable ++ last) rightPartName

/-- Every round of the loop shortens the request, so that it is empty in the last one. -/
def routeOf (req : Bytes) : Option Route := p.routeFrom (req.length + 1) req [] []

end Producer

def tablesConflicting (a b : Bytes) : Bool := b.isPrefixOf a || a.isPrefixOf b

structure Encoding where
  encodeToBytes : List TableRecord → Bytes
  decodeBytes : Bytes → Option (List TableRecord)
  roundTrip : ∀ records, decodeBytes (encodeToBytes records) = some records

/-- The calls of the underlying producer and store that fail, with their errors. -/
structure Faults where
  openDB : Option Error
  get : Option Error
  put : Option Error

def Faults.never : Faults := ⟨none, none, none⟩

section Model

variable {S : Type} (store : Store S) (rlp : Encoding) (p : Producer)

def readTablesList (fault : Option Error) (db : S) : Except Failure (List TableRecord) :=
  match fault with
  | some err => .error (.underlying err)
  | none =>
    match store.get db p.tableRecordsKey with
    | .error err => .error (.underlying err)
    | .ok none => .ok []
    | .ok (some b) =>
      match rlp.decodeBytes b with
      | none => .error .undecodable
      | some records => .ok records

def writeTablesList (fault : Option Error) (db : S) (records : List TableRecord) :
    Except Failure S :=
  match fault with
  | some err => .error (.underlying err)
  | none => (store.put db p.tableRecordsKey (rlp.encodeToBytes records)).mapError .underlying

def checkRecords (req : Bytes) (route : Route) : List TableRecord → Option (Except Failure Unit)
  | [] => none
  | old :: rest =>
    if old.req = req ∧ old.table = route.table then some (.ok ())
    else if old.req = req ∧ old.table ≠ route.table then
      some (.error (.reassigning route.type route.name req route.table old.table))
    else if tablesConflicting old.table route.table then
      some (.error (.conflicting route.type route.name req route.table old.req old.table))
    else checkRecords req route rest

def handleRoute (faults : Faults) (db : S) (req : Bytes) (route : Route) : Except Failure S :=
  match readTablesList store rlp p faults.get db with
  | .error failure => .error failure
  | .ok records =>
    match checkRecords req route records with
    | some (.ok ()) => .ok db
    | some (.error failure) => .error failure
    | none => writeTablesList store rlp p faults.put db (records ++ [⟨req, route.table⟩])

structure ClosableTable where
  underlying : DBLocator
  table : Bytes
  noDrop : Bool
  deriving DecidableEq

def ClosableTable.asStore (t : ClosableTable) : Store S :=
  if t.table.length ≠ 0 then Table.asStore store t.table else store

abbrev Disk (S : Type) := DBLocator → Option S

variable (create : S)

/-- No result where `RouteOf` does not end. `create` is the database that is opened under a new
name. -/
def openDB (faults : Faults) (s : Disk S) (req : Bytes) :
    Option (Except Failure ClosableTable × Disk S) :=
  match p.routeOf req with
  | none => none
  | some route =>
    if !p.usedProducers route.type then some (.error (.missingProducer route.type), s)
    else
      match faults.openDB with
      | some err => some (.error (.underlying err), s)
      | none =>
        let db := (s route.dbLocator).getD create
        match handleRoute store rlp p faults db req route with
        | .error failure =>
          some (.error failure, Function.update s route.dbLocator (some db))
        | .ok db =>
          some (.ok ⟨route.dbLocator, route.table, route.noDrop⟩,
            Function.update s route.dbLocator (some db))

inductive Action where
  | openDB (faults : Faults) (req : Bytes)
  /-- A client writes to a database. -/
  | write (loc : DBLocator) (writes : List Write)

def step (s : Disk S) : Action → Option (Disk S)
  | .openDB faults req => (openDB store rlp p create faults s req).map Prod.snd
  | .write loc writes =>
    match s loc with
    | none => none
    | some db =>
      match store.write db writes with
      | .error _ => some s
      | .ok db => some (Function.update s loc (some db))

def Spares (_ : Disk S) : Action → Prop
  | .openDB _ _ => True
  | .write _ writes => ∀ w ∈ writes, w.key ≠ p.tableRecordsKey

def recorded (s : Disk S) (loc : DBLocator) : Except Failure (List TableRecord) :=
  match s loc with
  | none => .ok []
  | some db => readTablesList store rlp p none db

end Model

theorem tablesConflicting_iff {a b : Bytes} : tablesConflicting a b = true ↔ b <+: a ∨ a <+: b := by
  rw [tablesConflicting, Bool.or_eq_true, List.isPrefixOf_iff_prefix, List.isPrefixOf_iff_prefix]

def Apart (records : List TableRecord) : Prop :=
  records.Pairwise fun a b => a.req ≠ b.req ∧ ¬ tablesConflicting a.table b.table

theorem Apart.not_prefix {records : List TableRecord} (apart : Apart records) {a b : TableRecord}
    (insideA : a ∈ records) (insideB : b ∈ records) (distinct : a.req ≠ b.req) :
    ¬ a.table <+: b.table := by
  intro inner
  induction records with
  | nil => nomatch insideA
  | cons old rest ih =>
    obtain ⟨first, later⟩ := List.pairwise_cons.mp apart
    rcases List.mem_cons.mp insideA with rfl | inA <;>
    rcases List.mem_cons.mp insideB with rfl | inB
    · exact distinct rfl
    · exact (first b inB).2 (tablesConflicting_iff.mpr (.inr inner))
    · exact (first a inA).2 (tablesConflicting_iff.mpr (.inl inner))
    · exact ih later inA inB

section Check

variable {req : Bytes} {route : Route} {records : List TableRecord}

theorem checkRecords_none :
    checkRecords req route records = none ↔
      ∀ old ∈ records, old.req ≠ req ∧ ¬ tablesConflicting old.table route.table := by
  induction records with
  | nil => simp [checkRecords]
  | cons old rest ih =>
    rw [checkRecords, List.forall_mem_cons]
    by_cases same : old.req = req
    · by_cases table : old.table = route.table <;> simp [same, table]
    · grind

theorem checkRecords_own (apart : Apart records) (own : ⟨req, route.table⟩ ∈ records) :
    checkRecords req route records = some (.ok ()) := by
  induction records with
  | nil => nomatch own
  | cons old rest ih =>
    obtain ⟨first, later⟩ := List.pairwise_cons.mp apart
    rw [checkRecords]
    rcases List.mem_cons.mp own with rfl | own
    · rw [if_pos ⟨rfl, rfl⟩]
    · obtain ⟨ne, free⟩ := first _ own
      rw [if_neg fun h => ne h.1, if_neg fun h => ne h.1, if_neg free]
      exact ih later own

/-- A request that is told its table is all right has a record of it. -/
theorem mem_of_checkRecords (checked : checkRecords req route records = some (.ok ())) :
    ⟨req, route.table⟩ ∈ records := by
  induction records with
  | nil => nomatch checked
  | cons old rest ih =>
    rw [checkRecords] at checked
    split_ifs at checked with same
    · obtain ⟨rfl, table⟩ := same
      exact table ▸ List.mem_cons_self
    · cases checked
    · cases checked
    · exact List.mem_cons_of_mem _ (ih checked)

theorem Apart.snoc (apart : Apart records) (checked : checkRecords req route records = none) :
    Apart (records ++ [⟨req, route.table⟩]) :=
  List.pairwise_append.mpr ⟨apart, List.pairwise_singleton _ _,
    fun old inside _ new => by
      rw [List.mem_singleton.mp new]
      exact checkRecords_none.mp checked old inside⟩

end Check

section Facts

variable {S : Type} {store : Store S} {map : OrderedMap store} {rlp : Encoding} {p : Producer}
  {create : S}

structure Sound (map : OrderedMap store) (rlp : Encoding) (p : Producer) (db : S)
    (records : List TableRecord) : Prop where
  valid : map.Valid db
  read : readTablesList store rlp p none db = .ok records
  apart : Apart records

variable {db : S} {writes : List Write} {records : List TableRecord} {route : Route}
  {faults : Faults} {req : Bytes} {s t : Disk S} {loc : DBLocator}

theorem readTablesList_eq (valid : map.Valid db) : readTablesList store rlp p none db =
      match map.contents db p.tableRecordsKey with
      | none => .ok []
      | some b =>
        match rlp.decodeBytes b with
        | none => .error .undecodable
        | some records => .ok records := by
  rw [readTablesList, map.get valid]
  cases map.contents db p.tableRecordsKey with
  | none => rfl
  | some b => rfl

theorem sound_create (creates : Creates map create) : Sound map rlp p create [] := by
  refine ⟨creates.valid, ?_, .nil⟩
  rw [readTablesList_eq creates.valid, creates.empty]

theorem applyAll_other {m : Contents} {key : Bytes} (other : ∀ w ∈ writes, w.key ≠ key) :
    m.applyAll writes key = m key := by
  induction writes generalizing m with
  | nil => rfl
  | cons w rest ih =>
    obtain ⟨first, later⟩ := List.forall_mem_cons.mp other
    rw [Contents.applyAll, List.foldl_cons, ← Contents.applyAll, ih later, Contents.apply,
      Function.update_of_ne first.symm]

theorem Sound.write {after : S} (sound : Sound map rlp p db records)
    (spares : ∀ w ∈ writes, w.key ≠ p.tableRecordsKey) (done : store.write db writes = .ok after) :
    Sound map rlp p after records := by
  obtain ⟨t, written, valid, contents⟩ := map.write sound.valid writes
  obtain rfl : t = after := by simpa using written.symm.trans done
  refine ⟨valid, ?_, sound.apart⟩
  rw [← sound.read, readTablesList_eq valid, readTablesList_eq sound.valid, contents,
    applyAll_other spares]

theorem handleRoute_cases (faults : Faults) (req : Bytes) (route : Route)
    (sound : Sound map rlp p db records) :
    (∃ failure, handleRoute store rlp p faults db req route = .error failure) ∨
    (handleRoute store rlp p faults db req route = .ok db ∧ ⟨req, route.table⟩ ∈ records) ∨
    (∃ after, handleRoute store rlp p faults db req route = .ok after ∧
      Sound map rlp p after (records ++ [⟨req, route.table⟩])) := by
  rw [handleRoute]
  cases getFault : faults.get with
  | some err => exact .inl ⟨_, rfl⟩
  | none =>
    rw [sound.read]
    dsimp only
    cases checked : checkRecords req route records with
    | some verdict =>
      cases verdict with
      | error failure => exact .inl ⟨failure, rfl⟩
      | ok => exact .inr (.inl ⟨rfl, mem_of_checkRecords checked⟩)
    | none =>
      cases putFault : faults.put with
      | some err => exact .inl ⟨_, rfl⟩
      | none =>
        obtain ⟨after, done, valid, contents⟩ := map.put sound.valid p.tableRecordsKey
          (rlp.encodeToBytes (records ++ [⟨req, route.table⟩]))
        refine .inr (.inr ⟨after, ?_, valid, ?_, sound.apart.snoc checked⟩)
        · simp only [writeTablesList, done]
          rfl
        · rw [readTablesList_eq valid, contents, Contents.apply, Function.update_self]
          dsimp only
          rw [rlp.roundTrip]

theorem handleRoute_own (sound : Sound map rlp p db records) (own : ⟨req, route.table⟩ ∈ records)
    (reads : faults.get = none) : handleRoute store rlp p faults db req route = .ok db := by
  rw [handleRoute, reads, sound.read]
  dsimp only
  rw [checkRecords_own sound.apart own]

def WellRecorded (map : OrderedMap store) (rlp : Encoding) (p : Producer) (s : Disk S) : Prop :=
  ∀ loc db, s loc = some db → ∃ records, Sound map rlp p db records

theorem WellRecorded.update {s : Disk S} {loc : DBLocator} {db : S} {records : List TableRecord}
    (well : WellRecorded map rlp p s) (sound : Sound map rlp p db records) :
    WellRecorded map rlp p (Function.update s loc (some db)) := by
  intro other db' found
  by_cases same : other = loc
  · grind
  · rw [Function.update_of_ne same] at found
    exact well other db' found

theorem WellRecorded.opened (creates : Creates map create) (well : WellRecorded map rlp p s)
    (loc : DBLocator) : ∃ records, Sound map rlp p ((s loc).getD create) records ∧
      recorded store rlp p s loc = .ok records := by
  rw [recorded]
  cases found : s loc with
  | none => exact ⟨[], sound_create creates, rfl⟩
  | some db =>
    obtain ⟨records, sound⟩ := well loc db found
    exact ⟨records, sound, sound.read⟩

/-- What a call of `OpenDB` does: nothing, or it opens a database and its records stay or take the
request in. -/
theorem openDB_cases {result : Except Failure ClosableTable} (creates : Creates map create)
    (well : WellRecorded map rlp p s)
    (done : openDB store rlp p create faults s req = some (result, t)) :
    ∃ route, p.routeOf req = some route ∧
      ((∃ failure, result = .error failure ∧ t = s) ∨
        p.usedProducers route.type = true ∧
        ∃ db before after, t = Function.update s route.dbLocator (some db) ∧
          recorded store rlp p s route.dbLocator = .ok before ∧
          (after = before ∨ after = before ++ [⟨req, route.table⟩]) ∧
          Sound map rlp p db after ∧
          ((∃ failure, result = .error failure ∧ after = before) ∨
            result = .ok ⟨route.dbLocator, route.table, route.noDrop⟩ ∧
              ⟨req, route.table⟩ ∈ after)) := by
  rw [openDB] at done
  cases routed : p.routeOf req with
  | none => simp [routed] at done
  | some route =>
    refine ⟨route, rfl, ?_⟩
    rw [routed] at done
    dsimp only at done
    split_ifs at done with unused
    · cases done
      exact .inl ⟨_, rfl, rfl⟩
    · cases openFault : faults.openDB with
      | some err => grind
      | none =>
        rw [openFault] at done
        dsimp only at done
        obtain ⟨records, sound, read⟩ := well.opened creates route.dbLocator
        refine .inr ⟨by simpa using unused, ?_⟩
        obtain ⟨failure, handled⟩ | ⟨handled, own⟩ | ⟨after, handled, recorded⟩ :=
          handleRoute_cases faults req route sound <;>
        rw [handled] at done <;> cases done
        · exact ⟨_, records, records, rfl, read, .inl rfl, sound, .inl ⟨failure, rfl, rfl⟩⟩
        · exact ⟨_, records, records, rfl, read, .inl rfl, sound, .inr ⟨rfl, own⟩⟩
        · exact ⟨_, records, _, rfl, read, .inr rfl, recorded, .inr ⟨rfl, by simp⟩⟩

theorem recorded_update {s : Disk S} {loc : DBLocator} {db : S} {records : List TableRecord}
    (sound : Sound map rlp p db records) :
    recorded store rlp p (Function.update s loc (some db)) loc = .ok records := by
  rw [recorded, Function.update_self]
  exact sound.read

theorem recorded_other {other : DBLocator} (ne : other ≠ loc) :
    recorded store rlp p (Function.update s loc (some db)) other = recorded store rlp p s other := by
  rw [recorded, recorded, Function.update_of_ne ne]

def Extends (store : Store S) (rlp : Encoding) (p : Producer) (s t : Disk S) : Prop :=
  ∀ loc before, recorded store rlp p s loc = .ok before →
    ∃ after, recorded store rlp p t loc = .ok after ∧ before <+: after

theorem Extends.update {s : Disk S} {loc : DBLocator} {db : S} {before after : List TableRecord}
    (read : recorded store rlp p s loc = .ok before) (grown : before <+: after)
    (sound : Sound map rlp p db after) :
    Extends store rlp p s (Function.update s loc (some db)) := by
  intro other records known
  by_cases same : other = loc
  · subst same
    obtain rfl : before = records := by simpa using read.symm.trans known
    exact ⟨after, recorded_update sound, grown⟩
  · exact ⟨records, by rwa [recorded_other same], List.prefix_rfl⟩

theorem step_write (well : WellRecorded map rlp p s)
    (spares : ∀ w ∈ writes, w.key ≠ p.tableRecordsKey)
    (move : step store rlp p create s (.write loc writes) = some t) :
    WellRecorded map rlp p t ∧ ∀ other, recorded store rlp p t other = recorded store rlp p s other := by
  rw [step] at move
  cases found : s loc with
  | none => simp [found] at move
  | some db =>
    rw [found] at move
    dsimp only at move
    cases done : store.write db writes with
    | error err =>
      rw [done] at move
      cases move
      exact ⟨well, fun _ => rfl⟩
    | ok after =>
      rw [done] at move
      cases move
      obtain ⟨records, sound⟩ := well loc db found
      have written := sound.write spares done
      refine ⟨well.update written, fun other => ?_⟩
      by_cases same : other = loc
      · subst same
        rw [recorded_update written, recorded, found]
        exact sound.read.symm
      · exact recorded_other same

theorem step_extends (creates : Creates map create) {action : Action}
    (well : WellRecorded map rlp p s) (spares : Spares p s action)
    (move : step store rlp p create s action = some t) :
    WellRecorded map rlp p t ∧ Extends store rlp p s t := by
  cases action with
  | openDB faults req =>
    rw [step] at move
    obtain ⟨⟨result, t⟩, done, rfl⟩ := Option.map_eq_some_iff.mp move
    obtain ⟨route, _, ⟨_, _, rfl⟩ | ⟨_, db, before, after, rfl, read, grown, sound, _⟩⟩ :=
      openDB_cases creates well done
    · exact ⟨well, fun _ before read => ⟨before, read, List.prefix_rfl⟩⟩
    · have longer : before <+: after := by
        rcases grown with rfl | rfl
        · exact List.prefix_rfl
        · exact List.prefix_append _ _
      exact ⟨well.update sound, .update read longer sound⟩
  | write loc writes =>
    obtain ⟨well, same⟩ := step_write well spares move
    exact ⟨well, fun other before read => ⟨before, (same other).trans read, List.prefix_rfl⟩⟩

theorem run_extends (creates : Creates map create) {actions : List Action}
    (well : WellRecorded map rlp p s) (run : Run (step store rlp p create) (Spares p) s actions t) :
    WellRecorded map rlp p t ∧ Extends store rlp p s t := by
  induction run with
  | nil s => exact ⟨well, fun _ before read => ⟨before, read, List.prefix_rfl⟩⟩
  | cons spares move _ ih =>
    obtain ⟨well, first⟩ := step_extends creates well spares move
    obtain ⟨well, later⟩ := ih well
    refine ⟨well, fun loc before read => ?_⟩
    obtain ⟨middle, read, grown⟩ := first loc before read
    obtain ⟨after, read, more⟩ := later loc middle read
    exact ⟨after, read, grown.trans more⟩

theorem openDB_again (creates : Creates map create) (well : WellRecorded map rlp p s)
    (routed : p.routeOf req = some route) (used : p.usedProducers route.type = true)
    (read : recorded store rlp p s route.dbLocator = .ok records)
    (own : ⟨req, route.table⟩ ∈ records) (opens : faults.openDB = none) (reads : faults.get = none) :
    openDB store rlp p create faults s req =
      some (.ok ⟨route.dbLocator, route.table, route.noDrop⟩, s) := by
  obtain ⟨records', sound, read'⟩ := well.opened creates route.dbLocator
  obtain rfl : records' = records := by simpa using read'.symm.trans read
  have there : some ((s route.dbLocator).getD create) = s route.dbLocator := by
    cases found : s route.dbLocator with
    | some db => rfl
    | none =>
      rw [recorded, found] at read
      cases read
      nomatch own
  rw [openDB, routed]
  dsimp only
  rw [if_neg (by simp [used]), opens]
  dsimp only
  rw [handleRoute_own sound own reads]
  dsimp only
  rw [there, Function.update_eq_self]

/-- As long as no client overwrites the records, no recorded table is within that of another request, a
request is given the same table again, and a call that fails leaves the records alone. -/
theorem tables_disjoint (creates : Creates map create) {start s : Disk S} {actions : List Action}
    (well : WellRecorded map rlp p start)
    (run : Run (step store rlp p create) (Spares p) start actions s) :
    (∀ loc, ∃ records, recorded store rlp p s loc = .ok records ∧
      ∀ a ∈ records, ∀ b ∈ records, a.req ≠ b.req → ¬ a.table <+: b.table) ∧
    (∀ faults req given t later u,
      openDB store rlp p create faults s req = some (.ok given, t) →
      Run (step store rlp p create) (Spares p) t later u →
      (∃ records, recorded store rlp p u given.underlying = .ok records ∧
        ⟨req, given.table⟩ ∈ records) ∧
      ∀ faults', faults'.openDB = none → faults'.get = none →
        openDB store rlp p create faults' u req = some (.ok given, u)) ∧
    (∀ faults req failure t,
      openDB store rlp p create faults s req = some (.error failure, t) →
      ∀ loc, recorded store rlp p t loc = recorded store rlp p s loc) := by
  obtain ⟨well, _⟩ := run_extends creates well run
  refine ⟨fun loc => ?_, fun faults req given t later u opened rest => ?_,
    fun faults req failure t failed loc => ?_⟩
  · obtain ⟨records, sound, read⟩ := well.opened creates loc
    exact ⟨records, read, fun a insideA b insideB => sound.apart.not_prefix insideA insideB⟩
  · obtain ⟨route, routed, ⟨_, wrong, _⟩ | ⟨used, db, before, after, same, _, _, sound, outcome⟩⟩ :=
      openDB_cases creates well opened
    · cases wrong
    obtain ⟨_, wrong, _⟩ | ⟨result, own⟩ := outcome
    · cases wrong
    cases result
    subst same
    obtain ⟨well, grown⟩ := run_extends creates (well.update sound) rest
    obtain ⟨records, read, more⟩ := grown _ _ (recorded_update sound)
    exact ⟨⟨records, read, more.subset own⟩, fun faults' opens reads =>
      openDB_again creates well routed used read (more.subset own) opens reads⟩
  · obtain ⟨route, _, ⟨_, _, rfl⟩ | ⟨_, db, before, after, rfl, read, _, sound, outcome⟩⟩ :=
      openDB_cases creates well failed
    · rfl
    obtain ⟨_, _, rfl⟩ | ⟨wrong, _⟩ := outcome
    · by_cases same : loc = route.dbLocator
      · subst same
        rw [recorded_update sound, read]
      · exact recorded_other same
    · cases wrong

end Facts

section Sample

/-- The bytes of a field, each after a mark, and then a zero. -/
def encodeField (field rest : Bytes) : Bytes := field.foldr (fun x more => 1 :: x :: more) (0 :: rest)

def decodeFields : Bytes → List Bytes
  | [] => []
  | [_] => [[]]
  | mark :: x :: rest =>
    if mark = 0 then [] :: decodeFields (x :: rest)
    else
      let fields := decodeFields rest
      (x :: fields.headD []) :: fields.tail

theorem decodeFields_encodeField (field rest : Bytes) :
    decodeFields (encodeField field rest) = field :: decodeFields rest := by
  induction field with
  | nil => cases rest <;> simp [encodeField, decodeFields]
  | cons x field ih =>
    change decodeFields (1 :: x :: encodeField field rest) = _
    rw [decodeFields, if_neg (by decide), ih]
    rfl

def pairFields : List Bytes → List TableRecord
  | req :: table :: rest => ⟨req, table⟩ :: pairFields rest
  | _ => []

def marked : Encoding where
  encodeToBytes records := records.foldr (fun r rest => encodeField r.req (encodeField r.table rest)) []
  decodeBytes b := some (pairFields (decodeFields b))
  roundTrip records := by
    congr 1
    induction records with
    | nil => rfl
    | cons r records ih =>
      rw [List.foldr_cons, decodeFields_encodeField, decodeFields_encodeField, pairFields, ih]

end Sample

/-- Two requests are opened, the client of one writes to its table, and it is opened again. -/
theorem tables_disjoint_reopened : ∃ p s given t u,
    newProducer (fun _ _ => none) (fun _ => true)
      [([], ⟨[1], [2], [5], false⟩), ([6], ⟨[1], [3], [7], true⟩)] [9] = .ok p ∧
    Run (step memorydb marked p (.wrap ())) (Spares p) (fun _ => none)
      [.openDB .never [6, slash, 4], .openDB .never [8]] s ∧
    openDB memorydb marked p (.wrap ()) .never s [6, slash, 8] = some (.ok given, t) ∧
    given = ⟨⟨[1], [3]⟩, [7, 8], true⟩ ∧
    Run (step memorydb marked p (.wrap ())) (Spares p) t
      [.write given.underlying [⟨given.table ++ [4], some [4]⟩]] u ∧
    openDB memorydb marked p (.wrap ()) .never u [6, slash, 8] = some (.ok given, u) := by
  obtain ⟨p, s, given, t, u, made, before, opened, is, run⟩ : ∃ p s given t u,
      newProducer (fun _ _ => none) (fun _ => true)
        [([], ⟨[1], [2], [5], false⟩), ([6], ⟨[1], [3], [7], true⟩)] [9] = .ok p ∧
      Run (step memorydb marked p (.wrap ())) (Spares p) (fun _ => none)
        [.openDB .never [6, slash, 4], .openDB .never [8]] s ∧
      openDB memorydb marked p (.wrap ()) .never s [6, slash, 8] = some (.ok given, t) ∧
      given = ⟨⟨[1], [3]⟩, [7, 8], true⟩ ∧
      Run (step memorydb marked p (.wrap ())) (Spares p) t
        [.write given.underlying [⟨given.table ++ [4], some [4]⟩]] u :=
    ⟨_, _, _, _, _, rfl, .cons trivial rfl (.cons trivial rfl (.nil _)), rfl, rfl,
      .cons (by simp [Spares]) rfl (.nil _)⟩
  have well : WellRecorded memorydb.orderedMap marked p fun _ => none :=
    fun _ _ wrong => (nomatch wrong)
  exact ⟨p, s, given, t, u, made, before, opened, is, run, ((tables_disjoint creates_memorydb well before).2.1
    _ _ _ _ _ _ opened run).2 .never rfl rfl⟩

end Lachesis.Kvdb.MultiDB
