import Lachesis.Kvdb.MultiDB
import Lachesis.Utils.FmtFilter

/-!
Where `RouteOf` leads. The loop walks up the path of the request to the nearest part that has a
route, and gathers the segments that it passes: from right to left, each behind the ones it has.
-/

namespace Lachesis.Kvdb.MultiDB

section SplitLast

variable {last before req : Bytes}

theorem splitLast_append (before : Bytes) (free : slash ∉ last) :
    splitLast (before ++ slash :: last) = some (before, last) := by
  have stops : ∀ x ∈ last.reverse, decide (x ≠ slash) = true := by grind
  rw [splitLast, List.reverse_append, List.reverse_cons, List.append_assoc,
    List.span_eq_takeWhile_dropWhile, List.takeWhile_append_of_pos stops,
    List.dropWhile_append_of_pos stops]
  simp

theorem splitLast_some (split : splitLast req = some (before, last)) :
    req = before ++ slash :: last := by
  have whole := @List.takeWhile_append_dropWhile _ (fun x => decide (x ≠ slash)) req.reverse
  rw [splitLast, List.span_eq_takeWhile_dropWhile] at split
  cases rest : req.reverse.dropWhile (fun x => decide (x ≠ slash)) with
  | nil =>
    rw [rest] at split
    cases split
  | cons x front =>
    have found : x = slash := by
      have stopped := List.head_dropWhile_not (fun x => decide (x ≠ slash)) (l := req.reverse)
        (by rw [rest]; exact List.cons_ne_nil x front)
      simp only [rest, List.head_cons] at stopped
      simpa using stopped
    subst found
    rw [rest] at split whole
    cases split
    calc
      req = req.reverse.reverse := (List.reverse_reverse req).symm
      _ = _ := by grind

theorem splitLast_length (split : splitLast req = some (before, last)) :
    before.length < req.length := by
  rw [splitLast_some split, List.length_append, List.length_cons]
  omega

end SplitLast

structure Path where
  /-- The nearest part of the request that matches, or nothing. -/
  stem : Bytes
  /-- The segments below it, in the order of the request. -/
  segments : List Bytes
  /-- The first segment of the request, where it does not match either. -/
  root : Bytes
  deriving DecidableEq

def pathOf (matched : Bytes → Bool) (req : Bytes) : Path :=
  if matched req then ⟨req, [], []⟩
  else
    match _ : splitLast req with
    | none => ⟨[], [], req⟩
    | some (before, last) =>
      let path := pathOf matched before
      { path with segments := path.segments ++ [last] }
termination_by req.length
decreasing_by exact splitLast_length ‹_›

section Paths

variable {matched : Bytes → Bool}

variable {req : Bytes}

theorem pathOf_matched (here : matched req = true) : pathOf matched req = ⟨req, [], []⟩ := by
  rw [pathOf, if_pos here]

theorem pathOf_root (free : matched req = false) (split : splitLast req = none) :
    pathOf matched req = ⟨[], [], req⟩ := by
  rw [pathOf, if_neg (by simp [free])]
  split
  · rfl
  · rename_i other
    rw [split] at other
    cases other

theorem pathOf_split {before last : Bytes} (free : matched req = false)
    (split : splitLast req = some (before, last)) : pathOf matched req =
      { pathOf matched before with segments := (pathOf matched before).segments ++ [last] } := by
  rw [pathOf, if_neg (by simp [free])]
  split
  · rename_i other
    rw [split] at other
    cases other
  · rename_i other
    rw [split] at other
    cases other
    rfl

theorem matched_stem (default : matched [] = true) (req : Bytes) :
    matched (pathOf matched req).stem = true := by
  fun_induction pathOf matched req with
  | case1 req here => exact here
  | case2 => exact default
  | case3 req free before last split path ih => exact ih

def below (r : Bytes) (segments : List Bytes) : Bytes :=
  segments.foldl (fun r s => r ++ slash :: s) r

def Unmatched (matched : Bytes → Bool) : Bytes → List Bytes → Prop
  | _, [] => True
  | r, s :: rest =>
    slash ∉ s ∧ matched (r ++ slash :: s) = false ∧ Unmatched matched (r ++ slash :: s) rest

theorem pathOf_below {r : Bytes} {segments : List Bytes} (free : Unmatched matched r segments) :
    pathOf matched (below r segments) =
      { pathOf matched r with segments := (pathOf matched r).segments ++ segments } := by
  induction segments generalizing r with
  | nil => simp [below]
  | cons s rest ih =>
    obtain ⟨noSlash, unmatched, free⟩ := free
    rw [below, List.foldl_cons, ← below, ih free,
      pathOf_split unmatched (splitLast_append r noSlash)]
    simp

end Paths

def lastFirst (segments : List Bytes) : Bytes := segments.reverse.flatten

theorem lastFirst_append (first second : List Bytes) :
    lastFirst (first ++ second) = lastFirst second ++ lastFirst first := by
  simp [lastFirst]

def Route.along (dest : Route) (path : Path) : Route :=
  ⟨dest.type, dest.name ++ path.root, dest.table ++ lastFirst path.segments, dest.noDrop⟩

theorem Route.along_injective (path : Path) : Function.Injective fun dest : Route => dest.along path := by
  intro a b same
  simp only [along, Route.mk.injEq, List.append_left_inj] at same
  obtain ⟨type, name, table, noDrop⟩ := same
  cases a
  cases b
  simp_all

namespace Producer

variable (p : Producer)

def matched (req : Bytes) : Bool := (p.lookup req).isSome

variable {p}

theorem routeFrom_stays (lost : p.lookup [] = none) (fuel : Nat) (table name : Bytes) :
    p.routeFrom fuel [] table name = none := by
  induction fuel generalizing name with
  | zero => rfl
  | succ fuel ih =>
    rw [routeFrom, lost]
    exact ih []

theorem routeFrom_path {fuel : Nat} {req : Bytes} (enough : req.length < fuel) (table : Bytes) :
    p.routeFrom fuel req table [] = (p.lookup (pathOf p.matched req).stem).map fun dest =>
      ⟨dest.type, dest.name ++ (pathOf p.matched req).root,
        dest.table ++ (table ++ lastFirst (pathOf p.matched req).segments), dest.noDrop⟩ := by
  induction fuel generalizing req table with
  | zero => omega
  | succ fuel ih =>
    rw [routeFrom]
    cases found : p.lookup req with
    | some dest =>
      rw [pathOf_matched (by simp [matched, found])]
      simp [found, lastFirst]
    | none =>
      have free : p.matched req = false := by simp [matched, found]
      dsimp only
      cases split : splitLast req with
      | some parts =>
        obtain ⟨before, last⟩ := parts
        have shorter := splitLast_length split
        rw [pathOf_split free split]
        dsimp only
        -- the segment goes behind those that were passed before it
        rw [ih (by omega), lastFirst_append]
        simp [lastFirst]
      | none =>
        rw [pathOf_root free split]
        dsimp only
        cases default : p.lookup [] with
        | none => rw [routeFrom_stays default, Option.map_none]
        | some dest =>
          -- the request is not empty, so that a round is left for the default route
          obtain ⟨rounds, rfl⟩ : ∃ rounds, fuel = rounds + 1 := by
            cases fuel with
            | succ rounds => exact ⟨rounds, rfl⟩
            | zero => grind
          rw [routeFrom, default]
          simp [lastFirst]

theorem routeOf_path (req : Bytes) :
    p.routeOf req = (p.lookup (pathOf p.matched req).stem).map fun dest =>
      dest.along (pathOf p.matched req) := by
  rw [routeOf, routeFrom_path (by omega)]
  rfl

end Producer

/-- The entry has a `%` neither in its request nor in its name. -/
def IsExact (entry : Bytes × Route) : Prop := percent ∉ entry.1 ∧ percent ∉ entry.2.name

instance (entry : Bytes × Route) : Decidable (IsExact entry) :=
  inferInstanceAs (Decidable (_ ∧ _))

def scanfRoute (compile : Bytes → Bytes → Option (Bytes → Option Bytes)) (entry : Bytes × Route) :
    Option ScanfRoute :=
  if IsExact entry then none
  else (compile entry.1 entry.2.name).map fun fn =>
    ⟨fn, entry.2.type, entry.2.table, entry.2.noDrop⟩

def added (compile : Bytes → Bytes → Option (Bytes → Option Bytes)) (producers : Bytes → Bool)
    (p : Producer) (entry : Bytes × Route) : Producer where
  routingTable :=
    if IsExact entry then Function.update p.routingTable entry.1 (some entry.2) else p.routingTable
  routingFmt := p.routingFmt ++ (scanfRoute compile entry).toList
  usedProducers := Function.update p.usedProducers entry.2.type (producers entry.2.type)
  tableRecordsKey := p.tableRecordsKey

section Making

variable {compile : Bytes → Bytes → Option (Bytes → Option Bytes)} {producers : Bytes → Bool}
  {p start : Producer} {routes : List (Bytes × Route)}

def Compiles (compile : Bytes → Bytes → Option (Bytes → Option Bytes)) (entry : Bytes × Route) :
    Prop :=
  IsExact entry ∨ compile entry.1 entry.2.name ≠ none

def addRoute (compile : Bytes → Bytes → Option (Bytes → Option Bytes)) (producers : Bytes → Bool)
    (p : Producer) (entry : Bytes × Route) : Except Failure Producer :=
  let (req, route) := entry
  let p := { p with usedProducers := Function.update p.usedProducers route.type (producers route.type) }
  if IsExact entry then
    .ok { p with routingTable := Function.update p.routingTable req (some route) }
  else
    match compile req route.name with
    | none => .error .badFormat
    | some fn =>
      .ok { p with routingFmt := p.routingFmt ++ [⟨fn, route.type, route.table, route.noDrop⟩] }

variable {entry : Bytes × Route}

theorem addRoute_ok : addRoute compile producers start entry = .ok p ↔
      Compiles compile entry ∧ added compile producers start entry = p := by
  rw [addRoute]
  by_cases exactly : IsExact entry
  · rw [if_pos exactly]
    simp [added, scanfRoute, Compiles, exactly]
  · rw [if_neg exactly]
    cases compiled : compile entry.1 entry.2.name with
    | none => simp [Compiles, exactly, compiled]
    | some fn => simp [added, scanfRoute, Compiles, exactly, compiled]

theorem foldlM_addRoute :
    routes.foldlM (addRoute compile producers) start = .ok p ↔
      (∀ entry ∈ routes, Compiles compile entry) ∧
      routes.foldl (added compile producers) start = p := by
  induction routes generalizing start with
  | nil => simp [pure, Except.pure]
  | cons entry rest ih =>
    rw [List.foldlM_cons, List.foldl_cons, List.forall_mem_cons]
    cases next : addRoute compile producers start entry with
    | error failure =>
      have refused : ¬ Compiles compile entry := fun compiles => by
        rw [addRoute_ok.mpr ⟨compiles, rfl⟩] at next
        cases next
      constructor
      · intro wrong
        cases wrong
      · intro accepted
        exact absurd accepted.1.1 refused
    | ok q =>
      obtain ⟨compiles, rfl⟩ := addRoute_ok.mp next
      simp only [compiles, true_and]
      exact ih

theorem newProducer_ok {tableRecordsKey : Bytes} :
    newProducer compile producers routes tableRecordsKey = .ok p ↔
      (∃ entry ∈ routes, entry.1 = []) ∧ (∀ entry ∈ routes, Compiles compile entry) ∧
      routes.foldl (added compile producers) ⟨fun _ => none, [], fun _ => false, tableRecordsKey⟩ =
        p := by
  rw [← foldlM_addRoute]
  change (if _ then _ else routes.foldlM (addRoute compile producers) _) = _ ↔ _
  grind

theorem foldl_added_other {req : Bytes} (other : ∀ entry ∈ routes, IsExact entry → entry.1 ≠ req) :
    (routes.foldl (added compile producers) start).routingTable req = start.routingTable req := by
  induction routes generalizing start with
  | nil => rfl
  | cons entry rest ih =>
    obtain ⟨first, later⟩ := List.forall_mem_cons.mp other
    rw [List.foldl_cons, ih later, added]
    dsimp only
    split_ifs with exactly
    · exact Function.update_of_ne (first exactly).symm _ _
    · rfl

theorem foldl_added_exact (distinct : (routes.map Prod.fst).Nodup) (inside : entry ∈ routes)
    (exactly : IsExact entry) :
    (routes.foldl (added compile producers) start).routingTable entry.1 = some entry.2 := by
  induction routes generalizing start with
  | nil => cases inside
  | cons first rest ih =>
    obtain ⟨apart, distinct⟩ := List.nodup_cons.mp distinct
    rw [List.foldl_cons]
    rcases List.mem_cons.mp inside with rfl | later
    · -- no later entry has this key
      rw [foldl_added_other fun e later _ same =>
        apart (List.mem_map.mpr ⟨e, later, same⟩), added]
      dsimp only
      rw [if_pos exactly, Function.update_self]
    · exact ih distinct later

theorem foldl_added_routingFmt :
    (routes.foldl (added compile producers) start).routingFmt =
      start.routingFmt ++ routes.filterMap (scanfRoute compile) := by
  induction routes generalizing start with
  | nil => simp
  | cons entry rest ih =>
    rw [List.foldl_cons, ih, added, List.append_assoc, List.filterMap_cons]
    cases scanfRoute compile entry with
    | none => rfl
    | some fmt => rfl

theorem foldl_added_usedProducers (type : Bytes) :
    (routes.foldl (added compile producers) start).usedProducers type =
      if ∃ entry ∈ routes, entry.2.type = type then producers type else start.usedProducers type := by
  induction routes generalizing start with
  | nil => simp
  | cons entry rest ih =>
    rw [List.foldl_cons, ih, added]
    dsimp only
    by_cases same : entry.2.type = type
    · simp_all
    · have others : (∃ e ∈ entry :: rest, e.2.type = type) ↔ ∃ e ∈ rest, e.2.type = type := by
        simp [same]
      rw [Function.update_of_ne (Ne.symm same)]
      exact (if_congr others rfl rfl).symm

theorem foldl_added_tableRecordsKey :
    (routes.foldl (added compile producers) start).tableRecordsKey = start.tableRecordsKey := by
  induction routes generalizing start with
  | nil => rfl
  | cons entry rest ih => exact ih

end Making

/-- What `NewProducer` is given: the routing table is a map. -/
structure Config where
  producers : Bytes → Bool
  routes : List (Bytes × Route)
  distinct : (routes.map Prod.fst).Nodup
  tableRecordsKey : Bytes

namespace Config

variable {compile : Bytes → Bytes → Option (Bytes → Option Bytes)} {c : Config} {p : Producer}

/-- `NewProducer` makes the producer when it walks through the routing table in some order. -/
def Makes (compile : Bytes → Bytes → Option (Bytes → Option Bytes)) (c : Config) (p : Producer) :
    Prop :=
  ∃ order, order.Perm c.routes ∧
    newProducer compile c.producers order c.tableRecordsKey = .ok p

def formats (compile : Bytes → Bytes → Option (Bytes → Option Bytes)) (c : Config) :
    List ScanfRoute :=
  c.routes.filterMap (scanfRoute compile)

theorem Makes.routingTable (makes : c.Makes compile p) (req : Bytes) (route : Route) :
    p.routingTable req = some route ↔ (req, route) ∈ c.routes ∧ IsExact (req, route) := by
  obtain ⟨order, perm, made⟩ := makes
  obtain ⟨_, _, rfl⟩ := newProducer_ok.mp made
  have distinct : (order.map Prod.fst).Nodup := (perm.map Prod.fst).nodup_iff.mpr c.distinct
  rw [← perm.mem_iff]
  constructor
  · intro found
    by_cases taken : ∃ entry ∈ order, IsExact entry ∧ entry.1 = req
    · obtain ⟨entry, inside, exactly, rfl⟩ := taken
      rw [foldl_added_exact distinct inside exactly] at found
      cases found
      exact ⟨inside, exactly⟩
    · rw [foldl_added_other fun entry inside exactly same => taken ⟨entry, inside, exactly, same⟩]
        at found
      cases found
  · intro ⟨inside, exactly⟩
    exact foldl_added_exact distinct inside exactly

theorem Makes.routingFmt (makes : c.Makes compile p) : p.routingFmt.Perm (c.formats compile) := by
  obtain ⟨order, perm, made⟩ := makes
  obtain ⟨_, _, rfl⟩ := newProducer_ok.mp made
  rw [foldl_added_routingFmt]
  exact perm.filterMap _

theorem Makes.usedProducers (makes : c.Makes compile p) (type : Bytes) :
    p.usedProducers type =
      if ∃ entry ∈ c.routes, entry.2.type = type then c.producers type else false := by
  obtain ⟨order, perm, made⟩ := makes
  obtain ⟨_, _, rfl⟩ := newProducer_ok.mp made
  rw [foldl_added_usedProducers]
  simp only [perm.mem_iff]

theorem Makes.tableRecordsKey (makes : c.Makes compile p) :
    p.tableRecordsKey = c.tableRecordsKey := by
  obtain ⟨order, perm, made⟩ := makes
  obtain ⟨_, _, rfl⟩ := newProducer_ok.mp made
  exact foldl_added_tableRecordsKey

end Config

def filters (go : Fmtfilter.Go) (req name : Bytes) : Option (Bytes → Option Bytes) :=
  (Fmtfilter.compileFilter go req name).toOption

theorem Config.Makes.matched_nil {go : Fmtfilter.Go} {c : Config} {p : Producer}
    (makes : c.Makes (filters go) p) : p.matched [] = true := by
  obtain ⟨⟨req, route⟩, inside, rfl⟩ : ∃ entry ∈ c.routes, entry.1 = [] := by
    obtain ⟨order, perm, made⟩ := makes
    obtain ⟨⟨entry, inside, default⟩, _⟩ := newProducer_ok.mp made
    exact ⟨entry, perm.mem_iff.mp inside, default⟩
  rw [Producer.matched, Producer.lookup]
  cases found : p.routingTable [] with
  | some dest => rfl
  | none =>
    -- the entry is a template then, and its filter is among the formats
    have template : ¬ IsExact ([], route) := fun exactly => by
      rw [(makes.routingTable [] route).mpr ⟨inside, exactly⟩] at found
      cases found
    obtain ⟨fmt, member, taken⟩ : ∃ fmt ∈ c.formats (filters go), fmt.name [] ≠ none := by
      obtain ⟨order, perm, made⟩ := makes
      have compiles := (newProducer_ok.mp made).2.1 _ (perm.mem_iff.mpr inside)
      cases compiled : Fmtfilter.compileFilter go [] route.name with
      | error failure =>
        exact absurd (compiles.resolve_left template) (by simp [filters, compiled, Except.toOption])
      | ok fn =>
        refine ⟨⟨fn, route.type, route.table, route.noDrop⟩, List.mem_filterMap.mpr
          ⟨_, inside, by simp [scanfRoute, template, filters, compiled, Except.toOption]⟩, ?_⟩
        dsimp only
        rw [Fmtfilter.compileFilter_empty compiled]
        exact Option.some_ne_none _
    dsimp only
    rw [List.findSome?_isSome_iff]
    exact ⟨fmt, makes.routingFmt.mem_iff.mpr member, by
      rw [Option.isSome_map]
      exact Option.isSome_iff_ne_none.mpr taken⟩

section Composition

variable {p : Producer}

theorem stem_route (default : p.matched [] = true) (req : Bytes) :
    ∃ dest, p.lookup (pathOf p.matched req).stem = some dest ∧
      p.routeOf req = some (dest.along (pathOf p.matched req)) := by
  obtain ⟨dest, found⟩ := Option.isSome_iff_exists.mp (matched_stem default req)
  exact ⟨dest, found, by rw [Producer.routeOf_path, found, Option.map_some]⟩

theorem routeOf_below (default : p.matched [] = true) {r : Bytes} {segments : List Bytes}
    (free : Unmatched p.matched r segments) :
    ∃ parent child, p.routeOf r = some parent ∧ p.routeOf (below r segments) = some child ∧
      child.type = parent.type ∧ child.name = parent.name ∧ child.noDrop = parent.noDrop ∧
      (child.table = parent.table ++ segments.flatten ↔
        lastFirst segments ++ lastFirst (pathOf p.matched r).segments =
          lastFirst (pathOf p.matched r).segments ++ segments.flatten) := by
  obtain ⟨dest, found, routed⟩ := stem_route default r
  have path := pathOf_below free
  have child : p.routeOf (below r segments) =
      some (dest.along (pathOf p.matched (below r segments))) := by
    rw [Producer.routeOf_path, path, found, Option.map_some]
  refine ⟨_, _, routed, child, rfl, ?_, rfl, ?_⟩
  · rw [path]
    rfl
  · rw [path]
    -- both tables begin with the one of the stem
    simp only [Route.along, lastFirst_append, List.append_assoc, List.append_cancel_left_eq]

end Composition

/-- `RouteOf` always ends. The route of a request below another one is the other's with the segments
behind it exactly where they commute, since the loop puts an outer segment behind an inner one. -/
theorem routes_compose {go : Fmtfilter.Go} {c : Config} {p : Producer}
    (makes : c.Makes (filters go) p) :
    (∀ req, ∃ route, p.routeOf req = some route) ∧
    (∀ r s, slash ∉ s → p.lookup (r ++ slash :: s) = none →
      ∃ parent child, p.routeOf r = some parent ∧ p.routeOf (r ++ slash :: s) = some child ∧
        child.type = parent.type ∧ child.name = parent.name ∧ child.noDrop = parent.noDrop ∧
        (child.table = parent.table ++ s ↔
          s ++ lastFirst (pathOf p.matched r).segments =
            lastFirst (pathOf p.matched r).segments ++ s)) ∧
    (∀ r segments, Unmatched p.matched r segments →
      ∃ parent child, p.routeOf r = some parent ∧ p.routeOf (below r segments) = some child ∧
        child.type = parent.type ∧ child.name = parent.name ∧ child.noDrop = parent.noDrop ∧
        (child.table = parent.table ++ segments.flatten ↔
          lastFirst segments ++ lastFirst (pathOf p.matched r).segments =
            lastFirst (pathOf p.matched r).segments ++ segments.flatten)) := by
  have default := makes.matched_nil
  refine ⟨fun req => ?_, fun r s noSlash free => ?_, fun r segments free => routeOf_below default free⟩
  · obtain ⟨dest, _, routed⟩ := stem_route default req
    exact ⟨_, routed⟩
  · have alone : Unmatched p.matched r [s] := ⟨noSlash, by simp [Producer.matched, free], trivial⟩
    have single := routeOf_below default alone
    simpa [below, lastFirst] using single

section Sample

def plainConfig : Config where
  producers _ := true
  routes := [([], ⟨[108], [109], [], false⟩), ([97], ⟨[108], [97], [84], true⟩)]
  distinct := by decide
  tableRecordsKey := [0]

def plainProducer : Producer where
  routingTable := Function.update (Function.update (fun _ => none) [] (some ⟨[108], [109], [], false⟩))
    [97] (some ⟨[108], [97], [84], true⟩)
  routingFmt := []
  usedProducers := Function.update (Function.update (fun _ => false) [108] true) [108] true
  tableRecordsKey := [0]

theorem plainConfig_makes : plainConfig.Makes (filters Fmtfilter.ascii) plainProducer :=
  ⟨plainConfig.routes, .refl _, rfl⟩

end Sample

/-- The table of `a/b` is a part of that of `a`. -/
theorem routes_compose_single : ∃ parent child,
    plainProducer.routeOf [97] = some parent ∧
    plainProducer.routeOf [97, slash, 98] = some child ∧ child.table = parent.table ++ [98] := by
  obtain ⟨parent, child, above, under, _, _, _, table⟩ :=
    (routes_compose plainConfig_makes).2.1 [97] [98] (by decide) (by decide)
  exact ⟨parent, child, above, under, table.mpr (by rw [pathOf_matched (by decide)]; rfl)⟩

/-- The table of `a/b/c` is not a part of that of `a/b`: it begins with `c`, as that of `a/c` does,
so that `a/b/c` is refused once `a/c` was opened. -/
theorem nested_table_reversed :
    plainConfig.Makes (filters Fmtfilter.ascii) plainProducer ∧
    plainProducer.lookup [97, slash, 98, slash, 99] = none ∧
    plainProducer.routeOf [97, slash, 98] = some ⟨[108], [97], [84, 98], true⟩ ∧
    plainProducer.routeOf [97, slash, 98, slash, 99] = some ⟨[108], [97], [84, 99, 98], true⟩ ∧
    plainProducer.routeOf [97, slash, 99] = some ⟨[108], [97], [84, 99], true⟩ ∧
    tablesConflicting [84, 99] [84, 99, 98] = true :=
  ⟨plainConfig_makes, by decide, by decide, by decide, by decide, by decide⟩

end Lachesis.Kvdb.MultiDB
