import Lachesis.Library.Transition

/-!
The two constructors of `cachedproducer`, used by one client. `openDB` and the closures it
puts around a store work on three Go maps; `WrapAll` makes all three, `Wrap` leaves
`refCounter` nil.
-/

namespace Lachesis.Kvdb.Cachedproducer

inductive Panic where
  | nilMap
  deriving DecidableEq

/-- A Go map from names; `none` is the nil map. -/
def GoMap (V : Type) : Type := Option (String → Option V)

namespace GoMap

variable {V : Type}

def nil : GoMap V := none

def make : GoMap V := some fun _ => none

def get (m : GoMap V) (name : String) : Option V :=
  match m with
  | none => none
  | some entries => entries name

def set (m : GoMap V) (name : String) (value : V) : Except Panic (GoMap V) :=
  match m with
  | none => .error .nilMap
  | some entries => .ok (some (Function.update entries name (some value)))

def delete (m : GoMap V) (name : String) : GoMap V :=
  match m with
  | none => none
  | some entries => some (Function.update entries name none)

end GoMap

structure Producer (World Store Err : Type) where
  openDB : World → String → Except Err Store × World
  close : World → Store → Option Err × World
  drop : World → Store → World

inductive Call (Store : Type) where
  | openDB (name : String)
  | close (store : Store)
  | drop (store : Store)
  deriving DecidableEq

/-- `StoreWithFn`: the two closures keep the name and the store. -/
structure StoreWithFn (Store : Type) where
  name : String
  store : Store
  deriving DecidableEq

structure CacheState (Store : Type) where
  opened : GoMap (StoreWithFn Store)
  refCounter : GoMap Nat
  notDropped : GoMap Bool

inductive Result (Store Err : Type) where
  | opened (store : StoreWithFn Store)
  | openError (err : Err)
  | closed (err : Option Err)
  /-- "called Close more times than OpenDB" -/
  | tooManyCloses
  | dropped
  /-- The client has no such store. -/
  | noStore
  deriving DecidableEq

structure Client (World Store : Type) where
  cache : CacheState Store
  world : World
  stores : List (StoreWithFn Store)

inductive Op where
  | openDB (name : String)
  | close (i : Nat)
  | drop (i : Nat)

/-- The underlying calls of a step, made also where it panics, and its end. -/
abbrev Outcome (World Store Err : Type) :=
  List (Call Store) × Except Panic (Result Store Err × Client World Store)

variable {World Store Err : Type}

def CacheState.refs (c : CacheState Store) (name : String) : Nat := (c.refCounter.get name).getD 0

section Step

variable (p : Producer World Store Err)

def register (calls : List (Call Store)) (s : Client World Store) (name : String)
    (opened : Except Panic (GoMap (StoreWithFn Store))) (store : StoreWithFn Store) :
    Outcome World Store Err :=
  (calls, do
    let opened ← opened
    let refCounter ← s.cache.refCounter.set name (s.cache.refs name + 1)
    return (.opened store,
      { s with cache := { s.cache with opened := opened, refCounter := refCounter }
               stores := s.stores ++ [store] }))

def openDB (s : Client World Store) (name : String) : Outcome World Store Err :=
  match s.cache.notDropped.set name true with
  | .error panic => ([], .error panic)
  | .ok notDropped =>
    let s := { s with cache := { s.cache with notDropped := notDropped } }
    match s.cache.opened.get name with
    | some store => register [] s name (.ok s.cache.opened) store
    | none =>
      match p.openDB s.world name with
      | (.error err, world) => ([.openDB name], .ok (.openError err, { s with world := world }))
      | (.ok store, world) =>
        let store : StoreWithFn Store := ⟨name, store⟩
        register [.openDB name] { s with world := world } name (s.cache.opened.set name store)
          store

def closeFn (s : Client World Store) (store : StoreWithFn Store) : Outcome World Store Err :=
  match s.cache.refs store.name with
  | 0 => ([], .ok (.tooManyCloses, s))
  | 1 =>
    -- call realClose only after every instance was closed
    let (err, world) := p.close s.world store.store
    ([.close store.store], .ok (.closed err, { s with
      cache := { s.cache with
        refCounter := s.cache.refCounter.delete store.name
        opened := s.cache.opened.delete store.name }
      world := world }))
  | counter + 2 =>
    match s.cache.refCounter.set store.name (counter + 1) with
    | .error panic => ([], .error panic)
    | .ok refCounter =>
      ([], .ok (.closed none, { s with cache := { s.cache with refCounter := refCounter } }))

def dropFn (s : Client World Store) (store : StoreWithFn Store) : Outcome World Store Err :=
  let toDrop := (s.cache.notDropped.get store.name).getD false
  let s := { s with cache := { s.cache with notDropped := s.cache.notDropped.delete store.name } }
  -- don't allow to call realDrop twice
  if toDrop then
    ([.drop store.store], .ok (.dropped, { s with world := p.drop s.world store.store }))
  else ([], .ok (.dropped, s))

def step (s : Client World Store) : Op → Outcome World Store Err
  | .openDB name => openDB p s name
  | .close i =>
    match s.stores[i]? with
    | some store => closeFn p s store
    | none => ([], .ok (.noStore, s))
  | .drop i =>
    match s.stores[i]? with
    | some store => dropFn p s store
    | none => ([], .ok (.noStore, s))

def wrapAll (world : World) : Client World Store := ⟨⟨.make, .make, .make⟩, world, []⟩

def wrap (world : World) : Client World Store := ⟨⟨.make, .nil, .make⟩, world, []⟩

structure Behaviour (Store Err : Type) where
  results : List (Result Store Err)
  calls : List (Call Store)
  panicked : Bool
  deriving DecidableEq

def behaviour : Client World Store → List Op → Behaviour Store Err
  | _, [] => ⟨[], [], false⟩
  | s, op :: rest =>
    match step p s op with
    | (calls, .error _) => ⟨[], calls, true⟩
    | (calls, .ok (result, t)) =>
      let later := behaviour t rest
      ⟨result :: later.results, calls ++ later.calls, later.panicked⟩

def Refused : World → List Op → Prop
  | _, [] => True
  | world, .openDB name :: rest =>
    match p.openDB world name with
    | (.error _, world) => Refused world rest
    | (.ok _, _) => False
  | world, _ :: rest => Refused world rest

end Step

namespace GoMap

variable {V : Type} {m : GoMap V} {name other : String} {value : V}

@[simp] theorem get_make (name : String) : (make : GoMap V).get name = none := rfl

@[simp] theorem get_nil (name : String) : (nil : GoMap V).get name = none := rfl

def Made (m : GoMap V) : Prop := ∃ entries, m = some entries

theorem made_make : (make : GoMap V).Made := ⟨_, rfl⟩

theorem Made.set_ok (made : m.Made) (name : String) (value : V) :
    ∃ m', m.set name value = .ok m' ∧ m'.Made ∧
      ∀ other, m'.get other = if other = name then some value else m.get other := by
  obtain ⟨entries, rfl⟩ := made
  refine ⟨_, rfl, ⟨_, rfl⟩, ?_⟩
  intro other
  exact Function.update_apply entries name (some value) other

theorem Made.delete (made : m.Made) (name : String) : (m.delete name).Made := by
  obtain ⟨entries, rfl⟩ := made
  exact ⟨_, rfl⟩

theorem get_delete (m : GoMap V) (name other : String) :
    (m.delete name).get other = if other = name then none else m.get other := by
  cases m with
  | none =>
    change none = ite _ none none
    rw [ite_self]
  | some entries => exact Function.update_apply entries name none other

end GoMap

section Steps

variable {p : Producer World Store Err} {s t : Client World Store}

structure CacheState.Made (c : CacheState Store) : Prop where
  opened : c.opened.Made
  refCounter : c.refCounter.Made
  notDropped : c.notDropped.Made

inductive Opens (p : Producer World Store Err) (s : Client World Store) (name : String) :
    Client World Store → Prop where
  | found (store : StoreWithFn Store) (t : Client World Store)
      (here : s.cache.opened.get name = some store)
      (run : openDB p s name = ([], .ok (.opened store, t)))
      (opened : t.cache.opened = s.cache.opened)
      (refs : ∀ other, t.cache.refs other = s.cache.refs other + if other = name then 1 else 0)
      (stores : t.stores = s.stores ++ [store]) : Opens p s name t
  | refused (err : Err) (t : Client World Store) (missing : s.cache.opened.get name = none)
      (answer : p.openDB s.world name = (.error err, t.world))
      (run : openDB p s name = ([.openDB name], .ok (.openError err, t)))
      (opened : t.cache.opened = s.cache.opened) (refs : ∀ other, t.cache.refs other = s.cache.refs other)
      (stores : t.stores = s.stores) : Opens p s name t
  | made (store : Store) (t : Client World Store) (missing : s.cache.opened.get name = none)
      (answer : p.openDB s.world name = (.ok store, t.world))
      (run : openDB p s name = ([.openDB name], .ok (.opened ⟨name, store⟩, t)))
      (opened : ∀ other, t.cache.opened.get other =
        if other = name then some ⟨name, store⟩ else s.cache.opened.get other)
      (refs : ∀ other, t.cache.refs other = s.cache.refs other + if other = name then 1 else 0)
      (stores : t.stores = s.stores ++ [⟨name, store⟩]) : Opens p s name t

variable {name : String} {refCounter : GoMap Nat}

theorem refs_set {c : CacheState Store} {counter : Nat}
    (get : ∀ other, refCounter.get other = if other =
      name then some counter else c.refCounter.get other)
    (other : String) :
    (refCounter.get other).getD 0 = if other = name then counter else c.refs other := by
  rw [get]
  split <;> rfl

theorem register_ok {calls : List (Call Store)}
    (count : s.cache.refCounter.set name (s.cache.refs name + 1) = .ok refCounter)
    (opened : GoMap (StoreWithFn Store)) (store : StoreWithFn Store) :
    (register calls s name (.ok opened) store : Outcome World Store Err) = (calls, .ok (.opened store,
      ⟨⟨opened, refCounter, s.cache.notDropped⟩, s.world, s.stores ++ [store]⟩)) := by
  simp only [register, bind, Except.bind, count]
  rfl

theorem openDB_opens (p : Producer World Store Err) (made : s.cache.Made) (name : String) :
    ∃ t, Opens p s name t ∧ t.cache.Made ∧ ∀ other, t.cache.notDropped.get other =
      if other = name then some true else s.cache.notDropped.get other := by
  obtain ⟨notDropped, set, dropMade, drops⟩ := made.notDropped.set_ok name true
  obtain ⟨refCounter, count, refMade, get⟩ :=
    made.refCounter.set_ok name (s.cache.refs name + 1)
  have refs : ∀ other, (refCounter.get other).getD 0 =
      s.cache.refs other + if other = name then 1 else 0 := by
    intro other
    rw [refs_set get]
    by_cases same : other = name
    · rw [if_pos same, if_pos same, same]
    · rw [if_neg same, if_neg same, Nat.add_zero]
  cases here : s.cache.opened.get name with
  | some store =>
    refine ⟨_, .found store ⟨⟨s.cache.opened, refCounter, notDropped⟩, s.world,
      s.stores ++ [store]⟩ here ?_ rfl refs rfl, ⟨made.opened, refMade, dropMade⟩, drops⟩
    simp only [openDB, set, here]
    apply register_ok
    exact count
  | none =>
    cases answer : p.openDB s.world name with
    | mk result world =>
      cases result with
      | error err =>
        refine ⟨_, .refused err ⟨⟨s.cache.opened, s.cache.refCounter, notDropped⟩, world,
          s.stores⟩ here answer ?_ rfl (fun _ => rfl) rfl,
          ⟨made.opened, made.refCounter, dropMade⟩, drops⟩
        simp only [openDB, set, here, answer]
      | ok store =>
        obtain ⟨opened, put, openMade, opens⟩ :=
          made.opened.set_ok name (⟨name, store⟩ : StoreWithFn Store)
        refine ⟨_, .made store ⟨⟨opened, refCounter, notDropped⟩, world,
          s.stores ++ [⟨name, store⟩]⟩ here answer ?_ opens refs rfl,
          ⟨openMade, refMade, dropMade⟩, drops⟩
        simp only [openDB, set, here, answer, put]
        apply register_ok
        exact count

inductive Closes (p : Producer World Store Err) (s : Client World Store)
    (store : StoreWithFn Store) : Client World Store → Prop where
  | surplus (none_ : s.cache.refs store.name = 0)
      (run : closeFn p s store = ([], .ok (.tooManyCloses, s))) : Closes p s store s
  | last (t : Client World Store) (one : s.cache.refs store.name = 1)
      (run : closeFn p s store =
        ([.close store.store], .ok (.closed (p.close s.world store.store).1, t)))
      (refs : ∀ other, t.cache.refs other = if other = store.name then 0 else s.cache.refs other) :
      Closes p s store t
  | counted (t : Client World Store) (more : 1 < s.cache.refs store.name)
      (run : closeFn p s store = ([], .ok (.closed none, t)))
      (refs : ∀ other, t.cache.refs other =
        if other = store.name then s.cache.refs other - 1 else s.cache.refs other) :
      Closes p s store t

theorem closeFn_closes (p : Producer World Store Err) (made : s.cache.Made)
    (store : StoreWithFn Store) : ∃ t, Closes p s store t ∧ t.cache.Made ∧
      t.cache.notDropped = s.cache.notDropped ∧ t.stores = s.stores := by
  match counter : s.cache.refs store.name with
  | 0 =>
    refine ⟨s, .surplus counter ?_, made, rfl, rfl⟩
    rw [closeFn, counter]
  | 1 =>
    refine ⟨_, .last ⟨⟨s.cache.opened.delete store.name, s.cache.refCounter.delete store.name,
      s.cache.notDropped⟩, (p.close s.world store.store).2, s.stores⟩ counter ?_ ?_,
      ⟨made.opened.delete _, made.refCounter.delete _, made.notDropped⟩, rfl, rfl⟩
    · rw [closeFn, counter]
    · intro other
      rw [CacheState.refs, GoMap.get_delete]
      split <;> rfl
  | rest + 2 =>
    obtain ⟨refCounter, set, refMade, get⟩ := made.refCounter.set_ok store.name (rest + 1)
    refine ⟨_, .counted ⟨⟨s.cache.opened, refCounter, s.cache.notDropped⟩, s.world, s.stores⟩
      (by omega) ?_ ?_, ⟨made.opened, refMade, made.notDropped⟩, rfl, rfl⟩
    · rw [closeFn, counter]
      dsimp only
      rw [set]
    · intro other
      rw [CacheState.refs, refs_set get]
      by_cases same : other = store.name
      · rw [if_pos same, if_pos same, same, counter]
        rfl
      · rw [if_neg same, if_neg same]

theorem dropFn_drops (p : Producer World Store Err) (made : s.cache.Made)
    (store : StoreWithFn Store) : ∃ t, t.cache.Made ∧ t.stores = s.stores ∧
      t.cache.refCounter = s.cache.refCounter ∧
      (∀ other, t.cache.notDropped.get other =
        if other = store.name then none else s.cache.notDropped.get other) ∧
      dropFn p s store = (if s.cache.notDropped.get store.name = some true then
        [.drop store.store] else [], .ok (.dropped, t)) := by
  have flag : (s.cache.notDropped.get store.name).getD false = true ↔
      s.cache.notDropped.get store.name = some true := by
    cases s.cache.notDropped.get store.name <;> simp
  by_cases set : s.cache.notDropped.get store.name = some true
  · refine ⟨⟨⟨s.cache.opened, s.cache.refCounter, s.cache.notDropped.delete store.name⟩,
      p.drop s.world store.store, s.stores⟩, ⟨made.opened, made.refCounter,
      made.notDropped.delete _⟩, rfl, rfl, GoMap.get_delete _ _, ?_⟩
    rw [dropFn, if_pos (flag.mpr set), if_pos set]
  · refine ⟨⟨⟨s.cache.opened, s.cache.refCounter, s.cache.notDropped.delete store.name⟩,
      s.world, s.stores⟩, ⟨made.opened, made.refCounter, made.notDropped.delete _⟩, rfl, rfl,
      GoMap.get_delete _ _, ?_⟩
    rw [dropFn, if_neg (mt flag.mp set), if_neg set]

theorem step_made (p : Producer World Store Err) (made : s.cache.Made) (op : Op) :
    ∃ calls result t, step p s op = (calls, .ok (result, t)) ∧ t.cache.Made := by
  cases op with
  | openDB name =>
    obtain ⟨t, opens, after, _⟩ := openDB_opens p made name
    cases opens with
    | found store _ here run => exact ⟨_, _, t, run, after⟩
    | refused err _ missing answer run => exact ⟨_, _, t, run, after⟩
    | made store _ missing answer run => exact ⟨_, _, t, run, after⟩
  | close i =>
    cases at_ : s.stores[i]? with
    | none => exact ⟨_, _, s, by rw [step, at_], made⟩
    | some store =>
      obtain ⟨t, closes, after, _⟩ := closeFn_closes p made store
      rw [step, at_]
      cases closes with
      | surplus none_ run => exact ⟨_, _, _, run, after⟩
      | last _ one run => exact ⟨_, _, t, run, after⟩
      | counted _ more run => exact ⟨_, _, t, run, after⟩
  | drop i =>
    cases at_ : s.stores[i]? with
    | none => exact ⟨_, _, s, by rw [step, at_], made⟩
    | some store =>
      obtain ⟨t, after, _, _, _, run⟩ := dropFn_drops p made store
      exact ⟨_, _, t, by rw [step, at_]; exact run, after⟩

theorem wrapAll_made (world : World) : (wrapAll world : Client World Store).cache.Made :=
  ⟨GoMap.made_make, GoMap.made_make, GoMap.made_make⟩

theorem not_panicked (p : Producer World Store Err) (made : s.cache.Made) (ops : List Op) :
    (behaviour p s ops).panicked = false := by
  induction ops generalizing s with
  | nil => rfl
  | cons op rest ih =>
    obtain ⟨calls, result, t, run, after⟩ := step_made p made op
    rw [behaviour, run]
    exact ih after

end Steps

section Alike

variable {p : Producer World Store Err} {s t : Client World Store}

inductive Unopened : Client World Store → Client World Store → Prop where
  | mk (refCounter : GoMap Nat) {notDropped : GoMap Bool} (made : notDropped.Made) (world : World) :
      Unopened ⟨⟨.make, .nil, notDropped⟩, world, []⟩ ⟨⟨.make, refCounter, notDropped⟩, world, []⟩

theorem unopened_new (world : World) : Unopened (wrap world : Client World Store) (wrapAll world) :=
  .mk .make GoMap.made_make world

theorem alike_of_unopened (unopened : Unopened s t) (ops : List Op) :
    (Refused p t.world ops → behaviour p s ops = behaviour p t ops) ∧
    (¬ Refused p t.world ops → (behaviour p s ops).panicked = true) := by
  induction ops generalizing s t with
  | nil => exact ⟨fun _ => rfl, fun opens => absurd trivial opens⟩
  | cons op rest ih =>
    obtain ⟨refCounter, made, world⟩ := unopened
    cases op with
    | openDB name =>
      obtain ⟨flagged, set, flags, _⟩ := made.set_ok name true
      cases answer : p.openDB world name with
      | mk result after =>
        cases result with
        | error err =>
          have next := ih (.mk refCounter flags after)
          simp only [Refused, answer, behaviour, step, openDB, set, GoMap.get_make]
          constructor
          · intro refused
            rw [next.1 refused]
          · exact next.2
        | ok store =>
          constructor
          · intro refused
            simp only [Refused, answer] at refused
          · intro _
            simp only [behaviour, step, openDB, set, GoMap.get_make, answer]
            rfl
    | close | drop =>
      exact (ih (.mk refCounter made world)).imp
        (fun alike refused => by simp [behaviour, step, alike refused])
        (fun lost opens => by simpa [behaviour, step] using lost opens)

end Alike

section Counting

inductive Seen where
  | opened (name : String) (ok : Bool)
  | closed (name : String) (accepted : Bool)
  | dropped (name : String) (real : Bool)
  deriving DecidableEq

def opens (name : String) (log : List Seen) : Nat := log.count (.opened name true)

def requests (name : String) (log : List Seen) : Nat :=
  log.count (.opened name true) + log.count (.opened name false)

def closes (name : String) (log : List Seen) : Nat := log.count (.closed name true)

def drops (name : String) (log : List Seen) : Nat := log.count (.dropped name true)

variable (p : Producer World Store Err)

def next (s : Client World Store) (op : Op) : Option (Client World Store) :=
  match step p s op with
  | (_, .ok (_, t)) => some t
  | (_, .error _) => none

def observe (s : Client World Store) (op : Op) : List Seen :=
  match op with
  | .openDB name =>
    match step p s op with
    | (_, .ok (.opened _, _)) => [.opened name true]
    | _ => [.opened name false]
  | .close i =>
    match s.stores[i]? with
    | none => []
    | some store =>
      match step p s op with
      | (_, .ok (.tooManyCloses, _)) => [.closed store.name false]
      | _ => [.closed store.name true]
  | .drop i =>
    match s.stores[i]? with
    | none => []
    | some store =>
      match step p s op with
      | ([], _) => [.dropped store.name false]
      | _ => [.dropped store.name true]

variable {p} {s t : Client World Store} {log : List Seen}

structure Ledger (s : Client World Store) (log : List Seen) : Prop where
  made : s.cache.Made
  refs : ∀ name, s.cache.refs name + closes name log = opens name log
  flags : ∀ name, drops name log + (if s.cache.notDropped.get name = some true then 1 else 0) ≤
    requests name log

theorem ledger_openDB (ledger : Ledger s log) {name : String}
    (move : next p s (.openDB name) = some t) :
    Ledger t (log ++ observe p s (.openDB name)) := by
  obtain ⟨u, spec, made, flags⟩ := openDB_opens p ledger.made name
  -- the call returns a store or not, and the references follow
  have told : ∃ ok, observe p s (.openDB name) = [.opened name ok] ∧ t = u ∧
      ∀ other, u.cache.refs other = s.cache.refs other + if ok = true ∧ other = name then 1 else 0 := by
    cases spec with
    | refused err _ missing answer run opened refs stores =>
      rw [next, step, run] at move
      exact ⟨false, by rw [observe, step, run], (Option.some.inj move).symm, by simpa using refs⟩
    | found _ _ _ run _ refs | made _ _ _ _ run _ refs =>
      rw [next, step, run] at move
      exact ⟨true, by rw [observe, step, run], (Option.some.inj move).symm, by simpa using refs⟩
  obtain ⟨ok, seen, rfl, refs⟩ := told
  rw [seen]
  constructor
  · exact made
  · intro other
    have before := ledger.refs other
    rw [refs]
    cases ok <;> by_cases same : name = other <;>
      simp [opens, closes, same, eq_comm] at before ⊢ <;> omega
  · intro other
    have before := ledger.flags other
    rw [flags]
    by_cases same : other = name
    · subst same
      rw [if_pos rfl]
      cases ok <;> simp [drops, requests] at before ⊢ <;> omega
    · simpa [drops, requests, same, Ne.symm same] using before

variable {i : Nat}

theorem ledger_close (ledger : Ledger s log) (move : next p s (.close i) = some t) :
    Ledger t (log ++ observe p s (.close i)) := by
  cases at_ : s.stores[i]? with
  | none =>
    rw [next, step, at_] at move
    cases move
    rw [observe, at_]
    simpa using ledger
  | some store =>
    obtain ⟨u, spec, made, flags, _⟩ := closeFn_closes p ledger.made store
    have told : ∃ accepted, observe p s (.close i) = [.closed store.name accepted] ∧ t = u ∧
        ∀ other, u.cache.refs other + (if accepted = true ∧ other = store.name then 1 else 0) =
          s.cache.refs other := by
      cases spec with
      | surplus none_ run =>
        rw [next, step, at_] at move
        dsimp only at move
        rw [run] at move
        refine ⟨false, ?_, (Option.some.inj move).symm, by simp⟩
        rw [observe, step, at_]
        dsimp only
        rw [run]
      | last _ one run refs =>
        rw [next, step, at_] at move
        dsimp only at move
        rw [run] at move
        refine ⟨true, ?_, (Option.some.inj move).symm, ?_⟩
        · rw [observe, step, at_]
          dsimp only
          rw [run]
        · grind
      | counted _ more run refs =>
        rw [next, step, at_] at move
        dsimp only at move
        rw [run] at move
        refine ⟨true, ?_, (Option.some.inj move).symm, ?_⟩
        · rw [observe, step, at_]
          dsimp only
          rw [run]
        · grind
    obtain ⟨accepted, seen, rfl, refs⟩ := told
    rw [seen]
    constructor
    · exact made
    · intro other
      have before := ledger.refs other
      rw [← refs] at before
      by_cases same : other = store.name
      · subst same
        cases accepted <;> simp [opens, closes] at before ⊢ <;> omega
      · simpa [opens, closes, same, Ne.symm same] using before
    · intro other
      rw [flags]
      simpa [drops, requests] using ledger.flags other

theorem ledger_drop (ledger : Ledger s log) (move : next p s (.drop i) = some t) :
    Ledger t (log ++ observe p s (.drop i)) := by
  cases at_ : s.stores[i]? with
  | none =>
    rw [next, step, at_] at move
    cases move
    rw [observe, at_]
    simpa using ledger
  | some store =>
    obtain ⟨u, made, _, refs, flags, run⟩ := dropFn_drops p ledger.made store
    rw [next, step, at_] at move
    dsimp only at move
    rw [run] at move
    cases move
    have seen : observe p s (.drop i) =
        [.dropped store.name (s.cache.notDropped.get store.name = some true)] := by
      rw [observe, step, at_]
      dsimp only
      rw [run]
      by_cases set : s.cache.notDropped.get store.name = some true <;> simp [set]
    rw [seen]
    constructor
    · exact made
    · intro other
      rw [CacheState.refs, refs]
      simpa [opens, closes, CacheState.refs] using ledger.refs other
    · intro other
      have before := ledger.flags other
      rw [flags]
      by_cases same : other = store.name
      · subst same
        by_cases set : s.cache.notDropped.get store.name = some true <;>
          simp [drops, requests, set] at before ⊢ <;> omega
      · simpa [drops, requests, same, Ne.symm same] using before

theorem ledger_step (ledger : Ledger s log) {op : Op} (move : next p s op = some t) :
    Ledger t (log ++ observe p s op) := by
  cases op with
  | openDB name => exact ledger_openDB ledger move
  | close i => exact ledger_close ledger move
  | drop i => exact ledger_drop ledger move

theorem ledger_new (world : World) : Ledger (wrapAll world : Client World Store) [] :=
  ⟨wrapAll_made world, fun _ => rfl, fun _ => le_rfl⟩

theorem wrap_stores {world : World} {ops : List Op}
    (run : Transition.Run (next p) (fun _ _ => True) (wrap world) ops s) : s.stores = [] := by
  have unopened : ∃ t, Unopened s t := by
    refine @Transition.Run.invariant _ _ _ _ (fun s => ∃ t, Unopened s t) ?_ _ _ _
      ⟨_, unopened_new world⟩ run
    rintro _ op after ⟨_, refCounter, made, world⟩ _ move
    cases op with
    | openDB name =>
      obtain ⟨flagged, set, flags, _⟩ := made.set_ok name true
      cases answer : p.openDB world name with
      | mk result later =>
        cases result with
        | error err =>
          simp only [next, step, openDB, set, GoMap.get_make, answer] at move
          cases move
          exact ⟨_, .mk refCounter flags later⟩
        | ok store =>
          simp only [next, step, openDB, set, GoMap.get_make, answer, register] at move
          cases move
    | close i =>
      cases move
      exact ⟨_, .mk refCounter made world⟩
    | drop i =>
      cases move
      exact ⟨_, .mk refCounter made world⟩
  obtain ⟨_, refCounter, made, world⟩ := unopened
  rfl

/-- The wrappers behave alike exactly on the sequences in which the producer opens nothing, and `Wrap`
never hands out a store. Through `WrapAll` a name is dropped at most once per open if no `OpenDB` of it is
refused. -/
theorem wrappers_alike (p : Producer World Store Err) (world : World) :
    (∀ ops, behaviour p (wrap world) ops = behaviour p (wrapAll world) ops ↔ Refused p world ops) ∧
    (∀ ops s, Transition.Run (next p) (fun _ _ => True) (wrap world) ops s → s.stores = []) ∧
    ∀ ops s, Transition.Run (next p) (fun _ _ => True) (wrapAll world) ops s →
      let log := Transition.emitted (next p) (observe p) (wrapAll world) ops
      (∀ name, closes name log ≤ opens name log ∧ drops name log ≤ requests name log ∧
        (.opened name false ∉ log → drops name log ≤ opens name log)) ∧
      ∀ i store, s.stores[i]? = some store →
        (opens store.name log = closes store.name log →
          step p s (.close i) = ([], .ok (.tooManyCloses, s))) ∧
        (opens store.name log = closes store.name log + 1 → ∃ t, step p s (.close i) =
          ([.close store.store], .ok (.closed (p.close s.world store.store).1, t))) ∧
        (closes store.name log + 1 < opens store.name log → ∃ t, step p s (.close i) =
          ([], .ok (.closed none, t))) := by
  refine ⟨fun ops => ?_, fun ops s run => wrap_stores run, ?_⟩
  · have alike := @alike_of_unopened _ _ _ p _ _ (unopened_new world) ops
    constructor
    · intro same
      by_contra opened
      have panicked := alike.2 opened
      rw [same, not_panicked p (wrapAll_made world)] at panicked
      cases panicked
    · exact alike.1
  · intro ops s run log
    have ledger := @Transition.Run.emits _ _ _ _ _ (observe p) Ledger
      (fun _ _ _ _ ledger _ move => ledger_step ledger move) _ _ _ _ (ledger_new world) run
    rw [List.nil_append] at ledger
    have bound := fun name => (Nat.le_add_right _ _).trans (ledger.flags name)
    refine ⟨fun name => ⟨?_, bound name, fun opened => ?_⟩, fun i store at_ => ?_⟩
    · exact ledger.refs name ▸ Nat.le_add_left _ _
    · refine (bound name).trans_eq ?_
      rw [requests, List.count_eq_zero_of_not_mem opened]
      rfl
    · -- the counter of the name is the number of its opens that are not closed
      have refs : s.cache.refs store.name + closes store.name log = opens store.name log :=
        ledger.refs store.name
      obtain ⟨u, spec, _⟩ := closeFn_closes p ledger.made store
      rw [step, at_]
      cases spec with
      | surplus none_ run => exact ⟨fun _ => run, fun _ => by omega, fun _ => by omega⟩
      | last _ one run => exact ⟨fun _ => by omega, fun _ => ⟨u, run⟩, fun _ => by omega⟩
      | counted _ more run => exact ⟨fun _ => by omega, fun _ => by omega, fun _ => ⟨u, run⟩⟩

section Sample

def numbering : Producer Nat Nat String where
  openDB world name := if name = "" then (.error "no name", world) else (.ok world, world + 1)
  close world _ := (none, world)
  drop world _ := world

def single : Producer Nat Nat String :=
  { numbering with openDB := fun world _ => if world = 0 then (.ok 0, 1) else (.error "gone", world) }

end Sample

theorem wrappers_alike_numbering : ∃ s : Client Nat Nat,
    behaviour numbering (wrap 0) [.openDB "", .close 0] =
      behaviour numbering (wrapAll 0) [.openDB "", .close 0] ∧
    Transition.Run (next numbering) (fun _ _ => True) (wrapAll 0)
      [.openDB "a", .openDB "a", .close 0] s ∧
    (∃ t, step numbering s (.close 1) = ([.close 0], .ok (.closed none, t))) := by
  have run : Transition.Run (next numbering) (fun _ _ => True) (wrapAll 0)
      [.openDB "a", .openDB "a", .close 0] _ := .of_foldlM (fun _ _ _ => trivial) rfl
  obtain ⟨alike, _, counted⟩ := wrappers_alike numbering 0
  exact ⟨_, (alike _).mpr trivial, run, ((counted _ _ run).2 1 ⟨"a", 0⟩ rfl).2.1 rfl⟩

/-- The first name that is opened through `Wrap`; and through `WrapAll` a refused `OpenDB` lets a store be
dropped again. -/
theorem wrap_panics : behaviour numbering (wrap 0) [.openDB "a"] = ⟨[], [.openDB "a"], true⟩ ∧
    behaviour numbering (wrapAll 0) [.openDB "a"] = ⟨[.opened ⟨"a", 0⟩], [.openDB "a"], false⟩ ∧
    (behaviour single (wrapAll 0) [.openDB "a", .close 0, .drop 0, .openDB "a", .drop 0]).calls =
      [.openDB "a", .close 0, .drop 0, .openDB "a", .drop 0] :=
  ⟨rfl, rfl, rfl⟩

end Counting

end Lachesis.Kvdb.Cachedproducer
