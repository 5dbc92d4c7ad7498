import Lachesis.Storage

/-!
`itemsfetcher.Fetcher`: which items were announced by whom, and which of them are being fetched. The
loop handles one message at a time. `announces` drops entries on its own when it is over its limits;
the callback of the cache then drops the item from `fetching` as well.
-/

namespace Lachesis.Gossip.Itemsfetcher

open Simplewlru

structure Config where
  forgetTimeout : Int
  arriveTimeout : Int
  gatherSlack : Int
  hashLimit : Nat

/-- `fetchItems` stands for the peer's request callback. -/
structure AnnounceData (PeerID Requester : Type) where
  time : Int
  peer : PeerID
  fetchItems : Requester
  deriving DecidableEq

structure FetchingItem (PeerID Requester : Type) where
  announce : AnnounceData PeerID Requester
  fetchingTime : Int

structure Fetcher (ID PeerID Requester : Type) where
  announces : Cache ID (List (AnnounceData PeerID Requester))
  fetching : AList fun _ : ID => FetchingItem PeerID Requester
  tasks : List (Requester × List ID)

variable {ID PeerID Requester : Type}

def new (cfg : Config) : Fetcher ID PeerID Requester where
  announces := Cache.new cfg.hashLimit cfg.hashLimit
  fetching := ∅
  tasks := []

def evicted {K V : Type} (maxWeight maxSize : Nat) : List (Entry K V) → List (Entry K V)
  | [] => []
  | oldest :: rest =>
    if maxWeight < ((oldest :: rest).map Entry.weight).sum ∨
        maxSize < (oldest :: rest).length then
      oldest :: evicted maxWeight maxSize rest
    else []

section Loop

variable [DecidableEq ID]

def add (f : Fetcher ID PeerID Requester) (id : ID) (anns : List (AnnounceData PeerID Requester))
    (weight : Nat) : Fetcher ID PeerID Requester :=
  let entries := f.announces.evictList.filter (fun ent => ent.key ≠ id) ++ [⟨id, anns, weight⟩]
  let dropped := evicted f.announces.maxWeight f.announces.maxSize entries
  { f with announces := f.announces.add id anns weight
           fetching := dropped.foldl (fun fetching ent => fetching.erase ent.key) f.fetching }

def getAnnounces (f : Fetcher ID PeerID Requester) (id : ID) :
    List (AnnounceData PeerID Requester) × Fetcher ID PeerID Requester :=
  let (anns, announces) := f.announces.get id
  (anns.getD [], { f with announces := announces })

def forgetHash (f : Fetcher ID PeerID Requester) (id : ID) : Fetcher ID PeerID Requester :=
  if id ∈ f.announces.keys then
    { f with announces := f.announces.remove id, fetching := f.fetching.erase id }
  else f

def announce (data : AnnounceData PeerID Requester) (noFetching : Bool) (now : Int) :
    Fetcher ID PeerID Requester × List ID → ID → Fetcher ID PeerID Requester × List ID
  | (f, toFetch), id =>
    -- other peers may already have announced it, so it's an array
    let (anns, f) := getAnnounces f id
    let anns := anns ++ [data]
    let f := add f id (anns ++ [data]) anns.length
    if noFetching then (f, toFetch)
    -- if it wasn't announced before, then schedule for fetching this time
    else if id ∈ f.fetching then (f, toFetch)
    else ({ f with fetching := f.fetching.insert id ⟨data, now⟩ }, toFetch ++ [id])

/-- `onlyInterested` and `suspend` are what the callbacks answer at this call. -/
def processNotification (onlyInterested : List ID → List ID) (suspend : Bool) (now : Int)
    (f : Fetcher ID PeerID Requester) (data : AnnounceData PeerID Requester) (ids : List ID) :
    Fetcher ID PeerID Requester :=
  let ids := onlyInterested ids
  if ids.length = 0 then f
  else
    let (f, toFetch) := ids.foldl (announce data suspend now) (f, [])
    if toFetch.length ≠ 0 then { f with tasks := f.tasks ++ [(data.fetchItems, toFetch)] } else f

variable [DecidableEq PeerID]

abbrev Requests (ID PeerID Requester : Type) := AList fun _ : PeerID => Requester × List ID

def recheck (cfg : Config) (now : Int) (clock : ID → Int) (pick : ID → Nat) :
    Fetcher ID PeerID Requester × Requests ID PeerID Requester → ID →
      Fetcher ID PeerID Requester × Requests ID PeerID Requester
  | (f, request), id =>
    let (announces, f) := getAnnounces f id
    match announces with
    | [] => (f, request)
    | oldest :: _ =>
      if cfg.forgetTimeout < clock id - oldest.time then (forgetHash f id, request)
      else
        -- the time of an item that is not being fetched is the zero time
        let overdue := match f.fetching.lookup id with
          | none => true
          | some item => cfg.arriveTimeout - cfg.gatherSlack < clock id - item.fetchingTime
        if overdue then
          let announce := announces.getD (pick id % announces.length) oldest
          let asked := ((request.lookup announce.peer).map Prod.snd).getD []
          ({ f with fetching := f.fetching.insert id ⟨announce, now⟩ },
            request.insert announce.peer (announce.fetchItems, asked ++ [id]))
        else (f, request)

def tick (cfg : Config) (onlyInterested : List ID → List ID) (now : Int) (clock : ID → Int)
    (pick : ID → Nat) (f : Fetcher ID PeerID Requester) : Fetcher ID PeerID Requester :=
  let all := f.announces.keys
  let notArrived := onlyInterested all
  let (f, request) := notArrived.foldl (recheck cfg now clock pick) (f, ∅)
  -- forget arrived items
  let f := (all.filter fun id => id ∉ notArrived).foldl forgetHash f
  { f with tasks := f.tasks ++ request.entries.map Sigma.snd }

inductive Action (ID PeerID Requester : Type) where
  | notification (onlyInterested : List ID → List ID) (suspend : Bool) (now : Int)
      (data : AnnounceData PeerID Requester) (ids : List ID)
  | receivedItems (ids : List ID)
  | fetchTimer (onlyInterested : List ID → List ID) (now : Int) (clock : ID → Int)
      (pick : ID → Nat)

def step (cfg : Config) (f : Fetcher ID PeerID Requester) :
    Action ID PeerID Requester → Fetcher ID PeerID Requester
  | .notification onlyInterested suspend now data ids =>
    processNotification onlyInterested suspend now f data ids
  | .receivedItems ids => ids.foldl forgetHash f
  | .fetchTimer onlyInterested now clock pick => tick cfg onlyInterested now clock pick f

end Loop

end Lachesis.Gossip.Itemsfetcher
