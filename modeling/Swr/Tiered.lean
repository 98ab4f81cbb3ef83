import Swr.Stores.Memory
import Swr.Stores.Metrics
import Swr.Stores.Moka
import Swr.Stores.Redis

/-! # TieredStore -/

namespace Swr

namespace TieredStore

variable {ι : Type} [SerdeJson ι]

/-- The mode of the first tier. -/
def storageMode (tiers : List (DynStore ι)) : StorageMode :=
  match tiers.head? with
  | some tier => tier.storageMode
  | none => .serialized

/-- The body of the task that fills the tiers before the one that had the entry. -/
def backfill (lower : List (DynStore ι)) (ns key : String) (entry : StoredEntry ι) : Code ι Unit :=
  match lower with
  | [] => return ()
  | tier :: rest => do
      match entry.convertForMode tier.storageMode with
      | .ok converted =>
          let _ ← tier.set ns key converted
          backfill rest ns key entry
      | .error _ => backfill rest ns key entry

/-- The loop of `get`; `lower` holds the tiers that were already asked. -/
def getFrom (lower tiers : List (DynStore ι)) (ns key : String) :
    Code ι (Except CacheError (Option (StoredEntry ι))) :=
  match tiers with
  | [] => return .ok none
  | tier :: rest => do
      match ← tier.get ns key with
      | .error e => return .error e
      | .ok none => getFrom (lower ++ [tier]) rest ns key
      | .ok (some entry) =>
          if !lower.isEmpty then
            Ask.spawn (.backfill (lower.map DynStore.arc) ns key entry)
          return .ok (some entry)

def get (tiers : List (DynStore ι)) (ns key : String) :
    Code ι (Except CacheError (Option (StoredEntry ι))) :=
  getFrom [] tiers ns key

/-- The first error of the joined futures, in the order of the tiers. -/
def firstError : List (Except CacheError Unit) → Except CacheError Unit
  | [] => .ok ()
  | .error e :: _ => .error e
  | .ok () :: results => firstError results

/-- The future of one tier in `set`. -/
def setTier (ns key : String) (entry : StoredEntry ι) (tier : DynStore ι) :
    Code ι (Except CacheError Unit) :=
  match entry.convertForMode tier.storageMode with
  | .error e => return .error e
  | .ok converted => tier.set ns key converted

def set (tiers : List (DynStore ι)) (ns key : String) (entry : StoredEntry ι) :
    Code ι (Except CacheError Unit) := do
  let results ← Async.Prog.joinAll (tiers.map (setTier ns key entry))
  return firstError results

def remove (tiers : List (DynStore ι)) (ns : String) (keys : List String) :
    Code ι (Except CacheError Unit) := do
  let results ← Async.Prog.joinAll (tiers.map (fun tier => tier.remove ns keys))
  return firstError results

def dyn (tiers : List (DynStore ι)) : DynStore ι where
  arc := .tiered (tiers.map DynStore.arc)
  name := "tiered"
  storageMode := storageMode tiers
  get := get tiers
  set := set tiers
  remove := remove tiers

end TieredStore

/-! ## Dispatch -/

/-- A store whose code is elsewhere: each call is one step. -/
def ExtStore.dyn {ι : Type} [SerdeJson ι] (id : Nat) (name : String) (mode : StorageMode) :
    DynStore ι where
  arc := .ext id name mode
  name := name
  storageMode := mode
  get ns key := Ask.extGet id ns key
  set ns key entry := Ask.extSet id ns key entry
  remove ns keys := Ask.extRemove id ns keys

namespace Store

variable (ι : Type) [SerdeJson ι]

mutual
/-- The methods an `Arc<dyn Store>` dispatches to. -/
def dyn : Store → DynStore ι
  | .hashMap id evictOnSet => HashMapStore.dyn id evictOnSet
  | .moka id => MokaStore.dyn id
  | .redis server disableExpiration => RedisStore.dyn server disableExpiration
  | .tiered tiers => TieredStore.dyn (dynList tiers)
  | .metrics inner sink => MetricsStore.dyn (dyn inner) sink
  | .ext id name mode => ExtStore.dyn id name mode

def dynList : List Store → List (DynStore ι)
  | [] => []
  | store :: stores => dyn store :: dynList stores
end

theorem dynList_eq_map (stores : List Store) : dynList ι stores = stores.map (dyn ι) := by
  induction stores with
  | nil => rfl
  | cons store stores ih => simp only [dynList, List.map_cons, ih]

mutual
/-- Dispatching does not lose the `Arc`. -/
@[simp] theorem dyn_arc : ∀ store : Store, (dyn ι store).arc = store
  | .hashMap .. | .moka _ | .redis .. | .ext .. => by
      simp [dyn, HashMapStore.dyn, MokaStore.dyn, RedisStore.dyn, ExtStore.dyn]
  | .tiered tiers => by simp [dyn, TieredStore.dyn, dynList_arc tiers]
  | .metrics inner sink => by simp [dyn, MetricsStore.dyn, dyn_arc inner]

theorem dynList_arc : ∀ stores : List Store, (dynList ι stores).map DynStore.arc = stores
  | [] => rfl
  | store :: stores => by simp [dynList, dyn_arc store, dynList_arc stores]
end

end Store

end Swr
