import Swr.Store

/-! # HashMapStore -/

namespace Swr.HashMapStore

variable {ι : Type} [SerdeJson ι]

/-- Take the write lock and evict. -/
def evictNow (id : Nat) (config : EvictOnSetConfig) : Code ι Unit :=
  Ask.mapEvict (.hashMap id) config.maxItems

/-- Run eviction if configured and the random check passes. -/
def maybeEvict (id : Nat) (evictOnSet : Option EvictOnSetConfig) : Code ι Unit :=
  match evictOnSet with
  | none => return ()
  | some config =>
      if config.frequency ≤ 0 then return ()
      else if config.frequency ≥ 1 then evictNow id config
      else do
        let r ← Ask.rand
        if r < config.frequency then evictNow id config else return ()

def get (id : Nat) (ns key : String) : Code ι (Except CacheError (Option (StoredEntry ι))) := do
  let cacheKey := buildCacheKey ns key
  let (found, now) ← Ask.mapRead (.hashMap id) cacheKey
  match found with
  | none => return .ok none
  | some stored =>
      if stored.isExpired now then
        -- The read lock is given back before the write lock is taken.
        Ask.mapExpire (.hashMap id) cacheKey
        return .ok none
      else return .ok (some stored)

def set (id : Nat) (evictOnSet : Option EvictOnSetConfig) (ns key : String)
    (entry : StoredEntry ι) : Code ι (Except CacheError Unit) := do
  Ask.mapInsert (.hashMap id) (buildCacheKey ns key) entry
  maybeEvict id evictOnSet
  return .ok ()

def remove (id : Nat) (ns : String) (keys : List String) : Code ι (Except CacheError Unit) := do
  Ask.mapRemove (.hashMap id) (keys.map (buildCacheKey ns))
  return .ok ()

def dyn (id : Nat) (evictOnSet : Option EvictOnSetConfig) : DynStore ι where
  arc := .hashMap id evictOnSet
  name := "hashmap"
  storageMode := .typed
  get := get id
  set := set id evictOnSet
  remove := remove id

end Swr.HashMapStore
