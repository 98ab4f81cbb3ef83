import Swr.Store

/-! # MokaStore

The `moka` cache itself is not part of the repository. Without capacity, time or
idle eviction it is a concurrent map whose `get`, `insert` and `invalidate` are
single steps. What it evicts by itself can be added as removals from outside; the
results that do without them say so.
-/

namespace Swr.MokaStore

variable {ι : Type} [SerdeJson ι]

def get (id : Nat) (ns key : String) : Code ι (Except CacheError (Option (StoredEntry ι))) := do
  let cacheKey := buildCacheKey ns key
  let found ← Ask.mapGet (.moka id) cacheKey
  match found with
  | some entry =>
      let now ← Ask.now
      if entry.isExpired now then
        Ask.mapExpire (.moka id) cacheKey
        return .ok none
      else return .ok (some entry)
  | none => return .ok none

def set (id : Nat) (ns key : String) (entry : StoredEntry ι) : Code ι (Except CacheError Unit) := do
  Ask.mapInsert (.moka id) (buildCacheKey ns key) entry
  return .ok ()

/-- The keys are invalidated one after the other. -/
def remove (id : Nat) (ns : String) : List String → Code ι (Except CacheError Unit)
  | [] => return .ok ()
  | key :: keys => do
      Ask.mapRemove (.moka id) [buildCacheKey ns key]
      remove id ns keys

def dyn (id : Nat) : DynStore ι where
  arc := .moka id
  name := "moka"
  storageMode := .typed
  get := get id
  set := set id
  remove := remove id

end Swr.MokaStore
