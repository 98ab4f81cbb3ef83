import Swr.Tiered

/-! # SwrCache

The functions of `swr.rs`. `load_from_origin` is the pair of commands `loadStart`
and `loadEnd`, the answer to the second being what the origin returned.
-/

namespace Swr

/-- Result of an internal get operation. -/
structure GetResult (V : Type) where
  value : Option V
  revalidate : Bool
  isExpired : Bool
  deriving DecidableEq

namespace SwrCache

variable {ι : Type} [SerdeJson ι]

/-- `SwrCache::new`, with the index of `V` and a marker map of its own. -/
def new (ty : ι) (store : Store) (freshMs staleMs : Int) (revalidating : Nat) : SwrCache ι :=
  ⟨ty, store, freshMs, staleMs, revalidating⟩

/-- The store the cache holds, as a trait object. -/
def dyn (self : SwrCache ι) : DynStore ι := self.store.dyn ι

/-- Build the entry the way the store's mode asks for. -/
def storedEntry (ty : ι) (mode : StorageMode) (value : Val ty) (freshUntil staleUntil : Int) :
    Except CacheError (StoredEntry ι) :=
  match mode with
  | .typed => .ok (.fromTypedWithSerializer ty value freshUntil staleUntil)
  | .serialized =>
      match StoredEntry.serialize ty ⟨value, freshUntil, staleUntil⟩ with
      | .ok json => .ok (.fromSerialized json freshUntil staleUntil)
      | .error e => .error e

def set (self : SwrCache ι) (ns key : String) (value : Val self.ty) (opts : Option SetOptions) :
    Code ι (Except CacheError Unit) := do
  let now ← Ask.now
  let freshMs := (opts.map SetOptions.freshMs).getD self.freshMs
  let staleMs := (opts.map SetOptions.staleMs).getD self.staleMs
  match storedEntry self.ty self.dyn.storageMode value (addMs now freshMs) (addMs now staleMs) with
  | .error e => return .error e
  | .ok stored => self.dyn.set ns key stored

def remove (self : SwrCache ι) (ns key : String) : Code ι (Except CacheError Unit) :=
  self.dyn.remove ns [key]

/-- Cache a value in the background. -/
def cacheValue (self : SwrCache ι) (ns key : String) (value : Val self.ty) : Code ι Unit := do
  let now ← Ask.now
  Ask.spawn (.cacheValue self ns key value (addMs now self.freshMs) (addMs now self.staleMs))

/-- The body of the task that `cache_value` spawns. -/
def cacheValueTask (self : SwrCache ι) (ns key : String) (value : Val self.ty)
    (freshUntil staleUntil : Int) : Code ι Unit :=
  match storedEntry self.ty self.dyn.storageMode value freshUntil staleUntil with
  | .error _ => return ()
  | .ok stored => do
      let _ ← self.dyn.set ns key stored

/-- Spawn a background revalidation task. -/
def spawnRevalidation (self : SwrCache ι) (ns key : String) : Code ι Unit :=
  Ask.spawn (.revalidate self ns key)

/-- Take the marker away again. -/
def unmark (self : SwrCache ι) (ns key : String) : Code ι Unit :=
  Ask.removeMarker self.revalidating (buildCacheKey ns key)

/-- The body of the task that `spawn_revalidation` spawns. -/
def revalidateTask (self : SwrCache ι) (ns key : String) : Code ι Unit := do
  let revalidateKey := buildCacheKey ns key
  let running ← Ask.containsKey self.revalidating revalidateKey
  if running then return ()
  else
    Ask.insertMarker self.revalidating revalidateKey
    Ask.loadStart self ns key
    let value ← Ask.loadEnd self ns key
    match value with
    | none => unmark self ns key
    | some v =>
        let now ← Ask.now
        match storedEntry self.ty self.dyn.storageMode v (addMs now self.freshMs)
            (addMs now self.staleMs) with
        | .error _ => unmark self ns key
        | .ok stored =>
            let _ ← self.dyn.set ns key stored
            unmark self ns key

/-- Mark, load, unmark: the part of `deduplicated_load_from_origin` behind the check. -/
def markedLoad (self : SwrCache ι) (ns key : String) :
    Code ι (Except String (Option (Val self.ty))) := do
  Ask.insertMarker self.revalidating (buildCacheKey ns key)
  Ask.loadStart self ns key
  let result ← Ask.loadEnd self ns key
  unmark self ns key
  return .ok result

variable [DecidableEq ι]

/-- Internal get that also indicates if revalidation is needed. -/
def getInternal (self : SwrCache ι) (ns key : String) :
    Code ι (Except CacheError (GetResult (Val self.ty))) := do
  match ← self.dyn.get ns key with
  | .error e => return .error e
  | .ok none => return .ok ⟨none, false, false⟩
  | .ok (some stored) =>
      match stored.intoTyped self.ty with
      | .error e => return .error e
      | .ok entry =>
          let now ← Ask.now
          -- An expired entry is returned as well, marked as such.
          if now ≥ entry.staleUntil then return .ok ⟨some entry.value, true, true⟩
          else if now ≥ entry.freshUntil then return .ok ⟨some entry.value, true, false⟩
          else return .ok ⟨some entry.value, false, false⟩

def get (self : SwrCache ι) (ns key : String) : Code ι (Except CacheError (Option (Val self.ty))) :=
  do
  match ← self.getInternal ns key with
  | .error e => return .error e
  | .ok result => return .ok result.value

/-- Deduplicate concurrent loads from origin. A caller that finds a marker sleeps and
    asks the store again; if that yields nothing it goes on to a load of its own. -/
def deduplicatedLoadFromOrigin (self : SwrCache ι) (ns key : String) :
    Code ι (Except String (Option (Val self.ty))) := do
  let loading ← Ask.containsKey self.revalidating (buildCacheKey ns key)
  if loading then
    Ask.sleep 100
    match ← self.dyn.get ns key with
    | .ok (some stored) =>
        match stored.intoTyped self.ty with
        | .ok entry => return .ok (some entry.value)
        | .error _ => self.markedLoad ns key
    | .ok none | .error _ => self.markedLoad ns key
  else self.markedLoad ns key

/-- Load, cache what was loaded in the background, and map the error. -/
def loadOrFail (self : SwrCache ι) (ns key : String) :
    Code ι (Except CacheError (Option (Val self.ty))) := do
  match ← self.deduplicatedLoadFromOrigin ns key with
  | .ok (some v) =>
      self.cacheValue ns key v
      return .ok (some v)
  | .ok none => return .ok none
  | .error e => return .error (.operation self.dyn.name key e)

/-- Get the cached value or load from origin. -/
def swr (self : SwrCache ι) (ns key : String) : Code ι (Except CacheError (Option (Val self.ty))) :=
  do
  match ← self.getInternal ns key with
  | .ok ⟨some value, true, false⟩ =>
      self.spawnRevalidation ns key
      return .ok (some value)
  | .ok ⟨some value, true, true⟩ =>
      match ← self.deduplicatedLoadFromOrigin ns key with
      | .ok (some freshValue) =>
          self.cacheValue ns key freshValue
          return .ok (some freshValue)
      | .ok none | .error _ => return .ok (some value)
  | .ok ⟨some value, false, false⟩ => return .ok (some value)
  -- `get_internal` never answers like this; the source handles it all the same.
  | .ok ⟨some _, false, true⟩ => self.loadOrFail ns key
  | .ok ⟨none, _, _⟩ | .error _ => self.loadOrFail ns key

end SwrCache

end Swr
