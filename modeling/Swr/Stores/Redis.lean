import Swr.Store

/-! # RedisStore

The client and the server are not part of the repository; a command is one step on
the server and may fail with a message of the client.
-/

namespace Swr.RedisStore

variable {ι : Type} [SerdeJson ι]

/-- `calculate_ttl_seconds`, with the clock reading as an argument. -/
def calculateTtlSeconds (staleUntil now : Int) : Nat :=
  if staleUntil ≤ now then 1
  else (max ((staleUntil - now).tdiv 1000) 1).toNat

def get (server : Nat) (disableExpiration : Bool) (ns key : String) :
    Code ι (Except CacheError (Option (StoredEntry ι))) := do
  let cacheKey := buildCacheKey ns key
  let result ← Ask.redisGet server cacheKey
  match result with
  | .error e => return .error (.operation "redis" key ("GET failed: " ++ e))
  | .ok none => return .ok none
  | .ok (some json) =>
      match SerdeJson.metadataFromStr ι json with
      | .error e => return .error (.operation "redis" key ("Metadata parse failed: " ++ e))
      | .ok metadata =>
          let now ← Ask.now
          if now ≥ metadata.staleUntil ∧ !disableExpiration then
            -- The deletion is a task of its own and names the key only.
            Ask.spawn (.redisDel server cacheKey)
            return .ok none
          else return .ok (some (.serialized json metadata.freshUntil metadata.staleUntil))

/-- The body of the task that `get` spawns; the answer is thrown away. -/
def backgroundDel (server : Nat) (cacheKey : String) : Code ι Unit := do
  let _ ← Ask.redisDel server [cacheKey]

def set (server : Nat) (disableExpiration : Bool) (ns key : String) (entry : StoredEntry ι) :
    Code ι (Except CacheError Unit) := do
  let cacheKey := buildCacheKey ns key
  match entry with
  | .typed .. =>
      return .error (.serialization ("RedisStore received Typed entry but requires Serialized. " ++
        "This indicates a bug in TieredStore conversion logic."))
  | .serialized json _ staleUntil =>
      if disableExpiration then
        let done ← Ask.redisSet server cacheKey json
        match done with
        | .error e => return .error (.operation "redis" key ("SET failed: " ++ e))
        | .ok () => return .ok ()
      else
        let now ← Ask.now
        let done ← Ask.redisSetEx server cacheKey json (calculateTtlSeconds staleUntil now)
        match done with
        | .error e => return .error (.operation "redis" key ("SETEX failed: " ++ e))
        | .ok () => return .ok ()

def remove (server : Nat) (ns : String) (keys : List String) : Code ι (Except CacheError Unit) :=
  if keys.isEmpty then return .ok ()
  else do
    let cacheKeys := keys.map (buildCacheKey ns)
    let done ← Ask.redisDel server cacheKeys
    match done with
    | .error e =>
        return .error (.operation "redis" (",".intercalate cacheKeys) ("DEL failed: " ++ e))
    | .ok () => return .ok ()

def dyn (server : Nat) (disableExpiration : Bool) : DynStore ι where
  arc := .redis server disableExpiration
  name := "redis"
  storageMode := .serialized
  get := get server disableExpiration
  set := set server disableExpiration
  remove := remove server

end Swr.RedisStore
