import Mathlib.Data.Rat.Defs
import Swr.Async.Program
import Swr.Entry

/-! # Stores, tasks and commands

An `Arc<dyn Store>` is described by the term it was built with: which implementation
it is, on which map, server or inner stores. Ids stand for the shared objects behind
an `Arc`, so two terms with one id share their contents. `ext` is a store whose code
is not in the repository; all the trait says about it is that it has a name and a
mode and answers calls.

`Task` lists the calls on caches and stores and the closures handed to
`tokio::spawn`, with what they captured. `Cmd` lists the places where a task meets
the rest of the world; each is one atomic step.
-/

namespace Swr

/-- Configuration for eviction on set operations. The frequency is only compared,
    so the rational value of the `f64` is enough. -/
structure EvictOnSetConfig where
  frequency : ℚ
  maxItems : Nat
  deriving DecidableEq

/-- The map behind an in-memory store. -/
inductive MapId where
  | hashMap (id : Nat)
  | moka (id : Nat)
  deriving DecidableEq

inductive Store where
  | hashMap (id : Nat) (evictOnSet : Option EvictOnSetConfig)
  | moka (id : Nat)
  | redis (server : Nat) (disableExpiration : Bool)
  | tiered (tiers : List Store)
  | metrics (inner : Store) (sink : Nat)
  | ext (id : Nat) (name : String) (mode : StorageMode)

/-- Status of a cache entry on read. -/
inductive CacheEntryStatus where
  | fresh
  | stale
  deriving DecidableEq

/-- Metrics emitted by the `MetricsStore` wrapper, without the latencies. -/
inductive CacheMetric where
  | read (key : String) (hit : Bool) (status : Option CacheEntryStatus) (tier ns : String)
  | write (key tier ns : String)
  | remove (keyCount : Nat) (firstKey : Option String) (tier ns : String)
  deriving DecidableEq

/-- `SwrCache<V>` with the index of `V`. `revalidating` is the shared marker map, so
    clones of one cache are one and the same value here. -/
structure SwrCache (ι : Type) where
  ty : ι
  store : Store
  freshMs : Int
  staleMs : Int
  revalidating : Nat

/-- Options for setting cache entries. -/
structure SetOptions where
  freshMs : Int
  staleMs : Int
  deriving DecidableEq

inductive Task (ι : Type) [SerdeJson ι] where
  | get (cache : SwrCache ι) (ns key : String)
  | set (cache : SwrCache ι) (ns key : String) (value : Val cache.ty) (opts : Option SetOptions)
  | remove (cache : SwrCache ι) (ns key : String)
  | swr (cache : SwrCache ι) (ns key : String)
  | storeGet (store : Store) (ns key : String)
  | storeSet (store : Store) (ns key : String) (entry : StoredEntry ι)
  | storeRemove (store : Store) (ns : String) (keys : List String)
  /-- The task `cache_value` spawns. -/
  | cacheValue (cache : SwrCache ι) (ns key : String) (value : Val cache.ty)
      (freshUntil staleUntil : Int)
  /-- The task `spawn_revalidation` spawns. -/
  | revalidate (cache : SwrCache ι) (ns key : String)
  /-- The task `TieredStore::get` spawns after a hit. -/
  | backfill (lower : List Store) (ns key : String) (entry : StoredEntry ι)
  /-- The task `RedisStore::get` spawns for an expired key. -/
  | redisDel (server : Nat) (cacheKey : String)

namespace Task

variable {ι : Type} [SerdeJson ι]

/-- Calls come from outside, the other tasks are spawned by the library. -/
def isCall : Task ι → Bool
  | .get .. | .set .. | .remove .. | .swr .. | .storeGet .. | .storeSet .. | .storeRemove .. => true
  | .cacheValue .. | .revalidate .. | .backfill .. | .redisDel .. => false

end Task

inductive Cmd (ι : Type) [SerdeJson ι] where
  | now
  | sleep (ms : Nat)
  | rand
  | spawn (task : Task ι)
  /-- A read-lock section of `HashMapStore`: the look-up and the clock reading. -/
  | mapRead (map : MapId) (key : String)
  | mapGet (map : MapId) (key : String)
  | mapInsert (map : MapId) (key : String) (entry : StoredEntry ι)
  /-- The deletion with which a `get` follows up on an expired entry. -/
  | mapExpire (map : MapId) (key : String)
  | mapRemove (map : MapId) (keys : List String)
  /-- The write-lock section of `maybe_evict`. -/
  | mapEvict (map : MapId) (maxItems : Nat)
  | redisGet (server : Nat) (key : String)
  | redisSet (server : Nat) (key json : String)
  | redisSetEx (server : Nat) (key json : String) (ttl : Nat)
  | redisDel (server : Nat) (keys : List String)
  | extGet (store : Nat) (ns key : String)
  | extSet (store : Nat) (ns key : String) (entry : StoredEntry ι)
  | extRemove (store : Nat) (ns : String) (keys : List String)
  /-- A read-lock section of `revalidating`. -/
  | containsKey (revalidating : Nat) (key : String)
  /-- A write-lock section of `revalidating` that puts a new marker. -/
  | insertMarker (revalidating : Nat) (key : String)
  | removeMarker (revalidating : Nat) (key : String)
  | loadStart (cache : SwrCache ι) (ns key : String)
  | loadEnd (cache : SwrCache ι) (ns key : String)
  | emit (sink : Nat) (metric : CacheMetric)

/-- The type of answer a command gets. Redis errors are the client's own messages. -/
@[reducible] def Cmd.Ans {ι : Type} [SerdeJson ι] : Cmd ι → Type
  | .now => Int
  | .rand => ℚ
  | .mapRead .. => Option (StoredEntry ι) × Int
  | .mapGet .. => Option (StoredEntry ι)
  | .redisGet .. => Except String (Option String)
  | .redisSet .. | .redisSetEx .. | .redisDel .. => Except String Unit
  | .extGet .. => Except CacheError (Option (StoredEntry ι))
  | .extSet .. | .extRemove .. => Except CacheError Unit
  | .containsKey .. => Bool
  | .loadEnd cache _ _ => Option (Val cache.ty)
  | .sleep _ | .spawn _ | .mapInsert .. | .mapExpire .. | .mapRemove .. | .mapEvict ..
  | .insertMarker .. | .removeMarker .. | .loadStart .. | .emit .. => Unit

abbrev sig (ι : Type) [SerdeJson ι] : Async.Sig := ⟨Cmd ι, Cmd.Ans⟩

/-- Asynchronous code over the commands of the library. -/
abbrev Code (ι : Type) [SerdeJson ι] (α : Type) := Async.Prog (sig ι) α

/-- Issue one command. -/
def issue {ι : Type} [SerdeJson ι] (c : Cmd ι) : Code ι c.Ans := .op c .ret

/-! ## Commands as code

One definition for each command, with its answer at the type the code uses it at. -/

namespace Ask

variable {ι : Type} [SerdeJson ι]

def now : Code ι Int := issue .now

def sleep (ms : Nat) : Code ι Unit := issue (.sleep ms)

def rand : Code ι ℚ := issue .rand

def spawn (task : Task ι) : Code ι Unit := issue (.spawn task)

def mapRead (map : MapId) (key : String) : Code ι (Option (StoredEntry ι) × Int) :=
  issue (.mapRead map key)

def mapGet (map : MapId) (key : String) : Code ι (Option (StoredEntry ι)) := issue (.mapGet map key)

def mapInsert (map : MapId) (key : String) (entry : StoredEntry ι) : Code ι Unit :=
  issue (.mapInsert map key entry)

def mapExpire (map : MapId) (key : String) : Code ι Unit := issue (.mapExpire map key)

def mapRemove (map : MapId) (keys : List String) : Code ι Unit := issue (.mapRemove map keys)

def mapEvict (map : MapId) (maxItems : Nat) : Code ι Unit := issue (.mapEvict map maxItems)

def redisGet (server : Nat) (key : String) : Code ι (Except String (Option String)) :=
  issue (.redisGet server key)

def redisSet (server : Nat) (key json : String) : Code ι (Except String Unit) :=
  issue (.redisSet server key json)

def redisSetEx (server : Nat) (key json : String) (ttl : Nat) : Code ι (Except String Unit) :=
  issue (.redisSetEx server key json ttl)

def redisDel (server : Nat) (keys : List String) : Code ι (Except String Unit) :=
  issue (.redisDel server keys)

def extGet (store : Nat) (ns key : String) : Code ι (Except CacheError (Option (StoredEntry ι))) :=
  issue (.extGet store ns key)

def extSet (store : Nat) (ns key : String) (entry : StoredEntry ι) :
    Code ι (Except CacheError Unit) :=
  issue (.extSet store ns key entry)

def extRemove (store : Nat) (ns : String) (keys : List String) : Code ι (Except CacheError Unit) :=
  issue (.extRemove store ns keys)

def containsKey (revalidating : Nat) (key : String) : Code ι Bool :=
  issue (.containsKey revalidating key)

def insertMarker (revalidating : Nat) (key : String) : Code ι Unit :=
  issue (.insertMarker revalidating key)

def removeMarker (revalidating : Nat) (key : String) : Code ι Unit :=
  issue (.removeMarker revalidating key)

def loadStart (cache : SwrCache ι) (ns key : String) : Code ι Unit :=
  issue (.loadStart cache ns key)

def loadEnd (cache : SwrCache ι) (ns key : String) : Code ι (Option (Val cache.ty)) :=
  issue (.loadEnd cache ns key)

def emit (sink : Nat) (metric : CacheMetric) : Code ι Unit := issue (.emit sink metric)

variable {α : Type}

@[simp] theorem now_bind (next : Int → Code ι α) :
    (now >>= next) = .op .now next := rfl

@[simp] theorem sleep_bind (ms : Nat) (next : Unit → Code ι α) :
    (sleep ms >>= next) = .op (.sleep ms) next := rfl

@[simp] theorem rand_bind (next : ℚ → Code ι α) :
    (rand >>= next) = .op .rand next := rfl

@[simp] theorem spawn_bind (task : Task ι) (next : Unit → Code ι α) :
    (spawn task >>= next) = .op (.spawn task) next := rfl

@[simp] theorem mapRead_bind (map : MapId) (key : String)
    (next : Option (StoredEntry ι) × Int → Code ι α) :
    (mapRead map key >>= next) = .op (.mapRead map key) next := rfl

@[simp] theorem mapGet_bind (map : MapId) (key : String)
    (next : Option (StoredEntry ι) → Code ι α) :
    (mapGet map key >>= next) = .op (.mapGet map key) next := rfl

@[simp] theorem mapInsert_bind (map : MapId) (key : String) (entry : StoredEntry ι)
    (next : Unit → Code ι α) :
    (mapInsert map key entry >>= next) = .op (.mapInsert map key entry) next := rfl

@[simp] theorem mapExpire_bind (map : MapId) (key : String) (next : Unit → Code ι α) :
    (mapExpire map key >>= next) = .op (.mapExpire map key) next := rfl

@[simp] theorem mapRemove_bind (map : MapId) (keys : List String) (next : Unit → Code ι α) :
    (mapRemove map keys >>= next) = .op (.mapRemove map keys) next := rfl

@[simp] theorem mapEvict_bind (map : MapId) (maxItems : Nat) (next : Unit → Code ι α) :
    (mapEvict map maxItems >>= next) = .op (.mapEvict map maxItems) next := rfl

@[simp] theorem redisGet_bind (server : Nat) (key : String)
    (next : Except String (Option String) → Code ι α) :
    (redisGet server key >>= next) = .op (.redisGet server key) next := rfl

@[simp] theorem redisSet_bind (server : Nat) (key json : String)
    (next : Except String Unit → Code ι α) :
    (redisSet server key json >>= next) = .op (.redisSet server key json) next := rfl

@[simp] theorem redisSetEx_bind (server : Nat) (key json : String) (ttl : Nat)
    (next : Except String Unit → Code ι α) :
    (redisSetEx server key json ttl >>= next) = .op (.redisSetEx server key json ttl) next := rfl

@[simp] theorem redisDel_bind (server : Nat) (keys : List String)
    (next : Except String Unit → Code ι α) :
    (redisDel server keys >>= next) = .op (.redisDel server keys) next := rfl

@[simp] theorem extGet_bind (store : Nat) (ns key : String)
    (next : Except CacheError (Option (StoredEntry ι)) → Code ι α) :
    (extGet store ns key >>= next) = .op (.extGet store ns key) next := rfl

@[simp] theorem extSet_bind (store : Nat) (ns key : String) (entry : StoredEntry ι)
    (next : Except CacheError Unit → Code ι α) :
    (extSet store ns key entry >>= next) = .op (.extSet store ns key entry) next := rfl

@[simp] theorem extRemove_bind (store : Nat) (ns : String) (keys : List String)
    (next : Except CacheError Unit → Code ι α) :
    (extRemove store ns keys >>= next) = .op (.extRemove store ns keys) next := rfl

@[simp] theorem containsKey_bind (revalidating : Nat) (key : String) (next : Bool → Code ι α) :
    (containsKey revalidating key >>= next) = .op (.containsKey revalidating key) next := rfl

@[simp] theorem insertMarker_bind (revalidating : Nat) (key : String) (next : Unit → Code ι α) :
    (insertMarker revalidating key >>= next) = .op (.insertMarker revalidating key) next := rfl

@[simp] theorem removeMarker_bind (revalidating : Nat) (key : String) (next : Unit → Code ι α) :
    (removeMarker revalidating key >>= next) = .op (.removeMarker revalidating key) next := rfl

@[simp] theorem loadStart_bind (cache : SwrCache ι) (ns key : String) (next : Unit → Code ι α) :
    (loadStart cache ns key >>= next) = .op (.loadStart cache ns key) next := rfl

@[simp] theorem loadEnd_bind (cache : SwrCache ι) (ns key : String)
    (next : Option (Val cache.ty) → Code ι α) :
    (loadEnd cache ns key >>= next) = .op (.loadEnd cache ns key) next := rfl

@[simp] theorem emit_bind (sink : Nat) (metric : CacheMetric) (next : Unit → Code ι α) :
    (emit sink metric >>= next) = .op (.emit sink metric) next := rfl

end Ask

/-- What `dyn Store` offers, together with the `Arc` it is called through. -/
structure DynStore (ι : Type) [SerdeJson ι] where
  arc : Store
  name : String
  storageMode : StorageMode
  get : String → String → Code ι (Except CacheError (Option (StoredEntry ι)))
  set : String → String → StoredEntry ι → Code ι (Except CacheError Unit)
  remove : String → List String → Code ι (Except CacheError Unit)

end Swr
