import Mathlib.Data.List.AList
import Mathlib.Logic.Function.Basic
import Swr.Store

/-! # What a command does

The world holds everything the tasks share. `perform` answers a command where the
answer is a function of the world and of what the call finds around it; `exec` is
the general relation, in which a Redis command can fail, a random number is any
number and a map is iterated in any order.
-/

namespace Swr

variable {ι : Type} [SerdeJson ι]

/-- The contents of an in-memory store. -/
abbrev HashMap (ι : Type) [SerdeJson ι] := AList (fun _ : String => StoredEntry ι)

namespace HashMap

def eraseAll (m : HashMap ι) (keys : List String) : HashMap ι := keys.foldl (fun m k => m.erase k) m

/-- `retain(|_, v| v.stale_until() > now)`. -/
def retain (m : HashMap ι) (now : Int) : HashMap ι :=
  ⟨m.entries.filter (fun row => row.2.staleUntil > now), m.nodupKeys.sublist List.filter_sublist⟩

/-- The keys with their expiry, in the order of the list. -/
def expiries (m : HashMap ι) : List (String × Int) :=
  m.entries.map (fun row => (row.1, row.2.staleUntil))

/-- The write-lock section of `maybe_evict`; `order` is the order in which the purged
    map is iterated. -/
def evict (m : HashMap ι) (now : Int) (maxItems : Nat) (order : List (String × Int)) : HashMap ι :=
  let kept := m.retain now
  if kept.entries.length > maxItems then
    let sorted := order.mergeSort (fun a b => a.2 ≤ b.2)
    kept.eraseAll ((sorted.take (kept.entries.length - maxItems)).map Prod.fst)
  else kept

theorem lookup_insert (m : HashMap ι) (key : String) (entry : StoredEntry ι) (k : String) :
    AList.lookup k (AList.insert key entry m) = if k = key then some entry else m.lookup k := by
  by_cases here : k = key
  · subst here; simp
  · simp [here, AList.lookup_insert_ne here]

theorem lookup_erase (m : HashMap ι) (key k : String) :
    AList.lookup k (AList.erase key m) = if k = key then none else m.lookup k := by
  by_cases here : k = key
  · subst here; simp
  · simp [here, AList.lookup_erase_ne here]

theorem lookup_eraseAll (m : HashMap ι) (keys : List String) (k : String) :
    (m.eraseAll keys).lookup k = if k ∈ keys then none else m.lookup k := by
  induction keys generalizing m with
  | nil => rfl
  | cons key keys ih =>
      simp only [eraseAll, List.foldl_cons] at ih ⊢
      rw [ih]
      by_cases here : k = key
      · subst here; simp
      · simp [here, AList.lookup_erase_ne here]

/-- Eviction and purging only take entries away. -/
theorem lookup_evict {m : HashMap ι} {now : Int} {maxItems : Nat} {order : List (String × Int)}
    {cacheKey : String} {stored : StoredEntry ι}
    (found : (m.evict now maxItems order).lookup cacheKey = some stored) :
    m.lookup cacheKey = some stored := by
  have purged : ∀ {cacheKey stored}, (m.retain now).lookup cacheKey = some stored →
      m.lookup cacheKey = some stored := by
    intro cacheKey stored found
    have member := AList.mem_lookup_iff.mp found
    exact AList.mem_lookup_iff.mpr (List.mem_filter.mp member).1
  simp only [evict] at found
  split at found
  · rw [lookup_eraseAll] at found
    split at found
    · cases found
    · exact purged found
  · exact purged found

end HashMap

/-- A key on a Redis server. -/
structure RedisItem where
  json : String
  /-- When the server drops the key, for keys written with a TTL. -/
  expireAt : Option Int
  deriving DecidableEq

/-- The server still has the key at time `t`. -/
def RedisItem.live (t : Int) (item : RedisItem) : Bool :=
  match item.expireAt with
  | none => true
  | some expireAt => t < expireAt

/-- What a store with code elsewhere holds, by namespace and key. -/
abbrev Contents (ι : Type) [SerdeJson ι] := String → String → Option (StoredEntry ι)

namespace Contents

def put (m : Contents ι) (ns key : String) (entry : StoredEntry ι) : Contents ι :=
  Function.update m ns (Function.update (m ns) key (some entry))

def remove (m : Contents ι) (ns : String) (keys : List String) : Contents ι :=
  Function.update m ns (fun key => if key ∈ keys then none else m ns key)

theorem put_apply {m : Contents ι} {ns key : String} {entry : StoredEntry ι} {ns' key' : String} :
    m.put ns key entry ns' key' = if ns' = ns ∧ key' = key then some entry else m ns' key' := by
  by_cases ns' = ns <;> by_cases key' = key <;> simp_all [put]

theorem remove_apply {m : Contents ι} {ns : String} {keys : List String} {ns' key' : String} :
    m.remove ns keys ns' key' = if ns' = ns ∧ key' ∈ keys then none else m ns' key' := by
  by_cases ns' = ns <;> simp_all [remove]

end Contents

structure World (ι : Type) [SerdeJson ι] where
  maps : MapId → HashMap ι
  redis : Nat → String → Option RedisItem
  ext : Nat → Contents ι
  /-- The `revalidating` maps. Every marker is a new allocation, so it is known by the
      thread that put it. -/
  markers : Nat → String → Option Nat
  metrics : List (Nat × CacheMetric)

namespace World

def empty : World ι := ⟨fun _ => ∅, fun _ _ => none, fun _ _ _ => none, fun _ _ => none, []⟩

def setMap (w : World ι) (map : MapId) (m : HashMap ι) : World ι :=
  { w with maps := Function.update w.maps map m }

/-- Put a key of a Redis server, or delete it. -/
def setRedis (w : World ι) (server : Nat) (key : String) (item : Option RedisItem) : World ι :=
  { w with redis := Function.update w.redis server (Function.update (w.redis server) key item) }

def delRedis (w : World ι) (server : Nat) (keys : List String) : World ι :=
  { w with
    redis := Function.update w.redis server
      (fun key => if key ∈ keys then none else w.redis server key) }

/-- What the server answers a `GET` at time `t`. -/
def readRedis (w : World ι) (t : Int) (server : Nat) (key : String) : Option String :=
  ((w.redis server key).filter (RedisItem.live t)).map RedisItem.json

def setExt (w : World ι) (store : Nat) (m : Contents ι) : World ι :=
  { w with ext := Function.update w.ext store m }

def setMarker (w : World ι) (revalidating : Nat) (key : String) (marker : Option Nat) : World ι :=
  { w with
    markers := Function.update w.markers revalidating
      (Function.update (w.markers revalidating) key marker) }

theorem setMap_maps (w : World ι) (map map' : MapId) (m : HashMap ι) :
    (w.setMap map' m).maps map = if map = map' then m else w.maps map := by
  by_cases same : map = map' <;> simp [setMap, same]

theorem setRedis_redis (w : World ι) (server server' : Nat) (key key' : String)
    (item : Option RedisItem) : (w.setRedis server' key' item).redis server key =
      if server' = server ∧ key' = key then item else w.redis server key := by
  by_cases here : server = server'
  · subst here
    by_cases same : key = key'
    · subst same; simp [setRedis]
    · simp [setRedis, Function.update_of_ne same, Ne.symm same]
  · simp [setRedis, Function.update_of_ne here, Ne.symm here]

theorem delRedis_redis (w : World ι) (server server' : Nat) (key : String) (keys : List String) :
    (w.delRedis server' keys).redis server key =
      if server' = server ∧ key ∈ keys then none else w.redis server key := by
  by_cases here : server = server'
  · subst here
    simp [delRedis]
  · simp [delRedis, Function.update_of_ne here, Ne.symm here]

@[simp] theorem setMarker_markers (w : World ι) (revalidating : Nat) (key : String)
    (marker : Option Nat) (revalidating' : Nat) (key' : String) :
    (w.setMarker revalidating key marker).markers revalidating' key' =
      if revalidating' = revalidating ∧ key' = key then marker
      else w.markers revalidating' key' := by
  by_cases revalidating' = revalidating <;> by_cases key' = key <;> simp_all [setMarker]

/-- Marking a key and taking the marker away leaves nothing behind. -/
theorem unmark_marked {w : World ι} {revalidating : Nat} {key : String} (marker : Option Nat)
    (unmarked : w.markers revalidating key = none) :
    (w.setMarker revalidating key marker).setMarker revalidating key none = w := by
  simp only [setMarker, Function.update_self, Function.update_idem]
  rw [← unmarked, Function.update_eq_self, Function.update_eq_self]

end World

/-- How a store with code elsewhere behaves: at a given time and with given contents,
    what a call may answer and which contents it may leave. -/
structure ExtSemantics (ι : Type) [SerdeJson ι] where
  get : Int → Contents ι → String → String → Except CacheError (Option (StoredEntry ι)) →
    Contents ι → Prop
  set : Int → Contents ι → String → String → StoredEntry ι → Except CacheError Unit →
    Contents ι → Prop
  remove : Int → Contents ι → String → List String → Except CacheError Unit → Contents ι → Prop

namespace ExtSemantics

/-- Any answer and any contents at any time. -/
def any : ExtSemantics ι where
  get _ _ _ _ _ _ := True
  set _ _ _ _ _ _ _ := True
  remove _ _ _ _ _ _ := True

/-- A map with atomic calls that never fail. -/
def atomicMap : ExtSemantics ι where
  get _ m ns key r m' := r = .ok (m ns key) ∧ m' = m
  set _ m ns key entry r m' := r = .ok () ∧ m' = m.put ns key entry
  remove _ m ns keys r m' := r = .ok () ∧ m' = m.remove ns keys

/-- A map whose calls may fail, leaving the contents as they are. -/
def faulty : ExtSemantics ι where
  get _ m ns key r m' := (r = .ok (m ns key) ∨ ∃ e, r = .error e) ∧ m' = m
  set _ m ns key entry r m' := r = .ok () ∧ m' = m.put ns key entry ∨ (∃ e, r = .error e) ∧ m' = m
  remove _ m ns keys r m' := r = .ok () ∧ m' = m.remove ns keys ∨ (∃ e, r = .error e) ∧ m' = m

end ExtSemantics

/-- What commands find around them when their answers are settled beforehand: what the
    origin returns, the next random number and the failures of stores with code
    elsewhere. -/
structure Surroundings (ι : Type) [SerdeJson ι] where
  /-- The clock at the `n`-th command. -/
  time : Nat → Int
  origin : (i : ι) → Option (Val i)
  rand : ℚ
  getFault : Nat → Option CacheError
  setFault : Nat → Option CacheError
  removeFault : Nat → Option CacheError

/-- Nothing fails and the clock stands still. -/
def Surroundings.calm (time : Int) (origin : (i : ι) → Option (Val i)) : Surroundings ι :=
  ⟨fun _ => time, origin, 0, fun _ => none, fun _ => none, fun _ => none⟩

/-- The answer to a command of thread `i` at time `t`, where no Redis command fails, a
    store with code elsewhere is a map that may fail, and a map is iterated in the
    order of its rows. -/
def perform (around : Surroundings ι) (i : Nat) (t : Int) (w : World ι) :
    (c : Cmd ι) → c.Ans × World ι
  | .now => (t, w)
  | .sleep _ => ((), w)
  | .rand => (around.rand, w)
  | .spawn _ => ((), w)
  | .mapRead map key => (((w.maps map).lookup key, t), w)
  | .mapGet map key => ((w.maps map).lookup key, w)
  | .mapInsert map key entry => ((), w.setMap map ((w.maps map).insert key entry))
  | .mapExpire map key => ((), w.setMap map ((w.maps map).erase key))
  | .mapRemove map keys => ((), w.setMap map ((w.maps map).eraseAll keys))
  | .mapEvict map maxItems =>
      ((), w.setMap map ((w.maps map).evict t maxItems ((w.maps map).retain t).expiries))
  | .redisGet server key => (.ok (w.readRedis t server key), w)
  | .redisSet server key json => (.ok (), w.setRedis server key (some ⟨json, none⟩))
  | .redisSetEx server key json ttl =>
      (.ok (), w.setRedis server key (some ⟨json, some (t + ttl * 1000)⟩))
  | .redisDel server keys => (.ok (), w.delRedis server keys)
  | .extGet store ns key =>
      match around.getFault store with
      | some e => (.error e, w)
      | none => (.ok (w.ext store ns key), w)
  | .extSet store ns key entry =>
      match around.setFault store with
      | some e => (.error e, w)
      | none => (.ok (), w.setExt store ((w.ext store).put ns key entry))
  | .extRemove store ns keys =>
      match around.removeFault store with
      | some e => (.error e, w)
      | none => (.ok (), w.setExt store ((w.ext store).remove ns keys))
  | .containsKey revalidating key => ((w.markers revalidating key).isSome, w)
  | .insertMarker revalidating key => ((), w.setMarker revalidating key (some i))
  | .removeMarker revalidating key => ((), w.setMarker revalidating key none)
  | .loadStart .. => ((), w)
  | .loadEnd cache _ _ => (around.origin cache.ty, w)
  | .emit sink metric => ((), { w with metrics := w.metrics ++ [(sink, metric)] })

/-- At time `t` thread `i` is answered `r` to the command `c`. -/
def exec (X : ExtSemantics ι) (i : Nat) (t : Int) (w : World ι) :
    (c : Cmd ι) → c.Ans → World ι → Prop
  | .now, r, w' => r = t ∧ w' = w
  | .sleep _, _, w' => w' = w
  | .rand, r, w' => (∃ q : ℚ, r = q ∧ 0 ≤ q ∧ q ≤ 1) ∧ w' = w
  | .spawn _, _, w' => w' = w
  | .mapRead map key, r, w' => r = ((w.maps map).lookup key, t) ∧ w' = w
  | .mapGet map key, r, w' => r = (w.maps map).lookup key ∧ w' = w
  | .mapInsert map key entry, _, w' => w' = w.setMap map ((w.maps map).insert key entry)
  | .mapExpire map key, _, w' => w' = w.setMap map ((w.maps map).erase key)
  | .mapRemove map keys, _, w' => w' = w.setMap map ((w.maps map).eraseAll keys)
  | .mapEvict map maxItems, _, w' => ∃ order, order.Perm ((w.maps map).retain t).expiries ∧
      w' = w.setMap map ((w.maps map).evict t maxItems order)
  | .redisGet server key, r, w' =>
      (r = .ok (w.readRedis t server key) ∨ ∃ e, r = .error e) ∧ w' = w
  | .redisSet server key json, r, w' =>
      (r = .ok () ∧ w' = w.setRedis server key (some ⟨json, none⟩)) ∨
      ∃ e, r = .error e ∧ (w' = w ∨ w' = w.setRedis server key (some ⟨json, none⟩))
  | .redisSetEx server key json ttl, r, w' =>
      (r = .ok () ∧ w' = w.setRedis server key (some ⟨json, some (t + ttl * 1000)⟩)) ∨
      ∃ e, r = .error e ∧ (w' = w ∨ w' = w.setRedis server key (some ⟨json, some (t + ttl * 1000)⟩))
  | .redisDel server keys, r, w' =>
      (r = .ok () ∧ w' = w.delRedis server keys) ∨
      ∃ e, r = .error e ∧ (w' = w ∨ w' = w.delRedis server keys)
  | .extGet store ns key, r, w' =>
      ∃ m, X.get t (w.ext store) ns key r m ∧ w' = w.setExt store m
  | .extSet store ns key entry, r, w' =>
      ∃ m, X.set t (w.ext store) ns key entry r m ∧ w' = w.setExt store m
  | .extRemove store ns keys, r, w' =>
      ∃ m, X.remove t (w.ext store) ns keys r m ∧ w' = w.setExt store m
  | .containsKey revalidating key, r, w' => r = (w.markers revalidating key).isSome ∧ w' = w
  | .insertMarker revalidating key, _, w' => w' = w.setMarker revalidating key (some i)
  | .removeMarker revalidating key, _, w' => w' = w.setMarker revalidating key none
  | .loadStart .., _, w' => w' = w
  | .loadEnd .., _, w' => w' = w
  | .emit sink metric, _, w' => w' = { w with metrics := w.metrics ++ [(sink, metric)] }

@[simp] theorem World.setExt_self (w : World ι) (store : Nat) :
    w.setExt store (w.ext store) = w := by
  simp [World.setExt]

/-- A settled answer is one of those the relation allows. -/
theorem perform_exec_faulty (around : Surroundings ι) (i : Nat) (t : Int) (w : World ι)
    (c : Cmd ι) (sane : 0 ≤ around.rand ∧ around.rand ≤ 1) :
    exec .faulty i t w c (perform around i t w c).1 (perform around i t w c).2 := by
  cases c
  case rand => exact ⟨⟨_, rfl, sane⟩, rfl⟩
  case mapEvict => exact ⟨_, List.Perm.refl _, rfl⟩
  case redisGet => exact ⟨.inl rfl, rfl⟩
  case redisSet | redisSetEx | redisDel => exact .inl ⟨rfl, rfl⟩
  case extGet store ns key =>
    cases fault : around.getFault store with
    | none =>
        exact ⟨w.ext store, by simp [perform, fault, ExtSemantics.faulty], by simp [perform, fault]⟩
    | some e =>
        exact ⟨w.ext store, by simp [perform, fault, ExtSemantics.faulty], by simp [perform, fault]⟩
  case extSet store ns key entry =>
    cases fault : around.setFault store with
    | none => exact ⟨_, .inl ⟨by simp [perform, fault], rfl⟩, by simp [perform, fault]⟩
    | some e => exact ⟨_, .inr ⟨⟨e, by simp [perform, fault]⟩, rfl⟩, by simp [perform, fault]⟩
  case extRemove store ns keys =>
    cases fault : around.removeFault store with
    | none => exact ⟨_, .inl ⟨by simp [perform, fault], rfl⟩, by simp [perform, fault]⟩
    | some e => exact ⟨_, .inr ⟨⟨e, by simp [perform, fault]⟩, rfl⟩, by simp [perform, fault]⟩
  all_goals first
    | exact rfl
    | exact ⟨rfl, rfl⟩

theorem perform_exec_atomicMap (time : Int) (origin : (i : ι) → Option (Val i)) (i : Nat) (t : Int)
    (w : World ι) (c : Cmd ι) :
    exec .atomicMap i t w c (perform (.calm time origin) i t w c).1
      (perform (.calm time origin) i t w c).2 := by
  cases c
  case rand => exact ⟨⟨0, rfl, by simp⟩, rfl⟩
  case mapEvict => exact ⟨_, List.Perm.refl _, rfl⟩
  case redisGet => exact ⟨.inl rfl, rfl⟩
  case redisSet | redisSetEx | redisDel => exact .inl ⟨rfl, rfl⟩
  case extGet store ns key => exact ⟨w.ext store, ⟨rfl, rfl⟩, by simp [perform, Surroundings.calm]⟩
  case extSet | extRemove => exact ⟨_, ⟨rfl, rfl⟩, rfl⟩
  all_goals first
    | exact rfl
    | exact ⟨rfl, rfl⟩

end Swr
