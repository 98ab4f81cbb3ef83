import Swr.Async.Bystanders
import Swr.Markers
import Swr.Outcomes
import Swr.SwrCode
import Swr.TierSearch

/-! # Separate calls

Calls on any caches and stores, in any interleaving, some of which are no concern of the
others: they touch other composite keys, or other places. What these calls are answered
is what they would be answered without the others, although they share maps, servers and
marker maps with them.
-/

namespace Swr

open Async

/-- Room for one composite key, in a store or among the markers. -/
inductive Spot where
  | held (home : Home) (cacheKey : String)
  | marker (revalidating : Nat) (cacheKey : String)

variable {ι : Type} [SerdeJson ι]

namespace Task

/-- Where a task, or a task that it starts, can leave or find anything. -/
def spots : Task ι → List Spot
  | .get cache ns key | .set cache ns key .. | .remove cache ns key | .swr cache ns key
  | .cacheValue cache ns key .. | .revalidate cache ns key =>
      .marker cache.revalidating (buildCacheKey ns key) ::
        cache.store.homes.map fun home => .held home (buildCacheKey ns key)
  | .storeGet store ns key | .storeSet store ns key _ =>
      store.homes.map fun home => .held home (buildCacheKey ns key)
  | .storeRemove store ns keys =>
      keys.flatMap fun key => store.homes.map fun home => .held home (buildCacheKey ns key)
  | .backfill lower ns key _ => (Store.homesOf lower).map fun home =>
      .held home (buildCacheKey ns key)
  | .redisDel server cacheKey => [.held (.server server) cacheKey]

/-- The maps that a task, or a task that it starts, may evict from. -/
def evicts : Task ι → List Home
  | .get cache _ _ | .set cache .. | .swr cache _ _ | .cacheValue cache .. |
      .revalidate cache _ _ =>
      cache.store.evicting
  | .storeGet store _ _ | .storeSet store .. => store.evicting
  | .backfill lower _ _ _ => Store.evictingOf lower
  | .remove .. | .storeRemove .. | .redisDel .. => []

/-- All that the task touches is on one side. A map it evicts from is there as a whole. -/
structure Sided (side : Spot → Bool) (b : Bool) (task : Task ι) : Prop where
  spots : ∀ spot ∈ task.spots, side spot = b
  evicts : ∀ home ∈ task.evicts, ∀ cacheKey, side (.held home cacheKey) = b

end Task

/-- All that the command touches, or the task it starts, is on one side. -/
def Cmd.On (side : Spot → Bool) (b : Bool) : Cmd ι → Prop
  | .now | .sleep _ | .rand | .loadStart .. | .loadEnd .. | .emit .. => True
  | .spawn task => task.Sided side b
  | .mapRead map key | .mapGet map key | .mapInsert map key _ | .mapExpire map key =>
      side (.held (.map map) key) = b
  | .mapRemove map keys => ∀ key ∈ keys, side (.held (.map map) key) = b
  | .mapEvict map _ => ∀ key, side (.held (.map map) key) = b
  | .redisGet server key | .redisSet server key _ | .redisSetEx server key _ _ =>
      side (.held (.server server) key) = b
  | .redisDel server keys => ∀ key ∈ keys, side (.held (.server server) key) = b
  | .extGet store ns key | .extSet store ns key _ =>
      side (.held (.ext store) (buildCacheKey ns key)) = b
  | .extRemove store ns keys => ∀ key ∈ keys, side (.held (.ext store) (buildCacheKey ns key)) = b
  | .containsKey revalidating key | .insertMarker revalidating key |
      .removeMarker revalidating key =>
      side (.marker revalidating key) = b

/-! ## The methods stay on their side -/

/-- The methods of a store with these places. -/
structure DynStore.Stays (side : Spot → Bool) (b : Bool) (homes evicting : List Home)
    (store : DynStore ι) : Prop where
  get : ∀ {ns key}, (∀ home ∈ homes, side (.held home (buildCacheKey ns key)) = b) →
    (∀ home ∈ evicting, ∀ cacheKey, side (.held home cacheKey) = b) → (store.get ns key).Only
    (Cmd.On side b)
  set : ∀ {ns key} (entry), (∀ home ∈ homes, side (.held home (buildCacheKey ns key)) = b) →
    (∀ home ∈ evicting, ∀ cacheKey, side (.held home cacheKey) = b) → (store.set ns key entry).Only
    (Cmd.On side b)
  remove :
    ∀ {ns keys}, (∀ key ∈ keys, ∀ home ∈ homes, side (.held home (buildCacheKey ns key)) = b) →
    (store.remove ns keys).Only (Cmd.On side b)

section Stays

variable {side : Spot → Bool} {b : Bool}

/-- What holds of all keys holds of all composite keys. -/
theorem on_all {home : Home} {homes : List Home} {ns : String} {keys : List String}
    (inside : home ∈ homes)
    (each : ∀ key ∈ keys, ∀ home ∈ homes, side (.held home (buildCacheKey ns key)) = b) :
    ∀ cacheKey ∈ keys.map (buildCacheKey ns), side (.held home cacheKey) = b := by
  intro cacheKey member
  obtain ⟨key, here, rfl⟩ := List.mem_map.mp member
  exact each key here home inside

theorem HashMapStore.stays (id : Nat) (evictOnSet : Option EvictOnSetConfig) :
    (dyn id evictOnSet : DynStore ι).Stays side b (Store.homes (.hashMap id evictOnSet))
    (Store.evicting (.hashMap id evictOnSet)) where
  get held _ := get_only (held _ (List.mem_singleton_self _)) (held _ (List.mem_singleton_self _))
  set entry held evicted := by
    refine set_only (held _ (List.mem_singleton_self _)) fun config configured => ?_
    cases configured
    exact ⟨trivial, evicted _ (List.mem_singleton_self _)⟩
  remove each := remove_only (on_all (List.mem_singleton_self _) each)

theorem MokaStore.stays (id : Nat) :
    (dyn id : DynStore ι).Stays side b [.map (.moka id)] [.map (.moka id)] where
  get held _ :=
    get_only (held _ (List.mem_singleton_self _)) (by trivial) (held _ (List.mem_singleton_self _))
  set entry held _ := set_only (held _ (List.mem_singleton_self _))
  remove each := remove_only fun key here => by
    intro cacheKey member
    obtain rfl := List.mem_singleton.mp member
    exact each key here _ (List.mem_singleton_self _)

theorem RedisStore.stays (server : Nat) (disableExpiration : Bool) :
    (dyn server disableExpiration : DynStore ι).Stays side b [.server server] [] where
  get held _ := by
    refine get_only (held _ (List.mem_singleton_self _)) (by trivial) fun _ => ?_
    refine ⟨fun spot member => ?_, List.forall_mem_nil _⟩
    obtain rfl := List.mem_singleton.mp member
    exact held _ (List.mem_singleton_self _)
  set entry held _ := by
    cases entry with
    | typed => trivial
    | serialized json freshUntil staleUntil =>
        exact set_only freshUntil trivial (fun _ => held _ (List.mem_singleton_self _))
          fun _ _ => held _ (List.mem_singleton_self _)
  remove each := remove_only (on_all (List.mem_singleton_self _) each)

theorem MetricsStore.stays {homes evicting : List Home} {inner : DynStore ι}
    (stays : inner.Stays side b homes evicting) (sink : Nat) :
    (dyn inner sink).Stays side b homes evicting where
  get held evicted := get_only (stays.get held evicted) (by trivial) fun _ _ => by trivial
  set entry held evicted := set_only (stays.set entry held evicted) trivial
  remove each := remove_only (stays.remove each) trivial

theorem ExtStore.stays (id : Nat) (name : String) (mode : StorageMode) :
    (dyn id name mode : DynStore ι).Stays side b [.ext id] [] where
  get held _ := only_issue (held _ (List.mem_singleton_self _))
  set _ held _ := only_issue (held _ (List.mem_singleton_self _))
  remove each := only_issue fun key here => each key here _ (List.mem_singleton_self _)

theorem Store.mem_evictingOf {stores : List Store} {home : Home} :
    home ∈ evictingOf stores ↔ ∃ store ∈ stores, home ∈ store.evicting := by
  induction stores with
  | nil => simp [evictingOf]
  | cons store stores ih => simp [evictingOf, ih]

/-- A back-fill of some of the tiers is on the side of the tiers. -/
theorem Task.Sided.backfill {stores part : List Store} {ns key : String} {stored : StoredEntry ι}
    (held : ∀ home ∈ Store.homesOf stores, side (.held home (buildCacheKey ns key)) = b)
    (evicted : ∀ home ∈ Store.evictingOf stores, ∀ cacheKey, side (.held home cacheKey) = b)
    (inside : part ⊆ stores) : (Task.backfill part ns key stored).Sided side b where
  spots spot member := by
    obtain ⟨home, among, rfl⟩ := List.mem_map.mp member
    obtain ⟨store, here, found⟩ := Store.mem_homesOf.mp among
    exact held home (Store.mem_homesOf.mpr ⟨store, inside here, found⟩)
  evicts home among := by
    obtain ⟨store, here, found⟩ := Store.mem_evictingOf.mp among
    exact evicted home (Store.mem_evictingOf.mpr ⟨store, inside here, found⟩)

theorem TieredStore.stays {stores : List Store}
    (each : ∀ tier ∈ Store.dynList ι stores, ∃ homes evicting, homes ⊆ Store.homesOf stores ∧
      evicting ⊆ Store.evictingOf stores ∧ tier.Stays side b homes evicting) :
    (dyn (Store.dynList ι stores)).Stays side b (Store.homesOf stores)
    (Store.evictingOf stores) where
  get held evicted := by
    refine getFrom_only (fun tier inTiers => ?_) fun part inside stored => ?_
    · obtain ⟨homes, evicting, here, there, stays⟩ := each tier inTiers
      exact stays.get (fun home member => held home (here member)) fun home member =>
        evicted home (there member)
    · refine Task.Sided.backfill held evicted fun store member => ?_
      obtain ⟨tier, inPart, rfl⟩ := List.mem_map.mp member
      have arcs := List.mem_map_of_mem (f := DynStore.arc) (inside inPart)
      rwa [List.nil_append, Store.dynList_arc] at arcs
  set entry held evicted := by
    refine set_only fun tier inTiers => setTier_only fun converted _ => ?_
    obtain ⟨homes, evicting, here, there, stays⟩ := each tier inTiers
    exact stays.set converted (fun home member => held home (here member)) fun home member =>
      evicted home (there member)
  remove keyed := by
    refine remove_only fun tier inTiers => ?_
    obtain ⟨homes, _, here, _, stays⟩ := each tier inTiers
    exact stays.remove fun key member home among => keyed key member home (here among)

namespace Store

mutual
theorem stays : ∀ store : Store, (store.dyn ι).Stays side b store.homes store.evicting
  | .hashMap id evictOnSet => HashMapStore.stays id evictOnSet
  | .moka id => MokaStore.stays id
  | .redis server disableExpiration => RedisStore.stays server disableExpiration
  | .tiered tiers => TieredStore.stays (dynList_stays tiers)
  | .metrics inner sink => MetricsStore.stays (stays inner) sink
  | .ext id name mode => ExtStore.stays id name mode

theorem dynList_stays : ∀ stores : List Store, ∀ tier ∈ dynList ι stores, ∃ homes evicting,
    homes ⊆ homesOf stores ∧ evicting ⊆ evictingOf stores ∧ tier.Stays side b homes evicting
  | [], _, member => by simp [dynList] at member
  | store :: stores, tier, member => by
      rcases List.mem_cons.mp member with rfl | later
      · exact ⟨store.homes, store.evicting, List.subset_append_left _ _,
          List.subset_append_left _ _, stays store⟩
      · obtain ⟨homes, evicting, here, there, inner⟩ := dynList_stays stores tier later
        exact ⟨homes, evicting, fun home among => List.mem_append_right _ (here among),
          fun home among => List.mem_append_right _ (there among), inner⟩
end

end Store

/-! ## The tasks stay on their side -/

/-- Tasks for one key of a cache touch the same places. -/
theorem Task.Sided.own {cache : SwrCache ι} {ns key : String} {task : Task ι}
    (marked : side (.marker cache.revalidating (buildCacheKey ns key)) = b)
    (held : ∀ home ∈ cache.store.homes, side (.held home (buildCacheKey ns key)) = b)
    (evicted : ∀ home ∈ cache.store.evicting, ∀ cacheKey, side (.held home cacheKey) = b)
    (own : cache.Own ns key (.spawn task)) : task.Sided side b := by
  have spots : ∀ spot ∈ .marker cache.revalidating (buildCacheKey ns key) ::
      cache.store.homes.map fun home => .held home (buildCacheKey ns key), side spot = b := by
    refine List.forall_mem_cons.mpr ⟨marked, fun spot member => ?_⟩
    obtain ⟨home, among, rfl⟩ := List.mem_map.mp member
    exact held home among
  rcases own with rfl | ⟨value, freshUntil, staleUntil, rfl⟩
  · exact ⟨spots, evicted⟩
  · exact ⟨spots, evicted⟩

theorem SwrCache.uses_side {cache : SwrCache ι} {ns key : String}
    (marked : side (.marker cache.revalidating (buildCacheKey ns key)) = b)
    (held : ∀ home ∈ cache.store.homes, side (.held home (buildCacheKey ns key)) = b)
    (evicted : ∀ home ∈ cache.store.evicting, ∀ cacheKey, side (.held home cacheKey) = b) :
    cache.Uses ns key (Cmd.On side b) where
  get := cache.store.stays.get held evicted
  set entry := cache.store.stays.set entry held evicted
  remove := cache.store.stays.remove fun key' here => by
    obtain rfl := List.mem_singleton.mp here
    exact held
  own c own := by
    cases c
    case spawn => exact Task.Sided.own marked held evicted own
    case containsKey | insertMarker | removeMarker =>
      obtain ⟨rfl, rfl⟩ := own
      exact marked
    case now | sleep | loadStart | loadEnd => trivial
    all_goals exact own.elim

/-- What a task issues is on the side of the task. -/
theorem Task.Sided.body_only [DecidableEq ι] {task : Task ι} (sided : task.Sided side b) :
    task.body.Only (Cmd.On side b) := by
  obtain ⟨spots, evicts⟩ := sided
  cases task with
  | get cache ns key | set cache ns key | swr cache ns key | cacheValue cache ns key
  | revalidate cache ns key =>
      obtain ⟨marked, others⟩ := List.forall_mem_cons.mp spots
      exact (SwrCache.uses_side marked (fun home among => others _ (List.mem_map_of_mem among))
        evicts).body_only ⟨rfl, rfl, rfl⟩
  | remove cache ns key =>
      obtain ⟨_, others⟩ := List.forall_mem_cons.mp spots
      have removes : (cache.dyn.remove ns [key]).Only (Cmd.On side b) :=
        cache.store.stays.remove fun key' here => by
          obtain rfl := List.mem_singleton.mp here
          exact fun home among => others _ (List.mem_map_of_mem among)
      exact removes.bind fun _ => trivial
  | storeGet store ns key =>
      exact (store.stays.get (fun home among => spots _ (List.mem_map_of_mem among)) evicts).bind
        fun _ => trivial
  | storeSet store ns key entry =>
      exact (store.stays.set entry
        (fun home among => spots _ (List.mem_map_of_mem among)) evicts).bind
        fun _ => trivial
  | storeRemove store ns keys =>
      refine (store.stays.remove fun key here home among => ?_).bind fun _ => trivial
      exact spots _ (List.mem_flatMap.mpr ⟨key, here, List.mem_map_of_mem among⟩)
  | backfill lower ns key entry =>
      refine Prog.Only.bind (TieredStore.backfill_only fun tier inTiers converted _ => ?_)
        fun _ => trivial
      obtain ⟨homes, evicting, here, there, stays⟩ := Store.dynList_stays lower tier inTiers
      exact stays.set converted (fun home among => spots _ (List.mem_map_of_mem (here among)))
        fun home among => evicts home (there among)
  | redisDel server cacheKey =>
      refine (RedisStore.backgroundDel_only fun key here => ?_).bind fun _ => trivial
      obtain rfl := List.mem_singleton.mp here
      exact spots _ (List.mem_singleton_self _)

end Stays

/-! ## What the two sides see -/

/-- The worlds agree on one side. A map that is there as a whole is the same map. -/
structure AgreeOn (side : Spot → Bool) (w v : World ι) : Prop where
  whole : ∀ map, (∀ cacheKey, side (.held (.map map) cacheKey) = true) → v.maps map = w.maps map
  maps : ∀ map cacheKey, side (.held (.map map) cacheKey) = true →
    (v.maps map).lookup cacheKey = (w.maps map).lookup cacheKey
  redis : ∀ server cacheKey, side (.held (.server server) cacheKey) = true →
    v.redis server cacheKey = w.redis server cacheKey
  ext : ∀ store ns key, side (.held (.ext store) (buildCacheKey ns key)) = true →
    v.ext store ns key = w.ext store ns key
  markers : ∀ revalidating cacheKey, side (.marker revalidating cacheKey) = true →
    (v.markers revalidating cacheKey).isSome = (w.markers revalidating cacheKey).isSome

section AgreeOn

variable {side : Spot → Bool} {w v w' : World ι}

theorem AgreeOn.refl (side : Spot → Bool) (w : World ι) : AgreeOn side w w :=
  ⟨fun _ _ => rfl, fun _ _ _ => rfl, fun _ _ _ => rfl, fun _ _ _ _ => rfl, fun _ _ _ => rfl⟩

/-- The same change of one map on both sides, key by key. -/
theorem AgreeOn.setMap (agree : AgreeOn side w v) (map : MapId) {f : HashMap ι → HashMap ι}
    (pointwise : ∀ m m' cacheKey, m.lookup cacheKey = m'.lookup cacheKey →
      (f m).lookup cacheKey = (f m').lookup cacheKey) :
    AgreeOn side (w.setMap map (f (w.maps map))) (v.setMap map (f (v.maps map))) where
  whole map' inside := by
    rw [World.setMap_maps, World.setMap_maps]
    split
    · next same => subst same; rw [agree.whole _ inside]
    · exact agree.whole map' inside
  maps map' cacheKey here := by
    rw [World.setMap_maps, World.setMap_maps]
    split
    · next same => subst same; exact pointwise _ _ _ (agree.maps _ cacheKey here)
    · exact agree.maps map' cacheKey here
  redis := agree.redis
  ext := agree.ext
  markers := agree.markers

/-- A map that is on the side as a whole may change in any way. -/
theorem AgreeOn.setWhole (agree : AgreeOn side w v) (map : MapId) (m : HashMap ι) :
    AgreeOn side (w.setMap map m) (v.setMap map m) where
  whole map' inside := by
    rw [World.setMap_maps, World.setMap_maps]
    split
    · rfl
    · exact agree.whole map' inside
  maps map' cacheKey here := by
    rw [World.setMap_maps, World.setMap_maps]
    split
    · rfl
    · exact agree.maps map' cacheKey here
  redis := agree.redis
  ext := agree.ext
  markers := agree.markers

/-- A change of one map that leaves this side alone. -/
theorem AgreeOn.otherMap (agree : AgreeOn side w v) (map : MapId) {m : HashMap ι}
    (whole : (∀ cacheKey, side (.held (.map map) cacheKey) = true) → m = w.maps map)
    (kept : ∀ cacheKey, side (.held (.map map) cacheKey) = true →
      m.lookup cacheKey = (w.maps map).lookup cacheKey) :
    AgreeOn side (w.setMap map m) v where
  whole map' inside := by
    rw [World.setMap_maps]
    split
    · next same => subst same; rw [whole inside]; exact agree.whole _ inside
    · exact agree.whole map' inside
  maps map' cacheKey here := by
    rw [World.setMap_maps]
    split
    · next same => subst same; rw [kept cacheKey here]; exact agree.maps _ cacheKey here
    · exact agree.maps map' cacheKey here
  redis := agree.redis
  ext := agree.ext
  markers := agree.markers

theorem AgreeOn.setRedis (agree : AgreeOn side w v) (server : Nat) (key : String)
    (item : Option RedisItem) :
    AgreeOn side (w.setRedis server key item) (v.setRedis server key item) where
  whole := agree.whole
  maps := agree.maps
  redis server' cacheKey here := by
    rw [World.setRedis_redis, World.setRedis_redis, agree.redis server' cacheKey here]
  ext := agree.ext
  markers := agree.markers

theorem AgreeOn.delRedis (agree : AgreeOn side w v) (server : Nat) (keys : List String) :
    AgreeOn side (w.delRedis server keys) (v.delRedis server keys) where
  whole := agree.whole
  maps := agree.maps
  redis server' cacheKey here := by
    rw [World.delRedis_redis, World.delRedis_redis, agree.redis server' cacheKey here]
  ext := agree.ext
  markers := agree.markers

/-- The same change of one foreign store on both sides, key by key. -/
theorem AgreeOn.setExt (agree : AgreeOn side w v) (store : Nat) {m m' : Contents ι}
    (pointwise : ∀ ns key, side (.held (.ext store) (buildCacheKey ns key)) = true →
      m' ns key = m ns key) :
    AgreeOn side (w.setExt store m) (v.setExt store m') where
  whole := agree.whole
  maps := agree.maps
  redis := agree.redis
  ext store' ns key here := by
    rw [World.setExt_ext, World.setExt_ext]
    split
    · next same => subst same; exact pointwise ns key here
    · exact agree.ext store' ns key here
  markers := agree.markers

/-- A change of one foreign store that leaves this side alone. -/
theorem AgreeOn.otherExt (agree : AgreeOn side w v) (store : Nat) {m : Contents ι}
    (kept : ∀ ns key, side (.held (.ext store) (buildCacheKey ns key)) = true →
      m ns key = w.ext store ns key) :
    AgreeOn side (w.setExt store m) v where
  whole := agree.whole
  maps := agree.maps
  redis := agree.redis
  ext store' ns key here := by
    rw [World.setExt_ext]
    split
    · next same =>
        subst same
        rw [kept ns key here]
        exact agree.ext _ ns key here
    · exact agree.ext store' ns key here
  markers := agree.markers

theorem AgreeOn.setMarker (agree : AgreeOn side w v) (revalidating : Nat) (key : String)
    {marker marker' : Option Nat} (alike : marker'.isSome = marker.isSome) :
    AgreeOn side (w.setMarker revalidating key marker) (v.setMarker revalidating key marker') where
  whole := agree.whole
  maps := agree.maps
  redis := agree.redis
  ext := agree.ext
  markers revalidating' cacheKey here := by
    rw [World.setMarker_markers, World.setMarker_markers]
    split
    · exact alike
    · exact agree.markers revalidating' cacheKey here

/-- What one side is answered it is answered in a world that agrees with it. -/
theorem On.seen {i j : Nat} {t : Int} {c : Cmd ι} {r : c.Ans} (on : c.On side true)
    (done : exec .atomicMap i t w c r w') (agree : AgreeOn side w v) :
    ∃ v', exec .atomicMap j t v c r v' ∧ AgreeOn side w' v' := by
  cases c
  case mapRead map key | mapGet map key =>
    obtain ⟨rfl, rfl⟩ := done
    refine ⟨v, ⟨?_, rfl⟩, agree⟩
    rw [agree.maps map key on]
  case mapInsert map key entry =>
    obtain rfl := done
    refine ⟨_, rfl, agree.setMap map fun m m' cacheKey same => ?_⟩
    rw [HashMap.lookup_insert, HashMap.lookup_insert, same]
  case mapExpire map key =>
    obtain rfl := done
    refine ⟨_, rfl, agree.setMap map fun m m' cacheKey same => ?_⟩
    rw [HashMap.lookup_erase, HashMap.lookup_erase, same]
  case mapRemove map keys =>
    obtain rfl := done
    refine ⟨_, rfl, agree.setMap map (f := fun m => m.eraseAll keys) fun m m' cacheKey same => ?_⟩
    rw [HashMap.lookup_eraseAll, HashMap.lookup_eraseAll, same]
  case mapEvict map maxItems =>
    obtain ⟨order, perm, rfl⟩ := done
    have same := agree.whole map on
    refine ⟨_, ⟨order, by rwa [same], rfl⟩, ?_⟩
    rw [same]
    exact agree.setWhole map _
  case redisGet server key =>
    obtain ⟨answer, rfl⟩ := done
    refine ⟨v, ⟨?_, rfl⟩, agree⟩
    rwa [World.readRedis, agree.redis server key on]
  case redisSet server key json | redisSetEx server key json ttl =>
    rcases done with ⟨rfl, rfl⟩ | ⟨e, rfl, rfl | rfl⟩
    · exact ⟨_, .inl ⟨rfl, rfl⟩, agree.setRedis server key _⟩
    · exact ⟨v, .inr ⟨e, rfl, .inl rfl⟩, agree⟩
    · exact ⟨_, .inr ⟨e, rfl, .inr rfl⟩, agree.setRedis server key _⟩
  case redisDel server keys =>
    rcases done with ⟨rfl, rfl⟩ | ⟨e, rfl, rfl | rfl⟩
    · exact ⟨_, .inl ⟨rfl, rfl⟩, agree.delRedis server keys⟩
    · exact ⟨v, .inr ⟨e, rfl, .inl rfl⟩, agree⟩
    · exact ⟨_, .inr ⟨e, rfl, .inr rfl⟩, agree.delRedis server keys⟩
  case extGet store ns key =>
    obtain ⟨m, ⟨rfl, rfl⟩, rfl⟩ := done
    refine ⟨_, ⟨_, ⟨?_, rfl⟩, rfl⟩, by simpa using agree⟩
    rw [agree.ext store ns key on]
  case extSet store ns key entry =>
    obtain ⟨m, ⟨rfl, rfl⟩, rfl⟩ := done
    refine ⟨_, ⟨_, ⟨rfl, rfl⟩, rfl⟩, agree.setExt store fun ns' key' here => ?_⟩
    rw [Contents.put_apply, Contents.put_apply, agree.ext store ns' key' here]
  case extRemove store ns keys =>
    obtain ⟨m, ⟨rfl, rfl⟩, rfl⟩ := done
    refine ⟨_, ⟨_, ⟨rfl, rfl⟩, rfl⟩, agree.setExt store fun ns' key' here => ?_⟩
    rw [Contents.remove_apply, Contents.remove_apply, agree.ext store ns' key' here]
  case containsKey revalidating key =>
    obtain ⟨rfl, rfl⟩ := done
    exact ⟨v, ⟨(agree.markers revalidating key on).symm, rfl⟩, agree⟩
  case insertMarker revalidating key =>
    obtain rfl := done
    exact ⟨_, rfl, agree.setMarker revalidating key rfl⟩
  case removeMarker revalidating key =>
    obtain rfl := done
    exact ⟨_, rfl, agree.setMarker revalidating key rfl⟩
  case emit sink metric =>
    obtain rfl := done
    exact ⟨_, rfl, ⟨agree.whole, agree.maps, agree.redis, agree.ext, agree.markers⟩⟩
  case now | rand =>
    obtain ⟨answer, rfl⟩ := done
    exact ⟨v, ⟨answer, rfl⟩, agree⟩
  case sleep | spawn | loadStart | loadEnd =>
    obtain rfl := done
    exact ⟨v, rfl, agree⟩

/-- What the other side does does not show. -/
theorem On.unseen {i : Nat} {t : Int} {c : Cmd ι} {r : c.Ans} (on : c.On side false)
    (done : exec .atomicMap i t w c r w') (agree : AgreeOn side w v) : AgreeOn side w' v := by
  have apart : ∀ {spot other : Spot}, side spot = false → side other = true → other ≠ spot := by
    rintro spot other out inside rfl
    cases out.symm.trans inside
  cases c
  case mapInsert map key entry =>
    obtain rfl := done
    refine agree.otherMap map (fun whole => absurd rfl (apart on (whole key)))
      fun cacheKey here => ?_
    rw [HashMap.lookup_insert, if_neg fun same => apart on here (by rw [same])]
  case mapExpire map key =>
    obtain rfl := done
    refine agree.otherMap map (fun whole => absurd rfl (apart on (whole key)))
      fun cacheKey here => ?_
    rw [HashMap.lookup_erase, if_neg fun same => apart on here (by rw [same])]
  case mapRemove map keys =>
    obtain rfl := done
    refine agree.otherMap map (fun whole => ?_) fun cacheKey here => ?_
    · cases keys with
      | nil => rfl
      | cons key keys => exact absurd rfl (apart (on key (List.mem_cons_self ..)) (whole key))
    · rw [HashMap.lookup_eraseAll, if_neg fun member => apart (on cacheKey member) here rfl]
  case mapEvict map maxItems =>
    obtain ⟨order, perm, rfl⟩ := done
    refine agree.otherMap map (fun whole => absurd rfl (apart (on "") (whole "")))
      fun cacheKey here => ?_
    exact absurd rfl (apart (on cacheKey) here)
  case redisSet server key json | redisSetEx server key json ttl =>
    have kept : ∀ item, AgreeOn side (w.setRedis server key item) v := by
      refine fun item => ⟨agree.whole, agree.maps, fun server' cacheKey here => ?_, agree.ext,
        agree.markers⟩
      rw [World.setRedis_redis, if_neg fun same => apart on here (by rw [same.1, same.2])]
      exact agree.redis server' cacheKey here
    rcases done with ⟨_, rfl⟩ | ⟨_, _, rfl | rfl⟩
    · exact kept _
    · exact agree
    · exact kept _
  case redisDel server keys =>
    have kept : AgreeOn side (w.delRedis server keys) v := by
      refine ⟨agree.whole, agree.maps, fun server' cacheKey here => ?_, agree.ext, agree.markers⟩
      rw [World.delRedis_redis, if_neg fun same => apart (on cacheKey same.2) here (by rw [same.1])]
      exact agree.redis server' cacheKey here
    rcases done with ⟨_, rfl⟩ | ⟨_, _, rfl | rfl⟩
    · exact kept
    · exact agree
    · exact kept
  case extGet store ns key =>
    obtain ⟨m, ⟨rfl, rfl⟩, rfl⟩ := done
    simpa using agree
  case extSet store ns key entry =>
    obtain ⟨m, ⟨rfl, rfl⟩, rfl⟩ := done
    refine agree.otherExt store fun ns' key' here => ?_
    rw [Contents.put_apply, if_neg fun same => apart on here (by rw [same.1, same.2])]
  case extRemove store ns keys =>
    obtain ⟨m, ⟨rfl, rfl⟩, rfl⟩ := done
    refine agree.otherExt store fun ns' key' here => ?_
    rw [Contents.remove_apply, if_neg fun same => apart (on key' same.2) here (by rw [same.1])]
  case insertMarker revalidating key | removeMarker revalidating key =>
    obtain rfl := done
    refine ⟨agree.whole, agree.maps, agree.redis, agree.ext, fun revalidating' cacheKey here => ?_⟩
    rw [World.setMarker_markers, if_neg fun same => apart on here (by rw [same.1, same.2])]
    exact agree.markers revalidating' cacheKey here
  case emit sink metric =>
    obtain rfl := done
    exact ⟨agree.whole, agree.maps, agree.redis, agree.ext, agree.markers⟩
  case now | rand | mapRead | mapGet | redisGet | containsKey =>
    obtain ⟨_, rfl⟩ := done
    exact agree
  case sleep | spawn | loadStart | loadEnd =>
    obtain rfl := done
    exact agree

end AgreeOn

/-! ## Runs -/

section Runs

variable [DecidableEq ι]

/-- The two sides are two kinds of tasks. -/
theorem separate_sides (side : Spot → Bool) : Separate (system (ι := ι) .atomicMap)
    (fun b task => task.Sided side b) (fun b c => c.On side b) (AgreeOn side) where
  bodies _ _ sided := sided.body_only
  heirs _ c on task started := by
    cases Cmd.mem_spawned.mp started
    exact on
  seen on done _ _ agree := On.seen on done agree
  unseen on done _ agree := On.unseen on done agree

/-- Whatever calls there are and however they are interleaved: if each of them is on one
    side, then the calls of one side are answered step by step, and end, as they would
    without the calls of the other side. -/
theorem others_unseen (side : Spot → Bool) (R : Nat → Bool) {w : World ι}
    {past : History (system (ι := ι) .atomicMap)} {s : Config (system (ι := ι) .atomicMap)}
    (run : Run (system .atomicMap) (.idle w) past s)
    (calls : ∀ s₀ task, (s₀, .start task) ∈ past → task.Sided side (R s₀.threads.length)) :
    ∃ past₁ s₁, Run (system .atomicMap) (.idle w) past₁ s₁ ∧
    past₁.map (fun e => e.2.event) = eventsOf R past ∧
      s₁.threads.map Thread.state = statesOf R s ∧ AgreeOn side s.world s₁.world := by
  obtain ⟨past₁, s₁, run₁, events, shrunk⟩ := run.without (separate_sides side) calls (.refl side w)
  exact ⟨past₁, s₁, run₁, events, shrunk.states, shrunk.view⟩

end Runs

def sharedCache : SwrCache Unit := .new () (.hashMap 0 none) 10 20 0

/-- One key apart from all others. -/
def Spot.isFor (cacheKey : String) : Spot → Bool
  | .held _ key | .marker _ key => key == cacheKey

/-- A call of `swr` gets in between the two commands of a `set` in another namespace. -/
theorem others_unseen_neighbour : ∃ past s past₁ s₁,
    Run (system .atomicMap) (.idle (.empty : World Unit)) past s ∧
    (∃ th, s.threads[1]? = some th ∧ th.task = .swr sharedCache "b" "k") ∧
    Run (system .atomicMap) (.idle (.empty : World Unit)) past₁ s₁ ∧
    s₁.threads.map Thread.state =
      [(.set sharedCache "a" "k" true none, some (.ret (.done (.ok ()))))] := by
  obtain ⟨past, s, played, called, neighbour, states⟩ : ∃ past s,
      driver.play (fun _ _ => True) [.start (.set sharedCache "a" "k" true none), .go 0 (reading 0),
        .start (.swr sharedCache "b" "k"), .go 1 (reading 1), .go 1 (reading 1), .go 0 (reading 2),
        .go 1 (reading 3)] ([], .idle .empty) = some (past, s) ∧
      past.filterMap (fun e => e.2.starting.map fun task => (e.1.threads.length, task)) =
        [(1, .swr sharedCache "b" "k"), (0, .set sharedCache "a" "k" true none)] ∧
      (∃ th, s.threads[1]? = some th ∧ th.task = .swr sharedCache "b" "k") ∧
      statesOf (· == 0) s = [(.set sharedCache "a" "k" true none, some (.ret (.done (.ok ()))))] :=
    ⟨_, _, rfl, rfl, ⟨_, rfl, rfl⟩, rfl⟩
  obtain ⟨run, _⟩ := Driver.plays played
  obtain ⟨past₁, s₁, run₁, _, same, _⟩ := others_unseen (Spot.isFor "a:k") (· == 0) run (by
    intro s₀ task member
    have among : (s₀.threads.length, task) ∈
        past.filterMap (fun e => e.2.starting.map fun task => (e.1.threads.length, task)) :=
      List.mem_filterMap.mpr ⟨_, member, rfl⟩
    rw [called] at among
    simp only [List.mem_cons, List.not_mem_nil, or_false, Prod.mk.injEq] at among
    rcases among with ⟨first, rfl⟩ | ⟨first, rfl⟩
    · rw [first]
      exact ⟨by decide, List.forall_mem_nil _⟩
    · rw [first]
      exact ⟨by decide, List.forall_mem_nil _⟩)
  exact ⟨past, s, past₁, s₁, run, neighbour, run₁, same.trans states⟩

end Swr
