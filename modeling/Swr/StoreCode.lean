import Swr.System

/-! # The commands of store code

No store touches a marker map or calls an origin. This is proved once for every tree
of stores, so results about `SwrCache` hold over any of them.
-/

namespace Swr

open Async

variable {ι : Type} [SerdeJson ι]

/-- The tasks that stores spawn. -/
def Task.OfStore : Task ι → Prop
  | .backfill .. | .redisDel .. => True
  | _ => False

/-- The commands that the code of a store may issue. -/
def Cmd.OfStore : Cmd ι → Prop
  | .spawn task => task.OfStore
  | .sleep _ | .containsKey .. | .insertMarker .. | .removeMarker .. | .loadStart .. |
      .loadEnd .. =>
      False
  | _ => True

/-- The commands that put an entry into a store. -/
def Cmd.isWrite : Cmd ι → Bool
  | .mapInsert .. | .redisSet .. | .redisSetEx .. | .extSet .. => true
  | _ => false

/-- The commands that a `get` may issue. -/
def Cmd.OfGet (c : Cmd ι) : Prop := c.OfStore ∧ c.isWrite = false

/-- All methods of a store issue store commands only, and `get` writes nothing. -/
structure DynStore.Plain (store : DynStore ι) : Prop where
  read : ∀ ns key, (store.get ns key).Only Cmd.OfGet
  set : ∀ ns key entry, (store.set ns key entry).Only Cmd.OfStore
  remove : ∀ ns keys, (store.remove ns keys).Only Cmd.OfStore

theorem DynStore.Plain.get {store : DynStore ι} (h : store.Plain) (ns key : String) :
    (store.get ns key).Only Cmd.OfStore :=
  (h.read ns key).mono fun _ uses => uses.1

theorem only_issue {N : Cmd ι → Prop} {c : Cmd ι} (allowed : N c) : (issue c).Only N :=
  ⟨allowed, fun _ => trivial⟩

/-! ## What the code of a store can issue

One lemma for each method, whatever is asked of the commands.
-/

section Issues

variable {N : Cmd ι → Prop} {ns key : String} {keys : List String}

namespace HashMapStore

variable {id : Nat} {evictOnSet : Option EvictOnSetConfig} {entry : StoredEntry ι}

theorem maybeEvict_only
    (evict : ∀ config ∈ evictOnSet, N .rand ∧ N (.mapEvict (.hashMap id) config.maxItems)) :
    (maybeEvict id evictOnSet : Code ι Unit).Only N := by
  cases evictOnSet with
  | none => trivial
  | some config =>
      obtain ⟨rand, pass⟩ := evict config rfl
      have evicts : (evictNow id config : Code ι Unit).Only N := only_issue pass
      simp only [maybeEvict]
      split
      · trivial
      · split
        · exact evicts
        · refine (only_issue rand).bind fun r => ?_
          split
          · exact evicts
          · trivial

theorem get_only (read : N (.mapRead (.hashMap id) (buildCacheKey ns key)))
    (expire : N (.mapExpire (.hashMap id) (buildCacheKey ns key))) : (get id ns key).Only N := by
  refine (only_issue read).bind fun answer => ?_
  obtain ⟨found, now⟩ := answer
  cases found with
  | none => trivial
  | some stored =>
      dsimp only
      split
      · exact (only_issue expire).bind fun _ => trivial
      · trivial

theorem set_only (insert : N (.mapInsert (.hashMap id) (buildCacheKey ns key) entry))
    (evict : ∀ config ∈ evictOnSet, N .rand ∧ N (.mapEvict (.hashMap id) config.maxItems)) :
    (set id evictOnSet ns key entry).Only N :=
  (only_issue insert).bind fun _ => (maybeEvict_only evict).bind fun _ => trivial

theorem remove_only (take : N (.mapRemove (.hashMap id) (keys.map (buildCacheKey ns)))) :
    (remove id ns keys).Only N :=
  (only_issue take).bind fun _ => trivial

end HashMapStore

namespace MokaStore

variable {id : Nat} {entry : StoredEntry ι}

theorem get_only (look : N (.mapGet (.moka id) (buildCacheKey ns key))) (now : N .now)
    (expire : N (.mapExpire (.moka id) (buildCacheKey ns key))) : (get id ns key).Only N := by
  refine (only_issue look).bind fun found => ?_
  cases found with
  | none => trivial
  | some stored =>
      refine (only_issue now).bind fun t => ?_
      split
      · exact (only_issue expire).bind fun _ => trivial
      · trivial

theorem set_only (insert : N (.mapInsert (.moka id) (buildCacheKey ns key) entry)) :
    (set id ns key entry).Only N :=
  (only_issue insert).bind fun _ => trivial

theorem remove_only (take : ∀ key ∈ keys, N (.mapRemove (.moka id) [buildCacheKey ns key])) :
    (remove id ns keys).Only N := by
  induction keys with
  | nil => trivial
  | cons key keys ih =>
      obtain ⟨here, later⟩ := List.forall_mem_cons.mp take
      exact (only_issue here).bind fun _ => ih later

end MokaStore

namespace RedisStore

variable {server : Nat} {disableExpiration : Bool} {json : String} {staleUntil : Int}

theorem get_only (ask : N (.redisGet server (buildCacheKey ns key))) (now : N .now)
    (del : disableExpiration = false → N (.spawn (.redisDel server (buildCacheKey ns key)))) :
    (get server disableExpiration ns key).Only N := by
  refine (only_issue ask).bind fun result => ?_
  rcases result with e | _ | json
  · trivial
  · trivial
  · dsimp only
    split
    · trivial
    · refine (only_issue now).bind fun t => ?_
      split
      · next expired => exact (only_issue (del (by simpa using expired.2))).bind fun _ => trivial
      · trivial

theorem set_only (freshUntil : Int) (now : N .now)
    (put : disableExpiration = true → N (.redisSet server (buildCacheKey ns key) json))
    (putEx : disableExpiration = false → ∀ t,
      N (.redisSetEx server (buildCacheKey ns key) json (calculateTtlSeconds staleUntil t))) :
    (set server disableExpiration ns key (.serialized json freshUntil staleUntil)).Only N := by
  cases disableExpiration with
  | true => exact (only_issue (put rfl)).bind fun done => by cases done <;> trivial
  | false =>
      refine (only_issue now).bind fun t => ?_
      exact (only_issue (putEx rfl t)).bind fun done => by cases done <;> trivial

theorem remove_only (take : N (.redisDel server (keys.map (buildCacheKey ns)))) :
    (remove server ns keys).Only N := by
  simp only [remove]
  split
  · trivial
  · exact (only_issue take).bind fun done => by cases done <;> trivial

theorem backgroundDel_only {cacheKey : String} (del : N (.redisDel server [cacheKey])) :
    (backgroundDel server cacheKey).Only N :=
  (only_issue del).bind fun _ => trivial

end RedisStore

namespace MetricsStore

variable {inner : DynStore ι} {sink : Nat}

theorem get_only (look : (inner.get ns key).Only N) (now : N .now)
    (emit : ∀ hit status, N (.emit sink (.read key hit status inner.name ns))) :
    (get inner sink ns key).Only N := by
  refine look.bind fun result => ?_
  rcases result with e | _ | entry
  · exact (only_issue (emit _ _)).bind fun _ => trivial
  · exact (only_issue (emit _ _)).bind fun _ => trivial
  · exact (only_issue now).bind fun _ => (only_issue (emit _ _)).bind fun _ => trivial

theorem set_only {entry : StoredEntry ι} (sets : (inner.set ns key entry).Only N)
    (emit : N (.emit sink (.write key inner.name ns))) : (set inner sink ns key entry).Only N :=
  sets.bind fun _ => (only_issue emit).bind fun _ => trivial

theorem remove_only (removes : (inner.remove ns keys).Only N)
    (emit : N (.emit sink (.remove keys.length keys.head? inner.name ns))) :
    (remove inner sink ns keys).Only N :=
  removes.bind fun _ => (only_issue emit).bind fun _ => trivial

end MetricsStore

namespace TieredStore

variable {tiers lower : List (DynStore ι)} {entry : StoredEntry ι}

theorem getFrom_only (each : ∀ tier ∈ tiers, (tier.get ns key).Only N)
    (refill : ∀ part ⊆ lower ++ tiers, ∀ stored,
      N (.spawn (.backfill (part.map DynStore.arc) ns key stored))) :
    (getFrom lower tiers ns key).Only N := by
  induction tiers generalizing lower with
  | nil => trivial
  | cons tier rest ih =>
      obtain ⟨here, others⟩ := List.forall_mem_cons.mp each
      refine here.bind fun result => ?_
      rcases result with e | _ | stored
      · trivial
      · refine ih others fun part inside => refill part ?_
        rwa [List.append_assoc] at inside
      · dsimp only
        split
        · exact (only_issue (refill lower (List.subset_append_left _ _) stored)).bind
            fun _ => trivial
        · trivial

theorem setTier_only {tier : DynStore ι}
    (each : ∀ converted, entry.convertForMode tier.storageMode = .ok converted →
      (tier.set ns key converted).Only N) :
    (setTier ns key entry tier).Only N := by
  simp only [setTier]
  split
  · trivial
  · next converted done => exact each converted done

theorem set_only (each : ∀ tier ∈ tiers, (setTier ns key entry tier).Only N) :
    (set tiers ns key entry).Only N := by
  refine (Prog.Only.joinAll fun p member => ?_).bind fun _ => trivial
  obtain ⟨tier, inTiers, rfl⟩ := List.mem_map.mp member
  exact each tier inTiers

theorem backfill_only
    (each : ∀ tier ∈ tiers, ∀ converted, entry.convertForMode tier.storageMode = .ok converted →
    (tier.set ns key converted).Only N) : (backfill tiers ns key entry).Only N := by
  induction tiers with
  | nil => trivial
  | cons tier rest ih =>
      obtain ⟨here, others⟩ := List.forall_mem_cons.mp each
      simp only [backfill]
      split
      · next converted done => exact (here converted done).bind fun _ => ih others
      · exact ih others

theorem remove_only (each : ∀ tier ∈ tiers, (tier.remove ns keys).Only N) :
    (remove tiers ns keys).Only N := by
  refine (Prog.Only.joinAll fun p member => ?_).bind fun _ => trivial
  obtain ⟨tier, inTiers, rfl⟩ := List.mem_map.mp member
  exact each tier inTiers

end TieredStore

end Issues

theorem SwrCache.getInternal_only [DecidableEq ι] {N : Cmd ι → Prop} {self : SwrCache ι}
    {ns key : String} (look : (self.dyn.get ns key).Only N) (now : N .now) :
    (self.getInternal ns key).Only N := by
  refine look.bind fun result => ?_
  rcases result with e | _ | stored
  · trivial
  · trivial
  · dsimp only
    split
    · trivial
    · refine (only_issue now).bind fun _ => ?_
      split
      · trivial
      · split <;> trivial

/-! ## Trees of stores -/

theorem HashMapStore.plain (id : Nat) (evictOnSet : Option EvictOnSetConfig) :
    (dyn id evictOnSet : DynStore ι).Plain where
  read _ _ := get_only (by trivial) (by trivial)
  set _ _ _ := set_only trivial fun _ _ => ⟨trivial, trivial⟩
  remove _ _ := remove_only trivial

theorem MokaStore.plain (id : Nat) : (dyn id : DynStore ι).Plain where
  read _ _ := get_only (by trivial) (by trivial) (by trivial)
  set _ _ _ := set_only trivial
  remove _ _ := remove_only fun _ _ => trivial

theorem RedisStore.plain (server : Nat) (disableExpiration : Bool) :
    (dyn server disableExpiration : DynStore ι).Plain where
  read _ _ := get_only (by trivial) (by trivial) fun _ => by trivial
  set ns key entry := by
    cases entry with
    | typed => trivial
    | serialized json freshUntil => exact set_only freshUntil trivial (fun _ => trivial) fun _ _ =>
        trivial
  remove _ _ := remove_only trivial

theorem MetricsStore.plain {inner : DynStore ι} (h : inner.Plain) (sink : Nat) :
    (dyn inner sink).Plain where
  read ns key := get_only (h.read ns key) (by trivial) fun _ _ => by trivial
  set ns key entry := set_only (h.set ns key entry) trivial
  remove ns keys := remove_only (h.remove ns keys) trivial

theorem TieredStore.plain {tiers : List (DynStore ι)} (h : ∀ tier ∈ tiers, tier.Plain) :
    (dyn tiers).Plain where
  read ns key :=
    getFrom_only (fun tier inTiers => (h tier inTiers).read ns key) fun _ _ _ => by trivial
  set ns key entry := set_only fun tier inTiers => setTier_only fun converted _ =>
    (h tier inTiers).set ns key converted
  remove ns keys := remove_only fun tier inTiers => (h tier inTiers).remove ns keys

theorem ExtStore.plain (id : Nat) (name : String) (mode : StorageMode) :
    (dyn id name mode : DynStore ι).Plain where
  read _ _ := only_issue (by trivial)
  set _ _ _ := only_issue trivial
  remove _ _ := only_issue trivial

namespace Store

mutual
theorem plain : ∀ store : Store, (store.dyn ι).Plain
  | .hashMap id evictOnSet => HashMapStore.plain id evictOnSet
  | .moka id => MokaStore.plain id
  | .redis server disableExpiration => RedisStore.plain server disableExpiration
  | .tiered tiers => TieredStore.plain (dynList_plain tiers)
  | .metrics inner sink => MetricsStore.plain (plain inner) sink
  | .ext id name mode => ExtStore.plain id name mode

theorem dynList_plain : ∀ stores : List Store, ∀ tier ∈ dynList ι stores, tier.Plain
  | [], _, member => by simp [dynList] at member
  | store :: stores, tier, member => by
      rcases List.mem_cons.mp member with rfl | later
      · exact plain store
      · exact dynList_plain stores tier later
end

end Store

/-! ## What a write puts -/

/-- The command writes nothing but entries with the property, and under no other key. -/
def Cmd.Puts (P : StoredEntry ι → Prop) (cacheKey : String) : Cmd ι → Prop
  | .mapInsert _ key entry => key = cacheKey ∧ P entry
  | .redisSet _ key json =>
      key = cacheKey ∧ ∃ freshUntil staleUntil, P (.serialized json freshUntil staleUntil)
  | .redisSetEx _ key json ttl => key = cacheKey ∧ ∃ freshUntil staleUntil now,
      P (.serialized json freshUntil staleUntil) ∧
      ttl = RedisStore.calculateTtlSeconds staleUntil now
  | .extSet _ ns key entry => buildCacheKey ns key = cacheKey ∧ P entry
  | .now | .rand | .mapEvict .. | .emit .. => True
  | _ => False

/-- A `set` of an entry with the property. -/
def DynStore.PutsOnly (P : StoredEntry ι → Prop) (store : DynStore ι) : Prop :=
  ∀ ns key entry, P entry → (store.set ns key entry).Only (Cmd.Puts P (buildCacheKey ns key))

section Puts

variable {P : StoredEntry ι → Prop}

theorem HashMapStore.putsOnly (id : Nat) (evictOnSet : Option EvictOnSetConfig) :
    (dyn id evictOnSet).PutsOnly P := by
  intro ns key entry holds
  exact set_only ⟨rfl, holds⟩ fun _ _ => ⟨trivial, trivial⟩

theorem RedisStore.putsOnly (server : Nat) (disableExpiration : Bool) :
    (dyn server disableExpiration).PutsOnly P := by
  intro ns key entry holds
  cases entry with
  | typed => trivial
  | serialized json freshUntil =>
      exact set_only freshUntil trivial (fun _ => ⟨rfl, _, _, holds⟩) fun _ now =>
        ⟨rfl, _, _, now, holds, rfl⟩

/-- Converting an entry does not lose the property. -/
def Converts (P : StoredEntry ι → Prop) : Prop :=
  ∀ {entry converted target}, P entry → entry.convertForMode target = .ok converted → P converted

theorem TieredStore.setTier_puts (converts : Converts P) {tier : DynStore ι}
    (puts : tier.PutsOnly P) {ns key : String} {entry : StoredEntry ι} (holds : P entry) :
    (setTier ns key entry tier).Only (Cmd.Puts P (buildCacheKey ns key)) :=
  setTier_only fun converted done => puts ns key converted (converts holds done)

theorem TieredStore.putsOnly (converts : Converts P) {tiers : List (DynStore ι)}
    (each : ∀ tier ∈ tiers, tier.PutsOnly P) : (dyn tiers).PutsOnly P := by
  intro ns key entry holds
  exact set_only fun tier inTiers => setTier_puts converts (each tier inTiers) holds

namespace Store

mutual
/-- A property that conversions keep is one of all that a tree of stores writes. -/
theorem putsOnly (converts : Converts P) : ∀ store : Store, (store.dyn ι).PutsOnly P
  | .hashMap id evictOnSet => HashMapStore.putsOnly id evictOnSet
  | .moka _ => fun _ _ _ holds => MokaStore.set_only ⟨rfl, holds⟩
  | .redis server disableExpiration => RedisStore.putsOnly server disableExpiration
  | .tiered tiers => TieredStore.putsOnly converts (dynList_putsOnly converts tiers)
  | .metrics inner _ => fun ns key entry holds =>
      MetricsStore.set_only (putsOnly converts inner ns key entry holds) trivial
  | .ext .. => fun _ _ _ holds => only_issue ⟨rfl, holds⟩

theorem dynList_putsOnly (converts : Converts P) :
    ∀ stores : List Store, ∀ tier ∈ dynList ι stores, tier.PutsOnly P
  | [], _, member => by simp [dynList] at member
  | store :: stores, tier, member => by
      rcases List.mem_cons.mp member with rfl | later
      · exact putsOnly converts store
      · exact dynList_putsOnly converts stores tier later
end

end Store

theorem TieredStore.backfill_puts (converts : Converts P) (tiers : List Store) {ns key : String}
    {entry : StoredEntry ι} (holds : P entry) :
    (backfill (Store.dynList ι tiers) ns key entry).Only (Cmd.Puts P (buildCacheKey ns key)) :=
  backfill_only fun tier inTiers converted done =>
    Store.dynList_putsOnly converts tiers tier inTiers ns key converted (converts holds done)

end Puts

/-! ## What a removal takes -/

/-- The command takes entries of the keys out of a store. -/
def Cmd.Takes (ns : String) (keys : List String) : Cmd ι → Prop
  | .mapRemove _ cacheKeys | .redisDel _ cacheKeys =>
      ∀ cacheKey ∈ cacheKeys, ∃ key ∈ keys, buildCacheKey ns key = cacheKey
  | .extRemove _ ns' keys' => ns' = ns ∧ keys' = keys
  | .emit .. => True
  | _ => False

namespace Store

theorem takes_all (ns : String) (keys : List String) :
    ∀ cacheKey ∈ keys.map (buildCacheKey ns), ∃ key ∈ keys, buildCacheKey ns key = cacheKey :=
  fun _ member => List.mem_map.mp member

mutual
theorem remove_takes : ∀ (store : Store) (ns : String) (keys : List String),
    ((store.dyn ι).remove ns keys).Only (Cmd.Takes ns keys)
  | .hashMap _ _, ns, keys => HashMapStore.remove_only (takes_all ns keys)
  | .moka _, _, _ =>
      MokaStore.remove_only fun key here => by simpa [Cmd.Takes] using ⟨key, here, rfl⟩
  | .redis _ _, ns, keys => RedisStore.remove_only (takes_all ns keys)
  | .tiered tiers, ns, keys =>
      TieredStore.remove_only fun tier inTiers => dynList_remove_takes tiers tier inTiers ns keys
  | .metrics inner _, ns, keys => MetricsStore.remove_only (remove_takes inner ns keys) trivial
  | .ext _ _ _, _, _ => only_issue ⟨rfl, rfl⟩

theorem dynList_remove_takes : ∀ stores : List Store, ∀ tier ∈ dynList ι stores, ∀ ns keys,
    (tier.remove ns keys).Only (Cmd.Takes ns keys)
  | [], _, member, _, _ => by simp [dynList] at member
  | store :: stores, tier, member, ns, keys => by
      rcases List.mem_cons.mp member with rfl | later
      · exact remove_takes store ns keys
      · exact dynList_remove_takes stores tier later ns keys
end

end Store

end Swr
