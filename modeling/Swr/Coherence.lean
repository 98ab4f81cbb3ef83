import Swr.SwrSteps
import Swr.TierContents

/-! # Coherence of the formats

One cache over a tree of stores of the repository. The tree turns typed entries into
JSON and hands JSON on to typed stores, and whatever form an entry ends up in, it says
the value and the stamps that the cache gave it.
-/

namespace Swr

open Async

variable {ι : Type} [SerdeJson ι]

/-! ## What a Redis store is handed -/

/-- The entry is of a form that stores of the mode accept. -/
def StoredEntry.Suits (mode : StorageMode) : StoredEntry ι → Prop
  | .typed .. => mode = .typed
  | .serialized .. => True

theorem convertForMode_suits {entry converted : StoredEntry ι} {mode : StorageMode}
    (done : entry.convertForMode mode = .ok converted) : converted.Suits mode := by
  cases entry with
  | serialized => cases mode <;> cases done <;> trivial
  | typed value freshUntil staleUntil serializer =>
      cases mode with
      | typed => cases done; rfl
      | serialized => rcases serializer with _ | e | json <;> cases done; trivial

theorem storedEntry_suits {i : ι} {mode : StorageMode} {value : Val i} {freshUntil staleUntil : Int}
    {stored : StoredEntry ι}
    (made : SwrCache.storedEntry i mode value freshUntil staleUntil = .ok stored) :
    stored.Suits mode := by
  cases mode with
  | typed => cases made; rfl
  | serialized =>
      simp only [SwrCache.storedEntry] at made
      split at made <;> cases made
      trivial

/-- What a Redis store answers to a typed entry. -/
def RedisStore.rejection : Code ι (Except CacheError Unit) :=
  return .error (.serialization ("RedisStore received Typed entry but requires Serialized. " ++
    "This indicates a bug in TieredStore conversion logic."))

/-- A Redis store with other code in the place of that answer. -/
def RedisStore.dynWith (stray : Code ι (Except CacheError Unit)) (server : Nat)
    (disableExpiration : Bool) : DynStore ι :=
  { dyn server disableExpiration with
    set := fun ns key entry =>
      match entry with
      | .typed .. => stray
      | .serialized .. => set server disableExpiration ns key entry }

namespace Store

mutual
/-- A tree of stores with other code in the place of that answer. -/
def dynWith (stray : Code ι (Except CacheError Unit)) : Store → DynStore ι
  | .hashMap id evictOnSet => HashMapStore.dyn id evictOnSet
  | .moka id => MokaStore.dyn id
  | .redis server disableExpiration => RedisStore.dynWith stray server disableExpiration
  | .tiered tiers => TieredStore.dyn (dynListWith stray tiers)
  | .metrics inner sink => MetricsStore.dyn (dynWith stray inner) sink
  | .ext id name mode => ExtStore.dyn id name mode

def dynListWith (stray : Code ι (Except CacheError Unit)) : List Store → List (DynStore ι)
  | [] => []
  | store :: stores => dynWith stray store :: dynListWith stray stores
end

mutual
theorem dynWith_rejection : ∀ store : Store, store.dynWith RedisStore.rejection = store.dyn ι
  | .hashMap .. | .moka _ | .ext .. => by simp [dynWith, dyn]
  | .redis server disableExpiration => by
      simp only [dynWith, dyn, RedisStore.dynWith]
      congr
      funext ns key entry
      cases entry <;> rfl
  | .tiered tiers => by simp [dynWith, dyn, dynListWith_rejection tiers]
  | .metrics inner sink => by simp [dynWith, dyn, dynWith_rejection inner]

theorem dynListWith_rejection :
    ∀ stores : List Store, dynListWith RedisStore.rejection stores = dynList ι stores
  | [] => rfl
  |
      store :: stores => by simp [dynListWith, dynList, dynWith_rejection store,
        dynListWith_rejection stores]
end

end Store

/-- A `set` is the same in both stores, whatever suitable entry it is given. -/
structure DynStore.SetsAlike (store store' : DynStore ι) : Prop where
  name : store.name = store'.name
  storageMode : store.storageMode = store'.storageMode
  set : ∀ ns key entry, entry.Suits store'.storageMode →
    store.set ns key entry = store'.set ns key entry

theorem TieredStore.setTier_alike {tier tier' : DynStore ι} (alike : tier.SetsAlike tier')
    (ns key : String) (entry : StoredEntry ι) :
    setTier ns key entry tier = setTier ns key entry tier' := by
  simp only [setTier, alike.storageMode]
  split
  · rfl
  · next done => exact alike.set ns key _ (convertForMode_suits done)

theorem TieredStore.setsAlike {tiers tiers' : List (DynStore ι)}
    (each : List.Forall₂ DynStore.SetsAlike tiers tiers') : (dyn tiers).SetsAlike (dyn tiers') where
  name := rfl
  storageMode := by
    cases each with
    | nil => rfl
    | cons first => exact first.storageMode
  set ns key entry _ := by
    have parts : tiers.map (setTier ns key entry) = tiers'.map (setTier ns key entry) := by
      clear * - each
      induction each with
      | nil => rfl
      | cons first _ ih => exact congrArg₂ List.cons (setTier_alike first ns key entry) ih
    simp only [dyn, set, parts]

/-- A back-fill converts the entry for each tier. -/
theorem TieredStore.backfill_alike {tiers tiers' : List (DynStore ι)}
    (each : List.Forall₂ DynStore.SetsAlike tiers tiers') (ns key : String)
    (entry : StoredEntry ι) : backfill tiers ns key entry = backfill tiers' ns key entry := by
  induction each with
  | nil => rfl
  | @cons tier tier' _ _ first _ ih =>
      simp only [backfill, first.storageMode]
      split
      · next done => rw [first.set ns key _ (convertForMode_suits done), ih]
      · exact ih

namespace Store

variable {stray : Code ι (Except CacheError Unit)}

mutual
/-- No suitable entry gets to the answer. -/
theorem dynWith_alike : ∀ store : Store, (store.dynWith stray).SetsAlike (store.dyn ι)
  | .hashMap .. | .moka _ | .ext .. => by
      simp only [dynWith, dyn]
      exact ⟨rfl, rfl, fun _ _ _ _ => rfl⟩
  | .redis server disableExpiration => by
      simp only [dynWith, dyn]
      refine ⟨rfl, rfl, fun ns key entry suits => ?_⟩
      cases entry with
      | typed => cases suits
      | serialized => rfl
  | .tiered tiers => by
      simp only [dynWith, dyn]
      exact TieredStore.setsAlike (dynListWith_alike tiers)
  | .metrics inner sink => by
      have alike := dynWith_alike inner
      simp only [dynWith, dyn]
      refine ⟨rfl, alike.storageMode, fun ns key entry suits => ?_⟩
      simp only [MetricsStore.dyn, MetricsStore.set, alike.name, alike.set ns key entry suits]

theorem dynListWith_alike : ∀ stores : List Store,
    List.Forall₂ DynStore.SetsAlike (dynListWith stray stores) (dynList ι stores)
  | [] => .nil
  | store :: stores => .cons (dynWith_alike store) (dynListWith_alike stores)
end

end Store

/-! ### The tasks -/

namespace SwrCache

/-- `set`, with a tree of stores of one's choice. -/
def setOn (self : SwrCache ι) (dyn : DynStore ι) (ns key : String) (value : Val self.ty)
    (opts : Option SetOptions) : Code ι (Except CacheError Unit) := do
  let now ← Ask.now
  let freshMs := (opts.map SetOptions.freshMs).getD self.freshMs
  let staleMs := (opts.map SetOptions.staleMs).getD self.staleMs
  match storedEntry self.ty dyn.storageMode value (addMs now freshMs) (addMs now staleMs) with
  | .error e => return .error e
  | .ok stored => dyn.set ns key stored

/-- The body of the task that `cache_value` spawns, with a tree of stores of one's choice. -/
def cacheValueTaskOn (self : SwrCache ι) (dyn : DynStore ι) (ns key : String) (value : Val self.ty)
    (freshUntil staleUntil : Int) : Code ι Unit :=
  match storedEntry self.ty dyn.storageMode value freshUntil staleUntil with
  | .error _ => return ()
  | .ok stored => do
      let _ ← dyn.set ns key stored

/-- The body of the task that `spawn_revalidation` spawns, with a tree of stores of one's
    choice. -/
def revalidateTaskOn (self : SwrCache ι) (dyn : DynStore ι) (ns key : String) : Code ι Unit := do
  let revalidateKey := buildCacheKey ns key
  let running ← Ask.containsKey self.revalidating revalidateKey
  if running then return ()
  else
    Ask.insertMarker self.revalidating revalidateKey
    Ask.loadStart self ns key
    let value ← Ask.loadEnd self ns key
    match value with
    | none => unmark self ns key
    | some v =>
        let now ← Ask.now
        match storedEntry self.ty dyn.storageMode v (addMs now self.freshMs)
          (addMs now self.staleMs) with
        | .error _ => unmark self ns key
        | .ok stored =>
            let _ ← dyn.set ns key stored
            unmark self ns key

variable {self : SwrCache ι} {dyn : DynStore ι} {ns key : String}

theorem setOn_alike (alike : dyn.SetsAlike self.dyn) (value : Val self.ty)
    (opts : Option SetOptions) : self.setOn dyn ns key value opts = self.set ns key value opts := by
  simp only [setOn, set, alike.storageMode]
  congr
  funext now
  cases made : storedEntry self.ty self.dyn.storageMode value
      (addMs now ((opts.map SetOptions.freshMs).getD self.freshMs))
      (addMs now ((opts.map SetOptions.staleMs).getD self.staleMs)) with
  | error => rfl
  | ok stored => exact alike.set ns key stored (storedEntry_suits made)

theorem cacheValueTaskOn_alike (alike : dyn.SetsAlike self.dyn) (value : Val self.ty)
    (freshUntil staleUntil : Int) : self.cacheValueTaskOn dyn ns key value freshUntil staleUntil =
      self.cacheValueTask ns key value freshUntil staleUntil := by
  simp only [cacheValueTaskOn, cacheValueTask, alike.storageMode]
  cases made : storedEntry self.ty self.dyn.storageMode value freshUntil staleUntil with
  | error => rfl
  | ok stored => simp only [alike.set ns key stored (storedEntry_suits made)]

theorem revalidateTaskOn_alike (alike : dyn.SetsAlike self.dyn) :
    self.revalidateTaskOn dyn ns key = self.revalidateTask ns key := by
  simp only [revalidateTaskOn, revalidateTask, alike.storageMode]
  congr
  funext running
  cases running with
  | true => rfl
  | false =>
      simp only [Bool.false_eq_true, if_false]
      congr
      funext _
      congr
      funext _
      congr
      funext loaded
      cases loaded with
      | none => rfl
      | some value =>
          dsimp only
          congr
          funext now
          cases made : storedEntry self.ty self.dyn.storageMode value (addMs now self.freshMs)
              (addMs now self.staleMs) with
          | error => rfl
          | ok stored => simp only [alike.set ns key stored (storedEntry_suits made)]

end SwrCache

section Bodies

variable [DecidableEq ι]

/-- The code of each task, over stores with other code in the place of the answer to a
    typed entry. -/
def Task.bodyWith (stray : Code ι (Except CacheError Unit)) : Task ι → Code ι (Out ι)
  | .set cache ns key value opts => do
      return .done (← cache.setOn (cache.store.dynWith stray) ns key value opts)
  | .storeSet store ns key entry => do return .done (← (store.dynWith stray).set ns key entry)
  | .cacheValue cache ns key value freshUntil staleUntil => do
      cache.cacheValueTaskOn (cache.store.dynWith stray) ns key value freshUntil staleUntil
      return .done (.ok ())
  | .revalidate cache ns key => do
      cache.revalidateTaskOn (cache.store.dynWith stray) ns key
      return .done (.ok ())
  | .backfill lower ns key entry => do
      TieredStore.backfill (Store.dynListWith stray lower) ns key entry
      return .done (.ok ())
  | task => task.body

theorem Task.bodyWith_rejection (task : Task ι) :
    task.bodyWith RedisStore.rejection = task.body := by
  cases task <;> simp only [bodyWith, body, Store.dynWith_rejection,
    Store.dynListWith_rejection] <;> rfl

/-- Only a store that is called with it by hand gets a typed entry it has to reject. -/
theorem Task.bodyWith_stray (stray : Code ι (Except CacheError Unit)) {task : Task ι}
    (byHand : ∀ store ns key entry, task ≠ .storeSet store ns key entry) :
    task.bodyWith stray = task.body := by
  cases task with
  | set cache => simp only [bodyWith, body, SwrCache.setOn_alike cache.store.dynWith_alike]
  | cacheValue cache =>
      simp only [bodyWith, body, SwrCache.cacheValueTaskOn_alike cache.store.dynWith_alike]
  | revalidate cache =>
      simp only [bodyWith, body, SwrCache.revalidateTaskOn_alike cache.store.dynWith_alike]
  | backfill lower =>
      simp only [bodyWith, body, TieredStore.backfill_alike (Store.dynListWith_alike lower)]
  | storeSet => exact absurd rfl (byHand _ _ _ _)
  | get | remove | swr | storeGet | storeRemove | redisDel => rfl

end Bodies

/-! ## What a look-up shows -/

mutual
/-- No code from elsewhere is in the tree. -/
def Store.closed : Store → Bool
  | .hashMap .. | .moka _ | .redis .. => true
  | .tiered tiers => Store.allClosed tiers
  | .metrics inner _ => Store.closed inner
  | .ext .. => false

def Store.allClosed : List Store → Bool
  | [] => true
  | store :: stores => Store.closed store && Store.allClosed stores
end

/-- A leaf has shown the entry under the key. -/
inductive Sighted (past : Log ι) (cacheKey : String) : StoredEntry ι → Prop where
  | hashMap : ⟨.mapRead map cacheKey, (some stored, now)⟩ ∈ past → Sighted past cacheKey stored
  | moka : ⟨.mapGet map cacheKey, some stored⟩ ∈ past → Sighted past cacheKey stored
  | redis : ⟨.redisGet server cacheKey, .ok (some json)⟩ ∈ past →
      SerdeJson.metadataFromStr ι json = .ok metadata →
      Sighted past cacheKey (.serialized json metadata.freshUntil metadata.staleUntil)

theorem Sighted.mono {log log' : Log ι} {cacheKey : String} {stored : StoredEntry ι}
    (sighted : Sighted log cacheKey stored) (more : log ⊆ log') : Sighted log' cacheKey stored := by
  cases sighted with
  | hashMap shown => exact .hashMap (more shown)
  | moka shown => exact .moka (more shown)
  | redis shown stamps => exact .redis (more shown) stamps

/-- What a `get` returns, or spawns a back-fill with, a leaf has shown under the key. -/
structure DynStore.Shows (store : DynStore ι) : Prop where
  finds : ∀ {ns key log stored}, (store.get ns key).Yields log (.ok (some stored)) →
    Sighted log (buildCacheKey ns key) stored
  refills : ∀ {ns key log lower ns' key' entry},
    (store.get ns key).Reaches log (.spawn (.backfill lower ns' key' entry)) →
    ns' = ns ∧ key' = key ∧ Sighted log (buildCacheKey ns key) entry

theorem HashMapStore.shows (id : Nat) (evictOnSet : Option EvictOnSetConfig) :
    (dyn id evictOnSet : DynStore ι).Shows where
  finds yields := by
    simp only [dyn, get, Ask.mapRead_bind, Prog.yields_op] at yields
    obtain ⟨⟨found, now⟩, later, rfl, onward⟩ := yields
    cases found with
    | none => cases onward
    | some stored =>
        dsimp only at onward
        split at onward
        · simp only [Ask.mapExpire_bind, Prog.yields_op, Prog.pure_eq, Prog.yields_ret] at onward
          obtain ⟨_, _, _, _, none⟩ := onward
          cases none
        · cases onward
          exact .hashMap (List.mem_cons_self ..)
  refills reaches := by
    simp only [dyn, get, Ask.mapRead_bind, Prog.reaches_op] at reaches
    rcases reaches with ⟨_, other⟩ | ⟨⟨found, now⟩, later, rfl, onward⟩
    · cases other
    · cases found with
      | none => cases onward
      | some stored =>
          dsimp only at onward
          split at onward
          · simp only [Ask.mapExpire_bind, Prog.reaches_op, Prog.pure_eq,
              Prog.not_reaches_ret] at onward
            rcases onward with ⟨_, other⟩ | ⟨_, _, _, none⟩
            · cases other
            · exact none.elim
          · cases onward

theorem MokaStore.shows (id : Nat) : (dyn id : DynStore ι).Shows where
  finds yields := by
    simp only [dyn, get, Ask.mapGet_bind, Prog.yields_op] at yields
    obtain ⟨found, later, rfl, onward⟩ := yields
    cases found with
    | none => cases onward
    | some stored =>
        simp only [Ask.now_bind, Prog.yields_op] at onward
        obtain ⟨now, later, rfl, onward⟩ := onward
        split at onward
        · simp only [Ask.mapExpire_bind, Prog.yields_op, Prog.pure_eq, Prog.yields_ret] at onward
          obtain ⟨_, _, _, _, none⟩ := onward
          cases none
        · cases onward
          exact .moka (List.mem_cons_self ..)
  refills reaches := by
    simp only [dyn, get, Ask.mapGet_bind, Prog.reaches_op] at reaches
    rcases reaches with ⟨_, other⟩ | ⟨found, later, rfl, onward⟩
    · cases other
    · cases found with
      | none => cases onward
      | some stored =>
          simp only [Ask.now_bind, Prog.reaches_op] at onward
          rcases onward with ⟨_, other⟩ | ⟨now, later, rfl, onward⟩
          · cases other
          · split at onward
            · simp only [Ask.mapExpire_bind, Prog.reaches_op, Prog.pure_eq,
                Prog.not_reaches_ret] at onward
              rcases onward with ⟨_, other⟩ | ⟨_, _, _, none⟩
              · cases other
              · exact none.elim
            · cases onward

theorem RedisStore.shows (server : Nat) (disableExpiration : Bool) :
    (dyn server disableExpiration : DynStore ι).Shows where
  finds yields := by
    simp only [dyn, get, Ask.redisGet_bind, Prog.yields_op] at yields
    obtain ⟨result, later, rfl, onward⟩ := yields
    rcases result with e | _ | json
    · cases onward
    · cases onward
    · dsimp only at onward
      split at onward
      · cases onward
      · next metadata stamps =>
          simp only [Ask.now_bind, Prog.yields_op] at onward
          obtain ⟨now, later, rfl, onward⟩ := onward
          split at onward
          · simp only [Ask.spawn_bind, Prog.yields_op, Prog.pure_eq, Prog.yields_ret] at onward
            obtain ⟨_, _, _, _, none⟩ := onward
            cases none
          · cases onward
            exact .redis (List.mem_cons_self ..) stamps
  refills reaches := by
    simp only [dyn, get, Ask.redisGet_bind, Prog.reaches_op] at reaches
    rcases reaches with ⟨_, other⟩ | ⟨result, later, rfl, onward⟩
    · cases other
    · rcases result with e | _ | json
      · cases onward
      · cases onward
      · dsimp only at onward
        split at onward
        · cases onward
        · simp only [Ask.now_bind, Prog.reaches_op] at onward
          rcases onward with ⟨_, other⟩ | ⟨now, later, rfl, onward⟩
          · cases other
          · split at onward
            · simp only [Ask.spawn_bind, Prog.reaches_op, Prog.pure_eq,
                Prog.not_reaches_ret] at onward
              rcases onward with ⟨_, other⟩ | ⟨_, _, _, none⟩
              · cases other
              · exact none.elim
            · cases onward

theorem MetricsStore.shows {inner : DynStore ι} (shows : inner.Shows) (sink : Nat) :
    (dyn inner sink).Shows where
  finds yields := by
    obtain ⟨first, result, second, rfl, within, onward⟩ := Prog.yields_bind.mp yields
    rcases result with e | _ | entry
    · simp only [Prog.ret_bind, Prog.pure_eq, Ask.emit_bind, Prog.yields_op,
        Prog.yields_ret] at onward
      obtain ⟨_, _, _, _, same⟩ := onward
      cases same
    · simp only [Prog.ret_bind, Prog.pure_eq, Ask.emit_bind, Prog.yields_op,
        Prog.yields_ret] at onward
      obtain ⟨_, _, _, _, same⟩ := onward
      cases same
    · simp only [Ask.now_bind, Prog.ret_bind, Prog.pure_eq, Ask.emit_bind, Prog.yields_op,
        Prog.yields_ret] at onward
      obtain ⟨_, _, _, _, _, _, _, same⟩ := onward
      cases same
      exact (shows.finds within).mono (List.subset_append_left _ _)
  refills reaches := by
    rcases reaches.of_bind with within | ⟨first, result, second, rfl, _, onward⟩
    · exact shows.refills within
    · exfalso
      rcases result with e | _ | entry
      · simp only [Prog.ret_bind, Prog.pure_eq, Ask.emit_bind, Prog.reaches_op,
          Prog.not_reaches_ret] at onward
        rcases onward with ⟨_, other⟩ | ⟨_, _, _, none⟩
        · cases other
        · exact none
      · simp only [Prog.ret_bind, Prog.pure_eq, Ask.emit_bind, Prog.reaches_op,
          Prog.not_reaches_ret] at onward
        rcases onward with ⟨_, other⟩ | ⟨_, _, _, none⟩
        · cases other
        · exact none
      · simp only [Ask.now_bind, Prog.ret_bind, Prog.pure_eq, Ask.emit_bind, Prog.reaches_op,
          Prog.not_reaches_ret] at onward
        rcases onward with ⟨_, other⟩ | ⟨_, _, _, ⟨_, other⟩ | ⟨_, _, _, none⟩⟩
        · cases other
        · cases other
        · exact none

namespace TieredStore

theorem getFrom_finds {tiers : List (DynStore ι)} (each : ∀ tier ∈ tiers, tier.Shows)
    {lower : List (DynStore ι)} {ns key : String} {log : Log ι} {stored : StoredEntry ι}
    (yields : (getFrom lower tiers ns key).Yields log (.ok (some stored))) :
    Sighted log (buildCacheKey ns key) stored := by
  induction tiers generalizing lower log with
  | nil => cases yields
  | cons tier rest ih =>
      obtain ⟨shows, others⟩ := List.forall_mem_cons.mp each
      obtain ⟨first, result, second, rfl, within, onward⟩ := Prog.yields_bind.mp yields
      rcases result with e | _ | entry
      · cases onward
      · exact (ih others onward).mono (List.subset_append_right _ _)
      · have same : entry = stored := by
          dsimp only at onward
          split at onward
          · simp only [Ask.spawn_bind, Prog.yields_op, Prog.pure_eq, Prog.yields_ret] at onward
            obtain ⟨_, _, _, _, same⟩ := onward
            cases same
            rfl
          · cases onward
            rfl
        subst same
        exact (shows.finds within).mono (List.subset_append_left _ _)

theorem getFrom_refills {tiers : List (DynStore ι)} (each : ∀ tier ∈ tiers, tier.Shows)
    {before : List (DynStore ι)} {ns key : String} {log : Log ι} {lower : List Store}
    {ns' key' : String} {entry : StoredEntry ι}
    (reaches : (getFrom before tiers ns key).Reaches log
      (.spawn (.backfill lower ns' key' entry))) :
    ns' = ns ∧ key' = key ∧ Sighted log (buildCacheKey ns key) entry := by
  induction tiers generalizing before log with
  | nil => cases reaches
  | cons tier rest ih =>
      obtain ⟨shows, others⟩ := List.forall_mem_cons.mp each
      rcases reaches.of_bind with within | ⟨first, result, second, rfl, within, onward⟩
      · exact shows.refills within
      · rcases result with e | _ | found
        · cases onward
        · obtain ⟨rfl, rfl, sighted⟩ := ih others onward
          exact ⟨rfl, rfl, sighted.mono (List.subset_append_right _ _)⟩
        · dsimp only at onward
          split at onward
          · simp only [Ask.spawn_bind, Prog.reaches_op, Prog.pure_eq,
              Prog.not_reaches_ret] at onward
            rcases onward with ⟨_, same⟩ | ⟨_, _, _, none⟩
            · cases same
              exact ⟨rfl, rfl, (shows.finds within).mono (List.subset_append_left _ _)⟩
            · exact none.elim
          · cases onward

end TieredStore

namespace Store

mutual
theorem closed_shows : ∀ store : Store, store.closed = true → (store.dyn ι).Shows
  | .hashMap id evictOnSet, _ => HashMapStore.shows id evictOnSet
  | .moka id, _ => MokaStore.shows id
  | .redis server disableExpiration, _ => RedisStore.shows server disableExpiration
  | .tiered tiers, inside => {
      finds := TieredStore.getFrom_finds (allClosed_shows tiers inside)
      refills := TieredStore.getFrom_refills (allClosed_shows tiers inside) }
  | .metrics inner sink, inside => MetricsStore.shows (closed_shows inner inside) sink
  | .ext .., inside => by cases inside

theorem allClosed_shows :
    ∀ stores : List Store, Store.allClosed stores = true → ∀ tier ∈ dynList ι stores, tier.Shows
  | [], _, _, member => by simp [dynList] at member
  | store :: stores, inside, tier, member => by
      obtain ⟨here, others⟩ := Bool.and_eq_true_iff.mp inside
      rcases List.mem_cons.mp member with rfl | later
      · exact closed_shows store here
      · exact allClosed_shows stores others tier later
end

end Store

/-! ## What the world holds -/

section Holds

variable {known : String → StoredEntry ι → Prop}

/-- The server was given a time to live that ends with the entry. -/
def RedisItem.LastsFor (staleUntil : Int) (item : RedisItem) : Prop :=
  ∀ expireAt ∈ item.expireAt, ∃ t now, expireAt = t +
    RedisStore.calculateTtlSeconds staleUntil now * 1000

/-- All that the leaves hold is known. -/
structure World.Holds (known : String → StoredEntry ι → Prop) (w : World ι) : Prop where
  maps : ∀ map cacheKey stored, (w.maps map).lookup cacheKey = some stored → known cacheKey stored
  redis : ∀ server cacheKey item, w.redis server cacheKey = some item → ∃ freshUntil staleUntil,
    known cacheKey (.serialized item.json freshUntil staleUntil) ∧ item.LastsFor staleUntil

/-- What the command puts is known. -/
def Cmd.Places (known : String → StoredEntry ι → Prop) : Cmd ι → Prop
  | .mapInsert _ key entry => known key entry
  | .redisSet _ key json =>
      ∃ freshUntil staleUntil, known key (.serialized json freshUntil staleUntil)
  | .redisSetEx _ key json ttl => ∃ freshUntil staleUntil now,
      known key (.serialized json freshUntil staleUntil) ∧
      ttl = RedisStore.calculateTtlSeconds staleUntil now
  | _ => True

/-- What the answer shows is known. -/
def Told (known : String → StoredEntry ι → Prop) : (c : Cmd ι) → c.Ans → Prop
  | .mapRead _ key, (found, _) => ∀ stored ∈ found, known key stored
  | .mapGet _ key, found => ∀ stored ∈ found, known key stored
  | .redisGet _ key, .ok found => ∀ json ∈ found, ∃ freshUntil staleUntil,
      known key (.serialized json freshUntil staleUntil)
  | _, _ => True

private theorem holds_setMap {w : World ι} (holds : w.Holds known) {map : MapId} {m : HashMap ι}
    (all : ∀ cacheKey stored, m.lookup cacheKey = some stored → known cacheKey stored) :
    (w.setMap map m).Holds known where
  maps map' cacheKey stored found := by
    rw [World.setMap_maps] at found
    split at found
    · exact all cacheKey stored found
    · exact holds.maps map' cacheKey stored found
  redis := holds.redis

private theorem holds_erased {w : World ι} (holds : w.Holds known) {map : MapId} {m : HashMap ι}
    (fewer : ∀ cacheKey stored, m.lookup cacheKey = some stored →
      (w.maps map).lookup cacheKey = some stored) :
    (w.setMap map m).Holds known :=
  holds_setMap holds fun cacheKey stored found =>
    holds.maps map cacheKey stored (fewer cacheKey stored found)

private theorem holds_setRedis {w : World ι} (holds : w.Holds known) {server : Nat} {key : String}
    {item : RedisItem} {freshUntil staleUntil : Int}
    (here : known key (.serialized item.json freshUntil staleUntil))
    (lasts : item.LastsFor staleUntil) : (w.setRedis server key (some item)).Holds known where
  maps := holds.maps
  redis server' cacheKey item' found := by
    rw [World.setRedis_redis] at found
    split at found
    · next same =>
        obtain ⟨_, rfl⟩ := same
        obtain rfl := Option.some.inj found
        exact ⟨_, _, here, lasts⟩
    · exact holds.redis server' cacheKey item' found

private theorem holds_delRedis {w : World ι} (holds : w.Holds known) (server : Nat)
    (keys : List String) : (w.delRedis server keys).Holds known where
  maps := holds.maps
  redis server' cacheKey item found := by
    rw [World.delRedis_redis] at found
    split at found
    · cases found
    · exact holds.redis server' cacheKey item found

theorem holds_empty : (World.empty : World ι).Holds known where
  maps map cacheKey stored found := by simp [World.empty] at found
  redis server cacheKey item found := by cases found

theorem exec_holds {X : ExtSemantics ι} {i : Nat} {t : Int} {w w' : World ι} {c : Cmd ι} {r : c.Ans}
    (holds : w.Holds known) (places : c.Places known) (done : exec X i t w c r w') :
    w'.Holds known := by
  cases c
  case mapInsert =>
    obtain rfl := done
    refine holds_setMap holds fun cacheKey stored found => ?_
    rw [HashMap.lookup_insert] at found
    split at found
    · next same =>
        subst same
        obtain rfl := Option.some.inj found
        exact places
    · exact holds.maps _ cacheKey stored found
  case mapExpire =>
    obtain rfl := done
    refine holds_erased holds fun cacheKey stored found => ?_
    rw [HashMap.lookup_erase] at found
    split at found
    · cases found
    · exact found
  case mapRemove =>
    obtain rfl := done
    refine holds_erased holds fun cacheKey stored found => ?_
    rw [HashMap.lookup_eraseAll] at found
    split at found
    · cases found
    · exact found
  case mapEvict =>
    obtain ⟨order, _, rfl⟩ := done
    exact holds_erased holds fun _ _ => HashMap.lookup_evict
  case redisSet =>
    obtain ⟨freshUntil, staleUntil, here⟩ := places
    rcases done with ⟨_, rfl⟩ | ⟨_, _, rfl | rfl⟩
    · exact holds_setRedis holds here nofun
    · exact holds
    · exact holds_setRedis holds here nofun
  case redisSetEx =>
    obtain ⟨freshUntil, staleUntil, now, here, rfl⟩ := places
    have lasts : ∀ json, RedisItem.LastsFor staleUntil
        ⟨json, some (t + RedisStore.calculateTtlSeconds staleUntil now * 1000)⟩ := by
      rintro json _ ⟨⟩
      exact ⟨t, now, rfl⟩
    rcases done with ⟨_, rfl⟩ | ⟨_, _, rfl | rfl⟩
    · exact holds_setRedis holds here (lasts _)
    · exact holds
    · exact holds_setRedis holds here (lasts _)
  case redisDel =>
    rcases done with ⟨_, rfl⟩ | ⟨_, _, rfl | rfl⟩
    · exact holds_delRedis holds _ _
    · exact holds
    · exact holds_delRedis holds _ _
  case extGet | extSet | extRemove =>
    obtain ⟨m, _, rfl⟩ := done
    exact ⟨holds.maps, holds.redis⟩
  case now | rand | mapRead | mapGet | redisGet | containsKey =>
    obtain ⟨_, rfl⟩ := done
    exact holds
  case sleep | spawn | loadStart | loadEnd =>
    obtain rfl := done
    exact holds
  case insertMarker | removeMarker | emit =>
    obtain rfl := done
    exact ⟨holds.maps, holds.redis⟩

theorem holds_told {X : ExtSemantics ι} {i : Nat} {t : Int} {w w' : World ι} {c : Cmd ι} {r : c.Ans}
    (holds : w.Holds known) (done : exec X i t w c r w') : Told known c r := by
  cases c
  case mapRead =>
    obtain ⟨rfl, _⟩ := done
    exact fun stored found => holds.maps _ _ stored found
  case mapGet =>
    obtain ⟨rfl, _⟩ := done
    exact fun stored found => holds.maps _ _ stored found
  case redisGet server key =>
    obtain ⟨rfl | ⟨_, rfl⟩, _⟩ := done
    · intro json found
      obtain ⟨item, live, rfl⟩ := Option.map_eq_some_iff.mp found
      obtain ⟨freshUntil, staleUntil, here, _⟩ :=
        holds.redis server key item (Option.filter_eq_some_iff.mp live).1
      exact ⟨freshUntil, staleUntil, here⟩
    · trivial
  all_goals trivial

end Holds

/-! ## What a task does -/

/-- The task works for the cache, looks something up in a tree of the repository, or takes
    something away. -/
def Task.WorksFor (cache : SwrCache ι) : Task ι → Prop
  | .get cache' _ _ | .set cache' .. | .remove cache' _ _ | .swr cache' _ _ | .cacheValue cache' ..
  | .revalidate cache' _ _ => cache' = cache
  | .storeGet store _ _ => store.closed = true
  | .storeRemove .. | .backfill .. | .redisDel .. => True
  | .storeSet .. => False

/-- The command puts nothing, and spawns no back-fill. -/
def Cmd.Harmless (cache : SwrCache ι) (c : Cmd ι) : Prop :=
  c.isWrite = false ∧ ∀ task ∈ c.spawned, task.WorksFor cache ∧
    ∀ lower ns key stored, task ≠ .backfill lower ns key stored

/-- What code that writes nothing can issue after it was answered `past`. -/
inductive Cmd.Looks (cache : SwrCache ι) (past : Log ι) : Cmd ι → Prop where
  | refills : Sighted past (buildCacheKey ns key) stored →
      Looks cache past (.spawn (.backfill lower ns key stored))
  | harmless : c.Harmless cache → Looks cache past c

/-- What such a task can issue after it was answered `past`. -/
inductive Task.Acts (cache : SwrCache ι) (task : Task ι) (past : Log ι) : Cmd ι → Prop where
  | puts : task.Hands cache ns key first entry → first <+: past →
      c.Puts (Encodes entry) (buildCacheKey ns key) → Acts cache task past c
  | fills : task = .backfill lower ns key stored → c.spawned = [] → (∀ entry : Entry (Val cache.ty),
      Encodes entry stored → c.Puts (Encodes entry) (buildCacheKey ns key)) → Acts cache task past c
  | looks : c.Looks cache past → Acts cache task past c

section Acts

variable {cache : SwrCache ι} {ns key : String} {task : Task ι} {log : Log ι} {c : Cmd ι}

theorem encodes_converts {ty : ι} {e : Entry (Val ty)} : Converts (Encodes e) := by
  intro entry converted target encodes done
  cases encodes with
  | serialized written => cases target <;> cases done <;> exact .serialized written
  | typed =>
      cases target with
      | typed => cases done; exact .typed
      | serialized =>
          simp only [StoredEntry.fromTypedWithSerializer, StoredEntry.convertForMode,
            StoredEntry.toSerialized, StoredEntry.serialize] at done
          split at done
          · next json made =>
              cases done
              split at made
              · next written => cases made; exact .serialized written
              · cases made
          · cases done

theorem Cmd.Puts.spawned {P : StoredEntry ι → Prop} {cacheKey : String} (puts : c.Puts P cacheKey) :
    c.spawned = [] := by
  cases c <;> first | exact puts.elim | rfl

theorem Cmd.Takes.harmless {keys : List String} (takes : c.Takes ns keys) : c.Harmless cache := by
  cases c <;> first | exact takes.elim | exact ⟨rfl, Cmd.all_spawned rfl⟩

theorem Cmd.Looks.mono {log' : Log ι} (looks : c.Looks cache log) (more : log ⊆ log') :
    c.Looks cache log' := by
  cases looks with
  | refills sighted => exact .refills (sighted.mono more)
  | harmless harmless => exact .harmless harmless

/-- A look-up spawns a back-fill only with an entry that it was shown. -/
theorem looks_ofGet {store : DynStore ι} (shows : store.Shows) (plain : store.Plain)
    (reaches : (store.get ns key).Reaches log c) : c.Looks cache log := by
  obtain ⟨ofStore, reads⟩ := (plain.read ns key).reaches reaches
  cases c
  case spawn task' =>
    cases task'
    case backfill =>
      obtain ⟨rfl, rfl, sighted⟩ := shows.refills reaches
      exact .refills sighted
    case redisDel =>
      refine .harmless ⟨reads, ?_⟩
      rintro _ (_ | ⟨_, ⟨⟩⟩)
      exact ⟨trivial, nofun⟩
    all_goals exact ofStore.elim
  all_goals exact .harmless ⟨reads, Cmd.all_spawned rfl⟩

theorem SwrCache.Own.harmless (own : cache.Own ns key c) : c.Harmless cache := by
  cases c
  case spawn task' =>
    refine ⟨rfl, ?_⟩
    rintro _ (_ | ⟨_, ⟨⟩⟩)
    rcases own with rfl | ⟨_, _, _, rfl⟩
    · exact ⟨rfl, nofun⟩
    · exact ⟨rfl, nofun⟩
  all_goals first | exact own.elim | exact ⟨rfl, Cmd.all_spawned rfl⟩

/-- What a look-up of the cache issues. -/
theorem looksUp_closed (closed : cache.store.closed = true) :
    cache.LooksUp ns key (fun past next => next.Looks cache past) where
  reads reaches := looks_ofGet (cache.store.closed_shows closed) cache.dyn_plain reaches
  after _ _ _ looks := looks.mono (List.subset_append_right _ _)

variable [DecidableEq ι]

theorem Task.IsFor.acts (closed : cache.store.closed = true) (isFor : task.IsFor cache ns key)
    (reaches : task.body.Reaches log c) : task.Acts cache log c := by
  rcases isFor.reaches (looksUp_closed closed) reaches with
    (looks | ⟨own, _⟩) | ⟨first, entry, stored, second, hands, made, rfl, writes⟩ | ⟨_, removes⟩
  · exact .looks looks
  · exact .looks (.harmless (SwrCache.Own.harmless own))
  · have puts :=
      (Store.putsOnly encodes_converts cache.store ns key stored (storedEntry_encodes made)).reaches
        writes
    exact .puts hands (List.prefix_append _ _) puts
  · exact .looks (.harmless ((cache.store.remove_takes ns [key]).reaches removes).harmless)

theorem Task.WorksFor.acts (closed : cache.store.closed = true) (works : task.WorksFor cache)
    (reaches : task.body.Reaches log c) : task.Acts cache log c := by
  cases task with
  | get _ ns key | set _ ns key | remove _ ns key | swr _ ns key | cacheValue _ ns key
  | revalidate _ ns key =>
      obtain rfl := works
      exact Task.IsFor.acts closed ⟨rfl, rfl, rfl⟩ reaches
  | storeGet store ns key =>
      rcases reaches.of_bind with within | ⟨_, _, _, _, _, onward⟩
      · exact .looks (looks_ofGet (store.closed_shows works) store.plain within)
      · cases onward
  | storeSet => exact works.elim
  | storeRemove store ns keys =>
      rcases reaches.of_bind with within | ⟨_, _, _, _, _, onward⟩
      · exact .looks (.harmless ((store.remove_takes ns keys).reaches within).harmless)
      · cases onward
  | backfill lower ns key stored =>
      rcases reaches.of_bind with within | ⟨_, _, _, _, _, onward⟩
      · have anything : (TieredStore.backfill (Store.dynList ι lower) ns key stored).Only
            (Cmd.Puts (fun _ => True) (buildCacheKey ns key)) :=
          TieredStore.backfill_puts (fun _ _ => trivial) lower trivial
        exact .fills rfl (anything.reaches within).spawned fun entry encodes =>
          (TieredStore.backfill_puts encodes_converts lower encodes).reaches within
      · cases onward
  | redisDel server cacheKey =>
      have only : (Task.redisDel server cacheKey : Task ι).body.Only
          (fun c : Cmd ι => c = .redisDel server [cacheKey]) :=
        Prog.Only.bind (Prog.Only.bind (only_issue rfl) fun _ => trivial) fun _ => trivial
      obtain rfl := only.reaches reaches
      exact .looks (.harmless ⟨rfl, Cmd.all_spawned rfl⟩)

omit [DecidableEq ι] in
/-- What a task spawns works for the cache again, or is a back-fill. -/
theorem Task.Acts.worksFor {task' : Task ι} (acts : task.Acts cache log c)
    (member : task' ∈ c.spawned) : task'.WorksFor cache := by
  obtain rfl := Cmd.mem_spawned.mp member
  cases acts with
  | puts _ _ puts => exact puts.elim
  | fills _ none => cases none
  | looks looks =>
      cases looks with
      | refills => trivial
      | harmless harmless => exact (harmless.2 _ member).1

omit [DecidableEq ι] in
/-- A back-fill is spawned with an entry that was sighted. -/
theorem Task.Acts.refilled {lower : List Store} {stored : StoredEntry ι}
    (acts : task.Acts cache log c) (member : .backfill lower ns key stored ∈ c.spawned) :
    Sighted log (buildCacheKey ns key) stored := by
  have spawns := Cmd.mem_spawned.mp member
  subst spawns
  cases acts with
  | puts _ _ puts => exact puts.elim
  | fills _ none => cases none
  | looks looks =>
      cases looks with
      | refills sighted => exact sighted
      | harmless harmless => exact absurd rfl ((harmless.2 _ member).2 lower ns key stored)

end Acts

/-! ## Runs -/

section Runs

variable [DecidableEq ι] {X : ExtSemantics ι} {past : History (system X)} {s s' : Config (system X)}
  {l : Label (system X)} {cache : SwrCache ι} {cacheKey : String} {stored : StoredEntry ι}

/-- A step keeps the world to what is known, if what it puts is. -/
theorem holds_step {known : String → StoredEntry ι → Prop} (holds : s.world.Holds known)
    (taken : Step (system X) s l s') (places : ∀ i t c r, l = .exec i t c r → c.Places known) :
    s'.world.Holds known := by
  cases taken with
  | exec _ _ done => exact exec_holds holds (places _ _ _ _ rfl) done
  | start | turn | drop => exact holds

/-- What is told from a world that holds what is known is known. -/
theorem told_step {known : String → StoredEntry ι → Prop} (holds : s.world.Holds known)
    (told : ∀ i, ∀ e ∈ replies i past, Told known e.1 e.2) (taken : Step (system X) s l s') :
    ∀ i, ∀ e ∈ replies i ((s, l) :: past), Told known e.1 e.2 := by
  intro i e member
  rcases mem_replies_cons.mp member with earlier | ⟨t, here⟩
  · exact told i e earlier
  · subst here
    cases taken with
    | exec _ _ done => exact holds_told holds done

/-- The cache has written the entry for the composite key: one of its tasks has handed it
    to the store, and the store has begun to write. -/
def Wrote (cache : SwrCache ι) (past : History (system X)) (s : Config (system X))
    (cacheKey : String) (entry : Entry (Val cache.ty)) : Prop :=
  ∃ j th ns key first, s.threads[j]? = some th ∧ buildCacheKey ns key = cacheKey ∧
    th.task.Hands cache ns key first entry ∧ first <+: replies j past ∧
    ∃ e ∈ replies j past, e.1.isWrite = true

/-- The stored entry says what the cache has written for the composite key. -/
def Known (cache : SwrCache ι) (past : History (system X)) (s : Config (system X))
    (cacheKey : String) (stored : StoredEntry ι) : Prop :=
  ∃ entry : Entry (Val cache.ty), Encodes entry stored ∧ Wrote cache past s cacheKey entry

/-- All that is stored, was read or is carried by a back-fill is known. -/
structure Coherent (cache : SwrCache ι) (past : History (system X))
    (s : Config (system X)) : Prop where
  holds : s.world.Holds (Known cache past s)
  told : ∀ i, ∀ e ∈ replies i past, Told (Known cache past s) e.1 e.2
  carried : ∀ (i : Nat) (th : Thread (system X)) (lower : List Store) (ns key : String) (held :
    StoredEntry ι), s.threads[i]? = some th → th.task = .backfill lower ns key held →
    Known cache past s (buildCacheKey ns key) held

/-- The calls are calls on the cache, look-ups and removals. -/
def CallsOf (cache : SwrCache ι) (l : Label (system X)) : Prop :=
  ∀ task ∈ l.starting, task.isCall = true ∧ task.WorksFor cache

theorem Wrote.later {entry : Entry (Val cache.ty)} (taken : Step (system X) s l s')
    (wrote : Wrote cache past s cacheKey entry) :
    Wrote cache ((s, l) :: past) s' cacheKey entry := by
  obtain ⟨j, th, ns, key, first, at_j, same, hands, begins, e, member, writes⟩ := wrote
  obtain ⟨th', at_j', task, _⟩ := taken.persists at_j
  rw [← task] at hands
  exact ⟨j, th', ns, key, first, at_j', same, hands, begins.trans replies_prefix, e,
    replies_prefix.subset member, writes⟩

theorem Known.later (taken : Step (system X) s l s') (known : Known cache past s cacheKey stored) :
    Known cache ((s, l) :: past) s' cacheKey stored := by
  obtain ⟨entry, encodes, wrote⟩ := known
  exact ⟨entry, encodes, wrote.later taken⟩

omit [DecidableEq ι] in
theorem World.Holds.mono {known known' : String → StoredEntry ι → Prop} {w : World ι}
    (holds : w.Holds known) (more : ∀ cacheKey stored, known cacheKey stored →
      known' cacheKey stored) : w.Holds known' where
  maps map cacheKey stored found := more _ _ (holds.maps map cacheKey stored found)
  redis server cacheKey item found := by
    obtain ⟨freshUntil, staleUntil, here, lasts⟩ := holds.redis server cacheKey item found
    exact ⟨freshUntil, staleUntil, more _ _ here, lasts⟩

omit [DecidableEq ι] in
theorem Told.mono {known known' : String → StoredEntry ι → Prop} {c : Cmd ι} {r : c.Ans}
    (told : Told known c r) (more : ∀ cacheKey stored, known cacheKey stored →
      known' cacheKey stored) : Told known' c r := by
  cases c
  case mapRead | mapGet => exact fun stored found => more _ _ (told stored found)
  case redisGet =>
    cases r with
    | error => trivial
    | ok found =>
        intro json shown
        obtain ⟨freshUntil, staleUntil, here⟩ := told json shown
        exact ⟨freshUntil, staleUntil, more _ _ here⟩
  all_goals trivial

/-- A command that puts encodings of an entry puts what is known once the cache has
    written it. -/
theorem Cmd.Puts.places {entry : Entry (Val cache.ty)} {c : Cmd ι}
    (puts : c.Puts (Encodes entry) cacheKey) (wrote : c.isWrite = true →
      Wrote cache past s cacheKey entry) : c.Places (Known cache past s) := by
  cases c
  case mapInsert =>
    obtain ⟨rfl, encodes⟩ := puts
    exact ⟨entry, encodes, wrote rfl⟩
  case redisSet =>
    obtain ⟨rfl, freshUntil, staleUntil, encodes⟩ := puts
    exact ⟨freshUntil, staleUntil, entry, encodes, wrote rfl⟩
  case redisSetEx =>
    obtain ⟨rfl, freshUntil, staleUntil, now, encodes, ttl⟩ := puts
    exact ⟨freshUntil, staleUntil, now, ⟨entry, encodes, wrote rfl⟩, ttl⟩
  all_goals trivial

omit [DecidableEq ι] in
theorem Cmd.Harmless.places {known : String → StoredEntry ι → Prop} {c : Cmd ι}
    (harmless : c.Harmless cache) : c.Places known := by
  cases c
  case mapInsert | redisSet | redisSetEx => cases harmless.1
  all_goals trivial

/-- A step of a run, as what its task does. -/
theorem acts_step (closed : cache.store.closed = true) (run : Run (system X) (.idle .empty) past s)
    (calls : ∀ e ∈ past, CallsOf cache e.2) {i : Nat} {t : Int} {c : Cmd ι} {r : c.Ans}
    {s₁ : Config (system X)} {earlier : History (system X)}
    (step : (s₁, .exec i t c r) :: earlier <:+ past) : ∃ th, s₁.threads[i]? = some th ∧
    th.task.WorksFor cache ∧ th.task.Acts cache (replies i earlier) c :=
  run.acts (T := fun task : Task ι => task.WorksFor cache)
    (fun _ _ _ works reaches => works.acts closed reaches) (fun _ _ _ _ acts _ member =>
      acts.worksFor member) (fun _ task member => (calls _ member task rfl).2) step

variable [LawfulSerdeJson ι]

/-- What was sighted is known if all that was told is. -/
theorem Sighted.known {i : Nat} (told : ∀ e ∈ replies i past, Told (Known cache past s) e.1 e.2)
    (sighted : Sighted (replies i past) cacheKey stored) : Known cache past s cacheKey stored := by
  cases sighted with
  | hashMap shown => exact told _ shown _ rfl
  | moka shown => exact told _ shown _ rfl
  | redis shown stamps =>
      obtain ⟨_, _, entry, encodes, wrote⟩ := told _ shown _ rfl
      cases encodes with
      | serialized written =>
          obtain ⟨json, written', _, stamps'⟩ := LawfulSerdeJson.roundTrip cache.ty entry
          obtain rfl := Except.ok.inj (written.symm.trans written')
          obtain rfl := Except.ok.inj (stamps.symm.trans stamps')
          exact ⟨entry, .serialized written, wrote⟩

omit [LawfulSerdeJson ι] in
/-- What a step puts is known once it is taken. -/
theorem Coherent.places (coherent : Coherent cache past s) {i : Nat} {t : Int}
    {c : Cmd ι} {r : c.Ans} {th : Thread (system X)} (taken : Step (system X) s (.exec i t c r) s')
    (at_i : s.threads[i]? = some th) (acts : th.task.Acts cache (replies i past) c) :
    c.Places (Known cache ((s, .exec i t c r) :: past) s') := by
  cases acts with
  | puts hands begins puts =>
      refine puts.places fun writes => ?_
      obtain ⟨th', at_i', task, _⟩ := taken.persists at_i
      rw [← task] at hands
      refine ⟨i, th', _, _, _, at_i', rfl, hands, begins.trans replies_prefix, ⟨c, r⟩, ?_, writes⟩
      rw [replies_own]
      exact List.mem_append_right _ (List.mem_singleton_self _)
  | fills task _ puts =>
      obtain ⟨entry, encodes, wrote⟩ := coherent.carried i th _ _ _ _ at_i task
      exact (puts entry encodes).places fun _ => wrote.later taken
  | looks looks =>
      cases looks with
      | refills => trivial
      | harmless harmless => exact harmless.places

theorem run_coherent (closed : cache.store.closed = true)
    (run : Run (system X) (.idle .empty) past s) (calls : ∀ e ∈ past, CallsOf cache e.2) :
    Coherent cache past s := by
  induction run with
  | refl =>
      refine ⟨holds_empty, fun _ _ member => ?_, ?_⟩
      · cases member
      · intro i th _ _ _ _ at_i
        simp [Config.idle] at at_i
  | @step past s l s' before taken ih =>
      have coherent := ih fun e member => calls e (List.mem_cons_of_mem _ member)
      have holds := coherent.holds.mono fun _ _ => Known.later taken
      refine ⟨holds_step holds taken ?_, told_step holds ?_ taken, ?_⟩
      · rintro i t c r rfl
        obtain ⟨th, at_i, _, acts⟩ :=
          acts_step closed (before.step taken) calls (List.suffix_refl _)
        exact coherent.places taken at_i acts
      · exact fun i e member => (coherent.told i e member).mono fun _ _ => Known.later taken
      · intro i th lower ns key stored at_i task
        rcases taken.origin at_i with ⟨th₀, was_i, same⟩ |
          ⟨_, started | ⟨j, t, c, r, moved, spawned⟩⟩
        · exact (coherent.carried i th₀ lower ns key stored was_i (same.trans task)).later taken
        -- no back-fill is called
        · have call := (calls _ (List.mem_cons_self ..) th.task (by rw [started]; rfl)).1
          rw [task] at call
          cases call
        · subst moved
          obtain ⟨_, _, _, acts⟩ := acts_step closed (before.step taken) calls (List.suffix_refl _)
          rw [task] at spawned
          exact ((acts.refilled spawned).known (coherent.told j)).later taken

/-- Whatever tree of stores of the repository a cache writes to: no Redis store is handed
    a typed entry, and every leaf holds what the cache wrote, under the stamps it gave. -/
theorem format_coherence (closed : cache.store.closed = true)
    (run : Run (system X) (.idle .empty) past s) (calls : ∀ e ∈ past, CallsOf cache e.2) :
    (∀ th ∈ s.threads, ∀ stray : Code ι (Except CacheError Unit), th.task.bodyWith stray =
      th.task.body) ∧
    (∀ map cacheKey stored, (s.world.maps map).lookup cacheKey = some stored →
      ∃ entry : Entry (Val cache.ty), stored.intoTyped cache.ty = .ok entry ∧
        stored.freshUntil = entry.freshUntil ∧ stored.staleUntil = entry.staleUntil ∧
        Wrote cache past s cacheKey entry) ∧
    ∀ server cacheKey item, s.world.redis server cacheKey = some item →
      ∃ (entry : Entry (Val cache.ty)) (metadata : EntryMetadata),
        SerdeJson.metadataFromStr ι item.json = .ok metadata ∧
        (StoredEntry.serialized item.json metadata.freshUntil metadata.staleUntil).intoTyped
          cache.ty = .ok entry ∧
        metadata = ⟨entry.freshUntil, entry.staleUntil⟩ ∧ item.LastsFor entry.staleUntil ∧
        Wrote cache past s cacheKey entry := by
  have coherent := run_coherent closed run calls
  refine ⟨fun th member stray => ?_, fun map cacheKey stored found =>
    ?_, fun server cacheKey item found => ?_⟩
  · obtain ⟨i, at_i⟩ := List.getElem?_of_mem member
    have works : th.task.WorksFor cache := run.tasks (T := fun task : Task ι => task.WorksFor cache)
      (fun _ _ _ works reaches _ member => (works.acts closed reaches).worksFor member)
      (fun _ task member => (calls _ member task rfl).2) at_i
    refine Task.bodyWith_stray stray fun _ _ _ _ byHand => ?_
    rw [byHand] at works
    exact works
  · obtain ⟨entry, encodes, wrote⟩ := coherent.holds.maps map cacheKey stored found
    exact ⟨entry, encodes.intoTyped, encodes.freshUntil, encodes.staleUntil, wrote⟩
  · obtain ⟨_, _, ⟨entry, encodes, wrote⟩, lasts⟩ := coherent.holds.redis server cacheKey item found
    cases encodes with
    | serialized written =>
        obtain ⟨json, written', _, stamps⟩ := LawfulSerdeJson.roundTrip cache.ty entry
        obtain rfl := Except.ok.inj (written.symm.trans written')
        exact ⟨entry, _, stamps, Encodes.intoTyped (.serialized written), rfl, lasts, wrote⟩

attribute [local semireducible] Json.valueKey Json.freshKey Json.staleKey Json.closing

/-- A typed tier behind metrics, and a Redis server. -/
def nestedCache : SwrCache Unit := .new () (.tiered [.metrics (.moka 0) 0, .redis 0 false]) 10 20 0

/-- One `set` through the tree. -/
theorem format_coherence_nested :
    ∃ (past : History (system .atomicMap)) (s : Config (system .atomicMap)),
    Run (system .atomicMap) (.idle (.empty : World Unit)) past s ∧
    (∃ stored, (s.world.maps (.moka 0)).lookup "ns:k" = some stored ∧
      ∃ entry : Entry Bool, stored.intoTyped () = .ok entry ∧
      Wrote nestedCache past s "ns:k" entry) ∧
    ∃ item, s.world.redis 0 "ns:k" = some item ∧
    ∃ entry : Entry Bool, Wrote nestedCache past s "ns:k" entry := by
  obtain ⟨past, s, played, called, ⟨stored, held⟩, item, kept⟩ : ∃ past s,
      driver.play (fun _ _ => True) [.start (.set nestedCache "ns" "k" true none),
        .go 0 (reading 0), .turn 0 true, .go 0 (reading 0), .turn 0 true, .go 0 (reading 0),
        .go 0 (reading 0), .go 0 (reading 0)] ([], .idle .empty) = some (past, s) ∧
      past.filterMap (fun e => e.2.starting) = [.set nestedCache "ns" "k" true none] ∧
      (∃ stored, (s.world.maps (.moka 0)).lookup "ns:k" = some stored) ∧
      ∃ item, s.world.redis 0 "ns:k" = some item :=
    ⟨_, _, rfl, rfl, ⟨_, rfl⟩, _, rfl⟩
  obtain ⟨run, _⟩ := Driver.plays played
  have calls : ∀ e ∈ past, CallsOf nestedCache e.2 := by
    intro e member task starts
    have among : task ∈ past.filterMap (fun e => e.2.starting) :=
      List.mem_filterMap.mpr ⟨e, member, starts⟩
    rw [called] at among
    obtain rfl : task = .set nestedCache "ns" "k" true none := by simpa using among
    exact ⟨rfl, rfl⟩
  obtain ⟨_, maps, redis⟩ := format_coherence rfl run calls
  obtain ⟨entry, decodes, _, _, wrote⟩ := maps _ _ _ held
  obtain ⟨entry', _, _, _, _, _, wrote'⟩ := redis _ _ _ kept
  exact ⟨past, s, run, ⟨stored, held, entry, decodes, wrote⟩, item, kept, entry', wrote'⟩

end Runs

end Swr
