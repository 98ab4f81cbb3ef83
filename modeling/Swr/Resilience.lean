import Swr.Coherence
import Swr.RedisExpiry

/-! # Resilience

A cache with a Redis tier that lets nothing expire, on a server of its own. Once a key
was written there, every look-up of the key finds an entry, whatever the in-memory tiers
have dropped and whatever the origin does.
-/

namespace Swr

open Async

variable {ι : Type} [SerdeJson ι]

/-! ## The tiers -/

/-- A `HashMapStore` or a `MokaStore`. -/
def Store.isLocal : Store → Bool
  | .hashMap .. | .moka _ => true
  | _ => false

/-- A tier that may drop what it holds, or one that never does. -/
def Store.unexpiring : Store → Bool
  | .hashMap .. | .moka _ | .redis _ true => true
  | _ => false

theorem Store.unexpiring_closed {tiers : List Store}
    (kinds : ∀ tier ∈ tiers, tier.unexpiring = true) : Store.allClosed tiers = true := by
  induction tiers with
  | nil => rfl
  | cons tier rest ih =>
      obtain ⟨here, others⟩ := List.forall_mem_cons.mp kinds
      have closed : tier.closed = true := by
        cases tier <;> first | rfl | cases here
      simp [allClosed, closed, ih others]

/-! ## What the tasks uphold -/

/-- The task works for the cache, without a removal of the key, or drops entries of an
    in-memory store. -/
def Task.Upholds (cache : Cache ι) (key : String) : Task ι → Prop
  | .get cache' ns _ | .set cache' ns .. | .swr cache' ns _ | .cacheValue cache' ns .. |
      .revalidate cache' ns _ =>
      cache' = cache.swrCache ∧ ns = cache.ns
  | .remove cache' ns key' => cache' = cache.swrCache ∧ ns = cache.ns ∧ key' ≠ key
  | .storeRemove store _ _ => store.isLocal = true
  | .backfill lower .. => ∀ tier ∈ lower, tier.unexpiring = true
  | _ => False

/-- The command takes no key from a server that it does not give back, and what it spawns
    does not either. -/
def Cmd.Upholds (cache : Cache ι) (key : String) : Cmd ι → Prop
  | .spawn task => task.Upholds cache key
  | .redisSetEx .. => False
  | .redisDel _ cacheKeys => buildCacheKey cache.ns key ∉ cacheKeys
  | _ => True

section Upholds

variable {cache : Cache ι} {key : String}

/-- The methods of a store uphold the key, but for its own removal. -/
structure DynStore.Upholds (cache : Cache ι) (key : String) (store : DynStore ι) : Prop where
  arc : store.arc.unexpiring = true
  get : ∀ ns key', (store.get ns key').Only (Cmd.Upholds cache key)
  set : ∀ ns key' entry, (store.set ns key' entry).Only (Cmd.Upholds cache key)

theorem HashMapStore.upholds (id : Nat) (evictOnSet : Option EvictOnSetConfig) :
    (dyn id evictOnSet).Upholds cache key where
  arc := rfl
  get _ _ := get_only trivial trivial
  set _ _ _ := set_only trivial fun _ _ => ⟨trivial, trivial⟩

theorem MokaStore.upholds (id : Nat) : (dyn id).Upholds cache key where
  arc := rfl
  get _ _ := get_only trivial trivial trivial
  set _ _ _ := set_only trivial

theorem RedisStore.upholds (server : Nat) : (dyn server true).Upholds cache key where
  arc := rfl
  get _ _ := get_only trivial trivial fun expiring => by cases expiring
  set ns key' entry := by
    cases entry with
    | typed => trivial
    | serialized json freshUntil =>
        simp only [dyn]
        refine set_only freshUntil trivial (fun _ => trivial) fun expiring => ?_
        cases expiring

theorem Store.upholds {tier : Store} (kind : tier.unexpiring = true) :
    (tier.dyn ι).Upholds cache key := by
  unfold Store.unexpiring at kind
  split at kind
  · simp only [Store.dyn]
    exact HashMapStore.upholds _ _
  · simp only [Store.dyn]
    exact MokaStore.upholds _
  · simp only [Store.dyn]
    exact RedisStore.upholds _
  · cases kind

theorem Store.all_uphold {tiers : List Store} (kinds : ∀ tier ∈ tiers, tier.unexpiring = true) :
    ∀ tier ∈ dynList ι tiers, tier.Upholds cache key := by
  intro tier member
  rw [Store.dynList_eq_map] at member
  obtain ⟨store, inside, rfl⟩ := List.mem_map.mp member
  exact Store.upholds (kinds store inside)

namespace TieredStore

variable {tiers : List (DynStore ι)} (each : ∀ tier ∈ tiers, tier.Upholds cache key)

include each

theorem get_upholds (ns key' : String) : (get tiers ns key').Only (Cmd.Upholds cache key) := by
  refine getFrom_only (fun tier inTiers => (each tier inTiers).get ns key')
    fun part inside stored store member => ?_
  obtain ⟨tier, inPart, rfl⟩ := List.mem_map.mp member
  exact (each tier (inside inPart)).arc

theorem set_upholds (ns key' : String) (entry : StoredEntry ι) :
    (set tiers ns key' entry).Only (Cmd.Upholds cache key) :=
  set_only fun tier inTiers => setTier_only fun converted _ =>
    (each tier inTiers).set ns key' converted

theorem backfill_upholds (ns key' : String) (entry : StoredEntry ι) :
    (backfill tiers ns key' entry).Only (Cmd.Upholds cache key) :=
  backfill_only fun tier inTiers converted _ => (each tier inTiers).set ns key' converted

end TieredStore

theorem Cmd.Takes.upholds {c : Cmd ι} {key' : String} (takes : c.Takes cache.ns [key'])
    (other : key' ≠ key) : c.Upholds cache key := by
  cases c
  case redisDel server cacheKeys =>
    intro member
    obtain ⟨key'', here, same⟩ := takes _ member
    rw [List.mem_singleton.mp here] at same
    exact other (buildCacheKey_inj.mp same)
  all_goals first | exact takes.elim | trivial

variable {tiers : List Store} (stores : cache.swrCache.store = .tiered tiers)
  (kinds : ∀ tier ∈ tiers, tier.unexpiring = true)

include stores kinds

theorem looksUp_upholds (key' : String) :
    cache.swrCache.LooksUp cache.ns key' (fun _ c => c.Upholds cache key) where
  reads reaches := by
    rw [SwrCache.dyn, stores, Store.dyn] at reaches
    exact (TieredStore.get_upholds (Store.all_uphold kinds) _ _).reaches reaches
  after _ _ _ upholds := upholds

variable [DecidableEq ι]

theorem Task.IsFor.upholds {task : Task ι} {key' : String}
    (isFor : task.IsFor cache.swrCache cache.ns key')
    (spares : task ≠ .remove cache.swrCache cache.ns key) {log : Log ι} {c : Cmd ι}
    (reaches : task.body.Reaches log c) : c.Upholds cache key := by
  rcases isFor.reaches (looksUp_upholds stores kinds key') reaches with
    (reads | ⟨own, _⟩) | ⟨_, _, _, _, _, _, _, writes⟩ | ⟨rfl, removes⟩
  · exact reads
  · cases c
    case spawn task =>
      rcases own with rfl | ⟨_, _, _, rfl⟩
      · exact ⟨rfl, rfl⟩
      · exact ⟨rfl, rfl⟩
    all_goals first | exact own.elim | trivial
  · rw [SwrCache.dyn, stores, Store.dyn] at writes
    exact (TieredStore.set_upholds (Store.all_uphold kinds) _ _ _).reaches writes
  · refine ((cache.swrCache.store.remove_takes cache.ns [key']).reaches removes).upholds ?_
    rintro rfl
    exact spares rfl

omit stores kinds [DecidableEq ι] in
theorem Task.Upholds.cases {task : Task ι} (upholds : task.Upholds cache key) :
    (∃ key', task.IsFor cache.swrCache cache.ns key' ∧ task ≠ .remove cache.swrCache cache.ns key) ∨
    (∃ store ns keys, task = .storeRemove store ns keys ∧ store.isLocal = true) ∨
    ∃ lower ns key' entry, task = .backfill lower ns key' entry ∧
    ∀ tier ∈ lower, tier.unexpiring = true := by
  cases task with
  | get _ _ key' | set _ _ key' | swr _ _ key' | cacheValue _ _ key' | revalidate _ _ key' =>
      exact .inl ⟨key', ⟨upholds.1, upholds.2, rfl⟩, by simp⟩
  | remove _ _ key' =>
      obtain ⟨rfl, rfl, other⟩ := upholds
      exact .inl ⟨key', ⟨rfl, rfl, rfl⟩, by simpa using other⟩
  | storeRemove store ns keys => exact .inr (.inl ⟨store, ns, keys, rfl, upholds⟩)
  | backfill lower ns key' entry => exact .inr (.inr ⟨lower, ns, key', entry, rfl, upholds⟩)
  | storeGet | storeSet | redisDel => exact upholds.elim

omit stores kinds [DecidableEq ι] in
/-- An in-memory store that drops entries takes nothing from a server. -/
theorem Store.local_upholds {store : Store} (isLocal : store.isLocal = true) (ns : String)
    (keys : List String) : ((store.dyn ι).remove ns keys).Only (Cmd.Upholds cache key) := by
  cases store with
  | hashMap id evictOnSet =>
      simp only [Store.dyn]
      exact (only_issue trivial).bind fun _ => trivial
  | moka id =>
      simp only [Store.dyn, MokaStore.dyn]
      induction keys with
      | nil => trivial
      | cons key' keys ih => exact (only_issue trivial).bind fun _ => ih
  | redis | tiered | metrics | ext => cases isLocal

theorem Task.Upholds.reaches {task : Task ι} (upholds : task.Upholds cache key)
    {log : Log ι} {c : Cmd ι} (reaches : task.body.Reaches log c) : c.Upholds cache key := by
  rcases upholds.cases with ⟨key', isFor, spares⟩ | ⟨store, ns, keys, rfl, isLocal⟩ |
    ⟨lower, ns, key', entry, rfl, tiers⟩
  · exact isFor.upholds stores kinds spares reaches
  · rcases reaches.of_bind with within | ⟨_, _, _, _, _, onward⟩
    · exact (Store.local_upholds isLocal ns keys).reaches within
    · cases onward
  · rcases reaches.of_bind with within | ⟨_, _, _, _, _, onward⟩
    · exact (TieredStore.backfill_upholds (Store.all_uphold tiers) ns key' entry).reaches within
    · cases onward

end Upholds

/-! ## What a look-up returns -/

/-- No look-up failed, what was read under the key parses, and the server had the key. -/
structure Serves (server : Nat) (cacheKey : String) (past : Log ι) : Prop where
  answered : ∀ e ∈ past, e.1.answered e.2 = true
  parses : ∀ server' json, ⟨.redisGet server' cacheKey, .ok (some json)⟩ ∈ past →
    ∃ metadata, SerdeJson.metadataFromStr ι json = .ok metadata
  kept : ∀ r, ⟨.redisGet server cacheKey, r⟩ ∈ past → ∃ json, r = .ok (some json)

section Serves

variable {server : Nat} {cacheKey ns key : String} {log log' : Log ι}
  {result : Except CacheError (Option (StoredEntry ι))}

theorem Serves.part (serves : Serves server cacheKey log) (part : log' ⊆ log) :
    Serves server cacheKey log' where
  answered e member := serves.answered e (part member)
  parses server' json member := serves.parses server' json (part member)
  kept r member := serves.kept r (part member)

theorem HashMapStore.get_ok (id : Nat) (evictOnSet : Option EvictOnSetConfig)
    (yields : ((dyn id evictOnSet).get ns key).Yields log result) :
    ∃ found, result = .ok found := by
  simp only [dyn, get, Ask.mapRead_bind, Prog.yields_op] at yields
  obtain ⟨⟨found, now⟩, later, rfl, onward⟩ := yields
  cases found with
  | none => cases onward; exact ⟨_, rfl⟩
  | some stored =>
      dsimp only at onward
      split at onward
      · simp only [Ask.mapExpire_bind, Prog.yields_op, Prog.pure_eq, Prog.yields_ret] at onward
        obtain ⟨_, _, _, _, rfl⟩ := onward
        exact ⟨_, rfl⟩
      · cases onward
        exact ⟨_, rfl⟩

theorem MokaStore.get_ok (id : Nat) (yields : ((dyn id).get ns key).Yields log result) :
    ∃ found, result = .ok found := by
  simp only [dyn, get, Ask.mapGet_bind, Prog.yields_op] at yields
  obtain ⟨found, later, rfl, onward⟩ := yields
  cases found with
  | none => cases onward; exact ⟨_, rfl⟩
  | some stored =>
      simp only [Ask.now_bind, Prog.yields_op] at onward
      obtain ⟨now, later, rfl, onward⟩ := onward
      split at onward
      · simp only [Ask.mapExpire_bind, Prog.yields_op, Prog.pure_eq, Prog.yields_ret] at onward
        obtain ⟨_, _, _, _, rfl⟩ := onward
        exact ⟨_, rfl⟩
      · cases onward
        exact ⟨_, rfl⟩

/-- Without expiration a store shows whatever the server answers. -/
theorem RedisStore.get_ok {server' : Nat} (serves : Serves server (buildCacheKey ns key) log)
    (yields : ((dyn server' true).get ns key).Yields log result) :
    ∃ found, result = .ok found ∧ (server' = server → found.isSome = true) := by
  simp only [dyn, get, Ask.redisGet_bind, Prog.yields_op] at yields
  obtain ⟨answer, later, rfl, onward⟩ := yields
  rcases answer with e | _ | json
  · cases serves.answered _ (List.mem_cons_self ..)
  · cases onward
    refine ⟨none, rfl, ?_⟩
    rintro rfl
    obtain ⟨_, missed⟩ := serves.kept _ (List.mem_cons_self ..)
    cases missed
  · obtain ⟨metadata, stamps⟩ := serves.parses _ _ (List.mem_cons_self ..)
    simp only [stamps, Ask.now_bind, Prog.yields_op, Bool.not_true, Bool.false_eq_true,
      and_false, if_false, Prog.pure_eq, Prog.yields_ret] at onward
    obtain ⟨_, _, _, _, rfl⟩ := onward
    exact ⟨_, rfl, fun _ => rfl⟩

theorem Store.get_ok {tier : Store} (kind : tier.unexpiring = true)
    (serves : Serves server (buildCacheKey ns key) log)
    (yields : ((tier.dyn ι).get ns key).Yields log result) :
    ∃ found, result = .ok found ∧ (tier = .redis server true → found.isSome = true) := by
  unfold Store.unexpiring at kind
  split at kind
  · rw [Store.dyn] at yields
    obtain ⟨found, same⟩ := HashMapStore.get_ok _ _ yields
    exact ⟨found, same, nofun⟩
  · rw [Store.dyn] at yields
    obtain ⟨found, same⟩ := MokaStore.get_ok _ yields
    exact ⟨found, same, nofun⟩
  · rw [Store.dyn] at yields
    obtain ⟨found, same, kept⟩ := RedisStore.get_ok serves yields
    refine ⟨found, same, ?_⟩
    rintro ⟨⟩
    exact kept rfl
  · cases kind

/-- The tiers find an entry, at the latest on the server that has the key. -/
theorem TieredStore.getFrom_serves {tiers : List Store}
    (kinds : ∀ tier ∈ tiers, tier.unexpiring = true) (member : .redis server true ∈ tiers)
    {lower : List (DynStore ι)} (serves : Serves server (buildCacheKey ns key) log)
    (yields : (getFrom lower (Store.dynList ι tiers) ns key).Yields log result) :
    ∃ stored, result = .ok (some stored) := by
  induction tiers generalizing lower log with
  | nil => cases member
  | cons tier rest ih =>
      obtain ⟨here, others⟩ := List.forall_mem_cons.mp kinds
      rw [Store.dynList, getFrom] at yields
      obtain ⟨first, answer, second, rfl, within, onward⟩ := Prog.yields_bind.mp yields
      obtain ⟨found, rfl, kept⟩ :=
        Store.get_ok here (serves.part (List.subset_append_left _ _)) within
      cases found with
      | none =>
          have later : .redis server true ∈ rest := by
            rcases List.mem_cons.mp member with same | later
            · cases kept same.symm
            · exact later
          exact ih others later (serves.part (List.subset_append_right _ _)) onward
      | some stored =>
          dsimp only at onward
          split at onward
          · simp only [Ask.spawn_bind, Prog.yields_op, Prog.pure_eq, Prog.yields_ret] at onward
            obtain ⟨_, _, _, _, rfl⟩ := onward
            exact ⟨stored, rfl⟩
          · cases onward
            exact ⟨stored, rfl⟩

end Serves

/-! ## Runs -/

section Runs

variable [DecidableEq ι] {X : ExtSemantics ι} {past later earlier : History (system X)}
  {s s₁ : Config (system X)} {cache : Cache ι} {tiers : List Store} {server : Nat} {key : String}

/-- The calls are calls on the cache that do not remove the key. An in-memory store may
    drop what it holds. -/
def Upholding (cache : Cache ι) (key : String) (l : Label (system X)) : Prop :=
  ∀ task ∈ l.starting, task.isCall = true ∧ task.Upholds cache key

theorem Upholding.callsOf {l : Label (system X)} (upholding : Upholding cache key l) :
    CallsOf cache.swrCache l := by
  intro task starts
  obtain ⟨call, upholds⟩ := upholding task starts
  refine ⟨call, ?_⟩
  rcases upholds.cases with ⟨key', isFor, _⟩ | ⟨_, _, _, rfl, _⟩ | ⟨_, _, _, _, rfl, _⟩
  · cases task <;> first | exact isFor.1 | exact isFor.elim
  · trivial
  · cases call

variable (stores : cache.swrCache.store = .tiered tiers)
  (kinds : ∀ tier ∈ tiers, tier.unexpiring = true)

include stores kinds

/-- A step of a run, as what it upholds. -/
theorem upholds_step (run : Run (system X) (.idle .empty) past s)
    (calls : ∀ e ∈ past, Upholding cache key e.2) {i : Nat} {t : Int} {c : Cmd ι} {r : c.Ans}
    (step : (s₁, .exec i t c r) :: earlier <:+ past) : c.Upholds cache key := by
  obtain ⟨_, _, _, upholds⟩ := run.acts (T := fun task : Task ι => task.Upholds cache key)
    (A := fun _ _ (c : Cmd ι) => c.Upholds cache key)
    (fun _ _ _ upholds reaches => upholds.reaches stores kinds reaches)
    (fun _ _ c _ upholds task member => by
      obtain rfl := Cmd.mem_spawned.mp member
      exact upholds)
    (fun _ task member => (calls _ member task rfl).2) step
  exact upholds

omit stores kinds [DecidableEq ι] in
theorem exec_upholds {i : Nat} {t : Int} {w w' : World ι} {c : Cmd ι} {r : c.Ans}
    (upholds : c.Upholds cache key) (done : exec X i t w c r w')
    (had : ∃ json, w.redis server (buildCacheKey cache.ns key) = some ⟨json, none⟩) :
    ∃ json, w'.redis server (buildCacheKey cache.ns key) = some ⟨json, none⟩ := by
  cases outcome : c.redisOutcome t server (buildCacheKey cache.ns key) with
  | none =>
      rw [exec_untouched outcome done]
      exact had
  | some left =>
      cases c
      case redisSet server' cacheKey json =>
        simp only [Cmd.redisOutcome] at outcome
        split at outcome
        · next here =>
            rcases done with ⟨_, rfl⟩ | ⟨_, _, rfl | rfl⟩
            · exact ⟨json, by rw [World.setRedis_redis, if_pos here]⟩
            · exact had
            · exact ⟨json, by rw [World.setRedis_redis, if_pos here]⟩
        · cases outcome
      case redisDel server' cacheKeys =>
        simp only [Cmd.redisOutcome] at outcome
        split at outcome
        · next here => exact absurd here.2 upholds
        · cases outcome
      case redisSetEx => exact upholds.elim
      all_goals cases outcome

/-- A key that the server has stays there, and is found by all that starts later. -/
theorem kept_on_server {k : Nat} {t : Int} {json : String}
    {written : Config (system X) × Label (system X)}
    (writes : written =
      (s₁, .exec k t (.redisSet server (buildCacheKey cache.ns key) json) (.ok ())))
    (run : Run (system X) (.idle .empty) (later ++ written :: earlier) s)
    (calls : ∀ e ∈ later ++ written :: earlier, Upholding cache key e.2)
    (served : ∀ e ∈ later ++ written :: earlier, RedisStore.served e.2 = true) :
    (∃ json, s.world.redis server (buildCacheKey cache.ns key) = some ⟨json, none⟩) ∧
      ∀ i, s₁.threads.length ≤ i → ∀ found,
        ⟨.redisGet server (buildCacheKey cache.ns key), found⟩ ∈
          replies i (later ++ written :: earlier) → ∃ json, found = .ok (some json) := by
  induction later generalizing s with
  | nil =>
      subst writes
      cases run with
      | step before taken =>
          cases taken with
          | exec at_k _ done =>
              rcases done with ⟨_, rfl⟩ | ⟨_, failed, _⟩
              · refine ⟨⟨json, by simp [World.setRedis]⟩, fun i new found member => ?_⟩
                rcases mem_replies_cons.mp member with answered | ⟨_, ⟨⟩⟩
                -- thread `i` has not been started yet
                rw [replies, before.trace_unstarted new] at answered
                cases answered
              · cases failed
  | cons e later ih =>
      cases run with
      | @step _ s₀ l _ before taken =>
          obtain ⟨had, found⟩ := ih before (fun e member => calls e (List.mem_cons_of_mem _ member))
            (fun e member => served e (List.mem_cons_of_mem _ member))
          cases taken with
          | start | turn | drop =>
              refine ⟨had, fun i new r member => found i new r ?_⟩
              rw [List.cons_append, replies_foreign (by simp [Label.Foreign])] at member
              exact member
          | @exec _ j th c rest t' r' w at_j next done =>
              have taken := Step.exec at_j next done
              have upholds :=
                upholds_step stores kinds (before.step taken) calls (List.suffix_refl _)
              refine ⟨exec_upholds upholds done had, fun i new r member => ?_⟩
              rcases mem_replies_cons.mp member with before | ⟨_, ⟨⟩⟩
              · exact found i new r before
              · obtain ⟨json', has⟩ := had
                rcases done.1 with answer | ⟨_, failed⟩
                · rw [World.readRedis, has] at answer
                  exact ⟨json', answer⟩
                · have answered := served _ (List.mem_cons_self ..)
                  subst failed
                  cases answered

variable [LawfulSerdeJson ι]

/-- A task that starts after the write misses the key in no look-up. -/
theorem no_miss {i k : Nat} {t : Int} {json : String}
    {written : Config (system X) × Label (system X)} (onServer : .redis server true ∈ tiers)
    (writes : written =
      (s₁, .exec k t (.redisSet server (buildCacheKey cache.ns key) json) (.ok ())))
    (run : Run (system X) (.idle .empty) (later ++ written :: earlier) s)
    (calls : ∀ e ∈ later ++ written :: earlier, Upholding cache key e.2)
    (served : ∀ e ∈ later ++ written :: earlier, RedisStore.served e.2 = true)
    (since : s₁.threads.length ≤ i) {look : Log ι}
    (part : look ⊆ replies i (later ++ written :: earlier)) :
    ¬ cache.swrCache.Misses cache.ns key look := by
  rintro ⟨result, yields, undecodable⟩
  have closed : cache.swrCache.store.closed = true := by
    rw [stores]
    exact Store.unexpiring_closed kinds
  have coherent := run_coherent closed run fun e member => (calls e member).callsOf
  have serves :
      Serves server (buildCacheKey cache.ns key) (replies i (later ++ written :: earlier)) := by
    refine ⟨fun e member => ?_, fun server' json' member => ?_, ?_⟩
    · obtain ⟨⟨t', c, r⟩, inTrace, rfl⟩ := List.mem_map.mp member
      obtain ⟨s₂, _, step⟩ := step_of_mem_trace inTrace
      exact served (s₂, .exec i t' c r) (step.subset (List.mem_cons_self ..))
    · obtain ⟨_, _, entry, encodes, _⟩ := coherent.told i _ member json' rfl
      cases encodes with
      | serialized rendered =>
          obtain ⟨_, rendered', _, stamps⟩ := LawfulSerdeJson.roundTrip cache.swrCache.ty entry
          obtain rfl := Except.ok.inj (rendered.symm.trans rendered')
          exact ⟨_, stamps⟩
    · exact fun found member =>
        (kept_on_server stores kinds writes run calls served).2 i since found member
  have finds : ∃ stored, result = .ok (some stored) := by
    have within := yields
    rw [SwrCache.dyn, stores, Store.dyn] at within
    exact TieredStore.getFrom_serves kinds onServer (serves.part part) within
  obtain ⟨stored, rfl⟩ := finds
  have sighted := (cache.swrCache.store.closed_shows closed).finds yields
  obtain ⟨entry, encodes, _⟩ := (sighted.mono part).known (coherent.told i)
  exact undecodable stored entry rfl encodes.intoTyped

/-- Once the key was written on the server that lets nothing expire, every `get` and every
    `swr` that starts later returns a value. -/
theorem key_survives {i k : Nat} {t : Int} {json : String} {th : Thread (system X)} {out : Out ι}
    (onServer : .redis server true ∈ tiers) (run : Run (system X) (.idle .empty) past s)
    (calls : ∀ e ∈ past, Upholding cache key e.2)
    (served : ∀ e ∈ past, RedisStore.served e.2 = true) (shape : past = later ++
      (s₁, .exec k t (.redisSet server (buildCacheKey cache.ns key) json) (.ok ())) :: earlier)
    (since : s₁.threads.length ≤ i) (at_i : s.threads[i]? = some th)
    (reads : th.task = .get cache.swrCache cache.ns key ∨
      th.task = .swr cache.swrCache cache.ns key)
    (finished : th.Finished out) : ∃ value, out = .value cache.swrCache.ty (.ok (some value)) := by
  have missesNot {look : Log ι} (part : look ⊆ replies i past) :
      ¬ cache.swrCache.Misses cache.ns key look := by
    subst shape
    exact no_miss stores kinds onServer rfl run calls served since part
  rcases reads with gets | swrs
  · have yields := run.finished_yields at_i finished
    rw [gets] at yields
    obtain ⟨log, result, rest, split, calls', ends⟩ := Prog.yields_bind.mp yields
    obtain ⟨rfl, rfl⟩ := Prog.yields_ret.mp ends
    obtain ⟨look, found, rest, rfl, looks, onward⟩ := Prog.yields_bind.mp calls'
    rcases SwrCache.getInternal_yields looks with ⟨misses, _⟩ |
      ⟨_, entry, _, _, _, ⟨_, rfl⟩ | ⟨_, _, _, rfl⟩⟩
    · refine absurd misses (missesNot ?_)
      rw [split]
      exact fun e member => by simp [member]
    · obtain ⟨rfl, rfl⟩ := Prog.yields_ret.mp onward
      exact ⟨entry.value, rfl⟩
    · obtain ⟨rfl, rfl⟩ := Prog.yields_ret.mp onward
      exact ⟨entry.value, rfl⟩
  · obtain ⟨value, rfl, course⟩ := swr_course run at_i swrs finished
    cases value with
    | some value => exact ⟨value, rfl⟩
    | none =>
        obtain ⟨⟨look, rest, split, misses⟩, _⟩ := course.declined
        refine absurd misses (missesNot ?_)
        rw [split]
        exact List.subset_append_left _ _

end Runs

attribute [local semireducible] Json.valueKey Json.freshKey Json.staleKey Json.closing

/-- A `HashMapStore` in front of a server that lets nothing expire. -/
def resilientCache : Cache Unit := .new () "ns" [.hashMap 0 none, .redis 0 true] 10 20 0

/-- The in-memory tier has dropped the entry, the entry has expired, and the origin has
    nothing. -/
theorem key_survives_outage :
    ∃ (past : History (system .atomicMap)) (s : Config (system .atomicMap)),
    Run (system .atomicMap) (.idle (.empty : World Unit)) past s ∧
    ⟨.loadEnd resilientCache.swrCache "ns" "k", none⟩ ∈ replies 2 past ∧
    ∃ th, s.threads[2]? = some th ∧ th.task = .swr resilientCache.swrCache "ns" "k" ∧
      ∃ value, th.Finished (.value () (.ok (some value))) := by
  obtain ⟨past, s, played, called, served, declined, json, s₁, earlier, shape, since, th,
    at_2, task, out,
      finished⟩ : ∃ past s,
      driver.play (fun _ _ => True) [.start (.set resilientCache.swrCache "ns" "k" true none),
        .go 0 (reading 0), .turn 0 true, .go 0 (reading 0), .go 0 (reading 0),
        .start (.storeRemove (.hashMap 0 none) "ns" ["k"]), .go 1 (reading 1),
        .start (.swr resilientCache.swrCache "ns" "k"), .go 2 (declining 100),
        .go 2 (declining 100), .go 2 (declining 100), .go 2 (declining 100), .go 2 (declining 100),
        .go 2 (declining 100), .go 2 (declining 100), .go 2 (declining 100), .go 2 (declining 100),
        .go 2 (declining 100)]
        ([], .idle .empty) = some (past, s) ∧
      past.filterMap (fun e => e.2.starting) = [.swr resilientCache.swrCache "ns" "k",
        .storeRemove (.hashMap 0 none) "ns" ["k"],
        .set resilientCache.swrCache "ns" "k" true none] ∧
      (∀ e ∈ past, RedisStore.served e.2 = true) ∧
      ⟨.loadEnd resilientCache.swrCache "ns" "k", none⟩ ∈ replies 2 past ∧
      ∃ json s₁ earlier, past = past.take 13 ++ (s₁, .exec 0 0
        (.redisSet 0 (buildCacheKey resilientCache.ns "k") json) (.ok ())) :: earlier ∧
        s₁.threads.length ≤ 2 ∧ ∃ th, s.threads[2]? = some th ∧
        th.task = .swr resilientCache.swrCache "ns" "k" ∧ ∃ out, th.Finished out :=
    ⟨_, _, rfl, rfl, by decide,
      .tail _ (.tail _ (.tail _ (.tail _ (.tail _ (.tail _ (.tail _ (.tail _ (.head _)))))))),
      _, _, _, rfl, by decide, _, rfl, rfl, _, rfl⟩
  obtain ⟨run, _⟩ := Driver.plays played
  have calls : ∀ e ∈ past, Upholding resilientCache "k" e.2 := by
    intro e member task starts
    have among : task ∈ past.filterMap (fun e => e.2.starting) :=
      List.mem_filterMap.mpr ⟨e, member, starts⟩
    rw [called] at among
    simp only [List.mem_cons, List.not_mem_nil, or_false] at among
    rcases among with rfl | rfl | rfl
    · exact ⟨rfl, rfl, rfl⟩
    · exact ⟨rfl, rfl⟩
    · exact ⟨rfl, rfl, rfl⟩
  obtain ⟨value, rfl⟩ :=
    key_survives rfl (by decide) (.tail _ (.head _)) run calls served shape since at_2 (.inr task)
    finished
  exact ⟨past, s, run, declined, th, at_2, task, value, finished⟩

end Swr
