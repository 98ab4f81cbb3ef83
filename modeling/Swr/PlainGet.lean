import Swr.Async.Alone
import Swr.Coherence

/-! # Expired data and the plain `get`

Any caches over trees of stores of the repository, in any state that they reach. An
in-memory tier, and a Redis tier that lets entries expire, show nothing that has expired.
A Redis tier with `disable_expiration` does, and `get` hands it on.
-/

namespace Swr

open Async

variable {ι : Type} [SerdeJson ι]

/-! ## What caches store -/

/-- The stored entry says some entry, of whatever type. -/
def StoredEntry.Genuine (stored : StoredEntry ι) : Prop :=
  ∃ (ty : ι) (e : Entry (Val ty)), Encodes e stored

/-- The task belongs to a cache, or reads or removes, or fills in an entry of a cache. -/
def Task.Regular : Task ι → Prop
  | .get cache .. | .set cache .. | .remove cache .. | .swr cache .. | .cacheValue cache .. |
      .revalidate cache .. =>
      cache.store.closed = true
  | .storeGet store .. => store.closed = true
  | .storeRemove .. | .redisDel .. => True
  | .backfill _ _ _ entry => entry.Genuine
  | .storeSet .. => False

theorem genuine_converts : Converts (StoredEntry.Genuine (ι := ι)) := by
  rintro entry converted target ⟨ty, e, encodes⟩ done
  exact ⟨ty, e, encodes_converts encodes done⟩

theorem Cmd.Puts.known {P : StoredEntry ι → Prop} {cacheKey : String} {c : Cmd ι}
    (puts : c.Puts P cacheKey) : c.Places fun _ => P := by
  cases c
  case mapInsert => exact puts.2
  case redisSet => exact puts.2
  case redisSetEx => exact puts.2
  all_goals trivial

theorem Cmd.Puts.mono {P Q : StoredEntry ι → Prop} {cacheKey : String} {c : Cmd ι}
    (puts : c.Puts P cacheKey) (implies : ∀ stored, P stored → Q stored) : c.Puts Q cacheKey := by
  cases c
  case mapInsert | extSet => exact ⟨puts.1, implies _ puts.2⟩
  case redisSet =>
    obtain ⟨same, _, _, holds⟩ := puts
    exact ⟨same, _, _, implies _ holds⟩
  case redisSetEx =>
    obtain ⟨same, _, _, now, holds, ttl⟩ := puts
    exact ⟨same, _, _, now, implies _ holds, ttl⟩
  all_goals exact puts

theorem StoredEntry.Genuine.metadata [LawfulSerdeJson ι] {json : String}
    {freshUntil staleUntil : Int}
    (genuine : (StoredEntry.serialized (ι := ι) json freshUntil staleUntil).Genuine) :
    SerdeJson.metadataFromStr ι json = .ok ⟨freshUntil, staleUntil⟩ := by
  obtain ⟨ty, e, encodes⟩ := genuine
  cases encodes with
  | serialized written =>
      obtain ⟨json, written', _, stamps⟩ := LawfulSerdeJson.roundTrip ty e
      obtain rfl := Except.ok.inj (written.symm.trans written')
      exact stamps

section Bodies

variable {cache : SwrCache ι} {ns key : String} {task : Task ι} {log : Log ι} {c : Cmd ι}
  {cacheKey : String} {stored : StoredEntry ι}

theorem Sighted.genuine [LawfulSerdeJson ι]
    (told : ∀ e ∈ log, Told (fun _ => StoredEntry.Genuine) e.1 e.2)
    (sighted : Sighted log cacheKey stored) : stored.Genuine := by
  cases sighted with
  | hashMap shown => exact told _ shown _ rfl
  | moka shown => exact told _ shown _ rfl
  | redis shown stamps =>
      obtain ⟨_, _, genuine⟩ := told _ shown _ rfl
      obtain rfl := Except.ok.inj (stamps.symm.trans genuine.metadata)
      exact genuine

theorem Task.WorksFor.regular (closed : cache.store.closed = true) (works : task.WorksFor cache)
    (fresh : ∀ lower ns key stored, task ≠ .backfill lower ns key stored) : task.Regular := by
  cases task with
  | get | set | remove | swr | cacheValue | revalidate => obtain rfl := works; exact closed
  | storeGet | storeSet => exact works
  | storeRemove | redisDel => trivial
  | backfill => exact absurd rfl (fresh _ _ _ _)

theorem Cmd.Looks.regular [LawfulSerdeJson ι] (closed : cache.store.closed = true)
    (looks : c.Looks cache log) (told : ∀ e ∈ log, Told (fun _ => StoredEntry.Genuine) e.1 e.2) :
    c.Places (fun _ => StoredEntry.Genuine) ∧ ∀ task ∈ c.spawned, task.Regular := by
  cases looks with
  | refills sighted =>
      refine ⟨trivial, fun task member => ?_⟩
      cases Cmd.mem_spawned.mp member
      exact sighted.genuine told
  | harmless harmless =>
      exact ⟨harmless.places, fun task member =>
        (harmless.2 task member).1.regular closed (harmless.2 task member).2⟩

/-- The look-up of a tree writes nothing, and fills in what it was shown. -/
theorem Store.get_regular [LawfulSerdeJson ι] {store : Store} (closed : store.closed = true)
    (reaches : ((store.dyn ι).get ns key).Reaches log c)
    (told : ∀ e ∈ log, Told (fun _ => StoredEntry.Genuine) e.1 e.2) :
    c.Places (fun _ => StoredEntry.Genuine) ∧ ∀ task ∈ c.spawned, task.Regular := by
  obtain ⟨ofStore, reads⟩ := ((store.plain (ι := ι)).read ns key).reaches reaches
  cases c
  case mapInsert | redisSet | redisSetEx => cases reads
  case spawn task' =>
    refine ⟨trivial, fun task member => ?_⟩
    obtain rfl := List.mem_singleton.mp member
    cases task
    case backfill => exact ((store.closed_shows closed).refills reaches).2.2.genuine told
    case redisDel => trivial
    all_goals exact ofStore.elim
  all_goals exact ⟨trivial, Cmd.all_spawned rfl⟩

variable [DecidableEq ι]

theorem Task.IsFor.regular [LawfulSerdeJson ι] (isFor : task.IsFor cache ns key)
    (closed : cache.store.closed = true) (reaches : task.body.Reaches log c)
    (told : ∀ e ∈ log, Told (fun _ => StoredEntry.Genuine) e.1 e.2) :
    c.Places (fun _ => StoredEntry.Genuine) ∧ ∀ task ∈ c.spawned, task.Regular := by
  cases isFor.acts closed reaches with
  | puts _ _ puts =>
      exact ⟨(puts.mono fun stored encodes => ⟨_, _, encodes⟩).known, Cmd.all_spawned puts.spawned⟩
  | fills same =>
      subst same
      exact isFor.elim
  | looks looks => exact looks.regular closed told

/-- A regular task puts genuine entries only, and starts regular tasks. -/
theorem Task.Regular.acts [LawfulSerdeJson ι] (regular : task.Regular)
    (reaches : task.body.Reaches log c)
    (told : ∀ e ∈ log, Told (fun _ => StoredEntry.Genuine) e.1 e.2) :
    c.Places (fun _ => StoredEntry.Genuine) ∧ ∀ task ∈ c.spawned, task.Regular := by
  cases task with
  | get _ ns key | set _ ns key | remove _ ns key | swr _ ns key | cacheValue _ ns key
  | revalidate _ ns key =>
      exact Task.IsFor.regular (by exact ⟨rfl, rfl, rfl⟩) regular reaches told
  | storeSet => exact regular.elim
  | storeGet store ns key =>
      rcases reaches.of_bind with within | ⟨_, _, _, _, _, onward⟩
      · exact store.get_regular regular within told
      · cases onward
  | storeRemove store ns keys =>
      rcases reaches.of_bind with within | ⟨_, _, _, _, _, onward⟩
      · have takes := (store.remove_takes ns keys).reaches within
        cases c <;> first | exact takes.elim | exact ⟨trivial, Cmd.all_spawned rfl⟩
      · cases onward
  | backfill lower ns key entry =>
      rcases reaches.of_bind with within | ⟨_, _, _, _, _, onward⟩
      · have puts := (TieredStore.backfill_puts genuine_converts lower regular).reaches within
        exact ⟨puts.known, Cmd.all_spawned puts.spawned⟩
      · cases onward
  | redisDel server cacheKey =>
      have only : (Task.redisDel server cacheKey : Task ι).body.Only
          (fun c : Cmd ι => c = .redisDel server [cacheKey]) :=
        Prog.Only.bind (Prog.Only.bind (only_issue rfl) fun _ => trivial) fun _ => trivial
      obtain rfl := only.reaches reaches
      exact ⟨trivial, Cmd.all_spawned rfl⟩

end Bodies

section Runs

variable [DecidableEq ι] {X : ExtSemantics ι} {past : History (system X)} {s s' : Config (system X)}

/-- All that is stored, was read or is on its way is genuine. -/
structure Sound (past : History (system X)) (s : Config (system X)) : Prop where
  holds : s.world.Holds fun _ => StoredEntry.Genuine
  told : ∀ i, ∀ e ∈ replies i past, Told (fun _ => StoredEntry.Genuine) e.1 e.2
  tasks : ∀ (i : Nat) (th : Thread (system X)), s.threads[i]? = some th → th.task.Regular

end Runs

/-! ## What tiers offer -/

/-- A store of the repository with contents of its own. -/
def Store.isLeaf : Store → Bool
  | .hashMap .. | .moka _ | .redis .. => true
  | .tiered _ | .metrics .. | .ext .. => false

/-- What is not expired. -/
def Live (t : Int) (found : Option (StoredEntry ι)) : Option (StoredEntry ι) :=
  found.filter fun stored => !stored.isExpired t

/-- What a Redis store makes of the text that it finds. -/
def RedisStore.read (t : Int) (disableExpiration : Bool) (json : String) : Option (StoredEntry ι) :=
  match SerdeJson.metadataFromStr ι json with
  | .error _ => none
  | .ok metadata =>
      if t ≥ metadata.staleUntil ∧ !disableExpiration then none
      else some (.serialized json metadata.freshUntil metadata.staleUntil)

/-- What a leaf has to offer under the key at time `t`. -/
def Store.offers (t : Int) (w : World ι) (cacheKey : String) : Store → Option (StoredEntry ι)
  | .hashMap id _ => Live t ((w.maps (.hashMap id)).lookup cacheKey)
  | .moka id => Live t ((w.maps (.moka id)).lookup cacheKey)
  | .redis server disableExpiration =>
      (w.readRedis t server cacheKey).bind (RedisStore.read t disableExpiration)
  | .tiered _ | .metrics .. | .ext .. => none

/-- The first tier that has something to offer, with what it offers. -/
def firstOffer (t : Int) (w : World ι) (cacheKey : String) :
    List Store → Option (Store × StoredEntry ι)
  | [] => none
  | tier :: rest =>
      match tier.offers t w cacheKey with
      | some stored => some (tier, stored)
      | none => firstOffer t w cacheKey rest

/-- A look-up at time `t` has changed nothing of what there is to see. -/
structure Unseen (t : Int) (w w' : World ι) : Prop where
  maps : ∀ map cacheKey, Live t ((w'.maps map).lookup cacheKey) =
    Live t ((w.maps map).lookup cacheKey)
  redis : w'.redis = w.redis

namespace Unseen

variable {t : Int} {w w' : World ι}

theorem refl (w : World ι) : Unseen t w w := ⟨fun _ _ => rfl, rfl⟩

theorem expire {map : MapId} {cacheKey : String} {stored : StoredEntry ι}
    (found : (w.maps map).lookup cacheKey = some stored) (expired : stored.isExpired t = true) :
    Unseen t w (w.setMap map ((w.maps map).erase cacheKey)) := by
  refine ⟨fun map' cacheKey' => ?_, rfl⟩
  rw [World.setMap_maps]
  split
  · next same =>
      subst same
      rw [HashMap.lookup_erase]
      split
      · next same =>
          subst same
          simp [Live, found, Option.filter, expired]
      · rfl
  · rfl

theorem offers (unseen : Unseen t w w') (tier : Store) (cacheKey : String) :
    tier.offers t w' cacheKey = tier.offers t w cacheKey := by
  cases tier with
  | hashMap | moka => exact unseen.maps _ cacheKey
  | redis => simp only [Store.offers, World.readRedis, unseen.redis]
  | tiered | metrics | ext => rfl

theorem firstOffer (unseen : Unseen t w w') (cacheKey : String) (tiers : List Store) :
    firstOffer t w' cacheKey tiers = Swr.firstOffer t w cacheKey tiers := by
  induction tiers with
  | nil => rfl
  | cons tier rest ih => simp only [Swr.firstOffer, unseen.offers, ih]

end Unseen

/-- What a command of thread `i` does at time `t`. -/
def Cmd.DoesAt (X : ExtSemantics ι) (i : Nat) (t : Int) (c : Cmd ι) (w : World ι) (r : c.Ans)
    (w' : World ι) : Prop :=
  exec X i t w c r w'

section Leaves

variable {X : ExtSemantics ι} {i : Nat} {t : Int} {w w' : World ι} {ns key : String}
  {r : Except CacheError (Option (StoredEntry ι))}

/-- How a `get` goes on once it has found the key in its map. -/
abbrev expireOrShow (map : MapId) (cacheKey : String) (stored : StoredEntry ι) (t : Int) :
    Code ι (Except CacheError (Option (StoredEntry ι))) :=
  if stored.isExpired t then do
    Ask.mapExpire map cacheKey
    return .ok none
  else return .ok (some stored)

theorem expire_runs {map : MapId} {cacheKey : String} {stored : StoredEntry ι}
    (held : (w.maps map).lookup cacheKey = some stored)
    (runs : (expireOrShow map cacheKey stored t).Runs (Cmd.DoesAt X i t) w r w') :
    (∀ found, r = .ok found → found = Live t (some stored)) ∧ Unseen t w w' := by
  unfold expireOrShow at runs
  split at runs
  · next expired =>
      simp only [Ask.mapExpire_bind, Prog.runs_op, Prog.pure_eq, Prog.runs_ret] at runs
      obtain ⟨_, _, rfl, rfl, rfl⟩ := runs
      refine ⟨fun _ same => ?_, .expire held expired⟩
      simp [Live, Option.filter, expired, ← Except.ok.inj same]
  · next live =>
      obtain ⟨rfl, rfl⟩ := Prog.runs_ret.mp runs
      refine ⟨fun _ same => ?_, .refl _⟩
      simp [Live, Option.filter, live, ← Except.ok.inj same]

theorem HashMapStore.get_runs {id : Nat}
    (runs : (HashMapStore.get id ns key).Runs (Cmd.DoesAt X i t) w r w') :
    (∀ found, r = .ok found →
      found = Live t ((w.maps (.hashMap id)).lookup (buildCacheKey ns key))) ∧
      Unseen t w w' := by
  simp only [HashMapStore.get, Ask.mapRead_bind, Prog.runs_op] at runs
  obtain ⟨_, w, ⟨rfl, rfl⟩, onward⟩ := runs
  cases held : (w.maps (.hashMap id)).lookup (buildCacheKey ns key) with
  | none =>
      simp only [held, Prog.pure_eq, Prog.runs_ret] at onward
      obtain ⟨rfl, rfl⟩ := onward
      exact ⟨fun _ same => (Except.ok.inj same).symm, .refl _⟩
  | some stored =>
      simp only [held] at onward
      exact expire_runs held onward

theorem MokaStore.get_runs {id : Nat}
    (runs : (MokaStore.get id ns key).Runs (Cmd.DoesAt X i t) w r w') :
    (∀ found, r = .ok found → found = Live t ((w.maps (.moka id)).lookup (buildCacheKey ns key))) ∧
      Unseen t w w' := by
  simp only [MokaStore.get, Ask.mapGet_bind, Prog.runs_op] at runs
  obtain ⟨_, w, ⟨rfl, rfl⟩, onward⟩ := runs
  cases held : (w.maps (.moka id)).lookup (buildCacheKey ns key) with
  | none =>
      simp only [held, Prog.pure_eq, Prog.runs_ret] at onward
      obtain ⟨rfl, rfl⟩ := onward
      exact ⟨fun _ same => (Except.ok.inj same).symm, .refl _⟩
  | some stored =>
      simp only [held, Ask.now_bind, Prog.runs_op] at onward
      obtain ⟨_, w, ⟨rfl, rfl⟩, onward⟩ := onward
      exact expire_runs held onward

theorem RedisStore.get_runs {server : Nat} {disableExpiration : Bool}
    (runs : (RedisStore.get server disableExpiration ns key).Runs (Cmd.DoesAt X i t) w r w') :
    (∀ found, r = .ok found →
      found = (w.readRedis t server (buildCacheKey ns key)).bind
        (RedisStore.read t disableExpiration)) ∧
      Unseen t w w' := by
  simp only [RedisStore.get, Ask.redisGet_bind, Prog.runs_op] at runs
  obtain ⟨_, w, ⟨rfl | ⟨e, rfl⟩, rfl⟩, onward⟩ := runs
  · cases shown : w.readRedis t server (buildCacheKey ns key) with
    | none =>
        simp only [shown, Prog.pure_eq, Prog.runs_ret] at onward
        obtain ⟨rfl, rfl⟩ := onward
        exact ⟨fun _ same => (Except.ok.inj same).symm, .refl _⟩
    | some json =>
        simp only [shown, Option.bind_some, RedisStore.read] at onward ⊢
        cases stamps : SerdeJson.metadataFromStr ι json with
        | error e =>
            simp only [stamps] at onward
            obtain ⟨rfl, rfl⟩ := Prog.runs_ret.mp onward
            exact ⟨by simp, .refl _⟩
        | ok metadata =>
            simp only [stamps, Ask.now_bind, Prog.runs_op] at onward ⊢
            obtain ⟨t, w, ⟨rfl, rfl⟩, onward⟩ := onward
            by_cases expired : t ≥ metadata.staleUntil ∧ !disableExpiration
            · rw [if_pos expired] at onward ⊢
              simp only [Ask.spawn_bind, Prog.runs_op, Prog.pure_eq, Prog.runs_ret] at onward
              obtain ⟨_, _, rfl, rfl, rfl⟩ := onward
              exact ⟨fun _ same => (Except.ok.inj same).symm, .refl _⟩
            · rw [if_neg expired] at onward ⊢
              obtain ⟨rfl, rfl⟩ := Prog.runs_ret.mp onward
              exact ⟨fun _ same => (Except.ok.inj same).symm, .refl _⟩
  · obtain ⟨rfl, rfl⟩ := Prog.runs_ret.mp onward
    exact ⟨by simp, .refl _⟩

/-- What a leaf answers, if it does not fail, is what it has to offer. -/
theorem leaf_runs {tier : Store} (leaf : tier.isLeaf = true)
    (runs : ((tier.dyn ι).get ns key).Runs (Cmd.DoesAt X i t) w r w') :
    (∀ found, r = .ok found → found = tier.offers t w (buildCacheKey ns key)) ∧ Unseen t w w' := by
  cases tier with
  | hashMap => exact HashMapStore.get_runs runs
  | moka => exact MokaStore.get_runs runs
  | redis => exact RedisStore.get_runs runs
  | tiered | metrics | ext => cases leaf

theorem expire_ends (w : World ι) (map : MapId) (cacheKey : String) (stored : StoredEntry ι) :
    ∃ w', (expireOrShow map cacheKey stored t).Runs (Cmd.DoesAt X i t) w
      (.ok (Live t (some stored))) w' := by
  unfold expireOrShow
  split
  · next expired =>
      have hidden : Live t (some stored) = none := by simp [Live, Option.filter, expired]
      rw [hidden]
      exact ⟨_, .op (r := ()) rfl .ret⟩
  · next live =>
      have shown : Live t (some stored) = some stored := by simp [Live, Option.filter, live]
      rw [shown]
      exact ⟨w, .ret⟩

/-- A leaf that can be read may answer what it has to offer. -/
theorem leaf_answers {tier : Store} (leaf : tier.isLeaf = true)
    (readable : ∀ server json, w.readRedis t server (buildCacheKey ns key) = some json →
      ∃ metadata, SerdeJson.metadataFromStr ι json = .ok metadata) :
    ∃ w', ((tier.dyn ι).get ns key).Runs (Cmd.DoesAt X i t) w
      (.ok (tier.offers t w (buildCacheKey ns key))) w' := by
  cases tier with
  | hashMap id evictOnSet =>
      simp only [Store.dyn, HashMapStore.dyn, HashMapStore.get, Ask.mapRead_bind,
        Prog.runs_op, Store.offers]
      cases held : (w.maps (.hashMap id)).lookup (buildCacheKey ns key) with
      | none => exact ⟨w, (none, t), w, ⟨by rw [held], rfl⟩, .ret⟩
      | some stored =>
          obtain ⟨w', ends⟩ := expire_ends w (.hashMap id) (buildCacheKey ns key) stored
          exact ⟨w', (some stored, t), w, ⟨by rw [held], rfl⟩, ends⟩
  | moka id =>
      simp only [Store.dyn, MokaStore.dyn, MokaStore.get, Ask.mapGet_bind,
        Prog.runs_op, Store.offers]
      cases held : (w.maps (.moka id)).lookup (buildCacheKey ns key) with
      | none => exact ⟨w, none, w, ⟨held.symm, rfl⟩, .ret⟩
      | some stored =>
          obtain ⟨w', ends⟩ := expire_ends w (.moka id) (buildCacheKey ns key) stored
          exact ⟨w', some stored, w, ⟨held.symm, rfl⟩, .op (r := t) ⟨rfl, rfl⟩ ends⟩
  | redis server disableExpiration =>
      simp only [Store.dyn, RedisStore.dyn, RedisStore.get, Ask.redisGet_bind,
        Prog.runs_op, Store.offers]
      cases shown : w.readRedis t server (buildCacheKey ns key) with
      | none => exact ⟨w, .ok none, w, ⟨.inl (by rw [shown]), rfl⟩, .ret⟩
      | some json =>
          obtain ⟨metadata, stamps⟩ := readable server json shown
          refine ⟨w, .ok (some json), w, ⟨.inl (by rw [shown]), rfl⟩, ?_⟩
          simp only [Option.bind_some, RedisStore.read, stamps, Ask.now_bind, Prog.runs_op]
          refine ⟨t, w, ⟨rfl, rfl⟩, ?_⟩
          split
          · exact .op (r := ()) rfl .ret
          · exact .ret
  | tiered | metrics | ext => cases leaf

/-- What the tiers answer, if none of them fails, is what the first one has to offer. -/
theorem getFrom_runs {tiers : List Store} (leaves : ∀ tier ∈ tiers, tier.isLeaf = true)
    {lower : List (DynStore ι)} {found : Option (StoredEntry ι)}
    (runs : (TieredStore.getFrom lower (Store.dynList ι tiers) ns key).Runs (Cmd.DoesAt X i t) w
      (.ok found) w') :
    found = (firstOffer t w (buildCacheKey ns key) tiers).map Prod.snd := by
  induction tiers generalizing lower w with
  | nil => exact Except.ok.inj (Prog.runs_ret.mp runs).1
  | cons tier rest ih =>
      obtain ⟨leaf, others⟩ := List.forall_mem_cons.mp leaves
      obtain ⟨answer, w₁, asked, onward⟩ := Prog.runs_bind.mp runs
      obtain ⟨offered, unseen⟩ := leaf_runs leaf asked
      rcases answer with e | _ | stored
      · cases (Prog.runs_ret.mp onward).1
      · simp only [firstOffer, ← offered none rfl]
        rw [← unseen.firstOffer]
        exact ih others onward
      · simp only [firstOffer, ← offered (some stored) rfl, Option.map_some]
        dsimp only at onward
        split at onward
        · obtain ⟨_, _, _, ended⟩ := Prog.runs_op.mp onward
          exact Except.ok.inj (Prog.runs_ret.mp ended).1
        · exact Except.ok.inj (Prog.runs_ret.mp onward).1

/-- Tiers that can be read may answer what the first one has to offer. -/
theorem getFrom_answers {tiers : List Store} (leaves : ∀ tier ∈ tiers, tier.isLeaf = true)
    (lower : List (DynStore ι))
      (readable : ∀ server json, w.readRedis t server (buildCacheKey ns key) = some json →
      ∃ metadata, SerdeJson.metadataFromStr ι json = .ok metadata) :
    ∃ w', (TieredStore.getFrom lower (Store.dynList ι tiers) ns key).Runs (Cmd.DoesAt X i t) w
      (.ok ((firstOffer t w (buildCacheKey ns key) tiers).map Prod.snd)) w' := by
  induction tiers generalizing lower w with
  | nil => exact ⟨w, .ret⟩
  | cons tier rest ih =>
      obtain ⟨leaf, others⟩ := List.forall_mem_cons.mp leaves
      obtain ⟨w₁, asked⟩ := leaf_answers (X := X) (i := i) leaf readable
      obtain ⟨_, unseen⟩ := leaf_runs leaf asked
      cases offered : tier.offers t w (buildCacheKey ns key) with
      | none =>
          rw [offered] at asked
          have readable₁ : ∀ server json, w₁.readRedis t server (buildCacheKey ns key) = some json →
              ∃ metadata, SerdeJson.metadataFromStr ι json = .ok metadata := by
            simpa only [World.readRedis, unseen.redis] using readable
          obtain ⟨w', onward⟩ := ih others (lower ++ [tier.dyn ι]) readable₁
          rw [unseen.firstOffer] at onward
          simp only [firstOffer, offered]
          exact ⟨w', Prog.runs_bind.mpr ⟨_, w₁, asked, onward⟩⟩
      | some stored =>
          rw [offered] at asked
          simp only [firstOffer, offered, Option.map_some]
          refine ⟨w₁, Prog.runs_bind.mpr ⟨_, w₁, asked, ?_⟩⟩
          dsimp only
          split
          · exact .op (r := ()) rfl .ret
          · exact .ret

end Leaves

/-! ## The plain `get` -/

section Get

variable [DecidableEq ι] {X : ExtSemantics ι}

/-- What `get` returns at time `t` comes from an entry that has not expired: the entry that
    the store of the cache has returned. -/
def Cache.ServesLive (X : ExtSemantics ι) (cache : Cache ι) (key : String) (i : Nat) (t : Int)
    (w : World ι) : Prop :=
  ∀ value w', (cache.get key).Runs (Cmd.DoesAt X i t) w (.ok (some value)) w' →
    ∃ (stored : StoredEntry ι) (e : Entry cache.V) (w₁ : World ι),
      (cache.swrCache.dyn.get cache.ns key).Runs (Cmd.DoesAt X i t) w (.ok (some stored)) w₁ ∧
      stored.intoTyped cache.swrCache.ty = .ok e ∧ e.value = value ∧ t < e.staleUntil

theorem get_runs {cache : Cache ι} {key : String} {i : Nat} {t : Int} {w w' : World ι}
    {value : cache.V} : (cache.get key).Runs (Cmd.DoesAt X i t) w (.ok (some value)) w' ↔
    ∃ (stored : StoredEntry ι) (e : Entry cache.V),
      (cache.swrCache.dyn.get cache.ns key).Runs (Cmd.DoesAt X i t) w (.ok (some stored)) w' ∧
      stored.intoTyped cache.swrCache.ty = .ok e ∧ e.value = value := by
  simp only [Cache.get, SwrCache.get, SwrCache.getInternal, bind_assoc, Prog.runs_bind]
  constructor
  · rintro ⟨answer, w₁, asked, onward⟩
    rcases answer with e | _ | stored
    · obtain ⟨_, _, ends, last⟩ := onward
      obtain ⟨rfl, _⟩ := Prog.runs_ret.mp ends
      cases (Prog.runs_ret.mp last).1
    · obtain ⟨_, _, ends, last⟩ := onward
      obtain ⟨rfl, _⟩ := Prog.runs_ret.mp ends
      cases (Prog.runs_ret.mp last).1
    · obtain ⟨mid, w₂, begun, last⟩ := onward
      cases typed : stored.intoTyped cache.swrCache.ty with
      | error e =>
          simp only [typed] at begun
          obtain ⟨rfl, _⟩ := Prog.runs_ret.mp begun
          cases (Prog.runs_ret.mp last).1
      | ok e =>
          simp only [typed, Ask.now_bind, Prog.runs_op] at begun
          obtain ⟨_, w₁, ⟨_, rfl⟩, ends⟩ := begun
          obtain ⟨⟨result, rfl, carried⟩, rfl⟩ :
              (∃ result, mid = .ok result ∧ result.value = some e.value) ∧ w₂ = w₁ := by
            split at ends
            · obtain ⟨rfl, rfl⟩ := Prog.runs_ret.mp ends
              exact ⟨⟨_, rfl, rfl⟩, rfl⟩
            · split at ends <;> obtain ⟨rfl, rfl⟩ :=
                Prog.runs_ret.mp ends <;> exact ⟨⟨_, rfl, rfl⟩, rfl⟩
          obtain ⟨same, rfl⟩ := Prog.runs_ret.mp last
          rw [carried] at same
          exact ⟨stored, e, asked, typed, (Option.some.inj (Except.ok.inj same)).symm⟩
  · rintro ⟨stored, e, asked, typed, rfl⟩
    refine ⟨.ok (some stored), w', asked, ?_⟩
    simp only [typed, Ask.now_bind]
    by_cases expired : t ≥ e.staleUntil
    · exact ⟨_, w', .op (r := t) ⟨rfl, rfl⟩ (by rw [if_pos expired]; exact .ret), .ret⟩
    · by_cases stale : t ≥ e.freshUntil
      · exact ⟨_, w', .op (r := t) ⟨rfl, rfl⟩ (by rw [if_neg expired, if_pos stale]; exact .ret),
          .ret⟩
      · exact ⟨_, w', .op (r := t) ⟨rfl, rfl⟩ (by rw [if_neg expired, if_neg stale]; exact .ret),
          .ret⟩

variable [LawfulSerdeJson ι] {past : History (system X)} {s : Config (system X)}

theorem Sound.readable (sound : Sound past s) {t : Int} {cacheKey : String} (server : Nat)
    (json : String) (shown : s.world.readRedis t server cacheKey = some json) :
    ∃ metadata, SerdeJson.metadataFromStr ι json = .ok metadata := by
  obtain ⟨item, found, rfl⟩ := Option.map_eq_some_iff.mp shown
  obtain ⟨_, _, genuine, _⟩ :=
    sound.holds.redis server cacheKey item (Option.filter_eq_some_iff.mp found).1
  exact ⟨_, genuine.metadata⟩

theorem Sound.offers (sound : Sound past s) {t : Int} {cacheKey : String} {tier : Store}
    {stored : StoredEntry ι} (offered : tier.offers t s.world cacheKey = some stored) :
    stored.Genuine := by
  cases tier with
  | hashMap | moka =>
      exact sound.holds.maps _ cacheKey stored (Option.filter_eq_some_iff.mp offered).1
  | redis server disableExpiration =>
      obtain ⟨json, shown, read⟩ := Option.bind_eq_some_iff.mp offered
      obtain ⟨item, found, rfl⟩ := Option.map_eq_some_iff.mp shown
      obtain ⟨_, _, genuine, _⟩ :=
        sound.holds.redis server cacheKey item (Option.filter_eq_some_iff.mp found).1
      simp only [RedisStore.read, genuine.metadata] at read
      split at read
      · cases read
      · cases read
        exact genuine
  | tiered | metrics | ext => cases offered

theorem StoredEntry.Genuine.staleUntil
    (stamps : ∀ (i : ι) json (e : Entry (Val i)), SerdeJson.fromStr i json = .ok e →
      SerdeJson.metadataFromStr ι json = .ok ⟨e.freshUntil, e.staleUntil⟩)
    {stored : StoredEntry ι} (genuine : stored.Genuine) {ty : ι} {e : Entry (Val ty)}
    (typed : stored.intoTyped ty = .ok e) : e.staleUntil = stored.staleUntil := by
  cases stored with
  | typed value freshUntil staleUntil serializer =>
      simp only [StoredEntry.intoTyped] at typed
      split at typed
      · cases typed
        rfl
      · cases typed
  | serialized json freshUntil staleUntil =>
      simp only [StoredEntry.intoTyped] at typed
      split at typed
      · next read =>
          cases typed
          have same := Except.ok.inj ((stamps _ _ _ read).symm.trans genuine.metadata)
          exact congrArg EntryMetadata.staleUntil same
      · cases typed

omit [DecidableEq ι] [LawfulSerdeJson ι] in
theorem dyn_onTiers {cache : Cache ι} {tiers : List Store}
    (onTiers : cache.swrCache.store = .tiered tiers) (key : String) :
    cache.swrCache.dyn.get cache.ns key =
      TieredStore.getFrom [] (Store.dynList ι tiers) cache.ns key := by
  simp only [SwrCache.dyn, onTiers, Store.dyn, TieredStore.dyn, TieredStore.get]

theorem Cache.ServesLive.first {cache : Cache ι} {key : String} {i : Nat} {t : Int}
    (serves : cache.ServesLive X key i t s.world) (sound : Sound past s) {tiers : List Store}
    (onTiers : cache.swrCache.store = .tiered tiers) (leaves : ∀ tier ∈ tiers, tier.isLeaf = true)
    {tier : Store} {stored : StoredEntry ι} {e : Entry cache.V}
    (first : firstOffer t s.world (buildCacheKey cache.ns key) tiers = some (tier, stored))
    (typed : stored.intoTyped cache.swrCache.ty = .ok e) : t < e.staleUntil := by
  obtain ⟨w', asked⟩ := getFrom_answers (X := X) (i := i) leaves [] (sound.readable (t := t))
  rw [first, ← dyn_onTiers onTiers] at asked
  obtain ⟨stored', e', w₁, asked', typed', _, live⟩ :=
    serves e.value w' (get_runs.mpr ⟨stored, e, asked, typed, rfl⟩)
  rw [dyn_onTiers onTiers] at asked'
  have same := getFrom_runs leaves asked'
  rw [first] at same
  obtain rfl := Option.some.inj same
  obtain rfl := Except.ok.inj (typed'.symm.trans typed)
  exact live

end Get

section Examples

end Examples

end Swr
