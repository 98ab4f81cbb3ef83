import Swr.Async.Linear
import Swr.Nesting
import Swr.Supply
import Swr.TierParts

/-! # Trees with one leaf

A leaf on its own, wrapped in any number of metrics stores and tiered stores of one tier.
Each method is one command there, but for looks at the clock and for reports.
-/

namespace Swr

open Async

variable {ι : Type} [SerdeJson ι]

/-! ## Trees with one leaf -/

namespace Store

mutual
/-- The place of a leaf that has nothing beside it. -/
def sole : Store → Option Home
  | .hashMap id _ => some (.map (.hashMap id))
  | .moka id => some (.map (.moka id))
  | .redis server _ => some (.server server)
  | .tiered tiers => soleOf tiers
  | .metrics inner _ => sole inner
  | .ext .. => none

def soleOf : List Store → Option Home
  | [store] => sole store
  | _ => none
end

mutual
theorem sole_closed {home : Home} : ∀ store : Store, store.sole = some home → store.closed = true
  | .hashMap .., _ | .moka _, _ | .redis .., _ => rfl
  | .tiered tiers, sole => soleOf_closed tiers sole
  | .metrics inner _, sole => sole_closed inner sole
  | .ext .., absent => by cases absent

theorem soleOf_closed {home : Home} :
    ∀ stores : List Store, soleOf stores = some home → allClosed stores = true
  | [store], sole => by simp only [allClosed, sole_closed store sole, Bool.and_self]
  | [], absent | _ :: _ :: _, absent => by cases absent
end

end Store

section Commands

variable (home : Home) (cacheKey : String)

/-- The command reads the key at the place. -/
def Cmd.looksAt : Cmd ι → Bool
  | .mapRead map key | .mapGet map key => home = .map map ∧ key = cacheKey
  | .redisGet server key => home = .server server ∧ key = cacheKey
  | _ => false

def Cmd.writesAt : Cmd ι → Bool
  | .mapInsert map key _ => home = .map map ∧ key = cacheKey
  | .redisSet server key _ | .redisSetEx server key _ _ => home = .server server ∧ key = cacheKey
  | _ => false

def Cmd.takesAt : Cmd ι → Bool
  | .mapRemove map keys => home = .map map ∧ cacheKey ∈ keys
  | .redisDel server keys => home = .server server ∧ cacheKey ∈ keys
  | _ => false

end Commands

/-- The server has refused the command, or has not said that it obeyed. -/
def Refused : (c : Cmd ι) → c.Ans → Prop
  | .redisSet .., .error _ | .redisSetEx .., .error _ | .redisDel .., .error _ => True
  | _, _ => False

/-- What the methods of a store with one leaf do there. -/
structure DynStore.Sole (home : Home) (store : DynStore ι) : Prop where
  looksOnce :
    ∀ ns key cacheKey, (store.get ns key).Costs (fun c => (c.looksAt home cacheKey).toNat) 1
  looks : ∀ {ns key log result}, (store.get ns key).Yields log result →
    ∃ e ∈ log, e.1.looksAt home (buildCacheKey ns key) = true
  here : ∀ ns key, (store.get ns key).Only fun c : Cmd ι => ∀ place ∈ c.home, place = home
  keyed : ∀ ns key, (store.get ns key).Only fun c : Cmd ι =>
    ∀ cacheKey, c.looksAt home cacheKey = true → buildCacheKey ns key = cacheKey
  unfilled : ∀ ns key, (store.get ns key).Only fun c : Cmd ι =>
    ∀ lower ns key stored, c ≠ .spawn (.backfill lower ns key stored)
  writesOnce : ∀ ns key entry cacheKey, (store.set ns key entry).Costs (fun c =>
    (c.writesAt home cacheKey).toNat) 1
  writes : ∀ {ns key entry log}, (store.set ns key entry).Yields log (.ok ()) →
    (∃ e ∈ log, e.1.writesAt home (buildCacheKey ns key) = true) ∧ ∀ e ∈ log, ¬ Refused e.1 e.2
  takesOnce :
    ∀ ns key cacheKey, (store.remove ns [key]).Costs (fun c => (c.takesAt home cacheKey).toNat) 1
  takes : ∀ {ns key log}, (store.remove ns [key]).Yields log (.ok ()) →
    (∃ e ∈ log, e.1.takesAt home (buildCacheKey ns key) = true) ∧ ∀ e ∈ log, ¬ Refused e.1 e.2

section Once

variable {K : Cmd ι → Bool} {α : Type} {c : Cmd ι} {next : c.Ans → Code ι α}

/-- The first command is the only one of its kind. -/
theorem once_first (others : ∀ r, (next r).Only fun c => K c = false) :
    (issue c >>= next).Costs (fun c => (K c).toNat) 1 :=
  ⟨0, Bool.toNat_le _, fun r => (others r).free fun c none => by rw [none]; rfl⟩

/-- The first command is of another kind. -/
theorem once_later (other : K c = false) (onward : ∀ r, (next r).Costs (fun c => (K c).toNat) 1) :
    (issue c >>= next).Costs (fun c => (K c).toNat) 1 :=
  ⟨1, by simp [other], onward⟩

/-- What follows is of another kind. -/
theorem once_then {β : Type} {p : Code ι α} {next : α → Code ι β}
    (once : p.Costs (fun c => (K c).toNat) 1) (others : ∀ value, (next value).Only fun c =>
      K c = false) : (p >>= next).Costs (fun c => (K c).toNat) 1 :=
  once.bind (m := 0) fun value => (others value).free fun c none => by rw [none]; rfl

end Once

theorem HashMapStore.sole (id : Nat) (evictOnSet : Option EvictOnSetConfig) :
    (dyn id evictOnSet : DynStore ι).Sole (.map (.hashMap id)) where
  looksOnce ns key cacheKey := by
    refine once_first fun answer => ?_
    obtain ⟨found, now⟩ := answer
    cases found with
    | none => trivial
    | some stored =>
        dsimp only
        split
        · refine Prog.Only.bind ?_ fun _ => trivial
          exact only_issue rfl
        · trivial
  looks yields := by
    simp only [dyn, get, Ask.mapRead_bind, Prog.yields_op] at yields
    obtain ⟨_, _, rfl, _⟩ := yields
    exact ⟨_, List.mem_cons_self .., by simp [Cmd.looksAt]⟩
  here ns key :=
  get_only (fun _ same => (Option.some.inj same).symm) (fun _ same => (Option.some.inj same).symm)
  keyed ns key := get_only (fun _ looks => (of_decide_eq_true looks).2) nofun
  unfilled ns key := get_only nofun nofun
  writesOnce ns key entry cacheKey := by
    refine once_first fun _ => Prog.Only.bind ?_ fun _ => trivial
    exact maybeEvict_only fun _ _ => ⟨rfl, rfl⟩
  writes {ns key entry log} yields := by
    have calm : (set id evictOnSet ns key entry : Code ι _).Only fun c => ∀ r, ¬ Refused c r :=
      set_only (fun _ refused => refused) fun _ _ =>
        ⟨fun _ refused => refused, fun _ refused => refused⟩
    refine ⟨?_, fun e member => calm.yields yields e member _⟩
    simp only [dyn, set, Ask.mapInsert_bind, Prog.yields_op] at yields
    obtain ⟨_, _, rfl, _⟩ := yields
    exact ⟨_, List.mem_cons_self .., by simp [Cmd.writesAt]⟩
  takesOnce ns key cacheKey := once_first fun _ => trivial
  takes yields := by
    simp only [dyn, remove, Ask.mapRemove_bind, Prog.yields_op] at yields
    obtain ⟨_, _, rfl, onward⟩ := yields
    obtain ⟨rfl, _⟩ := Prog.yields_ret.mp onward
    simp [Cmd.takesAt, Refused]

theorem MokaStore.sole (id : Nat) : (dyn id : DynStore ι).Sole (.map (.moka id)) where
  looksOnce ns key cacheKey := by
    refine once_first fun found => ?_
    cases found with
    | none => trivial
    | some stored =>
        refine Prog.Only.bind (only_issue rfl) fun now => ?_
        split
        · refine Prog.Only.bind ?_ fun _ => trivial
          exact only_issue rfl
        · trivial
  looks yields := by
    simp only [dyn, get, Ask.mapGet_bind, Prog.yields_op] at yields
    obtain ⟨_, _, rfl, _⟩ := yields
    exact ⟨_, List.mem_cons_self .., by simp [Cmd.looksAt]⟩
  here ns key := get_only (fun _ same => (Option.some.inj same).symm) nofun
    (fun _ same => (Option.some.inj same).symm)
  keyed ns key := get_only (fun _ looks => (of_decide_eq_true looks).2) nofun nofun
  unfilled ns key := get_only nofun nofun nofun
  writesOnce ns key entry cacheKey := once_first fun _ => trivial
  writes yields := by
    simp only [dyn, set, Ask.mapInsert_bind, Prog.yields_op] at yields
    obtain ⟨_, _, rfl, onward⟩ := yields
    obtain ⟨rfl, _⟩ := Prog.yields_ret.mp onward
    simp [Cmd.writesAt, Refused]
  takesOnce ns key cacheKey := once_first fun _ => trivial
  takes yields := by
    simp only [dyn, remove, Ask.mapRemove_bind, Prog.yields_op] at yields
    obtain ⟨_, _, rfl, onward⟩ := yields
    obtain ⟨rfl, _⟩ := Prog.yields_ret.mp onward
    simp [Cmd.takesAt, Refused]

theorem RedisStore.sole (server : Nat) (disableExpiration : Bool) :
    (dyn server disableExpiration : DynStore ι).Sole (.server server) where
  looksOnce ns key cacheKey := by
    refine once_first fun result => ?_
    rcases result with e | _ | json
    · trivial
    · trivial
    · dsimp only
      split
      · trivial
      · refine Prog.Only.bind (only_issue rfl) fun now => ?_
        split
        · refine Prog.Only.bind ?_ fun _ => trivial
          exact only_issue rfl
        · trivial
  looks yields := by
    simp only [dyn, get, Ask.redisGet_bind, Prog.yields_op] at yields
    obtain ⟨_, _, rfl, _⟩ := yields
    exact ⟨_, List.mem_cons_self .., by simp [Cmd.looksAt]⟩
  here ns key := get_only (fun _ same => (Option.some.inj same).symm) nofun fun _ => nofun
  keyed ns key := get_only (fun _ looks => (of_decide_eq_true looks).2) nofun fun _ => nofun
  unfilled ns key := get_only nofun nofun fun _ => nofun
  writesOnce ns key entry cacheKey := by
    cases entry with
    | typed => trivial
    | serialized json freshUntil staleUntil =>
        cases disableExpiration with
        | true => exact once_first fun done => by cases done <;> trivial
        | false => exact once_later rfl fun now => once_first fun done => by cases done <;> trivial
  writes {ns key entry log} yields := by
    cases entry with
    | typed => cases yields
    | serialized json freshUntil staleUntil =>
        cases disableExpiration with
        | true =>
            simp only [dyn, set, if_true, Ask.redisSet_bind, Prog.yields_op] at yields
            obtain ⟨done, _, rfl, onward⟩ := yields
            cases done with
            | error => cases onward
            | ok =>
                obtain ⟨rfl, _⟩ := Prog.yields_ret.mp onward
                simp [Cmd.writesAt, Refused]
        | false =>
            simp only [dyn, set, Bool.false_eq_true, if_false, Ask.now_bind, Ask.redisSetEx_bind,
              Prog.yields_op] at yields
            obtain ⟨now, _, rfl, done, _, rfl, onward⟩ := yields
            cases done with
            | error => cases onward
            | ok =>
                obtain ⟨rfl, _⟩ := Prog.yields_ret.mp onward
                simp [Cmd.writesAt, Refused]
  takesOnce ns key cacheKey := by
    exact once_first fun done => by cases done <;> trivial
  takes {ns key log} yields := by
    simp only [dyn, remove, List.isEmpty_cons, Bool.false_eq_true, if_false, Ask.redisDel_bind,
      Prog.yields_op] at yields
    obtain ⟨done, _, rfl, onward⟩ := yields
    cases done with
    | error => cases onward
    | ok =>
        obtain ⟨rfl, _⟩ := Prog.yields_ret.mp onward
        simp [Cmd.takesAt, Refused]

namespace MetricsStore

variable {inner : DynStore ι} {home : Home}

/-- An answer and what is told about it. -/
theorem yields_of_emit {log : Log ι} {α : Type} {p : Code ι α} {sink : Nat}
    {metric : CacheMetric} {value : α}
    (yields : (do let result ← p; Ask.emit sink metric; return result : Code ι α).Yields log
      value) :
    ∃ first, p.Yields first value ∧ log = first ++ [⟨.emit sink metric, ()⟩] := by
  obtain ⟨first, result, second, rfl, within, onward⟩ := Prog.yields_bind.mp yields
  simp only [Ask.emit_bind, Prog.yields_op, Prog.pure_eq, Prog.yields_ret] at onward
  obtain ⟨_, _, rfl, rfl, rfl⟩ := onward
  exact ⟨first, within, rfl⟩

theorem sole (sole : inner.Sole home) (sink : Nat) : (dyn inner sink).Sole home where
  looksOnce ns key cacheKey := by
    have told (metric : CacheMetric) :
        (Cmd.emit sink metric : Cmd ι).looksAt home cacheKey = false := rfl
    have read : (Cmd.now : Cmd ι).looksAt home cacheKey = false := rfl
    refine once_then (sole.looksOnce ns key cacheKey) fun result => ?_
    rcases result with e | _ | entry
    · exact (only_issue (told _)).bind fun _ => trivial
    · exact (only_issue (told _)).bind fun _ => trivial
    · exact (only_issue read).bind fun _ => (only_issue (told _)).bind fun _ => trivial
  looks yields := by
    obtain ⟨first, result, second, rfl, within, _⟩ := Prog.yields_bind.mp yields
    obtain ⟨e, member, looks⟩ := sole.looks within
    exact ⟨e, List.mem_append_left _ member, looks⟩
  here ns key := get_only (sole.here ns key) nofun fun _ _ => nofun
  keyed ns key := get_only (sole.keyed ns key) nofun fun _ _ => nofun
  unfilled ns key := get_only (sole.unfilled ns key) nofun fun _ _ => nofun
  writesOnce ns key entry cacheKey := by
    refine once_then (sole.writesOnce ns key entry cacheKey) fun _ =>
      Prog.Only.bind (only_issue rfl) fun _ => trivial
  writes yields := by
    obtain ⟨first, within, rfl⟩ := yields_of_emit yields
    obtain ⟨⟨e, member, writes⟩, calm⟩ := sole.writes within
    refine ⟨⟨e, List.mem_append_left _ member, writes⟩, fun e member => ?_⟩
    rcases List.mem_append.mp member with earlier | last
    · exact calm e earlier
    · obtain rfl := List.mem_singleton.mp last
      exact id
  takesOnce ns key cacheKey := by
    refine once_then (sole.takesOnce ns key cacheKey) fun _ =>
      Prog.Only.bind (only_issue rfl) fun _ => trivial
  takes yields := by
    obtain ⟨first, within, rfl⟩ := yields_of_emit yields
    obtain ⟨⟨e, member, takes⟩, calm⟩ := sole.takes within
    refine ⟨⟨e, List.mem_append_left _ member, takes⟩, fun e member => ?_⟩
    rcases List.mem_append.mp member with earlier | last
    · exact calm e earlier
    · obtain rfl := List.mem_singleton.mp last
      exact id

end MetricsStore

namespace TieredStore

variable {tier : DynStore ι} {home : Home}

/-- One call in place of a joined one. -/
theorem joined_one (p : Code ι (Except CacheError Unit)) :
    (do let results ← Prog.joinAll [p]; return firstError results) = p := by
  have first : ∀ result : Except CacheError Unit, firstError [result] = result := by
    rintro (e | _)
    · rfl
    · rfl
  simp only [Prog.joinAll_one, bind_assoc, Prog.ret_bind, first]
  exact Prog.bind_ret p

theorem setTier_sole (sole : tier.Sole home) (ns key : String) (entry : StoredEntry ι) :
    (∀ cacheKey, (setTier ns key entry tier).Costs (fun c => (c.writesAt home cacheKey).toNat) 1) ∧
    ∀ log, (setTier ns key entry tier).Yields log (.ok ()) →
      (∃ e ∈ log, e.1.writesAt home (buildCacheKey ns key) = true) ∧
      ∀ e ∈ log, ¬ Refused e.1 e.2 := by
  simp only [setTier]
  split
  · refine ⟨fun _ => trivial, fun log yields => ?_⟩
    cases yields
  · exact ⟨fun cacheKey => sole.writesOnce ns key _ cacheKey, fun log yields => sole.writes yields⟩

theorem sole (sole : tier.Sole home) : (dyn [tier]).Sole home := by
  have looks (ns key : String) : (dyn [tier]).get ns key = tier.get ns key :=
    getFrom_one tier ns key
  have writes (ns key : String) (entry : StoredEntry ι) :
      (dyn [tier]).set ns key entry = setTier ns key entry tier := joined_one _
  have takes (ns : String) (keys : List String) :
      (dyn [tier]).remove ns keys = tier.remove ns keys := joined_one _
  constructor
  case looksOnce => simpa only [looks] using sole.looksOnce
  case looks =>
    intro ns key log result
    rw [looks]
    exact sole.looks
  case here => simpa only [looks] using sole.here
  case keyed => simpa only [looks] using sole.keyed
  case unfilled => simpa only [looks] using sole.unfilled
  case writesOnce => simpa only [writes] using fun ns key entry =>
    (setTier_sole sole ns key entry).1
  case writes =>
    intro ns key entry log
    rw [writes]
    exact (setTier_sole sole ns key entry).2 log
  case takesOnce => simpa only [takes] using sole.takesOnce
  case takes =>
    intro ns key log
    rw [takes]
    exact sole.takes

end TieredStore

namespace Store

mutual
theorem sole_sole {home : Home} : ∀ store : Store, store.sole = some home → (store.dyn ι).Sole home
  | .hashMap id evictOnSet, same => by
      cases same
      exact HashMapStore.sole id evictOnSet
  | .moka id, same => by
      cases same
      exact MokaStore.sole id
  | .redis server disableExpiration, same => by
      cases same
      exact RedisStore.sole server disableExpiration
  | .tiered tiers, sole => soleOf_sole tiers sole
  | .metrics inner sink, sole => MetricsStore.sole (sole_sole inner sole) sink
  | .ext .., absent => by cases absent

theorem soleOf_sole {home : Home} : ∀ stores : List Store, soleOf stores = some home →
    (TieredStore.dyn (dynList ι stores)).Sole home
  | [store], sole => TieredStore.sole (sole_sole store sole)
  | [], absent | _ :: _ :: _, absent => by cases absent
end

end Store

/-! ## What a leaf shows -/

/-- The place has the entry under the key. A server has no more of it than the text. -/
def Home.Shows (w : World ι) (cacheKey : String) (stored : StoredEntry ι) : Home → Prop
  | .map id => (w.maps id).lookup cacheKey = some stored
  | .server id => ∃ item freshUntil staleUntil, w.redis id cacheKey = some item ∧
      stored = .serialized item.json freshUntil staleUntil
  | .ext _ => False

section Effects

variable {X : ExtSemantics ι} {home : Home} {cacheKey : String} {i : Nat} {t : Int}
  {w w' : World ι} {c : Cmd ι} {r : c.Ans} {stored : StoredEntry ι}

private theorem shows_setMap {map : MapId} {m : HashMap ι}
    (here : home = .map map → m.lookup cacheKey = some stored →
      (w.maps map).lookup cacheKey = some stored)
    (shows : home.Shows (w.setMap map m) cacheKey stored) : home.Shows w cacheKey stored := by
  cases home with
  | map other =>
      simp only [Home.Shows, World.setMap_maps] at shows ⊢
      split at shows
      · next same =>
          subst same
          exact here rfl shows
      · exact shows
  | server | ext => exact shows

private theorem shows_redis {w' : World ι} (maps : w'.maps = w.maps)
    (here : ∀ server, home = .server server → ∀ item, w'.redis server cacheKey = some item →
      w.redis server cacheKey = some item)
    (shows : home.Shows w' cacheKey stored) : home.Shows w cacheKey stored := by
  cases home with
  | map other =>
      simp only [Home.Shows, maps] at shows ⊢
      exact shows
  | server server =>
      obtain ⟨item, freshUntil, staleUntil, found, same⟩ := shows
      exact ⟨item, freshUntil, staleUntil, here server rfl item found, same⟩
  | ext => exact shows

/-- A command that does not write the key there adds nothing. -/
theorem exec_shows (done : exec X i t w c r w') (spares : c.writesAt home cacheKey = false)
    (shows : home.Shows w' cacheKey stored) : home.Shows w cacheKey stored := by
  cases c
  case mapInsert map key entry =>
    obtain rfl := done
    refine shows_setMap (fun same found => ?_) shows
    rw [HashMap.lookup_insert] at found
    split at found
    · next here => simp [Cmd.writesAt, same, here] at spares
    · exact found
  case mapExpire =>
    obtain rfl := done
    refine shows_setMap (fun _ found => ?_) shows
    rw [HashMap.lookup_erase] at found
    split at found
    · cases found
    · exact found
  case mapRemove =>
    obtain rfl := done
    refine shows_setMap (fun _ found => ?_) shows
    rw [HashMap.lookup_eraseAll] at found
    split at found
    · cases found
    · exact found
  case mapEvict =>
    obtain ⟨order, _, rfl⟩ := done
    exact shows_setMap (fun _ found => HashMap.lookup_evict found) shows
  case redisSet server key json =>
    have other : ∀ item, (w.setRedis server key (some item)).redis = w'.redis → w'.maps = w.maps →
        home.Shows w cacheKey stored := by
      intro item same maps
      refine shows_redis maps (fun server' at_home item' found => ?_) shows
      rw [← same, World.setRedis_redis] at found
      split at found
      · next here => simp [Cmd.writesAt, at_home, here] at spares
      · exact found
    rcases done with ⟨_, rfl⟩ | ⟨_, _, rfl | rfl⟩
    · exact other _ rfl rfl
    · exact shows
    · exact other _ rfl rfl
  case redisSetEx server key json ttl =>
    have other : ∀ item, (w.setRedis server key (some item)).redis = w'.redis → w'.maps = w.maps →
        home.Shows w cacheKey stored := by
      intro item same maps
      refine shows_redis maps (fun server' at_home item' found => ?_) shows
      rw [← same, World.setRedis_redis] at found
      split at found
      · next here => simp [Cmd.writesAt, at_home, here] at spares
      · exact found
    rcases done with ⟨_, rfl⟩ | ⟨_, _, rfl | rfl⟩
    · exact other _ rfl rfl
    · exact shows
    · exact other _ rfl rfl
  case redisDel server keys =>
    have other : w' = w.delRedis server keys → home.Shows w cacheKey stored := by
      rintro rfl
      refine shows_redis (show (w.delRedis server keys).maps = w.maps from rfl)
        (fun server' _ item found => ?_) shows
      rw [World.delRedis_redis] at found
      split at found
      · cases found
      · exact found
    rcases done with ⟨_, rfl⟩ | ⟨_, _, rfl | rfl⟩
    · exact other rfl
    · exact shows
    · exact other rfl
  case extGet | extSet | extRemove =>
    obtain ⟨_, _, rfl⟩ := done
    cases home <;> exact shows
  case now | rand | mapRead | mapGet | redisGet | containsKey =>
    obtain ⟨_, rfl⟩ := done
    exact shows
  case sleep | spawn | loadStart | loadEnd =>
    obtain rfl := done
    exact shows
  case insertMarker | removeMarker | emit =>
    obtain rfl := done
    cases home <;> exact shows

/-- What a read is answered is there. -/
theorem exec_looks (done : exec X i t w c r w') (looks : c.looksAt home cacheKey = true)
    (sighted : Sighted [⟨c, r⟩] cacheKey stored) : home.Shows w cacheKey stored := by
  cases sighted with
  | hashMap shown =>
      cases List.mem_singleton.mp shown
      obtain ⟨rfl, _⟩ := of_decide_eq_true looks
      exact (congrArg Prod.fst done.1).symm
  | moka shown =>
      cases List.mem_singleton.mp shown
      obtain ⟨rfl, _⟩ := of_decide_eq_true looks
      exact done.1.symm
  | redis shown =>
      cases List.mem_singleton.mp shown
      obtain ⟨rfl, _⟩ := of_decide_eq_true looks
      rcases done.1 with found | ⟨_, failed⟩
      · obtain ⟨item, kept, rfl⟩ := Option.map_eq_some_iff.mp (Except.ok.inj found).symm
        exact ⟨item, _, _, (Option.filter_eq_some_iff.mp kept).1, rfl⟩
      · cases failed

private theorem shows_setRedis {server : Nat} {json : String} {expireAt : Option Int}
    {value : Σ ty : ι, Val ty}
    (shows : Home.Shows (w.setRedis server cacheKey (some ⟨json, expireAt⟩)) cacheKey stored
      (.server server))
    (renders : Renders value json) : stored.Carries value := by
  obtain ⟨item, _, _, found, rfl⟩ := shows
  rw [World.setRedis_redis, if_pos ⟨rfl, rfl⟩] at found
  obtain rfl := Option.some.inj found
  exact renders

/-- After a write there is what was written, or the server has refused. -/
theorem exec_sets (done : exec X i t w c r w') (writes : c.writesAt home cacheKey = true) :
    (∀ stored value, home.Shows w' cacheKey stored → c.Carries value → stored.Carries value) ∨
      w' = w ∧ Refused c r := by
  cases c
  case mapInsert map key entry =>
    obtain ⟨rfl, rfl⟩ := of_decide_eq_true writes
    obtain rfl := done
    refine .inl fun stored value shows carries => ?_
    simp only [Home.Shows, World.setMap_maps, if_true, HashMap.lookup_insert] at shows
    obtain rfl := Option.some.inj shows
    exact carries
  case redisSet server key json =>
    obtain ⟨rfl, rfl⟩ := of_decide_eq_true writes
    rcases done with ⟨_, rfl⟩ | ⟨_, rfl, rfl | rfl⟩
    · exact .inl fun stored value shows renders => shows_setRedis shows renders
    · exact .inr ⟨rfl, trivial⟩
    · exact .inl fun stored value shows renders => shows_setRedis shows renders
  case redisSetEx server key json ttl =>
    obtain ⟨rfl, rfl⟩ := of_decide_eq_true writes
    rcases done with ⟨_, rfl⟩ | ⟨_, rfl, rfl | rfl⟩
    · exact .inl fun stored value shows renders => shows_setRedis shows renders
    · exact .inr ⟨rfl, trivial⟩
    · exact .inl fun stored value shows renders => shows_setRedis shows renders
  all_goals cases writes

/-- After a removal there is nothing, or the server has refused. -/
theorem exec_unsets (done : exec X i t w c r w') (takes : c.takesAt home cacheKey = true) :
    (∀ stored, ¬ home.Shows w' cacheKey stored) ∨ w' = w ∧ Refused c r := by
  cases c
  case mapRemove map keys =>
    obtain ⟨rfl, member⟩ := of_decide_eq_true takes
    obtain rfl := done
    refine .inl fun stored shows => ?_
    simp only [Home.Shows, World.setMap_maps, if_true, HashMap.lookup_eraseAll, member] at shows
    cases shows
  case redisDel server keys =>
    obtain ⟨rfl, member⟩ := of_decide_eq_true takes
    have gone :
        ∀ stored, ¬ Home.Shows (w.delRedis server keys) cacheKey stored (.server server) := by
      rintro stored ⟨item, _, _, found, _⟩
      rw [World.delRedis_redis, if_pos ⟨rfl, member⟩] at found
      cases found
    rcases done with ⟨_, rfl⟩ | ⟨_, rfl, rfl | rfl⟩
    · exact .inl gone
    · exact .inr ⟨rfl, trivial⟩
    · exact .inl gone
  all_goals cases takes

end Effects

end Swr
