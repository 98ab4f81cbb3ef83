import Swr.Async.Sequential
import Swr.Ideal
import Swr.StoreCode

/-! # What tiers hold

Tiers that were given the same entry hold it in different forms, and an in-memory tier
may have dropped it once it has expired. `Store.Fits` says that a tier is no further
from the entry than that; the code of every tier, and of the tiers together, is
described in these terms.
-/

namespace Swr

open Async

variable {ι : Type} [SerdeJson ι] {ty : ι}

/-! ## Forms of an entry -/

/-- The stored entry says `e`. -/
inductive Encodes (e : Entry (Val ty)) : StoredEntry ι → Prop where
  | typed : Encodes e (.fromTypedWithSerializer ty e.value e.freshUntil e.staleUntil)
  | serialized (written : SerdeJson.toString ty e = .ok json) :
      Encodes e (.fromSerialized json e.freshUntil e.staleUntil)

namespace Encodes

variable {e : Entry (Val ty)} {stored : StoredEntry ι}

theorem freshUntil (encodes : Encodes e stored) : stored.freshUntil = e.freshUntil := by
  cases encodes <;> rfl

theorem staleUntil (encodes : Encodes e stored) : stored.staleUntil = e.staleUntil := by
  cases encodes <;> rfl

section Lawful

variable [LawfulSerdeJson ι]

theorem intoTyped [DecidableEq ι] (encodes : Encodes e stored) : stored.intoTyped ty = .ok e := by
  cases encodes with
  | typed => simp [StoredEntry.fromTypedWithSerializer, StoredEntry.intoTyped]
  | serialized written =>
      obtain ⟨json, written', read, _⟩ := LawfulSerdeJson.roundTrip ty e
      obtain rfl := Except.ok.inj (written.symm.trans written')
      simp [StoredEntry.fromSerialized, StoredEntry.intoTyped, read]

/-- The JSON a serialized tier is given. -/
theorem toSerialized (encodes : Encodes e stored) : ∃ json, SerdeJson.toString ty e = .ok json ∧
    stored.convertForMode .serialized = .ok (.fromSerialized json e.freshUntil e.staleUntil) := by
  cases encodes with
  | typed =>
      obtain ⟨json, written, _⟩ := LawfulSerdeJson.roundTrip ty e
      refine ⟨json, written, ?_⟩
      simp [StoredEntry.fromTypedWithSerializer, StoredEntry.convertForMode,
        StoredEntry.toSerialized, StoredEntry.serialize, StoredEntry.fromSerialized, written]
  | serialized written => exact ⟨_, written, rfl⟩

omit [LawfulSerdeJson ι] in
/-- A typed tier takes an entry as it comes. -/
theorem toTyped (stored : StoredEntry ι) : stored.convertForMode .typed = .ok stored := by
  cases stored <;> rfl

/-- What the cache builds for a value says that value. -/
theorem of_storedEntry (mode : StorageMode) : ∃ stored,
    SwrCache.storedEntry ty mode e.value e.freshUntil e.staleUntil = .ok stored ∧
    Encodes e stored := by
  cases mode with
  | typed => exact ⟨_, rfl, .typed⟩
  | serialized =>
      obtain ⟨json, written, _⟩ := LawfulSerdeJson.roundTrip ty e
      exact ⟨_, by simp [SwrCache.storedEntry, StoredEntry.serialize, written], .serialized written⟩

end Lawful

end Encodes

/-- What the cache builds for an entry says it. -/
theorem storedEntry_encodes {mode : StorageMode} {e : Entry (Val ty)} {stored : StoredEntry ι}
    (made : SwrCache.storedEntry ty mode e.value e.freshUntil e.staleUntil = .ok stored) :
    Encodes e stored := by
  cases mode with
  | typed => cases made; exact .typed
  | serialized =>
      simp only [SwrCache.storedEntry, StoredEntry.serialize] at made
      split at made
      · next json rendered =>
          cases made
          split at rendered
          · next written => cases rendered; exact .serialized written
          · cases rendered
      · cases made

/-! ## Contents of a tier -/

/-- An in-memory tier has the entry, or has dropped it after it expired. -/
inductive MapFits (t : Int) : Option (Entry (Val ty)) → Option (StoredEntry ι) → Prop where
  | absent : MapFits t none none
  | dropped (expired : e.staleUntil ≤ t) : MapFits t (some e) none
  | held (encodes : Encodes e stored) : MapFits t (some e) (some stored)

/-- A server that lets nothing expire has the entry. -/
inductive RedisFits : Option (Entry (Val ty)) → Option RedisItem → Prop where
  | absent : RedisFits none none
  | held (written : SerdeJson.toString ty e = .ok json) : RedisFits (some e) (some ⟨json, none⟩)

/-- An in-memory tier without eviction, or a Redis tier without expiration. -/
def Store.isPlain : Store → Bool
  | .hashMap _ none | .redis _ true => true
  | _ => false

/-- The tier shows entries that have expired. -/
def Store.keepsExpired : Store → Bool
  | .redis .. => true
  | _ => false

/-- What the tier has under the key is what is left of `held` at time `t`. -/
def Store.Fits (t : Int) (held : Option (Entry (Val ty))) (cacheKey : String) (w : World ι) :
    Store → Prop
  | .hashMap id _ => MapFits t held ((w.maps (.hashMap id)).lookup cacheKey)
  | .redis server _ => RedisFits held (w.redis server cacheKey)
  | _ => False

theorem MapFits.later {t t' : Int} {held : Option (Entry (Val ty))} {found : Option (StoredEntry ι)}
    (fits : MapFits t held found) (le : t ≤ t') : MapFits t' held found := by
  cases fits with
  | absent => exact .absent
  | dropped expired => exact .dropped (by omega)
  | held encodes => exact .held encodes

theorem Store.Fits.later {t t' : Int} {held : Option (Entry (Val ty))}
    {cacheKey : String} {w : World ι} {tier : Store} (fits : tier.Fits t held cacheKey w)
    (le : t ≤ t') : tier.Fits t' held cacheKey w := by
  cases tier with
  | hashMap id => exact MapFits.later fits le
  | redis => exact fits
  | moka | tiered | metrics | ext => exact fits.elim

/-- What a look-up returns when it sees `seen`. -/
inductive Found : Option (Entry (Val ty)) → Except CacheError (Option (StoredEntry ι)) → Prop where
  | nothing : Found none (.ok none)
  | entry (encodes : Encodes e stored) : Found (some e) (.ok (some stored))

/-- What the tier shows at time `t` of what it was given. -/
def Store.shown (tier : Store) (t : Int) (held : Option (Entry (Val ty))) :
    Option (Entry (Val ty)) :=
  held.filter (fun e => t < e.staleUntil || tier.keepsExpired)

theorem Store.shown_some {tier : Store} {t : Int} {e : Entry (Val ty)}
    (shows : t < e.staleUntil ∨ tier.keepsExpired = true) : tier.shown t (some e) = some e := by
  unfold shown
  rcases shows with live | keeps
  · simp [live]
  · simp [keeps]

theorem Store.shown_none {tier : Store} {t : Int} {e : Entry (Val ty)} (expired : e.staleUntil ≤ t)
    (drops : tier.keepsExpired = false) : tier.shown t (some e) = none := by
  simp [shown, drops, expired]

/-- What the tiers show together. -/
def shownBy (tiers : List Store) (t : Int) (held : Option (Entry (Val ty))) :
    Option (Entry (Val ty)) :=
  held.filter (fun e => tiers.any (fun tier => t < e.staleUntil || tier.keepsExpired))

theorem shownBy_cons_none {tier : Store} {rest : List Store} {t : Int}
    {held : Option (Entry (Val ty))} (unseen : tier.shown t held = none) :
    shownBy (tier :: rest) t held = shownBy rest t held := by
  cases held with
  | none => rfl
  | some e =>
      have hidden : (t < e.staleUntil || tier.keepsExpired) = false := by
        simpa [Store.shown, Option.filter] using unseen
      simp [shownBy, Option.filter, hidden]

theorem shownBy_cons_some {tier : Store} (rest : List Store) {t : Int}
    {held : Option (Entry (Val ty))} {e : Entry (Val ty)} (seen : tier.shown t held = some e) :
    held = some e ∧ shownBy (tier :: rest) t held = some e := by
  obtain ⟨rfl, shows⟩ := Option.filter_eq_some_iff.mp seen
  simp [shownBy, shows]

/-- The back-fill a look-up leaves behind, if any. -/
inductive Refill (tiers : List Store) (ns key : String) :
    Option (Entry (Val ty)) → List (Task ι) → Prop where
  | none : Refill tiers ns key seen []
  | some (lower : ∀ tier ∈ before, tier ∈ tiers) (encodes : Encodes e stored) :
      Refill tiers ns key (some e) [.backfill before ns key stored]

/-! ## Commands for one entry -/

/-- Commands that leave nothing but `held` under the key, and touch no other key. -/
def Cmd.Keeps (t : Int) (held : Option (Entry (Val ty))) (cacheKey : String) : Cmd ι → Prop
  | .now | .mapRead .. | .redisGet .. => True
  | .mapInsert _ key entry => key = cacheKey ∧ ∃ e, held = some e ∧ Encodes e entry
  | .redisSet _ key json => key = cacheKey ∧ ∃ e, held = some e ∧ SerdeJson.toString ty e = .ok json
  | .mapExpire _ key => key = cacheKey ∧ ∃ e, held = some e ∧ e.staleUntil ≤ t
  | .mapRemove _ keys | .redisDel _ keys => keys = [cacheKey] ∧ held = none
  | _ => False

/-- Nothing has changed but what is under the key. -/
structure Elsewhere (cacheKey : String) (w w' : World ι) : Prop where
  maps : ∀ map key, key ≠ cacheKey → (w'.maps map).lookup key = (w.maps map).lookup key
  redis : ∀ server key, key ≠ cacheKey → w'.redis server key = w.redis server key
  markers : w'.markers = w.markers

theorem Elsewhere.refl {cacheKey : String} {w : World ι} : Elsewhere cacheKey w w :=
  ⟨fun _ _ _ => rfl, fun _ _ _ => rfl, rfl⟩

theorem Elsewhere.trans {cacheKey : String} {w w' w'' : World ι} (first : Elsewhere cacheKey w w')
    (second : Elsewhere cacheKey w' w'') : Elsewhere cacheKey w w'' where
  maps map key other := (second.maps map key other).trans (first.maps map key other)
  redis server key other := (second.redis server key other).trans (first.redis server key other)
  markers := second.markers.trans first.markers

theorem Elsewhere.fits {cacheKey key : String} {w w' : World ι} (same : Elsewhere cacheKey w w')
    (other : key ≠ cacheKey) {t : Int} {held : Option (Entry (Val ty))} {tier : Store}
    (fits : tier.Fits t held key w) : tier.Fits t held key w' := by
  cases tier with
  | hashMap id => simpa only [Store.Fits, same.maps _ key other] using fits
  | redis server => simpa only [Store.Fits, same.redis server key other] using fits
  | moka | tiered | metrics | ext => exact fits.elim

section Commands

variable {around : Surroundings ι} {i : Nat} {t : Int} {held : Option (Entry (Val ty))}
  {cacheKey : String} {w : World ι} {c : Cmd ι}

private theorem setMap_elsewhere {map : MapId} {m : HashMap ι}
    (same : ∀ key, key ≠ cacheKey → m.lookup key = (w.maps map).lookup key) :
    Elsewhere cacheKey w (w.setMap map m) := by
  refine ⟨fun map' key other => ?_, fun _ _ _ => rfl, rfl⟩
  rw [World.setMap_maps]
  split
  · next here => rw [same key other, here]
  · rfl

private theorem redis_elsewhere {server : Nat} {items : String → Option RedisItem}
    (same : ∀ key, key ≠ cacheKey → items key = w.redis server key) :
    Elsewhere cacheKey w { w with redis := Function.update w.redis server items } := by
  refine ⟨fun _ _ _ => rfl, fun server' key other => ?_, rfl⟩
  by_cases here : server' = server
  · subst here
    simpa using same key other
  · simp [here]

private theorem setMap_fits {map : MapId} {m : HashMap ι}
    (here : MapFits t held (m.lookup cacheKey)) {tier : Store}
    (fits : tier.Fits t held cacheKey w) : tier.Fits t held cacheKey (w.setMap map m) := by
  cases tier with
  | hashMap id =>
      simp only [Store.Fits, World.setMap_maps] at fits ⊢
      split
      · exact here
      · exact fits
  | redis => exact fits
  | moka | tiered | metrics | ext => exact fits.elim

private theorem redis_fits {server : Nat} {items : String → Option RedisItem}
    (here : RedisFits held (items cacheKey)) {tier : Store} (fits : tier.Fits t held cacheKey w) :
    tier.Fits t held cacheKey { w with redis := Function.update w.redis server items } := by
  cases tier with
  | redis server' =>
      simp only [Store.Fits] at fits ⊢
      by_cases same : server' = server
      · simpa [same] using here
      · simpa [same] using fits
  | hashMap => exact fits
  | moka | tiered | metrics | ext => exact fits.elim

theorem perform_elsewhere (keeps : c.Keeps t held cacheKey) :
    Elsewhere cacheKey w (perform around i t w c).2 := by
  cases c
  case now | mapRead | redisGet => exact .refl
  case mapInsert =>
    obtain ⟨rfl, _⟩ := keeps
    exact setMap_elsewhere fun key other => by rw [HashMap.lookup_insert, if_neg other]
  case mapExpire =>
    obtain ⟨rfl, _⟩ := keeps
    exact setMap_elsewhere fun key other => by rw [HashMap.lookup_erase, if_neg other]
  case mapRemove =>
    obtain ⟨rfl, _⟩ := keeps
    exact setMap_elsewhere
      fun key other => by rw [HashMap.lookup_eraseAll, if_neg (by simpa using other)]
  case redisSet =>
    obtain ⟨rfl, _⟩ := keeps
    exact redis_elsewhere fun key other => Function.update_of_ne other _ _
  case redisDel =>
    obtain ⟨rfl, _⟩ := keeps
    exact redis_elsewhere fun key other => if_neg (by simpa using other)
  all_goals exact keeps.elim

/-- The command sets or removes in the tier. -/
def Cmd.WritesTo (c : Cmd ι) : Store → Prop
  | .hashMap id _ =>
      (∃ key entry, c = .mapInsert (.hashMap id) key entry) ∨
        ∃ keys, c = .mapRemove (.hashMap id) keys
  | .redis server _ =>
      (∃ key json, c = .redisSet server key json) ∨ ∃ keys, c = .redisDel server keys
  | _ => False

/-- A tier fits once it was written to. -/
theorem perform_written (keeps : c.Keeps t held cacheKey) {tier : Store}
    (writes : c.WritesTo tier) : tier.Fits t held cacheKey (perform around i t w c).2 := by
  cases tier with
  | hashMap id =>
      rcases writes with ⟨key, entry, rfl⟩ | ⟨keys, rfl⟩
      · obtain ⟨rfl, e, rfl, encodes⟩ := keeps
        simpa [Store.Fits, perform, World.setMap_maps] using MapFits.held encodes
      · obtain ⟨rfl, rfl⟩ := keeps
        simpa [Store.Fits, perform, World.setMap_maps, HashMap.lookup_eraseAll] using MapFits.absent
  | redis server =>
      rcases writes with ⟨key, json, rfl⟩ | ⟨keys, rfl⟩
      · obtain ⟨rfl, e, rfl, written⟩ := keeps
        simpa [Store.Fits, perform, World.setRedis] using RedisFits.held written
      · obtain ⟨rfl, rfl⟩ := keeps
        simpa [Store.Fits, perform, World.delRedis] using RedisFits.absent
  | moka | tiered | metrics | ext => exact writes.elim

/-- A tier that fits goes on to fit. -/
theorem perform_fits (keeps : c.Keeps t held cacheKey) {tier : Store}
    (fits : tier.Fits t held cacheKey w) :
    tier.Fits t held cacheKey (perform around i t w c).2 := by
  cases c
  case now | mapRead | redisGet => exact fits
  case mapInsert =>
    obtain ⟨rfl, e, rfl, encodes⟩ := keeps
    exact setMap_fits (by rw [HashMap.lookup_insert, if_pos rfl]; exact .held encodes) fits
  case mapExpire =>
    obtain ⟨rfl, e, rfl, expired⟩ := keeps
    exact setMap_fits (by rw [HashMap.lookup_erase, if_pos rfl]; exact .dropped expired) fits
  case mapRemove =>
    obtain ⟨rfl, rfl⟩ := keeps
    exact setMap_fits (by rw [HashMap.lookup_eraseAll, if_pos (by simp)]; exact .absent) fits
  case redisSet =>
    obtain ⟨rfl, e, rfl, written⟩ := keeps
    exact redis_fits (by rw [Function.update_self]; exact .held written) fits
  case redisDel =>
    obtain ⟨rfl, rfl⟩ := keeps
    exact redis_fits (by rw [if_pos (by simp)]; exact .absent) fits
  all_goals exact keeps.elim

end Commands

/-! ## A task on its own -/

/-- The key for which a command calls the origin. -/
def Cmd.load : Cmd ι → Option (String × String)
  | .loadStart _ ns key => some (ns, key)
  | _ => none

/-- The keys for which the origin was called. -/
def loads (issued : List (Cmd ι)) : List (String × String) := issued.filterMap Cmd.load

variable [DecidableEq ι]

/-- Commands answered while the clock stands still. -/
abbrev answers (i : Nat) (t : Int) (origin : (i : ι) → Option (Val i)) (c : Cmd ι)
    (a : Solo (system (ι := ι) .atomicMap)) : c.Ans × Solo (system (ι := ι) .atomicMap) :=
  driver.alone i (fun _ => (t, origin)) c a

@[simp] theorem answers_spawned {i : Nat} {t : Int} {origin : (i : ι) → Option (Val i)} {c : Cmd ι}
    {a : Solo (system (ι := ι) .atomicMap)} :
    (answers i t origin c a).2.spawned = a.spawned ++ c.spawned := rfl

@[simp] theorem answers_loads {i : Nat} {t : Int} {origin : (i : ι) → Option (Val i)} {c : Cmd ι}
    {a : Solo (system (ι := ι) .atomicMap)} :
    loads (answers i t origin c a).2.issued = loads a.issued ++ c.load.toList := by
  change loads (a.issued ++ [c]) = _
  rw [loads, List.filterMap_append]
  cases c <;> rfl

@[simp] theorem answers_now {i : Nat} {t : Int} {origin : (i : ι) → Option (Val i)}
    {a : Solo (system (ι := ι) .atomicMap)} : (answers i t origin .now a).1 = t := rfl

@[simp] theorem answers_loadEnd {i : Nat} {t : Int} {origin : (i : ι) → Option (Val i)}
    {cache : SwrCache ι} {ns key : String} {a : Solo (system (ι := ι) .atomicMap)} :
    (answers i t origin (.loadEnd cache ns key) a).1 = origin cache.ty := rfl

/-- What has happened meanwhile: nothing to other keys, nothing to tiers that fit, and
    these tasks were spawned and these keys loaded. -/
structure After (t : Int) (held : Option (Entry (Val ty))) (cacheKey : String)
    (spawned : List (Task ι)) (loaded : List (String × String))
    (a a' : Solo (system (ι := ι) .atomicMap)) : Prop where
  elsewhere : Elsewhere cacheKey a.world a'.world
  fits : ∀ tier : Store, tier.Fits t held cacheKey a.world → tier.Fits t held cacheKey a'.world
  spawned : a'.spawned = a.spawned ++ spawned
  loaded : loads a'.issued = loads a.issued ++ loaded

section After

variable {i : Nat} {t : Int} {origin : (i : ι) → Option (Val i)} {held : Option (Entry (Val ty))}
  {cacheKey : String} {spawned spawned' : List (Task ι)} {loaded loaded' : List (String × String)}
  {a a' a'' : Solo (system (ι := ι) .atomicMap)} {c : Cmd ι}

theorem After.refl : After t held cacheKey [] [] a a :=
  ⟨.refl, fun _ fits => fits, by simp, by simp⟩

theorem After.trans (first : After t held cacheKey spawned loaded a a')
    (second : After t held cacheKey spawned' loaded' a' a'') :
    After t held cacheKey (spawned ++ spawned') (loaded ++ loaded') a a'' where
  elsewhere := first.elsewhere.trans second.elsewhere
  fits tier here := second.fits tier (first.fits tier here)
  spawned := by rw [second.spawned, first.spawned, List.append_assoc]
  loaded := by rw [second.loaded, first.loaded, List.append_assoc]

theorem After.onward (first : After t held cacheKey [] [] a a')
    (second : After t held cacheKey [] [] a' a'') : After t held cacheKey [] [] a a'' :=
  first.trans second

/-- A command for the entry. -/
theorem After.command (keeps : c.Keeps t held cacheKey) :
    After t held cacheKey [] [] a (answers i t origin c a).2 where
  elsewhere := perform_elsewhere keeps
  fits _ here := perform_fits keeps here
  spawned := by cases c <;> first | rfl | exact keeps.elim
  loaded := by
    rw [answers_loads]
    cases c <;> first | rfl | exact keeps.elim

theorem After.spawn (task : Task ι) :
    After t held cacheKey [task] [] a (answers i t origin (.spawn task) a).2 where
  elsewhere := .refl
  fits _ here := here
  spawned := rfl
  loaded := by simp [Cmd.load]

end After

/-! ## The code of a tier -/

section Tier

variable {i : Nat} {t : Int} {origin : (i : ι) → Option (Val i)} {held : Option (Entry (Val ty))}
  {ns key : String} {a : Solo (system (ι := ι) .atomicMap)} {tier : Store}

theorem Store.isPlain_cases (plain : tier.isPlain = true) :
    (∃ id, tier = .hashMap id none) ∨ ∃ server, tier = .redis server true := by
  unfold Store.isPlain at plain
  split at plain
  · exact .inl ⟨_, rfl⟩
  · exact .inr ⟨_, rfl⟩
  · cases plain

theorem hashMap_get {id : Nat}
    (fits : (Store.hashMap id none).Fits t held (buildCacheKey ns key) a.world) :
    (HashMapStore.get id ns key).Ends (answers i t origin) (fun a' result =>
      After t held (buildCacheKey ns key) [] [] a a' ∧
        Found ((Store.hashMap id none).shown t held) result) a := by
  have read : After t held (buildCacheKey ns key) [] [] a
      (answers i t origin (.mapRead (.hashMap id) (buildCacheKey ns key)) a).2 := .command trivial
  simp only [HashMapStore.get, Ask.mapRead_bind, Prog.ends_op]
  have answer : (answers i t origin (.mapRead (.hashMap id) (buildCacheKey ns key)) a).1 =
      ((a.world.maps (.hashMap id)).lookup (buildCacheKey ns key), t) := rfl
  simp only [Store.Fits] at fits
  rw [answer]
  generalize (a.world.maps (.hashMap id)).lookup (buildCacheKey ns key) = found at fits ⊢
  cases fits with
  | absent => exact Prog.ends_ret.mpr ⟨read, .nothing⟩
  | @dropped e expired =>
      refine Prog.ends_ret.mpr ⟨read, ?_⟩
      rw [Store.shown_none expired rfl]
      exact .nothing
  | @held e stored encodes =>
      by_cases old : e.staleUntil ≤ t
      · have expired :
            stored.isExpired t = true := by simp [StoredEntry.isExpired, encodes.staleUntil, old]
        simp only [expired, if_true, Ask.mapExpire_bind, Prog.ends_op]
        refine Prog.ends_ret.mpr ⟨read.trans (.command ⟨rfl, e, rfl, old⟩), ?_⟩
        rw [Store.shown_none old rfl]
        exact .nothing
      · have live : stored.isExpired t = false := by
          simpa [StoredEntry.isExpired, encodes.staleUntil] using old
        simp only [live, Bool.false_eq_true, if_false]
        refine Prog.ends_ret.mpr ⟨read, ?_⟩
        rw [Store.shown_some (.inl (by omega))]
        exact .entry encodes

variable [LawfulSerdeJson ι]

theorem redis_get {server : Nat}
    (fits : (Store.redis server true).Fits t held (buildCacheKey ns key) a.world) :
    (RedisStore.get server true ns key).Ends (answers i t origin) (fun a' result =>
      After t held (buildCacheKey ns key) [] [] a a' ∧
        Found ((Store.redis server true).shown t held) result) a := by
  have read : After t held (buildCacheKey ns key) [] [] a
      (answers i t origin (.redisGet server (buildCacheKey ns key)) a).2 := .command trivial
  simp only [RedisStore.get, Ask.redisGet_bind, Prog.ends_op]
  have answer : (answers i t origin (.redisGet server (buildCacheKey ns key)) a).1 =
      .ok (a.world.readRedis t server (buildCacheKey ns key)) := rfl
  simp only [Store.Fits] at fits
  rw [answer, World.readRedis]
  generalize a.world.redis server (buildCacheKey ns key) = item at fits ⊢
  cases fits with
  | absent => exact Prog.ends_ret.mpr ⟨read, .nothing⟩
  | @held e json written =>
      obtain ⟨_, written', _, stamps⟩ := LawfulSerdeJson.roundTrip ty e
      obtain rfl := Except.ok.inj (written.symm.trans written')
      simp only [Option.filter_some, RedisItem.live, if_true, Option.map_some, stamps,
        Ask.now_bind, Prog.ends_op, Bool.not_true, Bool.false_eq_true, and_false, if_false]
      refine Prog.ends_ret.mpr ⟨read.trans (.command trivial), ?_⟩
      rw [Store.shown_some (.inr rfl)]
      exact .entry (.serialized written)

theorem tier_get (plain : tier.isPlain = true)
    (fits : tier.Fits t held (buildCacheKey ns key) a.world) :
    ((tier.dyn ι).get ns key).Ends (answers i t origin) (fun a' result =>
      After t held (buildCacheKey ns key) [] [] a a' ∧ Found (tier.shown t held) result) a := by
  rcases Store.isPlain_cases plain with ⟨id, rfl⟩ | ⟨server, rfl⟩
  · simp only [Store.dyn]
    exact hashMap_get fits
  · simp only [Store.dyn]
    exact redis_get fits

omit [LawfulSerdeJson ι]

/-- Programs that issue commands for one entry. -/
abbrev entryOutline (i : Nat) (t : Int) (origin : (i : ι) → Option (Val i))
    (held : Option (Entry (Val ty))) (cacheKey : String) : Outline (sig ι) :=
  Prog.sequential (answers i t origin) (fun _ c => Cmd.Keeps t held cacheKey c)

/-- A command on the tier, while the other tiers are written to as well. -/
theorem write_follows {α : Type} {c : Cmd ι} {rest : c.Ans → Code ι α} {value : α}
    (keeps : c.Keeps t held (buildCacheKey ns key)) (writes : c.WritesTo tier)
    (answered : ∀ a, rest (answers i t origin c a).1 = .ret value) :
    (Prog.op c rest).Follows (entryOutline i t origin held (buildCacheKey ns key))
      (After t held (buildCacheKey ns key) [] [])
      (fun a' result => result = value ∧ tier.Fits t held (buildCacheKey ns key) a'.world) a := by
  intro a' _
  refine ⟨keeps, fun r same => ?_⟩
  have returns : rest r = .ret value := (congrArg rest same).trans (answered a')
  rw [returns]
  intro a'' later
  exact ⟨rfl, later.fits tier (perform_written keeps writes)⟩

private theorem ends_after {α : Type} {p : Code ι α}
    {post : Solo (system (ι := ι) .atomicMap) → α → Prop}
    (follows : p.Follows (entryOutline i t origin held (buildCacheKey ns key))
      (After t held (buildCacheKey ns key) [] []) post a) :
    p.Ends (answers i t origin) (fun a' value =>
      After t held (buildCacheKey ns key) [] [] a a' ∧ post a' value) a := by
  have since := Prog.Follows.later (fun _ _ _ => After.onward) (fun _ _ _ keeps _ => .command keeps)
    .refl follows
  exact (since.ends fun _ => .refl).mono fun a' _ ⟨here, outlives⟩ => ⟨here, outlives a' .refl⟩

theorem removeTier_fits (plain : tier.isPlain = true) :
    ((tier.dyn ι).remove ns [key]).Follows
      (entryOutline i t origin (none : Option (Entry (Val ty))) (buildCacheKey ns key))
      (After t (none : Option (Entry (Val ty))) (buildCacheKey ns key) [] [])
      (fun a' result => result = .ok () ∧
        tier.Fits t (none : Option (Entry (Val ty))) (buildCacheKey ns key) a'.world) a := by
  rcases Store.isPlain_cases plain with ⟨id, rfl⟩ | ⟨server, rfl⟩
  · simp only [Store.dyn]
    exact write_follows ⟨rfl, rfl⟩ (.inr ⟨_, rfl⟩) fun _ => rfl
  · simp only [Store.dyn]
    exact write_follows ⟨rfl, rfl⟩ (.inr ⟨_, rfl⟩) fun _ => rfl

variable [LawfulSerdeJson ι] {e : Entry (Val ty)} {stored : StoredEntry ι}

theorem setTier_fits (plain : tier.isPlain = true) (encodes : Encodes e stored) :
    (TieredStore.setTier ns key stored (tier.dyn ι)).Follows
    (entryOutline i t origin (some e) (buildCacheKey ns key))
      (After t (some e) (buildCacheKey ns key) [] [])
      (fun a' result => result = .ok () ∧ tier.Fits t (some e) (buildCacheKey ns key) a'.world)
        a := by
  unfold TieredStore.setTier
  rcases Store.isPlain_cases plain with ⟨id, rfl⟩ | ⟨server, rfl⟩
  · simp only [Store.dyn, HashMapStore.dyn, Encodes.toTyped]
    exact write_follows ⟨rfl, e, rfl, encodes⟩ (.inl ⟨_, _, rfl⟩) fun _ => rfl
  · obtain ⟨json, written, converted⟩ := encodes.toSerialized
    simp only [Store.dyn, RedisStore.dyn, converted]
    exact write_follows ⟨rfl, e, rfl, written⟩ (.inl ⟨_, _, rfl⟩) fun _ => rfl

end Tier

/-! ## The code of all tiers -/

section Tiers

variable {i : Nat} {t : Int} {origin : (i : ι) → Option (Val i)} {held : Option (Entry (Val ty))}
  {ns key : String} {a : Solo (system (ι := ι) .atomicMap)} {tiers : List Store}

/-- Every tier fits. -/
def AllFit (tiers : List Store) (t : Int) (held : Option (Entry (Val ty))) (cacheKey : String)
    (w : World ι) : Prop :=
  ∀ tier ∈ tiers, tier.Fits t held cacheKey w

private theorem firstError_ok {results : List (Except CacheError Unit)}
    (good : List.Forall₂ (fun _ result => result = .ok ()) tiers results) :
    TieredStore.firstError results = .ok () := by
  induction good with
  | nil => rfl
  | cons here _ ih =>
      subst here
      exact ih

/-- Programs that write to one tier each, joined, write to all of them. -/
theorem joined_ends {part : Store → Code ι (Except CacheError Unit)}
    (each : ∀ tier ∈ tiers, (part tier).Follows
      (entryOutline i t origin held (buildCacheKey ns key))
      (After t held (buildCacheKey ns key) [] [])
      (fun a' result => result = .ok () ∧ tier.Fits t held (buildCacheKey ns key) a'.world) a) :
    (Prog.joinAll (tiers.map part) >>= fun results => .ret (TieredStore.firstError results)).Ends
      (answers i t origin) (fun a' result => result = .ok () ∧
        After t held (buildCacheKey ns key) [] [] a a' ∧
        AllFit tiers t held (buildCacheKey ns key) a'.world) a := by
  have joined := Prog.Follows.joinAll (fun _ => .refl) (fun _ _ _ => After.onward)
    (fun _ _ _ keeps _ => .command keeps) each
  refine Prog.Ends.bind ((ends_after joined).mono ?_)
  intro a' results both
  obtain ⟨since, all⟩ := both
  obtain ⟨fits, good⟩ := (List.forall₂_and_left _ _).mp (all.imp fun _ _ written => written.symm)
  exact Prog.ends_ret.mpr ⟨firstError_ok good, since, fits⟩

omit [DecidableEq ι] in
private theorem backfill_cons (tier : DynStore ι) (rest : List (DynStore ι))
    (stored : StoredEntry ι) : TieredStore.backfill (tier :: rest) ns key stored =
      (TieredStore.setTier ns key stored tier >>= fun _ =>
        TieredStore.backfill rest ns key stored) := by
  rw [TieredStore.backfill, TieredStore.setTier]
  cases stored.convertForMode tier.storageMode <;> rfl

variable (plain : ∀ tier ∈ tiers, tier.isPlain = true)

include plain

theorem tiers_remove :
    (TieredStore.remove (Store.dynList ι tiers) ns [key]).Ends (answers i t origin)
    (fun a' result => result = .ok () ∧
      After t (none : Option (Entry (Val ty))) (buildCacheKey ns key) [] [] a a' ∧
      AllFit tiers t (none : Option (Entry (Val ty))) (buildCacheKey ns key) a'.world) a := by
  unfold TieredStore.remove
  rw [Store.dynList_eq_map, List.map_map]
  exact joined_ends fun tier member => removeTier_fits (plain tier member)

variable [LawfulSerdeJson ι] {e : Entry (Val ty)} {stored : StoredEntry ι}

theorem tiers_set (encodes : Encodes e stored) :
    (TieredStore.set (Store.dynList ι tiers) ns key stored).Ends (answers i t origin)
      (fun a' result => result = .ok () ∧ After t (some e) (buildCacheKey ns key) [] [] a a' ∧
        AllFit tiers t (some e) (buildCacheKey ns key) a'.world) a := by
  unfold TieredStore.set
  rw [Store.dynList_eq_map, List.map_map]
  exact joined_ends fun tier member => setTier_fits (plain tier member) encodes

/-- A back-fill writes what its tiers were given already. -/
theorem backfill_ends (encodes : Encodes e stored) :
    (TieredStore.backfill (Store.dynList ι tiers) ns key stored).Ends (answers i t origin)
      (fun a' _ => After t (some e) (buildCacheKey ns key) [] [] a a') a := by
  induction tiers generalizing a with
  | nil => exact Prog.ends_ret.mpr .refl
  | cons tier rest ih =>
      obtain ⟨here, others⟩ := List.forall_mem_cons.mp plain
      simp only [Store.dynList, backfill_cons]
      refine Prog.Ends.bind ((ends_after (setTier_fits here encodes)).mono fun a' _ both => ?_)
      exact (ih others).mono fun a'' _ after => both.1.trans after

theorem getFrom_ends (before : List Store) {rest : List Store}
    (earlier : ∀ tier ∈ before, tier ∈ tiers)
    (later : ∀ tier ∈ rest, tier ∈ tiers)
    (fits : AllFit rest t held (buildCacheKey ns key) a.world) :
    (TieredStore.getFrom (Store.dynList ι before) (Store.dynList ι rest) ns key).Ends
    (answers i t origin)
      (fun a' result => ∃ spawned, Refill tiers ns key held spawned ∧
        After t held (buildCacheKey ns key) spawned [] a a' ∧
        Found (shownBy rest t held) result) a := by
  induction rest generalizing before a with
  | nil =>
      have unseen : shownBy [] t held = none := by simp [shownBy]
      exact Prog.ends_ret.mpr ⟨[], .none, .refl, unseen ▸ .nothing⟩
  | cons tier rest ih =>
      obtain ⟨here, others⟩ := List.forall_mem_cons.mp later
      obtain ⟨fitsHere, fitsRest⟩ := List.forall_mem_cons.mp fits
      rw [Store.dynList, TieredStore.getFrom]
      refine Prog.Ends.bind ((tier_get (plain tier here) fitsHere).mono fun a' result both => ?_)
      obtain ⟨since, found⟩ := both
      generalize seen : tier.shown t held = shown at found
      cases found with
      | nothing =>
          have onward := ih (a := a') (before ++ [tier])
            (List.forall_mem_append.mpr ⟨earlier, List.forall_mem_singleton.mpr here⟩) others
            fun tier' member => since.fits tier' (fitsRest tier' member)
          rw [shownBy_cons_none seen]
          simp only [Store.dynList_eq_map, List.map_append, List.map_cons, List.map_nil] at onward ⊢
          exact onward.mono fun a'' result ⟨spawned, refill, after, found⟩ =>
            ⟨spawned, refill, since.trans after, found⟩
      | entry encodes =>
          obtain ⟨rfl, sees⟩ := shownBy_cons_some rest seen
          rw [sees]
          cases before with
          | nil => exact Prog.ends_ret.mpr ⟨[], .none, since, .entry encodes⟩
          | cons first before =>
              have arcs : (Store.dynList ι (first :: before)).map DynStore.arc = first :: before :=
                Store.dynList_arc ι _
              simp only [arcs]
              refine Prog.ends_op.mpr
                (Prog.ends_ret.mpr ⟨_, .some earlier encodes, ?_, .entry encodes⟩)
              exact since.trans (.spawn _)

end Tiers

end Swr
