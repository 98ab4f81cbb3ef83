import Swr.Json
import Swr.RedisExpiry

/-! # How long an expiring Redis store shows an entry

The server keeps a key for whole seconds, and `get` looks at the stamp of the entry once
more. A `HashMapStore` looks at the stamp only.
-/

namespace Swr

open Async

variable {ι : Type} [SerdeJson ι]

/-! ## Whole seconds -/

namespace RedisStore

/-- The entry has not expired, but `t` is in the part of a second that was left out of
    its time to live at `t₀`. An entry that had less than a second left is kept for a
    whole one. -/
def CutShort (t₀ staleUntil t : Int) : Prop :=
  1000 ≤ staleUntil - t₀ ∧ t < staleUntil ∧ staleUntil - t ≤ (staleUntil - t₀) % 1000

instance (t₀ staleUntil t : Int) : Decidable (CutShort t₀ staleUntil t) :=
  inferInstanceAs (Decidable (_ ∧ _ ∧ _))

/-- The server has the key and the entry has not expired. -/
theorem live_and_due_iff {t₀ staleUntil t : Int} (later : t₀ ≤ t) :
    t < t₀ + calculateTtlSeconds staleUntil t₀ * 1000 ∧ t < staleUntil ↔
      t < staleUntil ∧ ¬ CutShort t₀ staleUntil t := by
  unfold calculateTtlSeconds CutShort
  split
  · -- An entry that has expired by `t₀` has expired by `t`.
    omega
  · next ahead =>
      rw [Int.tdiv_eq_ediv_of_nonneg (by omega)]
      omega

end RedisStore

/-! ## A `set` and a `get` -/

section Alone

variable [DecidableEq ι] {server id i j : Nat} {ns key json : String}
  {freshUntil staleUntil t₀ t : Int} {w : World ι} {coins coins' : List Bool}
  {origin origin' : (i : ι) → Option (Val i)}

theorem redis_setAlone : (driver.runTask i (fun _ => (t₀, origin)) coins
    (.storeSet (.redis server false) ns key (.serialized json freshUntil staleUntil)) w).2.world =
      w.setRedis server (buildCacheKey ns key)
        (some ⟨json, some (t₀ + RedisStore.calculateTtlSeconds staleUntil t₀ * 1000)⟩) := by
  simp [Driver.runTask, Task.body, Store.dyn, RedisStore.dyn, RedisStore.set, driver_alone, perform]

theorem redis_getAlone {expireAt : Int}
    (shows : SerdeJson.metadataFromStr ι json = .ok ⟨freshUntil, staleUntil⟩)
    (has : w.redis server (buildCacheKey ns key) = some ⟨json, some expireAt⟩) :
    (driver.runTask i (fun _ => (t, origin)) coins (.storeGet (.redis server false) ns key) w).1 =
      .entry (.ok (some (.serialized json freshUntil staleUntil))) ↔ t < expireAt ∧
      t < staleUntil := by
  have read :
      w.readRedis t server (buildCacheKey ns key) = if t < expireAt then some json else none := by
    by_cases live : t < expireAt <;> simp [World.readRedis, has, RedisItem.live, live]
  simp only [Driver.runTask, Task.body, Store.dyn, RedisStore.dyn, RedisStore.get,
    Ask.redisGet_bind, Prog.op_bind, Prog.run_op, driver_alone, perform, read]
  by_cases live : t < expireAt
  · by_cases old : staleUntil ≤ t
    · simp [driver_alone, perform, live, shows, old]
    · simp [driver_alone, perform, live, shows, old, Int.not_le.mp old]
  · simp [live]

/-- A `HashMapStore` shows an entry until it expires. -/
theorem hashMap_getAlone {config : Option EvictOnSetConfig} {stored : StoredEntry ι}
    (has : (w.maps (.hashMap id)).lookup (buildCacheKey ns key) = some stored) :
    (driver.runTask i (fun _ => (t, origin)) coins (.storeGet (.hashMap id config) ns key) w).1 =
      .entry (.ok (some stored)) ↔ t < stored.staleUntil := by
  simp only [Driver.runTask, Task.body, Store.dyn, HashMapStore.dyn, HashMapStore.get,
    Ask.mapRead_bind, Prog.op_bind, Prog.run_op, driver_alone, perform, has]
  cases expired : stored.isExpired t with
  | true =>
      have old := StoredEntry.isExpired_iff.mp expired
      simp [driver_alone, old]
  | false =>
      have due : t < stored.staleUntil := by simpa [StoredEntry.isExpired] using expired
      simp [due]

/-- Where nothing else touches the key, a `get` shows an entry exactly until it expires,
    if and only if it does not come in the part of a second left out of the time to
    live. -/
theorem shown_until_stale_iff {X : ExtSemantics ι} {threads : List (Thread (system X))}
    {past : History (system X)} {s : Config (system X)}
    (shows : SerdeJson.metadataFromStr ι json = .ok ⟨freshUntil, staleUntil⟩) (later : t₀ ≤ t)
    (run : Run (system X) ⟨(driver.runTask i (fun _ => (t₀, origin)) coins
      (.storeSet (.redis server false) ns key (.serialized json freshUntil staleUntil)) w).2.world,
      threads⟩ past s)
    (quiet : ∀ e ∈ past, RedisStore.redisOutcome server (buildCacheKey ns key) e.2 = none) :
    ((driver.runTask j (fun _ => (t, origin')) coins'
      (.storeGet (.redis server false) ns key) s.world).1 =
        .entry (.ok (some (.serialized json freshUntil staleUntil))) ↔ t < staleUntil) ↔
      ¬ RedisStore.CutShort t₀ staleUntil t := by
  have has : s.world.redis server (buildCacheKey ns key) =
      some ⟨json, some (t₀ + RedisStore.calculateTtlSeconds staleUntil t₀ * 1000)⟩ := by
    rw [RedisStore.redis_of_quiet run quiet, redis_setAlone, World.setRedis_redis,
      if_pos ⟨rfl, rfl⟩]
  rw [redis_getAlone shows has, RedisStore.live_and_due_iff later]
  constructor
  · intro window cut
    exact (window.mpr cut.2.1).2 cut
  · intro uncut
    exact and_iff_left uncut

end Alone

section Examples

attribute [local semireducible] Json.valueKey Json.freshKey Json.staleKey Json.closing

/-- A boolean as Redis keeps it, to be dropped 1500 milliseconds after the epoch. -/
def halfSecond : StoredEntry Unit :=
  .serialized (String.ofList (Json.writeEntry ⟨true, 1000, 1500⟩)) 1000 1500

/-- The world after such an entry was put at the epoch into either store. -/
def halfSecondPut (store : Store) : World Unit :=
  (driver.runTask 0 (fun _ => (0, fun _ => none)) []
    (.storeSet store "ns" "k" halfSecond) .empty).2.world

def halfSecondShown (store : Store) (t : Int) : Out Unit :=
  (driver.runTask 1 (fun _ => (t, fun _ => none)) [] (.storeGet store "ns" "k")
    (halfSecondPut store)).1

theorem shown_until_stale_early :
    (halfSecondShown (.redis 0 false) 999 = .entry (.ok (some halfSecond)) ↔ (999 : Int) < 1500) ↔
      ¬ RedisStore.CutShort 0 1500 999 :=
  shown_until_stale_iff (X := .any) (s := ⟨halfSecondPut (.redis 0 false), []⟩) rfl
    (by decide) .refl (fun _ none => by cases none)

/-- At 1200 the server has dropped the key, and a `HashMapStore` still shows the entry. -/
theorem dropped_before_stale :
    (1200 : Int) < halfSecond.staleUntil ∧ halfSecondShown (.redis 0 false) 1200 =
      .entry (.ok none) ∧ halfSecondShown (.hashMap 0 none) 1200 = .entry (.ok (some halfSecond)) :=
  ⟨by decide, rfl, rfl⟩

end Examples

end Swr
