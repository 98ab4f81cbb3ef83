import Swr.Async.Budget
import Swr.Markers
import Swr.SwrCode

/-! # How much work a call makes

No code of the library loops on what other threads do. The one place where a call waits
for another one, the sleep before a re-read, ends by itself, and background tasks start
no tasks of their own. So each call comes with a number of commands that it can get along
with, its background tasks included.
-/

namespace Swr

open Async

/-- The most commands that the methods of a store issue. A `get` is charged with its
    background tasks, a `remove` depends on the number of keys. -/
structure Effort where
  get : Nat
  set : Nat
  remove : Nat → Nat

namespace Store

mutual
def effort : Store → Effort
  | .hashMap _ evictOnSet => ⟨2, 1 + 2 * evictOnSet.toList.length, fun _ => 1⟩
  | .moka _ => ⟨3, 1, fun keys => keys⟩
  | .redis _ _ => ⟨4, 2, fun _ => 1⟩
  | .tiered tiers =>
      ⟨((efforts tiers).map Effort.get).sum + (1 + ((efforts tiers).map Effort.set).sum),
      ((efforts tiers).map Effort.set).sum, fun keys =>
        ((efforts tiers).map fun tier => tier.remove keys).sum⟩
  | .metrics inner _ =>
      ⟨(effort inner).get + 2, (effort inner).set + 1, fun keys => (effort inner).remove keys + 1⟩
  | .ext _ _ _ => ⟨1, 1, fun _ => 1⟩

def efforts : List Store → List Effort
  | [] => []
  | store :: stores => effort store :: efforts stores
end

theorem efforts_append (stores more : List Store) :
    efforts (stores ++ more) = efforts stores ++ efforts more := by
  induction stores with
  | nil => rfl
  | cons store stores ih => simp only [List.cons_append, efforts, ih]

end Store

variable {ι : Type} [SerdeJson ι]

/-- The most commands that a task issues, those of the tasks it starts included. -/
def Task.budget : Task ι → Nat
  | .get cache _ _ => cache.store.effort.get + 1
  | .set cache .. => 1 + cache.store.effort.set
  | .remove cache _ _ => cache.store.effort.remove 1
  | .swr cache _ _ => 2 * cache.store.effort.get + cache.store.effort.set + 9
  | .storeGet store _ _ => store.effort.get
  | .storeSet store _ _ _ => store.effort.set
  | .storeRemove store _ keys => store.effort.remove keys.length
  | .cacheValue cache .. => cache.store.effort.set
  | .revalidate cache _ _ => 6 + cache.store.effort.set
  | .backfill lower _ _ _ => ((Store.efforts lower).map Effort.set).sum
  | .redisDel _ _ => 1

/-- A command counts once, and the tasks it starts with all that they may issue. -/
def Cmd.work (c : Cmd ι) : Nat := 1 + (c.spawned.map Task.budget).sum

theorem costs_issue {cost : Cmd ι → Nat} {c : Cmd ι} {n : Nat} (pays : cost c ≤ n) :
    (issue c).Costs cost n :=
  ⟨0, pays, fun _ => trivial⟩

/-- A command that starts nothing. -/
theorem costs_one {c : Cmd ι} (quiet : c.spawned = []) : (issue c).Costs Cmd.work 1 := by
  refine costs_issue ?_
  rw [Cmd.work, quiet]
  exact Nat.le_refl 1

/-- A command that starts nothing, and what follows it. -/
theorem costs_then {α : Type} {c : Cmd ι} {next : c.Ans → Code ι α} {n : Nat}
    (quiet : c.spawned = []) (onward : ∀ r, (next r).Costs Cmd.work n) :
    (issue c >>= next).Costs Cmd.work (n + 1) := by
  rw [Nat.add_comm]
  exact (costs_one quiet).bind onward

/-- The methods of a store get along with the effort. -/
structure DynStore.Within (store : DynStore ι) (effort : Effort) : Prop where
  get : ∀ ns key, (store.get ns key).Costs Cmd.work effort.get
  set : ∀ ns key entry, (store.set ns key entry).Costs Cmd.work effort.set
  remove : ∀ ns keys, (store.remove ns keys).Costs Cmd.work (effort.remove keys.length)

/-! ## The methods -/

theorem HashMapStore.maybeEvict_costs (id : Nat) (evictOnSet : Option EvictOnSetConfig) :
    (maybeEvict id evictOnSet : Code ι Unit).Costs Cmd.work (2 * evictOnSet.toList.length) := by
  cases evictOnSet with
  | none => trivial
  | some config =>
      have evicts : (evictNow id config : Code ι Unit).Costs Cmd.work 1 := costs_one rfl
      simp only [maybeEvict]
      split
      · trivial
      · split
        · exact evicts.mono (by simp)
        · refine costs_then rfl fun r => ?_
          split
          · exact evicts
          · trivial

theorem HashMapStore.within (id : Nat) (evictOnSet : Option EvictOnSetConfig) :
    (dyn id evictOnSet : DynStore ι).Within (Store.hashMap id evictOnSet).effort where
  get ns key := by
    refine costs_then rfl fun answer => ?_
    obtain ⟨found, now⟩ := answer
    cases found with
    | none => trivial
    | some stored =>
        dsimp only
        split
        · exact costs_then rfl fun _ => trivial
        · trivial
  set ns key entry :=
    (costs_one rfl).bind fun _ => (maybeEvict_costs id evictOnSet).bind (m := 0) fun _ => trivial
  remove ns keys := costs_then rfl fun _ => trivial

theorem MokaStore.remove_costs (id : Nat) (ns : String) (keys : List String) :
    (remove id ns keys : Code ι _).Costs Cmd.work keys.length := by
  induction keys with
  | nil => trivial
  | cons key keys ih => exact costs_then rfl fun _ => ih

theorem MokaStore.within (id : Nat) : (dyn id : DynStore ι).Within (Store.moka id).effort where
  get ns key := by
    refine costs_then rfl fun found => ?_
    cases found with
    | none => trivial
    | some stored =>
        refine costs_then rfl fun now => ?_
        split
        · exact costs_then rfl fun _ => trivial
        · trivial
  set ns key entry := costs_then rfl fun _ => trivial
  remove ns keys := remove_costs id ns keys

theorem RedisStore.within (server : Nat) (disableExpiration : Bool) :
    (dyn server disableExpiration : DynStore ι).Within
    (Store.redis server disableExpiration).effort where
  get ns key := by
    refine costs_then rfl fun result => ?_
    rcases result with e | _ | json
    · trivial
    · trivial
    · dsimp only
      split
      · trivial
      · refine costs_then rfl fun now => ?_
        split
        -- the deletion is paid with the command that starts it
        · exact ⟨0, Nat.le_refl 2, fun _ => trivial⟩
        · trivial
  set ns key entry := by
    cases entry with
    | typed => trivial
    | serialized json freshUntil staleUntil =>
        cases disableExpiration with
        | true => exact costs_then rfl fun done => by cases done <;> trivial
        | false => exact costs_then rfl fun now =>
            costs_then rfl fun done => by cases done <;> trivial
  remove ns keys := by
    simp only [dyn, remove]
    split
    · trivial
    · exact costs_then rfl fun done => by cases done <;> trivial

theorem ExtStore.within (id : Nat) (name : String) (mode : StorageMode) :
    (dyn id name mode : DynStore ι).Within (Store.ext id name mode).effort where
  get _ _ := costs_one rfl
  set _ _ _ := costs_one rfl
  remove _ _ := costs_one rfl

theorem MetricsStore.within {inner : DynStore ι} {effort : Effort} (within : inner.Within effort)
    (sink : Nat) : (dyn inner sink).Within ⟨effort.get + 2, effort.set + 1, fun keys =>
      effort.remove keys + 1⟩ where
  get ns key := by
    refine (within.get ns key).bind fun result => ?_
    rcases result with e | _ | entry
    · exact costs_then rfl fun _ => trivial
    · exact costs_then rfl fun _ => trivial
    · exact costs_then rfl fun _ => costs_then rfl fun _ => trivial
  set ns key entry := (within.set ns key entry).bind fun _ => costs_then rfl fun _ => trivial
  remove ns keys := (within.remove ns keys).bind fun _ => costs_then rfl fun _ => trivial

namespace TieredStore

variable {tiers lower : List (DynStore ι)} {efforts : List Effort} {ns key : String}
  {entry : StoredEntry ι}

theorem setTier_costs {tier : DynStore ι} {effort : Effort} (within : tier.Within effort) :
    (setTier ns key entry tier).Costs Cmd.work effort.set := by
  simp only [setTier]
  split
  · trivial
  · exact within.set ns key _

theorem backfill_costs (each : List.Forall₂ DynStore.Within tiers efforts) :
    (backfill tiers ns key entry).Costs Cmd.work ((efforts.map Effort.set).sum) := by
  induction each with
  | nil => trivial
  | cons here _ ih =>
      simp only [backfill, List.map_cons, List.sum_cons]
      split
      · exact (here.set ns key _).bind fun _ => ih
      · exact ih.mono (Nat.le_add_left _ _)

/-- A hit is charged with the back-fill of the tiers before it. -/
theorem getFrom_costs (each : List.Forall₂ DynStore.Within tiers efforts) {refill : Nat}
    (pays : ∀ part, part <+: lower ++ tiers → ∀ stored : StoredEntry ι,
      (Task.backfill (part.map DynStore.arc) ns key stored).budget ≤ refill) :
    (getFrom lower tiers ns key).Costs Cmd.work ((efforts.map Effort.get).sum + (1 + refill)) := by
  induction each generalizing lower with
  | nil => trivial
  | @cons tier effort rest _ here _ ih =>
      simp only [getFrom, List.map_cons, List.sum_cons, Nat.add_assoc]
      refine (here.get ns key).bind fun result => ?_
      rcases result with e | _ | stored
      · trivial
      · refine ih fun part inside => pays part ?_
        rwa [List.append_assoc] at inside
      · dsimp only
        have refills := pays lower (List.prefix_append _ _) stored
        split
        · refine ⟨0, ?_, fun _ => trivial⟩
          simp only [Cmd.work, Cmd.spawned, List.map_cons, List.map_nil,
            List.sum_cons, List.sum_nil]
          omega
        · trivial

theorem set_costs (each : List.Forall₂ DynStore.Within tiers efforts) :
    (set tiers ns key entry).Costs Cmd.work ((efforts.map Effort.set).sum) := by
  have parts : List.Forall₂ (Prog.Costs Cmd.work) (tiers.map (setTier ns key entry))
      (efforts.map Effort.set) := by
    rw [List.forall₂_map_left_iff, List.forall₂_map_right_iff]
    exact each.imp fun _ _ within => setTier_costs within
  exact (Prog.Costs.joinAll parts).bind (m := 0) fun _ => trivial

theorem remove_costs (each : List.Forall₂ DynStore.Within tiers efforts) (keys : List String) :
    (remove tiers ns keys).Costs Cmd.work
    ((efforts.map fun tier => tier.remove keys.length).sum) := by
  have parts : List.Forall₂ (Prog.Costs Cmd.work) (tiers.map fun tier => tier.remove ns keys)
      (efforts.map fun tier => tier.remove keys.length) := by
    rw [List.forall₂_map_left_iff, List.forall₂_map_right_iff]
    exact each.imp fun _ _ within => within.remove ns keys
  exact (Prog.Costs.joinAll parts).bind (m := 0) fun _ => trivial

end TieredStore

namespace Store

mutual
theorem within : ∀ store : Store, (store.dyn ι).Within store.effort
  | .hashMap id evictOnSet => HashMapStore.within id evictOnSet
  | .moka id => MokaStore.within id
  | .redis server disableExpiration => RedisStore.within server disableExpiration
  | .tiered tiers => {
      get := fun _ _ => TieredStore.getFrom_costs (dynList_within tiers) fun part inside _ => by
        have parts := (List.IsPrefix.map DynStore.arc inside)
        rw [List.nil_append, dynList_arc] at parts
        obtain ⟨others, same⟩ := parts
        rw [← same, Task.budget, efforts_append, List.map_append, List.sum_append]
        exact Nat.le_add_right _ _
      set := fun _ _ _ => TieredStore.set_costs (dynList_within tiers)
      remove := fun _ keys => TieredStore.remove_costs (dynList_within tiers) keys }
  | .metrics inner sink => MetricsStore.within (within inner) sink
  | .ext id name mode => ExtStore.within id name mode

theorem dynList_within :
    ∀ stores : List Store, List.Forall₂ DynStore.Within (dynList ι stores) (efforts stores)
  | [] => .nil
  | store :: stores => .cons (within store) (dynList_within stores)
end

end Store

/-! ## The tasks -/

namespace SwrCache

variable {self : SwrCache ι} {ns key : String}

theorem dyn_within (self : SwrCache ι) : self.dyn.Within self.store.effort := self.store.within

theorem set_costs (value : Val self.ty) (opts : Option SetOptions) :
    (self.set ns key value opts).Costs Cmd.work (1 + self.store.effort.set) := by
  refine (costs_one rfl).bind fun now => ?_
  dsimp only
  split
  · trivial
  · exact self.dyn_within.set ns key _

theorem cacheValueTask_costs (value : Val self.ty) (freshUntil staleUntil : Int) :
    (self.cacheValueTask ns key value freshUntil staleUntil).Costs Cmd.work
      self.store.effort.set := by
  simp only [cacheValueTask]
  split
  · trivial
  · exact (self.dyn_within.set ns key _).bind (m := 0) fun _ => trivial

theorem remove_costs : (self.remove ns key).Costs Cmd.work (self.store.effort.remove 1) :=
  self.dyn_within.remove ns [key]

theorem unmark_costs : (self.unmark ns key).Costs Cmd.work 1 := costs_one rfl

theorem revalidateTask_costs :
    (self.revalidateTask ns key).Costs Cmd.work (6 + self.store.effort.set) := by
  rw [show 6 + self.store.effort.set = self.store.effort.set + 1 + 1 + 1 + 1 + 1 + 1 by omega]
  refine costs_then rfl fun running => ?_
  split
  · trivial
  · refine costs_then rfl fun _ => costs_then rfl fun _ => costs_then rfl fun value => ?_
    cases value with
    | none => exact unmark_costs.mono (by omega)
    | some v =>
        refine costs_then rfl fun now => ?_
        split
        · exact unmark_costs.mono (by omega)
        · exact (self.dyn_within.set ns key _).bind fun _ => unmark_costs

theorem markedLoad_costs : (self.markedLoad ns key).Costs Cmd.work 4 :=
  costs_then rfl fun _ => costs_then rfl fun _ => costs_then rfl fun _ =>
    costs_then rfl fun _ => trivial

/-- Handing over is charged with what the new task does. -/
theorem cacheValue_costs (value : Val self.ty) :
    (self.cacheValue ns key value).Costs Cmd.work (2 + self.store.effort.set) := by
  rw [show 2 + self.store.effort.set = (1 + self.store.effort.set) + 1 by omega]
  refine costs_then rfl fun now => costs_issue ?_
  simp [Cmd.work, Cmd.spawned, Task.budget]

theorem spawnRevalidation_costs :
    (self.spawnRevalidation ns key).Costs Cmd.work (7 + self.store.effort.set) := by
  refine costs_issue ?_
  simp only [Cmd.work, Cmd.spawned, Task.budget, List.map_cons, List.map_nil,
    List.sum_cons, List.sum_nil]
  omega

variable [DecidableEq ι]

theorem getInternal_costs :
    (self.getInternal ns key).Costs Cmd.work (self.store.effort.get + 1) := by
  refine (self.dyn_within.get ns key).bind fun result => ?_
  rcases result with e | _ | stored
  · trivial
  · trivial
  · dsimp only
    split
    · trivial
    · refine costs_then rfl fun now => ?_
      split
      · trivial
      · split <;> trivial

theorem get_costs : (SwrCache.get self ns key).Costs Cmd.work (self.store.effort.get + 1) :=
  getInternal_costs.bind (m := 0) fun result => by cases result <;> trivial

/-- The wait is one sleep and one more look-up. -/
theorem deduplicatedLoadFromOrigin_costs :
    (self.deduplicatedLoadFromOrigin ns key).Costs Cmd.work (self.store.effort.get + 6) := by
  rw [show self.store.effort.get + 6 = (self.store.effort.get + 4) + 1 + 1 by omega]
  refine costs_then rfl fun loading => ?_
  split
  · refine costs_then rfl fun _ => (self.dyn_within.get ns key).bind fun result => ?_
    rcases result with e | _ | stored
    · exact markedLoad_costs
    · exact markedLoad_costs
    · dsimp only
      split
      · trivial
      · exact markedLoad_costs
  · exact markedLoad_costs.mono (by omega)

theorem loadOrFail_costs :
    (self.loadOrFail ns key).Costs Cmd.work
    (self.store.effort.get + 6 + (2 + self.store.effort.set)) := by
  refine deduplicatedLoadFromOrigin_costs.bind fun result => ?_
  rcases result with e | _ | v
  · trivial
  · trivial
  · exact (cacheValue_costs v).bind (m := 0) fun _ => trivial

theorem swr_costs :
    (self.swr ns key).Costs Cmd.work (2 * self.store.effort.get + self.store.effort.set + 9) := by
  rw [show 2 * self.store.effort.get + self.store.effort.set + 9 =
    (self.store.effort.get + 1) +
    (self.store.effort.get + 6 + (2 + self.store.effort.set)) by omega]
  refine getInternal_costs.bind fun result => ?_
  split
  · refine Prog.Costs.mono (spawnRevalidation_costs.bind (m := 0) fun _ => ?_) (by omega)
    trivial
  · refine deduplicatedLoadFromOrigin_costs.bind fun result => ?_
    rcases result with e | _ | v
    · trivial
    · trivial
    · exact (cacheValue_costs v).bind (m := 0) fun _ => trivial
  · trivial
  · exact loadOrFail_costs
  · exact loadOrFail_costs
  · exact loadOrFail_costs

end SwrCache

variable [DecidableEq ι]

/-- The code of a task gets along with the budget of the task. -/
theorem Task.body_costs (task : Task ι) : task.body.Costs Cmd.work task.budget := by
  cases task with
  | get => exact SwrCache.get_costs.bind (m := 0) fun _ => trivial
  | set _ _ _ value opts => exact (SwrCache.set_costs value opts).bind (m := 0) fun _ => trivial
  | remove => exact SwrCache.remove_costs.bind (m := 0) fun _ => trivial
  | swr => exact SwrCache.swr_costs.bind (m := 0) fun _ => trivial
  | storeGet store ns key => exact (store.within.get ns key).bind (m := 0) fun _ => trivial
  | storeSet store ns key entry =>
      exact (store.within.set ns key entry).bind (m := 0) fun _ => trivial
  | storeRemove store ns keys => exact (store.within.remove ns keys).bind (m := 0) fun _ => trivial
  | cacheValue _ _ _ value freshUntil staleUntil =>
      exact (SwrCache.cacheValueTask_costs value freshUntil staleUntil).bind (m := 0)
        fun _ => trivial
  | revalidate => exact SwrCache.revalidateTask_costs.bind (m := 0) fun _ => trivial
  | backfill lower =>
      exact (TieredStore.backfill_costs (Store.dynList_within lower)).bind (m := 0) fun _ => trivial
  | redisDel => exact costs_one rfl

/-! ## What swr does beside look-ups and writes

Rates for what only an `SwrCache` does by itself: it sleeps, it loads, and it hands over
what it found to one of its two background tasks.
-/

structure Rates where
  sleep : Nat
  load : Nat
  cacheValue : Nat
  revalidate : Nat

namespace Rates

def cost (rates : Rates) : Cmd ι → Nat
  | .sleep _ => rates.sleep
  | .loadStart .. => rates.load
  | .spawn (.cacheValue ..) => rates.cacheValue
  | .spawn (.revalidate ..) => rates.revalidate
  | _ => 0

def budget (rates : Rates) : Task ι → Nat
  | .swr .. => rates.sleep + rates.load + max rates.cacheValue rates.revalidate
  | .revalidate .. => rates.load
  | _ => 0

/-- A command with the tasks that it starts. -/
def price (rates : Rates) (c : Cmd ι) : Nat := rates.cost c + (c.spawned.map rates.budget).sum

variable {rates : Rates}

omit [DecidableEq ι] in
theorem price_ofStore (c : Cmd ι) (ofStore : c.OfStore) : rates.price c = 0 := by
  cases c
  case spawn task => cases task <;> first | exact ofStore.elim | rfl
  case sleep | loadStart => exact ofStore.elim
  all_goals rfl

variable {self : SwrCache ι} {ns key : String}

omit [DecidableEq ι] in
theorem dyn_free (self : SwrCache ι) : (∀ ns key, (self.dyn.get ns key).Costs rates.price 0) ∧
    (∀ ns key entry, (self.dyn.set ns key entry).Costs rates.price 0) ∧
    ∀ ns keys, (self.dyn.remove ns keys).Costs rates.price 0 := by
  have plain : self.dyn.Plain := self.store.plain
  exact ⟨fun ns key => (plain.get ns key).free price_ofStore,
    fun ns key entry => (plain.set ns key entry).free price_ofStore,
    fun ns keys => (plain.remove ns keys).free price_ofStore⟩

omit [DecidableEq ι] in
theorem set_costs (value : Val self.ty) (freshUntil staleUntil : Int) :
    (self.cacheValueTask ns key value freshUntil staleUntil).Costs rates.price 0 := by
  simp only [SwrCache.cacheValueTask]
  split
  · trivial
  · exact ((dyn_free self).2.1 ns key _).bind (m := 0) fun _ => trivial

omit [DecidableEq ι] in
/-- A command that is free, and what follows it. -/
theorem free_then {α : Type} {c : Cmd ι} {next : c.Ans → Code ι α} {n : Nat}
    (free : rates.price c = 0) (onward : ∀ r, (next r).Costs rates.price n) :
    (issue c >>= next).Costs rates.price n :=
  ⟨n, by omega, onward⟩

omit [DecidableEq ι] in
theorem unmark_costs : (self.unmark ns key).Costs rates.price 0 := costs_issue (Nat.le_refl 0)

omit [DecidableEq ι] in
theorem markedLoad_costs : (self.markedLoad ns key).Costs rates.price rates.load := by
  refine free_then rfl fun _ => ?_
  have loads : (Ask.loadStart self ns key : Code ι Unit).Costs rates.price rates.load :=
    costs_issue (Nat.le_refl rates.load)
  exact loads.bind (m := 0) fun _ => free_then rfl fun _ => free_then rfl fun _ => trivial

omit [DecidableEq ι] in
theorem revalidateTask_costs : (self.revalidateTask ns key).Costs rates.price rates.load := by
  refine free_then rfl fun running => ?_
  split
  · trivial
  · refine free_then rfl fun _ => ?_
    have loads : (Ask.loadStart self ns key : Code ι Unit).Costs rates.price rates.load :=
      costs_issue (Nat.le_refl rates.load)
    refine loads.bind (m := 0) fun _ => free_then rfl fun value => ?_
    cases value with
    | none => exact unmark_costs
    | some v =>
        refine free_then rfl fun now => ?_
        split
        · exact unmark_costs
        · exact ((dyn_free self).2.1 ns key _).bind (m := 0) fun _ => unmark_costs

omit [DecidableEq ι] in
theorem cacheValue_costs (value : Val self.ty) :
    (self.cacheValue ns key value).Costs rates.price rates.cacheValue :=
  free_then rfl fun _ => costs_issue (Nat.le_refl rates.cacheValue)

omit [DecidableEq ι] in
/-- Whoever starts a revalidation answers for its load. -/
theorem spawnRevalidation_costs :
    (self.spawnRevalidation ns key).Costs rates.price (rates.revalidate + rates.load) :=
  costs_issue (Nat.le_refl (rates.revalidate + rates.load))

theorem getInternal_costs : (self.getInternal ns key).Costs rates.price 0 := by
  refine ((dyn_free self).1 ns key).bind (m := 0) fun result => ?_
  rcases result with e | _ | stored
  · trivial
  · trivial
  · dsimp only
    split
    · trivial
    · refine free_then rfl fun now => ?_
      split
      · trivial
      · split <;> trivial

theorem deduplicatedLoadFromOrigin_costs :
    (self.deduplicatedLoadFromOrigin ns key).Costs rates.price (rates.sleep + rates.load) := by
  refine free_then rfl fun loading => ?_
  split
  · have sleeps : (Ask.sleep 100 : Code ι Unit).Costs rates.price rates.sleep :=
      costs_issue (Nat.le_refl rates.sleep)
    refine sleeps.bind fun _ =>
      (((dyn_free self).1 ns key).bind (m := rates.load) fun result => ?_).mono (by omega)
    rcases result with e | _ | stored
    · exact markedLoad_costs
    · exact markedLoad_costs
    · dsimp only
      split
      · trivial
      · exact markedLoad_costs
  · exact markedLoad_costs.mono (Nat.le_add_left _ _)

theorem loadOrFail_costs :
    (self.loadOrFail ns key).Costs rates.price (rates.sleep + rates.load + rates.cacheValue) := by
  refine deduplicatedLoadFromOrigin_costs.bind fun result => ?_
  rcases result with e | _ | v
  · trivial
  · trivial
  · exact (cacheValue_costs v).bind (m := 0) fun _ => trivial

/-- A call either hands the key over to a revalidation or loads by itself. -/
theorem swr_costs : (self.swr ns key).Costs rates.price
    (rates.sleep + rates.load + max rates.cacheValue rates.revalidate) := by
  have loads : (self.loadOrFail ns key).Costs rates.price
      (rates.sleep + rates.load + max rates.cacheValue rates.revalidate) :=
  loadOrFail_costs.mono (by omega)
  refine (getInternal_costs.bind (m := _) fun result => ?_).mono (Nat.le_of_eq (Nat.zero_add _))
  split
  · refine Prog.Costs.mono (spawnRevalidation_costs.bind (m := 0) fun _ => ?_) (by omega)
    trivial
  · refine Prog.Costs.mono (deduplicatedLoadFromOrigin_costs.bind (m := rates.cacheValue)
      fun result => ?_) (by omega)
    rcases result with e | _ | v
    · trivial
    · trivial
    · exact (cacheValue_costs v).bind (m := 0) fun _ => trivial
  · trivial
  · exact loads
  · exact loads
  · exact loads

theorem body_costs (rates : Rates) (task : Task ι) :
    task.body.Costs rates.price (rates.budget task) := by
  cases task with
  | get cache ns key =>
      refine getInternal_costs.bind (m := 0) (fun result => ?_) |>.bind (m := 0) fun _ => trivial
      cases result <;> trivial
  | set cache ns key value opts =>
      refine (free_then rfl fun now => ?_).bind (m := 0) fun _ => trivial
      dsimp only
      split
      · trivial
      · exact (dyn_free cache).2.1 ns key _
  | remove cache ns key => exact ((dyn_free cache).2.2 ns [key]).bind (m := 0) fun _ => trivial
  | swr => exact swr_costs.bind (m := 0) fun _ => trivial
  | storeGet store ns key =>
      exact ((store.plain.get ns key).free price_ofStore).bind (m := 0) fun _ => trivial
  | storeSet store ns key entry =>
      exact ((store.plain.set ns key entry).free price_ofStore).bind (m := 0) fun _ => trivial
  | storeRemove store ns keys =>
      exact ((store.plain.remove ns keys).free price_ofStore).bind (m := 0) fun _ => trivial
  | cacheValue _ _ _ value freshUntil staleUntil =>
      exact (set_costs value freshUntil staleUntil).bind (m := 0) fun _ => trivial
  | revalidate => exact revalidateTask_costs.bind (m := 0) fun _ => trivial
  | backfill lower ns key entry =>
      have fills : (TieredStore.backfill (Store.dynList ι lower) ns key entry).Only Cmd.OfStore :=
        TieredStore.backfill_only fun tier inTiers converted _ =>
          (Store.dynList_plain lower tier inTiers).set ns key converted
      exact (fills.free price_ofStore).bind (m := 0) fun _ => trivial
  | redisDel => exact free_then rfl fun _ => trivial

end Rates

/-! ## Runs -/

/-- A store with code elsewhere always answers. -/
structure ExtSemantics.Answers (X : ExtSemantics ι) : Prop where
  get : ∀ t m ns key, ∃ r m', X.get t m ns key r m'
  set : ∀ t m ns key entry, ∃ r m', X.set t m ns key entry r m'
  remove : ∀ t m ns keys, ∃ r m', X.remove t m ns keys r m'

theorem exec_answers {X : ExtSemantics ι} (answers : X.Answers) : (system X).Answers := by
  intro i t w c
  cases c
  case rand => exact ⟨0, w, ⟨0, rfl, by decide, by decide⟩, rfl⟩
  case mapEvict map maxItems => exact ⟨(), _, _, List.Perm.refl _, rfl⟩
  case redisGet => exact ⟨_, w, .inl rfl, rfl⟩
  case redisSet | redisSetEx | redisDel => exact ⟨.ok (), _, .inl ⟨rfl, rfl⟩⟩
  case extGet store ns key =>
    obtain ⟨r, m, done⟩ := answers.get t (w.ext store) ns key
    exact ⟨r, _, m, done, rfl⟩
  case extSet store ns key entry =>
    obtain ⟨r, m, done⟩ := answers.set t (w.ext store) ns key entry
    exact ⟨r, _, m, done, rfl⟩
  case extRemove store ns keys =>
    obtain ⟨r, m, done⟩ := answers.remove t (w.ext store) ns keys
    exact ⟨r, _, m, done, rfl⟩
  case loadEnd => exact ⟨none, w, rfl⟩
  case now | mapRead | mapGet | containsKey => exact ⟨_, w, rfl, rfl⟩
  case sleep | spawn | loadStart => exact ⟨(), w, rfl⟩
  case mapInsert | mapExpire | mapRemove | insertMarker | removeMarker | emit => exact ⟨(), _, rfl⟩

section Runs

variable {X : ExtSemantics ι} {w : World ι} {past : History (system X)} {s : Config (system X)}

/-- However calls are interleaved: all commands together are no more than the calls are
    good for, and no thread issues more than its task is good for. -/
theorem work_bounded (run : Run (system X) (.idle w) past s) :
    commands past ≤ ((past.filterMap fun e => e.2.starting).map Task.budget).sum ∧
      ∀ i th, s.threads[i]? = some th → (replies i past).length ≤ th.task.budget := by
  refine ⟨run.outlay_le Task.body_costs, fun i th at_i => ?_⟩
  have costs : ∀ task : Task ι, task.body.Costs (fun _ => 1) task.budget :=
    fun task => task.body_costs.cheaper fun c => Nat.le_add_right _ _
  have bound := run.paid_le costs at_i
  rwa [Prog.paid_one] at bound

def busyCache : SwrCache Unit := .new () (.hashMap 0 none) 10 20 0

/-- A value is set, then found stale, and its renewal is on the way. -/
theorem work_bounded_renewal :
    ∃ (past : History (system .atomicMap)) (s : Config (system .atomicMap)),
    Run (system .atomicMap) (.idle (.empty : World Unit)) past s ∧
    past.filterMap (fun e => e.2.starting) =
      [.swr busyCache "ns" "k", .set busyCache "ns" "k" true none] ∧
    commands past = 8 ∧ commands past ≤ 16 ∧
    ∀ i th, s.threads[i]? = some th → (replies i past).length ≤ th.task.budget := by
  obtain ⟨past, s, played, called, issued⟩ : ∃ past s,
      driver.play (fun _ _ => True) [.start (.set busyCache "ns" "k" true none), .go 0 (reading 0),
        .go 0 (reading 0), .start (.swr busyCache "ns" "k"), .go 1 (reading 15), .go 1 (reading 15),
        .go 1 (reading 15), .go 2 (reading 15), .go 2 (reading 15), .go 2 (reading 15)] ([],
        .idle .empty) = some (past, s) ∧
      past.filterMap (fun e => e.2.starting) =
        [.swr busyCache "ns" "k", .set busyCache "ns" "k" true none] ∧
      commands past = 8 :=
    ⟨_, _, rfl, rfl, rfl⟩
  obtain ⟨run, _⟩ := Driver.plays played
  obtain ⟨whole, each⟩ := work_bounded run
  rw [called] at whole
  exact ⟨past, s, run, called, issued, whole, each⟩

/-- No call ever waits for another one: wherever the other threads stand, and even if none
    of them goes on, a thread that has not been dropped returns after no more commands of
    its own than its task is good for. -/
theorem wait_free (answers : X.Answers) (run : Run (system X) (.idle w) past s) {i : Nat}
    {th : Thread (system X)} (at_i : s.threads[i]? = some th) (running : ¬ th.Dropped) (t : Int) :
    ∃ later s' th' out, Run (system X) s later s' ∧ (∀ e ∈ later, e.2.Solo i t) ∧
      (replies i past).length + commands later ≤ th.task.budget ∧
      s'.threads[i]? = some th' ∧ th'.task = th.task ∧ th'.Finished out := by
  obtain ⟨p, prog⟩ := Option.ne_none_iff_exists'.mp running
  have costs : th.task.body.Costs (fun _ => 1) th.task.budget :=
    th.task.body_costs.cheaper fun c => Nat.le_add_right _ _
  obtain ⟨m, sum, left⟩ := costs.leads (run.traced at_i prog)
  rw [Prog.paid_one] at sum
  obtain ⟨later, s', th', out, rest, solo, few, found, task, finished⟩ :=
    left.finishes (exec_answers answers) at_i prog t
  exact ⟨later, s', th', out, rest, solo, by omega, found, task, finished⟩

theorem atomicMap_answers : (ExtSemantics.atomicMap (ι := Unit)).Answers where
  get _ _ _ _ := ⟨_, _, rfl, rfl⟩
  set _ _ _ _ _ := ⟨_, _, rfl, rfl⟩
  remove _ _ _ _ := ⟨_, _, rfl, rfl⟩

/-- The first call never comes back from its origin, the second one returns all the same. -/
theorem wait_free_stuck : ∃ (past : History (system .atomicMap)) (s : Config (system .atomicMap)),
    Run (system .atomicMap) (.idle (.empty : World Unit)) past s ∧
    (∃ th, s.threads[0]? = some th ∧ th.At (.loadEnd busyCache "ns" "k")) ∧
    ∃ later s' th' out, Run (system .atomicMap) s later s' ∧ (∀ e ∈ later, e.2.Solo 1 5) ∧
      s'.threads[1]? = some th' ∧ th'.task = .swr busyCache "ns" "k" ∧ th'.Finished out := by
  obtain ⟨past, s, played, ⟨th₀, at_0, loading⟩, th, at_1, task, p, prog⟩ : ∃ past s,
      driver.play (fun _ _ => True) [.start (.swr busyCache "ns" "k"), .go 0 (reading 0),
        .go 0 (reading 0), .go 0 (reading 0), .go 0 (reading 0), .start (.swr busyCache "ns" "k"),
        .go 1 (reading 1), .go 1 (reading 1)] ([], .idle .empty) = some (past, s) ∧
      (∃ th, s.threads[0]? = some th ∧ th.At (.loadEnd busyCache "ns" "k")) ∧
      ∃ th, s.threads[1]? = some th ∧ th.task = .swr busyCache "ns" "k" ∧ ∃ p, th.prog = some p :=
    ⟨_, _, rfl, ⟨_, rfl, _, rfl⟩, _, rfl, rfl, _, rfl⟩
  obtain ⟨run, _⟩ := Driver.plays played
  have running : ¬ th.Dropped := by
    intro dropped
    cases prog.symm.trans dropped
  obtain ⟨later, s', th', out, rest, solo, _, found, same, finished⟩ :=
    wait_free atomicMap_answers run at_1 running 5
  exact ⟨past, s, run, ⟨th₀, at_0, loading⟩, later, s', th', out, rest, solo, found,
    same.trans task, finished⟩

/-- The call starts a call of the origin. -/
def Cmd.isLoad : Cmd ι → Bool
  | .loadStart .. => true
  | _ => false

def Cmd.isSleep : Cmd ι → Bool
  | .sleep _ => true
  | _ => false

/-- The command starts a task that may write what an origin returned. -/
def Cmd.handsOver : Cmd ι → Bool
  | .spawn (.cacheValue ..) | .spawn (.revalidate ..) => true
  | _ => false

def Task.isSwr : Task ι → Bool
  | .swr .. => true
  | _ => false

def Task.mayLoad : Task ι → Bool
  | .swr .. | .revalidate .. => true
  | _ => false

omit [DecidableEq ι] in
theorem loads_rate : (fun c : Cmd ι => c.isLoad.toNat) = Rates.cost ⟨0, 1, 0, 0⟩ := by
  funext c
  cases c
  case spawn task => cases task <;> rfl
  all_goals rfl

omit [DecidableEq ι] in
theorem sleeps_rate : (fun c : Cmd ι => c.isSleep.toNat) = Rates.cost ⟨1, 0, 0, 0⟩ := by
  funext c
  cases c
  case spawn task => cases task <;> rfl
  all_goals rfl

omit [DecidableEq ι] in
theorem handsOver_rate : (fun c : Cmd ι => c.handsOver.toNat) = Rates.cost ⟨0, 0, 1, 1⟩ := by
  funext c
  cases c
  case spawn task => cases task <;> rfl
  all_goals rfl

omit [DecidableEq ι] in
theorem mayLoad_budget :
    (Rates.budget ⟨0, 1, 0, 0⟩ : Task ι → Nat) = fun task => task.mayLoad.toNat := by
  funext task
  cases task <;> rfl

/-- With all the tasks that it leaves behind, a call of `swr` asks the origin once at
    most, sleeps once at most and starts at most one task that writes what was loaded. A
    call that is no `swr` does none of this, so there are no more loads than calls that
    may load. -/
theorem swr_accounts (run : Run (system X) (.idle w) past s) :
    (∀ root th, s.threads[root]? = some th →
      spent (fun c => (Cmd.isLoad c).toNat) (· == root) past ≤ th.task.mayLoad.toNat ∧
      spent (fun c => (Cmd.isSleep c).toNat) (· == root) past ≤ th.task.isSwr.toNat ∧
      spent (fun c => (Cmd.handsOver c).toNat) (· == root) past ≤ th.task.isSwr.toNat) ∧
    outlay (fun c => (Cmd.isLoad c).toNat) past ≤
      (past.filterMap fun e => e.2.starting).countP Task.mayLoad := by
  refine ⟨fun root th at_root => ⟨?_, ?_, ?_⟩, ?_⟩
  · have bound := run.spent_family (Rates.body_costs ⟨0, 1, 0, 0⟩) at_root
    rwa [mayLoad_budget, ← loads_rate] at bound
  · have bound := run.spent_family (Rates.body_costs ⟨1, 0, 0, 0⟩) at_root
    rw [← sleeps_rate] at bound
    refine Nat.le_trans bound ?_
    cases th.task <;> exact Nat.le_refl _
  · have bound := run.spent_family (Rates.body_costs ⟨0, 0, 1, 1⟩) at_root
    rw [← handsOver_rate] at bound
    refine Nat.le_trans bound ?_
    cases th.task <;> exact Nat.le_refl _
  · have bound := run.outlay_le (Rates.body_costs ⟨0, 1, 0, 0⟩)
    rw [mayLoad_budget, ← loads_rate] at bound
    refine Nat.le_trans bound (Nat.le_of_eq ?_)
    induction past.filterMap fun e => e.2.starting with
    | nil => rfl
    | cons task tasks ih =>
        simp only [List.map_cons, List.sum_cons, List.countP_cons, ih]
        cases task.mayLoad <;> simp [Nat.add_comm]

/-- The renewal that a stale hit leaves behind asks the origin for both of them. -/
theorem swr_accounts_renewal :
    ∃ (past : History (system .atomicMap)) (s : Config (system .atomicMap)),
    Run (system .atomicMap) (.idle (.empty : World Unit)) past s ∧
    (∃ th, s.threads[2]? = some th ∧ th.task = .revalidate busyCache "ns" "k" ∧
      th.At (.loadEnd busyCache "ns" "k")) ∧
    spent (fun c => (Cmd.isLoad c).toNat) (· == 1) past = 1 ∧
    spent (fun c => (Cmd.isSleep c).toNat) (· == 1) past ≤ 1 ∧
    spent (fun c => (Cmd.handsOver c).toNat) (· == 1) past ≤ 1 ∧
    outlay (fun c => (Cmd.isLoad c).toNat) past ≤ 1 := by
  obtain ⟨past, s, played, called, renews, ⟨th, at_1, task⟩, loads⟩ : ∃ past s,
      driver.play (fun _ _ => True) [.start (.set busyCache "ns" "k" true none), .go 0 (reading 0),
        .go 0 (reading 0), .start (.swr busyCache "ns" "k"), .go 1 (reading 15), .go 1 (reading 15),
        .go 1 (reading 15), .go 2 (reading 15), .go 2 (reading 15), .go 2 (reading 15)] ([],
        .idle .empty) = some (past, s) ∧
      past.filterMap (fun e => e.2.starting) =
        [.swr busyCache "ns" "k", .set busyCache "ns" "k" true none] ∧
      (∃ th, s.threads[2]? = some th ∧ th.task = .revalidate busyCache "ns" "k" ∧
        th.At (.loadEnd busyCache "ns" "k")) ∧
      (∃ th, s.threads[1]? = some th ∧ th.task = .swr busyCache "ns" "k") ∧
      spent (fun c => (Cmd.isLoad c).toNat) (· == 1) past = 1 :=
    ⟨_, _, rfl, rfl, ⟨_, rfl, rfl, _, rfl⟩, ⟨_, rfl, rfl⟩, rfl⟩
  obtain ⟨run, _⟩ := Driver.plays played
  obtain ⟨families, total⟩ := swr_accounts run
  obtain ⟨_, sleeps, handsOver⟩ := families 1 th at_1
  rw [called] at total
  rw [task] at sleeps handsOver
  exact ⟨past, s, run, renews, loads, sleeps, handsOver, total⟩

end Runs

end Swr
