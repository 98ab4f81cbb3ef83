import Swr.Capacity
import Swr.Eviction
import Swr.Ranking

/-! # What an eviction keeps

An eviction purges what has expired and keeps the `maxItems` rows that expire last. Rows
that expire together are kept as the order of iteration has it. An entry that was
just written has no better right to stay than any other.
-/

namespace Swr

open Async

variable {ι : Type} [SerdeJson ι]

/-! ## The rows of a map -/

namespace HashMap

/-- `sort_by_key(|(_, expires)| *expires)`. -/
def soonest (a b : String × Int) : Bool := a.2 ≤ b.2

theorem soonest_trans (a b c : String × Int) (first : soonest a b = true)
    (second : soonest b c = true) : soonest a c = true := by
  simp only [soonest, decide_eq_true_eq] at first second ⊢
  exact Int.le_trans first second

theorem soonest_total (a b : String × Int) : (soonest a b || soonest b a) = true := by
  simp only [soonest, Bool.or_eq_true, decide_eq_true_eq]
  exact Int.le_total a.2 b.2

theorem mem_expiries {m : HashMap ι} {key : String} {expiry : Int} :
    (key, expiry) ∈ m.expiries ↔ ∃ stored, m.lookup key = some stored ∧
    stored.staleUntil = expiry := by
  simp only [expiries, List.mem_map, Prod.mk.injEq, ← Option.mem_def, AList.mem_lookup_iff]
  constructor
  · rintro ⟨⟨_, stored⟩, member, rfl, same⟩
    exact ⟨stored, member, same⟩
  · rintro ⟨stored, member, same⟩
    exact ⟨⟨key, stored⟩, member, rfl, same⟩

theorem expiries_keys (m : HashMap ι) : m.expiries.map Prod.fst = m.keys := by
  simp [expiries, AList.keys, List.keys]

theorem nodup_expiries (m : HashMap ι) : m.expiries.Nodup :=
  .of_map Prod.fst (m.expiries_keys ▸ m.keys_nodup)

theorem length_expiries (m : HashMap ι) : m.expiries.length = m.entries.length := by
  simp [expiries]

/-- Where everything fits, an eviction erases nothing. -/
theorem evict_eq {m : HashMap ι} {now : Int} {maxItems : Nat} {order : List (String × Int)}
    (perm : order.Perm (m.retain now).expiries) : m.evict now maxItems order =
      (m.retain now).eraseAll
      (((order.mergeSort soonest).take (order.length - maxItems)).map Prod.fst) := by
  have size : order.length = (m.retain now).entries.length :=
    perm.length_eq.trans (length_expiries _)
  simp only [evict]
  split
  · rw [size]
    rfl
  · next fits =>
      rw [size, Nat.sub_eq_zero_of_le (Nat.not_lt.mp fits)]
      rfl

/-- The rows of a map after an eviction: of the purged map those that expire last. -/
theorem expiries_evict {m : HashMap ι} {now : Int} {maxItems : Nat} {order : List (String × Int)}
    (perm : order.Perm (m.retain now).expiries) :
    (m.evict now maxItems order).expiries.Perm
    ((order.mergeSort soonest).drop (order.length - maxItems)) := by
  have sorted := (List.mergeSort_perm order soonest).trans perm
  have once :=
    (sorted.map Prod.fst).nodup_iff.mpr ((m.retain now).expiries_keys ▸ (m.retain now).keys_nodup)
  have halves := List.take_append_drop (order.length - maxItems) (order.mergeSort soonest)
  rw [← halves, List.map_append] at once
  have apart := (List.nodup_append.mp once).2.2
  have some_left : ((order.mergeSort soonest).drop (order.length - maxItems)).Nodup :=
    (sorted.nodup_iff.mpr (nodup_expiries _)).sublist (List.drop_sublist ..)
  refine (List.perm_ext_iff_of_nodup (nodup_expiries _) some_left).mpr fun (key, expiry) => ?_
  have either : (key, expiry) ∈ (m.retain now).expiries ↔
      (key, expiry) ∈ (order.mergeSort soonest).take (order.length - maxItems) ∨
        (key, expiry) ∈ (order.mergeSort soonest).drop (order.length - maxItems) := by
    rw [← sorted.mem_iff, ← List.mem_append, halves]
  rw [mem_expiries] at either
  rw [mem_expiries, evict_eq perm]
  simp only [lookup_eraseAll]
  split
  · next erased =>
      refine iff_of_false (by simp) fun kept => ?_
      exact apart key erased key (List.mem_map_of_mem (f := Prod.fst) kept) rfl
  · next spared =>
      rw [either]
      refine or_iff_right fun low => spared ?_
      exact List.mem_map_of_mem (f := Prod.fst) low

theorem lookup_retain_iff {m : HashMap ι} {now : Int} {key : String} {stored : StoredEntry ι} :
    (m.retain now).lookup key = some stored ↔ m.lookup key = some stored ∧
    stored.isExpired now = false := by
  simp [lookup_retain, Option.filter_eq_some_iff, StoredEntry.isExpired]

theorem length_retain (m : HashMap ι) (now : Int) :
    (m.retain now).entries.length = m.entries.countP fun row => !row.2.isExpired now := by
  rw [List.countP_eq_length_filter]
  simp only [retain, StoredEntry.isExpired, ge_iff_le, ← decide_not, Int.not_le, gt_iff_lt]

/-- What is left of a map `m` when an eviction has made it `m'`. -/
structure EvictedTo (now : Int) (maxItems : Nat) (m m' : HashMap ι) : Prop where
  submap : ∀ key stored, m'.lookup key = some stored → m.lookup key = some stored
  unexpired : ∀ key stored, m'.lookup key = some stored → stored.isExpired now = false
  count : m'.entries.length = min maxItems (m.entries.countP fun row => !row.2.isExpired now)
  /-- An unexpired entry that was dropped expires no later than any entry that was kept. -/
  soonest : ∀ key dropped, m.lookup key = some dropped → dropped.isExpired now = false →
    m'.lookup key = none → ∀ key' kept, m'.lookup key' = some kept →
    dropped.staleUntil ≤ kept.staleUntil

theorem evict_evictedTo {m : HashMap ι} {now : Int} {maxItems : Nat} {order : List (String × Int)}
    (perm : order.Perm (m.retain now).expiries) :
    EvictedTo now maxItems m (m.evict now maxItems order) := by
  have rows : (m.evict now maxItems order).expiries.Perm _ := expiries_evict perm
  have sorted := (List.mergeSort_perm order soonest).trans perm
  have retained {key : String} {stored : StoredEntry ι}
      (found : (m.evict now maxItems order).lookup key = some stored) :
      (m.retain now).lookup key = some stored := by
    rw [evict_eq perm, lookup_eraseAll] at found
    split at found
    · cases found
    · exact found
  constructor
  case submap => exact fun _ _ found => (lookup_retain_iff.mp (retained found)).1
  case unexpired => exact fun _ _ found => (lookup_retain_iff.mp (retained found)).2
  case count =>
    have size := rows.length_eq
    rw [List.length_drop, sorted.length_eq, perm.length_eq, length_expiries,
      length_expiries] at size
    rw [size, ← length_retain]
    omega
  case soonest =>
    intro key dropped found live gone key' kept stays
    have before : (key, dropped.staleUntil) ∈ (m.retain now).expiries :=
      mem_expiries.mpr ⟨dropped, lookup_retain_iff.mpr ⟨found, live⟩, rfl⟩
    rw [← sorted.mem_iff,
      ← List.take_append_drop (order.length - maxItems) (order.mergeSort soonest),
      List.mem_append] at before
    have low := before.resolve_right fun high => by
      obtain ⟨_, there, _⟩ := mem_expiries.mp (rows.mem_iff.mpr high)
      rw [gone] at there
      cases there
    have high := rows.mem_iff.mp (mem_expiries.mpr ⟨kept, stays, rfl⟩)
    simpa [HashMap.soonest] using Ranking.dropped_le_kept soonest_trans soonest_total low high

end HashMap

/-! ## The eviction section -/

theorem maybeEvict_issues (id : Nat) (config : EvictOnSetConfig) :
    (HashMapStore.maybeEvict id (some config) : Code ι Unit).Only fun c : Cmd ι =>
      c = .rand ∨ c = .mapEvict (.hashMap id) config.maxItems := by
  refine HashMapStore.maybeEvict_only fun configured same => ?_
  obtain rfl := Option.some.inj same
  exact ⟨.inl rfl, .inr rfl⟩

/-- When `maybe_evict` evicts, at any time and in any order of iteration, it keeps as many
    unexpired entries as fit, those that expire last, and changes nothing else. -/
theorem eviction_exact {X : ExtSemantics ι} {id : Nat} {config : EvictOnSetConfig}
    {log : Log ι} {c : Cmd ι} {r : c.Ans} {i : Nat} {now : Int} {w w' : World ι}
    (reaches : (HashMapStore.maybeEvict id (some config) : Code ι Unit).Reaches log c)
    (evicts : c.isEvict = true) (done : exec X i now w c r w') :
    HashMap.EvictedTo now config.maxItems (w.maps (.hashMap id)) (w'.maps (.hashMap id)) ∧
      w' = w.setMap (.hashMap id) (w'.maps (.hashMap id)) := by
  rcases (maybeEvict_issues id config).reaches reaches with rfl | rfl
  · cases evicts
  · obtain ⟨order, perm, rfl⟩ := done
    rw [World.setMap_maps, if_pos rfl]
    exact ⟨HashMap.evict_evictedTo perm, rfl⟩

section Examples

/-- One entry that has expired at time 50 and three that have not, two of them until the same
time. -/
def fourEntries : HashMap Unit :=
  ([("ns:a", 60), ("ns:b", 40), ("ns:c", 60), ("ns:d", 90)].map fun row =>
    (⟨row.1, .fromTyped () true 30 row.2⟩ : Σ _ : String, StoredEntry Unit)).toAList

/-- Of two entries with one expiry the one that the iteration meets later is kept. -/
theorem eviction_exact_tie : ∃ w' : World Unit,
    exec .atomicMap 0 50 (World.empty.setMap (.hashMap 0) fourEntries)
      (.mapEvict (.hashMap 0) 2) () w' ∧
    HashMap.EvictedTo 50 2 fourEntries (w'.maps (.hashMap 0)) ∧
    (w'.maps (.hashMap 0)).keys = ["ns:a", "ns:d"] := by
  let order : List (String × Int) := [("ns:c", 60), ("ns:a", 60), ("ns:d", 90)]
  have perm : order.Perm (fourEntries.retain 50).expiries := by decide
  have dropped : fourEntries.evict 50 2 order = (fourEntries.retain 50).eraseAll ["ns:c"] := by
    rw [HashMap.evict_eq perm, List.mergeSort_of_pairwise (by decide)]
    rfl
  have done : exec .atomicMap 0 50 (World.empty.setMap (.hashMap 0) fourEntries)
      (.mapEvict (.hashMap 0) 2) () (World.setMap _ (.hashMap 0) (fourEntries.evict 50 2 order)) :=
      ⟨order, perm, rfl⟩
  have issued : (HashMapStore.maybeEvict 0 (some ⟨1, 2⟩) : Code Unit Unit).Reaches []
      (.mapEvict (.hashMap 0) 2) :=
    .here
  refine ⟨_, done, (eviction_exact issued rfl done).1, ?_⟩
  rw [World.setMap_maps, if_pos rfl, dropped]
  rfl

end Examples

/-! ## A write and its eviction -/

namespace HashMap

/-- How many entries under other keys expire later. -/
def outlasting (m : HashMap ι) (key : String) (expiry : Int) : Nat :=
  (AList.erase key m).entries.countP fun row => expiry < row.2.staleUntil

/-- How many rows that expire together with the one of the key are met behind it. -/
def tiesBehind (order : List (String × Int)) (key : String) (expiry : Int) : Nat :=
  (order.dropWhile (fun row => row.1 ≠ key)).tail.countP fun row => row.2 = expiry

theorem tiesBehind_split {before after : List (String × Int)} {key : String} {expiry : Int}
    (absent : key ∉ before.map Prod.fst) :
    tiesBehind (before ++ (key, expiry) :: after) key expiry = after.countP fun row =>
      row.2 = expiry := by
  have skipped : ∀ row ∈ before, decide (row.1 ≠ key) = true := by
    rintro row member
    exact decide_eq_true fun same => absent (same ▸ List.mem_map_of_mem (f := Prod.fst) member)
  rw [tiesBehind, List.dropWhile_append_of_pos skipped, List.dropWhile_cons_of_neg (by simp),
    List.tail_cons]

theorem countP_soonest (key : String) (expiry : Int) (rows : List (String × Int)) :
    rows.countP (soonest (key, expiry)) =
      (rows.countP fun row => expiry < row.2) + rows.countP fun row => row.2 = expiry := by
  induction rows with
  | nil => rfl
  | cons row rows ih =>
      simp only [List.countP_cons, ih, soonest, decide_eq_true_eq]
      split <;> split <;> split <;> omega

/-- What expires later than an unexpired entry has not expired. -/
theorem outlasting_insert {m : HashMap ι} {now : Int} {key : String} {entry : StoredEntry ι}
    (live : now < entry.staleUntil) :
    ((HashMap.retain (AList.insert key entry m) now).expiries.countP fun row =>
      entry.staleUntil < row.2) = m.outlasting key entry.staleUntil := by
  have implies (row : Σ _ : String, StoredEntry ι) :
      ((decide (entry.staleUntil < row.2.staleUntil)) && (decide (row.2.staleUntil > now))) =
        decide (entry.staleUntil < row.2.staleUntil) := by
    by_cases later : entry.staleUntil < row.2.staleUntil
    · have still : row.2.staleUntil > now := Int.lt_trans live later
      simp [later, still]
    · simp [later]
  simp only [expiries, retain, List.countP_map, List.countP_filter, AList.entries_insert,
    Function.comp_def, implies]
  have erased : (AList.erase key m).entries = m.entries.kerase key := rfl
  simp [outlasting, erased]

/-- An entry that was just inserted is kept unless `maxItems` entries expire later, or with it
    and are met later. -/
theorem evict_keeps_written {m : HashMap ι} {now : Int} {maxItems : Nat} {key : String}
    {entry : StoredEntry ι} {order : List (String × Int)} (live : now < entry.staleUntil)
    (perm : order.Perm (HashMap.retain (AList.insert key entry m) now).expiries) :
    (HashMap.evict (AList.insert key entry m) now maxItems order).lookup key = some entry ↔
      m.outlasting key entry.staleUntil + tiesBehind order key entry.staleUntil < maxItems := by
  have inserted : (AList.insert key entry m).lookup key = some entry := AList.lookup_insert m
  have row : (HashMap.evict (AList.insert key entry m) now maxItems order).lookup key = some entry ↔
      (key, entry.staleUntil) ∈
      (HashMap.evict (AList.insert key entry m) now maxItems order).expiries := by
    rw [mem_expiries]
    constructor
    · exact fun found => ⟨entry, found, rfl⟩
    · rintro ⟨stored, found, _⟩
      have same := (evict_evictedTo perm).submap key stored found
      rw [inserted] at same
      rw [found, same]
  have present : (key, entry.staleUntil) ∈ order := by
    refine perm.mem_iff.mpr (mem_expiries.mpr ⟨entry, lookup_retain_iff.mpr ⟨inserted, ?_⟩, rfl⟩)
    simpa [StoredEntry.isExpired] using live
  obtain ⟨before, after, rfl⟩ := List.append_of_mem present
  have keys := (perm.map Prod.fst).nodup_iff.mpr (by rw [expiries_keys]; exact AList.keys_nodup _)
  rw [List.map_append, List.map_cons] at keys
  have absent : key ∉ before.map Prod.fst := fun member =>
    (List.nodup_append.mp keys).2.2 key member key (List.mem_cons_self ..) rfl
  have once := perm.nodup_iff.mpr (nodup_expiries _)
  have later := perm.countP_eq fun other => decide (entry.staleUntil < other.2)
  rw [outlasting_insert live, List.countP_append, List.countP_cons_of_neg (by simp)] at later
  have infront : (before.countP fun other => !soonest other (key, entry.staleUntil)) =
      before.countP fun other => decide (entry.staleUntil < other.2) := by
    simp only [soonest, ← decide_not, Int.not_le]
  rw [row, (expiries_evict perm).mem_iff, Ranking.mem_drop_iff soonest_trans soonest_total once,
    tiesBehind_split absent, countP_soonest, infront, ← later]
  omega

end HashMap

section Calls

variable [DecidableEq ι] {id : Nat} {config : EvictOnSetConfig} {ns key : String}
  {entry : StoredEntry ι} {w : World ι}

/-- With a frequency of one or more, `set` inserts and evicts. -/
theorem runCall_set_always {i : Nat} {chance : Chance} (always : 1 ≤ config.frequency) :
    (runCall (.hashMap id (some config)) i chance (.set ns key entry) w).2.world.maps
      (.hashMap id) =
      let inserted : HashMap ι := AList.insert (buildCacheKey ns key) entry (w.maps (.hashMap id))
      inserted.evict chance.time config.maxItems
        (chance.order (inserted.retain chance.time).expiries) := by
  simp only [runCall, StoreCall.task, Driver.runTask, storeSet_body always, Prog.run_op,
    Prog.run_ret, chances_alone, Chance.answer, perform, World.setMap_maps, if_true]

/-- After a `set` with eviction, a `get` at the same time finds the entry if and only if fewer
    than `max_items` of the other entries expire later, or together with it and are met
    behind it when the eviction goes through the map. -/
theorem written_survives_iff {i i' : Nat} {chance chance' : Chance} (always : 1 ≤ config.frequency)
    (sameTime : chance'.time = chance.time) (live : chance.time < entry.staleUntil) :
    let m := w.maps (.hashMap id)
    let cacheKey := buildCacheKey ns key
    let order := chance.order (HashMap.retain (AList.insert cacheKey entry m) chance.time).expiries
    let written := (runCall (.hashMap id (some config)) i chance (.set ns key entry) w).2.world
    (runCall (.hashMap id (some config)) i' chance' (.get ns key) written).1 =
        .entry (.ok (some entry)) ↔
      m.outlasting cacheKey entry.staleUntil +
        HashMap.tiesBehind order cacheKey entry.staleUntil < config.maxItems := by
  intro m cacheKey order written
  have kept :
      (HashMap.evict (AList.insert cacheKey entry m) chance.time config.maxItems
        order).lookup cacheKey =
      some entry ↔ _ := HashMap.evict_keeps_written live (chance.order_perm _)
  have unexpired :
      entry.isExpired chance.time = false := by simpa [StoredEntry.isExpired] using live
  rw [← kept, runCall_get.1, sameTime, runCall_set_always always]
  simp only [Out.entry.injEq, Except.ok.injEq, HashMap.lookup_retain_iff, unexpired, and_true]
  rfl

section Examples

/-- A cache with a short lifetime next to one with a long lifetime loses what it has just
    written. -/
theorem written_evicted :
    let store := Store.hashMap 0 (some ⟨1, 1⟩)
    let entry : StoredEntry Unit := .fromTyped () true 50 60
    let before :=
      (runCall store 0 (evictingAt 0) (.set "long" "a" (.fromTyped () true 500 1000))
        .empty).2.world
    let written := (runCall store 1 (evictingAt 10) (.set "short" "k" entry) before).2.world
    10 < entry.staleUntil ∧
      (runCall store 2 (evictingAt 10) (.get "short" "k") written).1 = .entry (.ok none) := by
  intro store entry before written
  have full : before.maps (.hashMap 0) = AList.insert "long:a" (.fromTyped () true 500 1000) ∅ :=
    rfl
  have left :
      written.maps (.hashMap 0) = AList.insert "long:a" (.fromTyped () true 500 1000) ∅ := by
    unfold written
    rw [runCall_set_always (by decide), full]
    dsimp only
    rw [HashMap.evict_eq ((evictingAt 10).order_perm _), List.mergeSort_of_pairwise (by decide)]
    rfl
  refine ⟨by decide, ?_⟩
  rw [runCall_get.1, left]
  rfl

/-- With room for two entries the same write is found. -/
theorem written_survives_beside :
    let store := Store.hashMap 0 (some ⟨1, 2⟩)
    let entry : StoredEntry Unit := .fromTyped () true 50 60
    let before :=
      (runCall store 0 (evictingAt 0) (.set "long" "a" (.fromTyped () true 500 1000))
        .empty).2.world
    let written := (runCall store 1 (evictingAt 10) (.set "short" "k" entry) before).2.world
    (runCall store 2 (evictingAt 10) (.get "short" "k") written).1 = .entry (.ok (some entry)) := by
  intro store entry before written
  exact (written_survives_iff (by decide) rfl (by decide)).mpr (by decide)

end Examples

end Calls

end Swr
