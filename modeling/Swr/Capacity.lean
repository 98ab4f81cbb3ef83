import Mathlib.Data.Finset.Card
import Mathlib.Data.Finset.Range
import Mathlib.Data.Multiset.AddSub
import Swr.Async.Trace
import Swr.Markers

/-! # Capacity of an evicting HashMapStore

A `set` inserts in one critical section and evicts in another one, so the map can grow
past its capacity by the evictions that are still to come, and by no more.
-/

namespace Swr

open Async

variable {ι : Type} [SerdeJson ι]

/-! ## Sizes -/

namespace HashMap

theorem length_eq_keys (m : HashMap ι) : m.entries.length = m.keys.length := by
  simp [AList.keys, List.keys]

theorem length_insert_le (m : HashMap ι) (key : String) (entry : StoredEntry ι) :
    (AList.insert key entry m).entries.length ≤ m.entries.length + 1 := by
  rw [AList.entries_insert, List.length_cons]
  exact Nat.succ_le_succ (List.kerase_sublist ..).length_le

theorem length_erase_le (m : HashMap ι) (key : String) :
    (AList.erase key m).entries.length ≤ m.entries.length :=
  (List.kerase_sublist ..).length_le

theorem keys_eraseAll (m : HashMap ι) (keys : List String) :
    (m.eraseAll keys).keys = m.keys.diff keys := by
  induction keys generalizing m with
  | nil => rfl
  | cons key keys ih =>
      rw [List.diff_cons, ← AList.keys_erase]
      exact ih (AList.erase key m)

theorem length_eraseAll_le (m : HashMap ι) (keys : List String) :
    (m.eraseAll keys).entries.length ≤ m.entries.length := by
  rw [length_eq_keys, length_eq_keys, keys_eraseAll]
  exact (List.diff_sublist ..).length_le

/-- Erasing keys of the map makes it smaller by their number. -/
theorem length_eraseAll {m : HashMap ι} {keys : List String} (own : keys.Subperm m.keys) :
    (m.eraseAll keys).entries.length = m.entries.length - keys.length := by
  have smaller := Multiset.card_sub (Multiset.coe_le.mpr own)
  rw [length_eq_keys, length_eq_keys, keys_eraseAll]
  simpa only [Multiset.coe_sub, Multiset.coe_card] using smaller

/-- Eviction leaves at most `maxItems` entries, in whatever order the map is iterated. -/
theorem length_evict_le {m : HashMap ι} {now : Int} {maxItems : Nat} {order : List (String × Int)}
    (perm : order.Perm (m.retain now).expiries) :
    (m.evict now maxItems order).entries.length ≤ maxItems := by
  simp only [evict]
  split
  · have sorted := (List.mergeSort_perm order (fun a b => a.2 ≤ b.2)).trans perm
    have names : (m.retain now).expiries.map Prod.fst = (m.retain now).keys := by
      simp [expiries, AList.keys, List.keys]
    have size := sorted.length_eq
    simp only [expiries, List.length_map] at size
    rw [length_eraseAll]
    · simp only [List.length_map, List.length_take, size]
      omega
    · rw [← names]
      exact ((List.take_sublist ..).map _).subperm.trans (sorted.map _).subperm
  · next small => exact Nat.not_lt.mp small

end HashMap

/-! ## The calls -/

/-- The store is a `HashMapStore` with this configuration. -/
def Store.evictsIn (id : Nat) (config : EvictOnSetConfig) : Store → Bool
  | .hashMap id' evictOnSet => id' = id && evictOnSet = some config
  | _ => false

theorem Store.evictsIn_iff {id : Nat} {config : EvictOnSetConfig} {store : Store} :
    store.evictsIn id config = true ↔ store = .hashMap id (some config) := by
  cases store <;> simp [Store.evictsIn]

/-- The task is a call on such a store. -/
def Task.evictsIn (id : Nat) (config : EvictOnSetConfig) : Task ι → Bool
  | .storeGet store .. | .storeSet store .. | .storeRemove store .. => store.evictsIn id config
  | _ => false

def Task.isStoreSet : Task ι → Bool
  | .storeSet .. => true
  | _ => false

def Cmd.isInsert : Cmd ι → Bool
  | .mapInsert .. => true
  | _ => false

def Cmd.isEvict : Cmd ι → Bool
  | .mapEvict .. => true
  | _ => false

/-- So answered, a call has inserted and not yet evicted. -/
def OwesEviction (log : List (Σ c : Cmd ι, c.Ans)) : Prop :=
  (∃ e ∈ log, e.1.isInsert = true) ∧ ∀ e ∈ log, e.1.isEvict = false

instance (log : List (Σ c : Cmd ι, c.Ans)) : Decidable (OwesEviction log) :=
  inferInstanceAs (Decidable ((∃ _ ∈ _, _) ∧ ∀ _ ∈ _, _))

theorem OwesEviction.snoc {log : List (Σ c : Cmd ι, c.Ans)} {c : Cmd ι} (r : c.Ans)
    (owes : OwesEviction log) (other : c.isEvict = false) : OwesEviction (log ++ [⟨c, r⟩]) := by
  obtain ⟨⟨e, member, inserts⟩, none⟩ := owes
  refine ⟨⟨e, List.mem_append_left _ member, inserts⟩, fun e' member' => ?_⟩
  rcases List.mem_append.mp member' with before | last
  · exact none e' before
  · obtain rfl := List.mem_singleton.mp last
    exact other

/-- The commands on maps with which nothing gets in and nothing is evicted. -/
def Cmd.OnlyTakes : Cmd ι → Prop
  | .mapRead .. | .mapExpire .. | .mapRemove .. => True
  | _ => False

theorem Cmd.OnlyTakes.not_evict {c : Cmd ι} (takes : c.OnlyTakes) : c.isEvict = false := by
  cases c
  case mapEvict => exact takes.elim
  all_goals rfl

/-- What a call on the store issues after it was answered. -/
def Task.IssuesOn (id : Nat) (config : EvictOnSetConfig) (task : Task ι)
    (log : List (Σ c : Cmd ι, c.Ans)) : Cmd ι → Prop
  | .mapInsert map _ _ => map = .hashMap id ∧ log = [] ∧ task.isStoreSet = true
  | .mapEvict map maxItems => map = .hashMap id ∧ maxItems = config.maxItems
  | c => c.OnlyTakes

section Calls

variable [DecidableEq ι] {id : Nat} {config : EvictOnSetConfig} {task : Task ι}
  {log : List (Σ c : Cmd ι, c.Ans)}

/-- With a frequency of one or more, `set` is an insertion and an eviction. -/
theorem storeSet_body (always : 1 ≤ config.frequency) (ns key : String) (entry : StoredEntry ι) :
    (Task.storeSet (.hashMap id (some config)) ns key entry).body =
      .op (.mapInsert (.hashMap id) (buildCacheKey ns key) entry) fun _ =>
        .op (.mapEvict (.hashMap id) config.maxItems) fun _ => .ret (.done (.ok ())) := by
  have positive : ¬ config.frequency ≤ 0 := fun low => absurd (Rat.le_trans always low) (by decide)
  simp only [Task.body, Store.dyn, HashMapStore.dyn, HashMapStore.set, HashMapStore.maybeEvict,
    if_neg positive, if_pos always]
  rfl

theorem storeGet_takes (ns key : String) :
    (Task.storeGet (.hashMap id (some config)) ns key : Task ι).body.Only Cmd.OnlyTakes := by
  simp only [Task.body, Store.dyn, HashMapStore.dyn, HashMapStore.get,
    Ask.mapRead_bind, Prog.op_bind]
  refine ⟨trivial, fun (found, now) => ?_⟩
  cases found with
  | none => trivial
  | some stored =>
      dsimp only
      split
      · exact ⟨trivial, fun _ => trivial⟩
      · trivial

theorem storeRemove_takes (ns : String) (keys : List String) :
    (Task.storeRemove (.hashMap id (some config)) ns keys : Task ι).body.Only Cmd.OnlyTakes := by
  simp only [Task.body, Store.dyn, HashMapStore.dyn, HashMapStore.remove,
    Ask.mapRemove_bind, Prog.op_bind]
  exact ⟨trivial, fun _ => trivial⟩

omit [DecidableEq ι] in
theorem issuesOn_of_takes {c : Cmd ι} (takes : c.OnlyTakes) : task.IssuesOn id config log c := by
  cases c
  case mapRead | mapExpire | mapRemove => trivial
  all_goals exact takes.elim

theorem calls_issue (always : 1 ≤ config.frequency) (call : task.evictsIn id config = true)
    {c : Cmd ι} (reaches : task.body.Reaches log c) : task.IssuesOn id config log c := by
  cases task with
  | storeGet store ns key =>
      obtain rfl := Store.evictsIn_iff.mp call
      exact issuesOn_of_takes ((storeGet_takes ns key).reaches reaches)
  | storeSet store ns key entry =>
      obtain rfl := Store.evictsIn_iff.mp call
      rw [storeSet_body always] at reaches
      rcases Prog.reaches_op.mp reaches with ⟨rfl, rfl⟩ | ⟨_, later, rfl, evicts⟩
      · exact ⟨rfl, rfl, rfl⟩
      · rcases Prog.reaches_op.mp evicts with ⟨rfl, rfl⟩ | ⟨_, _, rfl, ended⟩
        · exact ⟨rfl, rfl⟩
        · exact absurd ended Prog.not_reaches_ret
  | storeRemove store ns keys =>
      obtain rfl := Store.evictsIn_iff.mp call
      exact issuesOn_of_takes ((storeRemove_takes ns keys).reaches reaches)
  | get | set | remove | swr | cacheValue | revalidate | backfill | redisDel => cases call

/-- A `set` that has returned owes nothing. -/
theorem set_evicts (always : 1 ≤ config.frequency) {ns key : String}
    {entry : StoredEntry ι} {out : Out ι}
    (yields : (Task.storeSet (.hashMap id (some config)) ns key entry).body.Yields log out) :
    ¬ OwesEviction log := by
  rw [storeSet_body always] at yields
  obtain ⟨_, _, rfl, evicts⟩ := Prog.yields_op.mp yields
  obtain ⟨_, _, rfl, _⟩ := Prog.yields_op.mp evicts
  rintro ⟨_, none⟩
  cases none ⟨.mapEvict (.hashMap id) config.maxItems, ()⟩
    (List.mem_cons_of_mem _ (List.mem_cons_self ..))

end Calls

/-! ## Runs -/

section Runs

variable [DecidableEq ι] {id : Nat} {config : EvictOnSetConfig} {X : ExtSemantics ι} {w : World ι}
  {past : History (system X)} {s s' : Config (system X)} {l : Label (system X)}

/-- The calls that have inserted and not yet evicted. -/
def owing (past : History (system X)) (s : Config (system X)) : Finset Nat :=
  (Finset.range s.threads.length).filter fun i => OwesEviction (ι := ι) (replies i past)

/-- What a step starts is a call on the store. -/
def StartsCall (id : Nat) (config : EvictOnSetConfig) (l : Label (system X)) : Prop :=
  ∀ task : Task ι, task ∈ l.starting → task.evictsIn id config = true

instance (l : Label (system X)) : Decidable (StartsCall id config l) :=
  inferInstanceAs (Decidable (∀ _ ∈ _, _ = _))

/-- What a command of the run is. -/
theorem run_issues (always : 1 ≤ config.frequency) (run : Run (system X) (.idle w) past s)
    (calls : ∀ e ∈ past, StartsCall id config e.2) {i : Nat} {t : Int} {c : Cmd ι} {r : c.Ans}
    {s₁ : Config (system X)} {earlier : History (system X)}
    (step : (s₁, .exec i t c r) :: earlier <:+ past) : ∃ th : Thread (system X), s₁.threads[i]? =
      some th ∧ Task.evictsIn (ι := ι) id config th.task = true ∧
      Task.IssuesOn (ι := ι) id config th.task (replies i earlier) c := by
  refine run.acts (T := fun task : Task ι => task.evictsIn id config = true)
    (fun _ _ _ mine reaches => calls_issue always mine reaches) ?_
      (fun _ task member => calls _ member task rfl) step
  intro task log c _ issues task' member
  obtain rfl := Cmd.mem_spawned.mp member
  exact issues.elim

omit [DecidableEq ι] in
/-- Where nothing is inserted, a map does not grow. -/
theorem exec_takes {i : Nat} {t : Int} {w' : World ι} {c : Cmd ι} {r : c.Ans} {map : MapId}
    (takes : c.OnlyTakes) (done : exec X i t w c r w') :
    (w'.maps map).entries.length ≤ (w.maps map).entries.length := by
  cases c
  case mapRead =>
    obtain ⟨_, rfl⟩ := done
    exact Nat.le_refl _
  case mapExpire map' key =>
    obtain rfl := done
    rw [World.setMap_maps]
    split
    · next here => exact here ▸ HashMap.length_erase_le _ _
    · exact Nat.le_refl _
  case mapRemove map' keys =>
    obtain rfl := done
    rw [World.setMap_maps]
    split
    · next here => exact here ▸ HashMap.length_eraseAll_le _ _
    · exact Nat.le_refl _
  all_goals exact takes.elim

theorem mem_owing {i : Nat} :
    i ∈ owing past s ↔ i < s.threads.length ∧ OwesEviction (ι := ι) (replies i past) := by
  simp [owing]

/-- Nothing but an eviction pays what is owed. -/
theorem owing_mono (taken : Step (system X) s l s')
    (other : ∀ i t (c : Cmd ι) r, l = .exec i t c r → c.isEvict = false) :
    owing past s ⊆ owing ((s, l) :: past) s' := by
  intro i member
  obtain ⟨inside, owes⟩ := mem_owing.mp member
  refine mem_owing.mpr ⟨Nat.lt_of_lt_of_le inside taken.length_le, ?_⟩
  rcases l.foreign_or i with foreign | ⟨t, c, r, rfl⟩
  · rw [replies_foreign foreign]
    exact owes
  · rw [replies_own]
    exact owes.snoc r (other i t c r rfl)

/-- An insertion is owed for from then on. -/
theorem owing_insert {i : Nat} {t : Int} {map : MapId} {key : String} {entry : StoredEntry ι}
    {r : (Cmd.mapInsert map key entry).Ans}
    (taken : Step (system X) s (.exec i t (.mapInsert map key entry) r) s')
    (first : replies i past = []) :
    (owing past s).card + 1 ≤
    (owing ((s, .exec i t (.mapInsert map key entry) r) :: past) s').card := by
  refine Finset.card_lt_card
    ⟨owing_mono taken fun _ _ _ _ same => by cases same; rfl, fun all => ?_⟩
  have inside : i < s'.threads.length := by
    cases taken with
    | exec at_i =>
        have before := (List.getElem?_eq_some_iff.mp at_i).1
        simp only [List.length_append, List.length_set]
        omega
  have new : i ∈ owing ((s, .exec i t (.mapInsert map key entry) r) :: past) s' := by
    refine mem_owing.mpr ⟨inside, ?_⟩
    rw [replies_own, first]
    exact ⟨⟨_, List.mem_singleton_self _, rfl⟩, by simp [Cmd.isEvict]⟩
  obtain ⟨⟨_, member, _⟩, _⟩ := (mem_owing.mp (all new)).2
  rw [first] at member
  cases member

/-- The map is not larger than its capacity and what is owed. -/
def WithinCapacity (id : Nat) (config : EvictOnSetConfig) (past : History (system X))
    (s : Config (system X)) : Prop :=
  (s.world.maps (.hashMap id)).entries.length ≤ config.maxItems + (owing past s).card

/-- A step keeps within the capacity: an insertion is owed for, and an eviction leaves
    no more than `maxItems` entries. -/
theorem WithinCapacity.step (within : WithinCapacity id config past s)
    (taken : Step (system X) s l s') (issues : ∀ i t (c : Cmd ι) r, l = .exec i t c r →
      ∃ task : Task ι, task.IssuesOn id config (replies i past) c) :
      WithinCapacity id config ((s, l) :: past) s' := by
  have grown (other : ∀ i t (c : Cmd ι) r, l = .exec i t c r → c.isEvict = false)
      (small : (s'.world.maps (.hashMap id)).entries.length ≤
        (s.world.maps (.hashMap id)).entries.length) :
      WithinCapacity id config ((s, l) :: past) s' :=
    small.trans
      (within.trans (Nat.add_le_add_left (Finset.card_le_card (owing_mono taken other)) _))
  cases taken with
  | start | turn | drop => exact grown (fun _ _ _ _ same => by cases same) (Nat.le_refl _)
  | @exec _ i th c rest t r w' at_i next done =>
      obtain ⟨task, issued⟩ := issues i t c r rfl
      have takes (here : c.OnlyTakes) : WithinCapacity id config ((s, .exec i t c r) :: past) _ :=
        grown (fun _ _ _ _ same => by cases same; exact here.not_evict) (exec_takes here done)
      cases c
      case mapInsert map key entry =>
        obtain ⟨rfl, first, _⟩ := issued
        have owed := owing_insert (Step.exec at_i next done) first
        obtain rfl := done
        unfold WithinCapacity at within ⊢
        rw [World.setMap_maps, if_pos rfl]
        have larger := HashMap.length_insert_le (s.world.maps (.hashMap id)) key entry
        omega
      case mapEvict map maxItems =>
        obtain ⟨rfl, rfl⟩ := issued
        obtain ⟨order, perm, rfl⟩ := done
        unfold WithinCapacity
        rw [World.setMap_maps, if_pos rfl]
        exact (HashMap.length_evict_le perm).trans (Nat.le_add_right _ _)
      case mapRead | mapExpire | mapRemove => exact takes trivial
      all_goals exact issued.elim

theorem run_within (always : 1 ≤ config.frequency) (empty : w.maps (.hashMap id) = ∅)
    (run : Run (system X) (.idle w) past s) (calls : ∀ e ∈ past, StartsCall id config e.2) :
    WithinCapacity id config past s := by
  induction run with
  | refl =>
      unfold WithinCapacity Config.idle
      rw [empty]
      exact Nat.zero_le _
  | @step past s l s' before taken ih =>
      refine (ih fun e member => calls e (List.mem_cons_of_mem _ member)).step taken ?_
      rintro i t c r rfl
      obtain ⟨th, _, _, issues⟩ := run_issues always (before.step taken) calls (List.suffix_refl _)
      exact ⟨th.task, issues⟩

/-- The thread is a `set` that has not returned. -/
def SetInProgress (th : Thread (system X)) : Prop :=
  Task.isStoreSet (ι := ι) th.task = true ∧ ∀ out, ¬ th.Finished out

/-- While no `set` is in progress, nothing is owed. -/
theorem owing_empty (always : 1 ≤ config.frequency) (run : Run (system X) (.idle w) past s)
    (calls : ∀ e ∈ past, StartsCall id config e.2) (idle : ∀ th ∈ s.threads, ¬ SetInProgress th) :
    owing past s = ∅ := by
  refine Finset.eq_empty_of_forall_notMem fun i member => ?_
  obtain ⟨inside, owes⟩ := mem_owing.mp member
  obtain ⟨⟨⟨c, r⟩, answered, inserts⟩, _⟩ := owes
  obtain ⟨⟨t, _⟩, traced, rfl⟩ := List.mem_map.mp answered
  obtain ⟨s₁, earlier, step⟩ := step_of_mem_trace traced
  obtain ⟨th₁, at_i₁, mine, issues⟩ := run_issues always run calls step
  obtain ⟨th, at_i, same, _⟩ := run.persists (step.subset (List.mem_cons_self ..)) at_i₁
  have setter : Task.isStoreSet (ι := ι) th₁.task = true := by
    cases c
    case mapInsert => exact issues.2.2
    all_goals cases inserts
  have returned : ∃ out, th.Finished out := by
    by_contra running
    exact idle th (List.mem_of_getElem? at_i) ⟨same ▸ setter, fun out done => running ⟨out, done⟩⟩
  obtain ⟨out, finished⟩ := returned
  have yields := run.finished_yields at_i finished
  rw [same] at yields
  cases task : th₁.task with
  | storeSet store ns key entry =>
      rw [task] at mine yields
      obtain rfl := Store.evictsIn_iff.mp mine
      exact set_evicts always yields (mem_owing.mp member).2
  | storeGet | storeRemove | get | set | remove | swr | cacheValue | revalidate |
      backfill | redisDel =>
      rw [task] at setter
      cases setter

/-- The map holds no more than its capacity and one entry for every `set` that has
    inserted and not yet evicted. -/
theorem capacity_bound (always : 1 ≤ config.frequency) (empty : w.maps (.hashMap id) = ∅)
    (run : Run (system X) (.idle w) past s) (calls : ∀ e ∈ past, StartsCall id config e.2) :
    (s.world.maps (.hashMap id)).entries.length ≤ config.maxItems + (owing past s).card ∧
      ((∀ th ∈ s.threads, ¬ SetInProgress th) →
        (s.world.maps (.hashMap id)).entries.length ≤ config.maxItems) := by
  have within := run_within always empty run calls
  refine ⟨within, fun idle => ?_⟩
  unfold WithinCapacity at within
  rw [owing_empty always run calls idle, Finset.card_empty] at within
  exact within

/-- A map for one entry holds three while two `set`s have not evicted. -/
theorem capacity_bound_overlapping :
    ∃ (past : History (system .atomicMap)) (s : Config (system .atomicMap)),
    Run (system .atomicMap) (.idle (.empty : World Unit)) past s ∧
    (s.world.maps (.hashMap 0)).entries.length = 3 ∧ (owing past s).card = 2 ∧
    (s.world.maps (.hashMap 0)).entries.length ≤ 1 + (owing past s).card := by
  obtain ⟨past, s, played, size, owed⟩ : ∃ past s,
      driver.play (fun _ l => StartsCall 0 ⟨1, 1⟩ l)
        [.start (.storeSet (.hashMap 0 (some ⟨1, 1⟩)) "ns" "k"
            (.fromTypedWithSerializer () true 50 60)),
          .start (.storeSet (.hashMap 0 (some ⟨1, 1⟩)) "ns" "l"
            (.fromTypedWithSerializer () true 50 60)),
          .start (.storeSet (.hashMap 0 (some ⟨1, 1⟩)) "ns" "m"
            (.fromTypedWithSerializer () true 50 60)),
          .go 0 (reading 0), .go 0 (reading 1), .go 1 (reading 2), .go 2 (reading 2)]
        ([], .idle (.empty : World Unit)) = some (past, s) ∧
      (s.world.maps (.hashMap 0)).entries.length = 3 ∧ (owing past s).card = 2 :=
      ⟨_, _, rfl, by decide, by decide⟩
  obtain ⟨run, calls⟩ := Driver.plays played
  exact ⟨past, s, run, size, owed, (capacity_bound (by decide) rfl run calls).1⟩

end Runs

end Swr
