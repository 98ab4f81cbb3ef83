import Mathlib.Data.List.Infix
import Swr.Json
import Swr.System

/-! # Eviction below capacity

Calls on a `HashMapStore`, one after the other, with eviction and without it. As long as
the entries that have not expired fit into the map, an eviction purges expired entries
and drops nothing else, so the calls do not show whether there was one.
-/

namespace Swr

open Async

variable {ι : Type} [SerdeJson ι]

/-! ## What has not expired -/

namespace HashMap

variable {m m' : HashMap ι} {t : Int}

theorem lookup_retain (m : HashMap ι) (t : Int) (key : String) :
    (m.retain t).lookup key = (m.lookup key).filter (fun stored => t < stored.staleUntil) := by
  apply Option.ext
  intro stored
  rw [← Option.mem_def, AList.mem_lookup_iff, Option.filter_eq_some_iff, ← Option.mem_def,
    AList.mem_lookup_iff]
  simp [retain]

/-- The maps have the same unexpired entries. -/
def SameLive (t : Int) (m m' : HashMap ι) : Prop :=
  ∀ key, (m.retain t).lookup key = (m'.retain t).lookup key

theorem SameLive.later {t' : Int} (same : SameLive t m m') (le : t ≤ t') : SameLive t' m m' := by
  have twice (m : HashMap ι) (key : String) :
      (m.retain t').lookup key = ((m.retain t).lookup key).filter
      (fun stored => t' < stored.staleUntil) := by
    simp only [lookup_retain, Option.filter_filter]
    congr 1
    funext stored
    by_cases live : t' < stored.staleUntil
    · have before : t < stored.staleUntil := by omega
      simp [live, before]
    · simp [live]
  intro key
  rw [twice, twice, same key]

theorem SameLive.length (same : SameLive t m m') :
    (m.retain t).entries.length = (m'.retain t).entries.length := by
  refine (List.lookup_ext (m.retain t).nodupKeys (m'.retain t).nodupKeys
    fun key stored => ?_).length_eq
  have here : (m.retain t).entries.dlookup key = (m'.retain t).entries.dlookup key := same key
  rw [here]

theorem SameLive.insert (same : SameLive t m m') (key : String) (entry : StoredEntry ι) :
    SameLive t (AList.insert key entry m) (AList.insert key entry m') := by
  intro key'
  have before := same key'
  simp only [lookup_retain, lookup_insert] at before ⊢
  split
  · rfl
  · exact before

theorem SameLive.eraseAll (same : SameLive t m m') (keys : List String) :
    SameLive t (m.eraseAll keys) (m'.eraseAll keys) := by
  intro key'
  have before := same key'
  simp only [lookup_retain, lookup_eraseAll] at before ⊢
  split
  · rfl
  · exact before

theorem sameLive_erase {key : String} (expired : (m.retain t).lookup key = none) :
    SameLive t (AList.erase key m) m := by
  intro key'
  simp only [lookup_retain, lookup_erase] at expired ⊢
  split
  · next here => rw [here, expired]; rfl
  · rfl

/-- Where the unexpired entries fit, an eviction keeps them all. -/
theorem sameLive_evict {maxItems : Nat} {order : List (String × Int)}
    (fits : (m.retain t).entries.length ≤ maxItems) : SameLive t (m.evict t maxItems order) m := by
  intro key
  simp only [evict, if_neg (Nat.not_lt.mpr fits), lookup_retain, Option.filter_filter]
  simp

end HashMap

/-! ## Calls one after the other -/

/-- What a call finds: a clock reading, how its random check comes out, and the order in
    which the map is iterated. No call reads the clock twice. -/
structure Chance where
  time : Int
  rand : ℚ
  order : List (String × Int) → List (String × Int)
  rand_unit : 0 ≤ rand ∧ rand ≤ 1
  order_perm : ∀ rows, (order rows).Perm rows

/-- Answer every command of a call by what the call finds. -/
def Chance.answer (chance : Chance) (i : Nat) (w : World ι) : (c : Cmd ι) → c.Ans × World ι
  | .rand => (chance.rand, w)
  | .mapEvict map maxItems => ((), w.setMap map
      ((w.maps map).evict chance.time maxItems
        (chance.order ((w.maps map).retain chance.time).expiries)))
  | c => perform (.calm chance.time fun _ => none) i chance.time w c

theorem Chance.answer_exec (chance : Chance) (i : Nat) (w : World ι) (c : Cmd ι) :
    exec .atomicMap i chance.time w c (chance.answer i w c).1 (chance.answer i w c).2 := by
  cases c
  case rand => exact ⟨⟨_, rfl, chance.rand_unit⟩, rfl⟩
  case mapEvict => exact ⟨_, chance.order_perm _, rfl⟩
  all_goals exact perform_exec_atomicMap chance.time (fun _ => none) i chance.time w _

section Calls

variable [DecidableEq ι]

/-- Drive the machine by what the calls find. -/
def chances : Driver (system (ι := ι) .atomicMap) Chance where
  time chance := chance.time
  answer := Chance.answer
  sound := Chance.answer_exec

/-- The calls as the turns of a session. -/
def turns (store : Store) (calls : List (Chance × StoreCall ι)) :
    List (Turn (system (ι := ι) .atomicMap) Chance Unit) :=
  calls.map fun call => ⟨(), .call (call.2.task store), fun _ => call.1, []⟩

/-- What the calls return. -/
def returns (store : Store) (calls : List (Chance × StoreCall ι))
    (s : Session (system (ι := ι) .atomicMap) Unit) : List (Option (Out ι)) :=
  (chances.session (turns store calls) s).1.map fun answer => answer.2.map Prod.fst

def runCall (store : Store) (i : Nat) (chance : Chance) (call : StoreCall ι) (w : World ι) :
    Out ι × Solo (system (ι := ι) .atomicMap) :=
  chances.runTask i (fun _ => chance) [] (call.task store) w

theorem chances_alone {i : Nat} {inputs : Nat → Chance} {c : Cmd ι}
    {a : Solo (system (ι := ι) .atomicMap)} :
    let done := (inputs a.issued.length).answer i a.world c
    chances.alone i inputs c a = (done.1, ⟨done.2, a.spawned ++ c.spawned, a.issued ++ [c]⟩) := rfl

section OneCall

variable {id i : Nat} {evictOnSet : Option EvictOnSetConfig} {chance : Chance}
  {ns key : String} {w : World ι}

theorem runCall_get : (runCall (.hashMap id evictOnSet) i chance (.get ns key) w).1 =
      .entry (.ok (((w.maps (.hashMap id)).retain chance.time).lookup (buildCacheKey ns key))) ∧
    HashMap.SameLive chance.time
      ((runCall (.hashMap id evictOnSet) i chance (.get ns key) w).2.world.maps (.hashMap id))
      (w.maps (.hashMap id)) := by
  simp only [runCall, StoreCall.task, Driver.runTask, Task.body, Store.dyn, HashMapStore.dyn,
    HashMapStore.get, Ask.mapRead_bind, Prog.op_bind, Prog.run_op, HashMap.lookup_retain,
    chances_alone, Chance.answer, perform]
  cases found : (w.maps (.hashMap id)).lookup (buildCacheKey ns key) with
  | none => exact ⟨rfl, fun _ => rfl⟩
  | some stored =>
      cases expired : stored.isExpired chance.time with
      | true =>
          have old := StoredEntry.isExpired_iff.mp expired
          have gone :
              ((w.maps (.hashMap id)).retain chance.time).lookup (buildCacheKey ns key) = none := by
            simp [HashMap.lookup_retain, found, old]
          refine ⟨by simp [expired, Option.filter_some, old], ?_⟩
          simp only [expired, if_true, Ask.mapExpire_bind, Prog.op_bind, Prog.run_op, chances_alone,
            Chance.answer, perform, Prog.pure_eq, Prog.ret_bind, Prog.run_ret, World.setMap_maps]
          exact HashMap.sameLive_erase gone
      | false =>
          have live :
              chance.time < stored.staleUntil := by simpa [StoredEntry.isExpired] using expired
          refine ⟨by simp [expired, Option.filter_some, live], ?_⟩
          simp only [expired, Bool.false_eq_true, if_false, Prog.pure_eq,
            Prog.ret_bind, Prog.run_ret]
          exact fun _ => rfl

theorem runCall_remove {keys : List String} :
    (runCall (.hashMap id evictOnSet) i chance (.remove ns keys) w).1 = .done (.ok ()) ∧
    (runCall (.hashMap id evictOnSet) i chance (.remove ns keys) w).2.world.maps (.hashMap id) =
      (w.maps (.hashMap id)).eraseAll (keys.map (buildCacheKey ns)) :=
  ⟨by simp [runCall, StoreCall.task, Driver.runTask, Task.body, Store.dyn, HashMapStore.dyn,
    HashMapStore.remove], by simp [runCall, StoreCall.task, Driver.runTask, Task.body, Store.dyn,
    HashMapStore.dyn, HashMapStore.remove,
      chances_alone, Chance.answer, perform, World.setMap_maps]⟩

variable {entry : StoredEntry ι}

theorem runCall_set :
    (runCall (.hashMap id none) i chance (.set ns key entry) w).1 = .done (.ok ()) ∧
    (runCall (.hashMap id none) i chance (.set ns key entry) w).2.world.maps (.hashMap id) =
      AList.insert (buildCacheKey ns key) entry (w.maps (.hashMap id)) :=
  ⟨by simp [runCall, StoreCall.task, Driver.runTask, Task.body, Store.dyn, HashMapStore.dyn,
    HashMapStore.set,
      HashMapStore.maybeEvict],
    by simp [runCall, StoreCall.task, Driver.runTask, Task.body, Store.dyn, HashMapStore.dyn,
      HashMapStore.set, HashMapStore.maybeEvict, chances_alone, Chance.answer, perform,
      World.setMap_maps]⟩

theorem runCall_set_evicting {config : EvictOnSetConfig} :
    (runCall (.hashMap id (some config)) i chance (.set ns key entry) w).1 = .done (.ok ()) ∧
    ((runCall (.hashMap id (some config)) i chance (.set ns key entry) w).2.world.maps
      (.hashMap id) =
        AList.insert (buildCacheKey ns key) entry (w.maps (.hashMap id)) ∨
      ∃ order, (runCall (.hashMap id (some config)) i chance (.set ns key entry) w).2.world.maps
        (.hashMap id) = HashMap.evict (AList.insert (buildCacheKey ns key) entry
          (w.maps (.hashMap id))) chance.time config.maxItems order) := by
  simp only [runCall, StoreCall.task, Driver.runTask, Task.body, Store.dyn, HashMapStore.dyn,
    HashMapStore.set, HashMapStore.maybeEvict, HashMapStore.evictNow, Ask.mapInsert_bind,
    Prog.op_bind, Prog.run_op, chances_alone, Chance.answer, perform]
  split
  · exact ⟨rfl, .inl (by simp [World.setMap_maps])⟩
  · split
    · exact ⟨rfl, .inr ⟨_, by simp [chances_alone, Chance.answer, World.setMap_maps]; rfl⟩⟩
    · simp only [Ask.rand_bind, Prog.op_bind, Prog.run_op, chances_alone, Chance.answer]
      split
      · exact ⟨rfl, .inr ⟨_, by simp [chances_alone, Chance.answer, World.setMap_maps]; rfl⟩⟩
      · exact ⟨rfl, .inl (by simp [World.setMap_maps])⟩

/-- A call answers alike with eviction and without it, if the entries that are unexpired
    after a `set` fit. -/
theorem runCall_alike {config : EvictOnSetConfig} (i i' : Nat) {call : StoreCall ι} {w' : World ι}
    (same : HashMap.SameLive chance.time (w'.maps (.hashMap id)) (w.maps (.hashMap id)))
    (fits : ∀ ns key entry, call = .set ns key entry →
      (((runCall (.hashMap id none) i chance call w).2.world.maps (.hashMap id)).retain
        chance.time).entries.length ≤ config.maxItems) :
    (runCall (.hashMap id (some config)) i' chance call w').1 =
      (runCall (.hashMap id none) i chance call w).1 ∧ HashMap.SameLive chance.time
        ((runCall (.hashMap id (some config)) i' chance call w').2.world.maps (.hashMap id))
        ((runCall (.hashMap id none) i chance call w).2.world.maps (.hashMap id)) := by
  cases call with
  | get ns key =>
      refine ⟨?_, fun key' => ?_⟩
      · rw [runCall_get.1, runCall_get.1, same]
      · rw [runCall_get.2 key', runCall_get.2 key', same key']
  | set ns key entry =>
      have put := same.insert (buildCacheKey ns key) entry
      have room := fits ns key entry rfl
      rw [runCall_set.2] at room
      rw [← put.length] at room
      rw [runCall_set_evicting.1, runCall_set.1, runCall_set.2]
      refine ⟨rfl, ?_⟩
      have left := (runCall_set_evicting :
        (runCall (.hashMap id (some config)) i' chance (.set ns key entry) w').1 = _ ∧ _).2
      rcases left with kept | ⟨order, evicted⟩
      · rw [kept]
        exact put
      · rw [evicted]
        exact fun key' => (HashMap.sameLive_evict room key').trans (put key')
  | remove ns keys =>
      rw [runCall_remove.1, runCall_remove.1, runCall_remove.2, runCall_remove.2]
      exact ⟨rfl, same.eraseAll _⟩

end OneCall

/-! ## Runs -/

/-- The clock reading of the last call, if that is a `set`. -/
def lastSet (calls : List (Chance × StoreCall ι)) : Option Int :=
  match calls.getLast? with
  | some (chance, .set ..) => some chance.time
  | _ => none

omit [DecidableEq ι] in
theorem lastSet_cons {call : Chance × StoreCall ι} {calls : List (Chance × StoreCall ι)} {t : Int}
    (last : lastSet calls = some t) : lastSet (call :: calls) = some t := by
  cases calls with
  | nil => cases last
  | cons next calls => exact last

/-- Without eviction, at most `maxItems` entries are unexpired after every `set`. -/
def Fits (id maxItems : Nat) (calls : List (Chance × StoreCall ι))
    (s : Session (system (ι := ι) .atomicMap) Unit) : Prop :=
  ∀ part ∈ calls.inits, ∀ t ∈ lastSet part,
    (((chances.session (turns (.hashMap id none) part) s).2.world.maps (.hashMap id)).retain
      t).entries.length ≤ maxItems

instance {id maxItems : Nat} {calls : List (Chance × StoreCall ι)}
    {s : Session (system (ι := ι) .atomicMap) Unit} : Decidable (Fits id maxItems calls s) :=
  inferInstanceAs (Decidable (∀ _ ∈ _, ∀ _ ∈ _, _ ≤ _))

/-- The clock does not go back. -/
def InOrder (calls : List (Chance × StoreCall ι)) : Prop :=
  calls.Pairwise fun a b => a.1.time ≤ b.1.time

instance (calls : List (Chance × StoreCall ι)) : Decidable (InOrder calls) :=
  inferInstanceAs (Decidable (List.Pairwise _ _))

theorem returns_cons {store : Store} {chance : Chance} {call : StoreCall ι}
    {calls : List (Chance × StoreCall ι)} {s : Session (system (ι := ι) .atomicMap) Unit} :
    let done := runCall store s.started chance call s.world
    let next : Session (system (ι := ι) .atomicMap) Unit :=
      Session.leave { s with started := s.started + 1 } () done.2
    returns store ((chance, call) :: calls) s = some done.1 :: returns store calls next := rfl

theorem returns_alike {id : Nat} {config : EvictOnSetConfig}
    {calls : List (Chance × StoreCall ι)} {t : Int}
    {s s' : Session (system (ι := ι) .atomicMap) Unit}
    (same : HashMap.SameLive t (s'.world.maps (.hashMap id)) (s.world.maps (.hashMap id)))
    (inOrder : InOrder calls) (late : ∀ call ∈ calls, t ≤ call.1.time)
    (fits : Fits id config.maxItems calls s) :
    returns (.hashMap id (some config)) calls s' = returns (.hashMap id none) calls s := by
  induction calls generalizing t s s' with
  | nil => rfl
  | cons call calls ih =>
      obtain ⟨chance, call⟩ := call
      obtain ⟨now, later⟩ := List.forall_mem_cons.mp late
      obtain ⟨first, rest⟩ := List.pairwise_cons.mp inOrder
      have room : ∀ ns key entry, call = .set ns key entry →
          (((runCall (.hashMap id none) s.started chance call s.world).2.world.maps
            (.hashMap id)).retain chance.time).entries.length ≤ config.maxItems := by
        rintro ns key entry rfl
        exact fits [(chance, .set ns key entry)] ((List.mem_inits _ _).mpr ⟨calls, rfl⟩)
          chance.time rfl
      obtain ⟨out, alike⟩ := runCall_alike s.started s'.started (same.later now) room
      rw [returns_cons, returns_cons, out]
      refine congrArg _ (ih alike rest first fun part within t last => ?_)
      have longer : (chance, call) :: part <+: (chance, call) :: calls :=
        List.cons_prefix_cons.mpr ⟨rfl, (List.mem_inits _ _).mp within⟩
      exact fits ((chance, call) :: part) ((List.mem_inits _ _).mpr longer) t (lastSet_cons last)

/-- Whatever the frequency and however the random checks come out, calls on a store that
    evicts return what they return without eviction, as long as what is unexpired fits. -/
theorem eviction_unseen (id : Nat) (config : EvictOnSetConfig) (calls : List (Chance × StoreCall ι))
    (w : World ι) (inOrder : InOrder calls) (fits : Fits id config.maxItems calls (.idle w)) :
    returns (.hashMap id (some config)) calls (.idle w) =
      returns (.hashMap id none) calls (.idle w) := by
  cases calls with
  | nil => rfl
  | cons call calls =>
      refine returns_alike (t := call.1.time) (fun _ => rfl) inOrder
        (List.forall_mem_cons.mpr ⟨Int.le_refl _, ?_⟩) fits
      exact (List.pairwise_cons.mp inOrder).1

section Examples

def evictingAt (time : Int) : Chance :=
  ⟨time, 0, fun rows => rows, by decide, fun _ => List.Perm.refl _⟩

/-- An entry expires, a second one is put, and both are looked up. -/
def expireThenPut : List (Chance × StoreCall Unit) :=
  [(evictingAt 0, .set "ns" "k" (.fromTypedWithSerializer () true 10 20)),
    (evictingAt 30, .set "ns" "l" (.fromTypedWithSerializer () false 50 60)),
    (evictingAt 40, .get "ns" "k"), (evictingAt 41, .get "ns" "l")]

theorem eviction_unseen_purging :
    returns (.hashMap 0 (some ⟨1 / 2, 1⟩)) expireThenPut (.idle .empty) =
      returns (.hashMap 0 none) expireThenPut (.idle .empty) ∧
    returns (.hashMap 0 none) expireThenPut (.idle .empty) =
      [some (.done (.ok ())), some (.done (.ok ())), some (.entry (.ok none)),
        some (.entry (.ok (some (.fromTypedWithSerializer () false 50 60))))] :=
  ⟨eviction_unseen 0 ⟨1 / 2, 1⟩ expireThenPut .empty (by decide) (by decide), rfl⟩

end Examples

end Calls

end Swr
