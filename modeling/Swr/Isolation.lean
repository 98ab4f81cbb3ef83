import Mathlib.Data.List.InsertIdx
import Swr.Async.Session
import Swr.Json
import Swr.Markers
import Swr.SwrCode

/-! # Isolation of namespaces

Two caches over one `HashMapStore`, each with a namespace of its own. What one of them
does shows in the other exactly when their composite keys can meet, that is when one
namespace is the other one followed by a separator and more.
-/

namespace Swr

open Async

variable {ι : Type} [SerdeJson ι]

/-! ## Composite keys of two namespaces -/

/-- The namespace `b` goes on after `a` with a separator. -/
def Extends (a b : String) : Prop := (a ++ ":").toList <+: b.toList

instance (a b : String) : Decidable (Extends a b) := inferInstanceAs (Decidable (_ <+: _))

private theorem extends_meets {a b : String} (longer : Extends a b) (k : String) :
    ∃ k', buildCacheKey a k' = buildCacheKey b k := by
  obtain ⟨more, split⟩ := longer
  refine ⟨String.ofList more ++ ":" ++ k, String.toList_inj.mp ?_⟩
  simp only [buildCacheKey, String.toList_append, String.toList_ofList, ← split, List.append_assoc]

/-- Different namespaces share no composite key, unless one goes on after the other
    with a separator. -/
theorem keys_apart_iff {a b : String} (distinct : a ≠ b) :
    (∀ k k', buildCacheKey a k ≠ buildCacheKey b k') ↔ ¬ Extends a b ∧ ¬ Extends b a := by
  constructor
  · refine fun apart => ⟨fun longer => ?_, fun longer => ?_⟩
    · obtain ⟨k', same⟩ := extends_meets longer ""
      exact apart k' "" same
    · obtain ⟨k', same⟩ := extends_meets longer ""
      exact apart "" k' same.symm
  · rintro ⟨not_ab, not_ba⟩ k k' same
    have chars := congrArg String.toList same
    simp only [buildCacheKey, String.toList_append, List.append_assoc] at chars
    have colon (rest : List Char) : ":".toList ++ rest = ':' :: rest := rfl
    rw [colon, colon] at chars
    rcases List.append_eq_append_iff.mp chars with ⟨more, longer, tail⟩ | ⟨more, longer, tail⟩
    · cases more with
      | nil => exact distinct (String.toList_inj.mp (by simpa using longer.symm))
      | cons c more =>
          obtain ⟨rfl, _⟩ := List.cons.inj tail
          exact not_ab ⟨more, by rw [longer]; simp⟩
    · cases more with
      | nil => exact distinct (String.toList_inj.mp (by simpa using longer))
      | cons c more =>
          obtain ⟨rfl, _⟩ := List.cons.inj tail
          exact not_ba ⟨more, by rw [longer]; simp⟩

/-! ## What a cache touches -/

/-- The commands on one map with keys of one namespace and on one marker map. -/
def Cmd.Inside (id revalidating : Nat) (ns : String) (T : Task ι → Prop) : Cmd ι → Prop
  | .now | .sleep _ | .loadStart .. | .loadEnd .. => True
  | .spawn task => T task
  | .mapRead map key | .mapInsert map key _ | .mapExpire map key =>
      map = .hashMap id ∧ ∃ k, key = buildCacheKey ns k
  | .mapRemove map keys => map = .hashMap id ∧ ∀ key ∈ keys, ∃ k, key = buildCacheKey ns k
  | .containsKey revalidating' _ | .insertMarker revalidating' _ | .removeMarker revalidating' _ =>
      revalidating' = revalidating
  | _ => False

def Cache.Runs (cache : Cache ι) (task : Task ι) : Prop :=
  ∃ key, task.IsFor cache.swrCache cache.ns key

theorem Cache.runs_task {cache : Cache ι} (call : Call cache.V) : cache.Runs (cache.task call) := by
  cases call <;> exact ⟨_, rfl, rfl, rfl⟩

/-- A cache over one `HashMapStore`. -/
abbrev Cache.overMap (ty : ι) (ns : String) (id : Nat) (freshMs staleMs : Int)
    (revalidating : Nat) : Cache ι :=
  .new ty ns [.hashMap id none] freshMs staleMs revalidating

section Inside

variable {id revalidating : Nat} {ns : String} {T : Task ι → Prop}

theorem HashMapStore.get_inside (key : String) :
    (get id ns key : Code ι _).Only (Cmd.Inside id revalidating ns T) :=
  get_only ⟨rfl, key, rfl⟩ ⟨rfl, key, rfl⟩

theorem HashMapStore.set_inside (key : String) (entry : StoredEntry ι) :
    (set id none ns key entry : Code ι _).Only (Cmd.Inside id revalidating ns T) :=
  set_only ⟨rfl, key, rfl⟩ fun _ configured => by cases configured

theorem HashMapStore.remove_inside (keys : List String) :
    (remove id ns keys : Code ι _).Only (Cmd.Inside id revalidating ns T) := by
  refine remove_only ⟨rfl, fun key member => ?_⟩
  obtain ⟨k, _, rfl⟩ := List.mem_map.mp member
  exact ⟨k, rfl⟩

theorem overMap_uses {ty : ι} {freshMs staleMs : Int} (key : String) :
    (Cache.overMap ty ns id freshMs staleMs revalidating).swrCache.Uses ns key
      (Cmd.Inside id revalidating ns
        (Cache.overMap ty ns id freshMs staleMs revalidating).Runs) where
  get := by
    refine (HashMapStore.get_inside key).bind fun result => ?_
    rcases result with e | _ | entry <;> trivial
  set entry := by
    refine TieredStore.set_only fun tier inTiers => ?_
    obtain rfl :
      tier = HashMapStore.dyn id none := by simpa [Store.dynList, Store.dyn] using inTiers
    exact TieredStore.setTier_only fun converted _ => HashMapStore.set_inside key converted
  remove := by
    refine TieredStore.remove_only fun tier inTiers => ?_
    obtain rfl :
      tier = HashMapStore.dyn id none := by simpa [Store.dynList, Store.dyn] using inTiers
    exact HashMapStore.remove_inside [key]
  own c own := by
    cases c
    case spawn task =>
      rcases own with rfl | ⟨value, fresh, stale, rfl⟩ <;> exact ⟨key, rfl, rfl, rfl⟩
    case now | sleep | loadStart | loadEnd => trivial
    case containsKey | insertMarker | removeMarker => exact own.1
    all_goals exact own.elim

end Inside

/-! ## What a command shows -/

/-- The worlds look alike to a cache. -/
structure Alike (id revalidating : Nat) (ns : String) (w w' : World ι) : Prop where
  maps : ∀ k, (w.maps (.hashMap id)).lookup (buildCacheKey ns k) =
    (w'.maps (.hashMap id)).lookup (buildCacheKey ns k)
  markers : ∀ key, (w.markers revalidating key).isSome = (w'.markers revalidating key).isSome

section Alike

variable {id revalidating : Nat} {ns : String} {T : Task ι → Prop} {w w' : World ι} {c : Cmd ι}
  {around : Surroundings ι} {i : Nat} {t : Int}

/-- A command of the cache is answered alike in worlds that look alike. -/
theorem perform_alike (around : Surroundings ι) (t : Int) (inside : c.Inside id revalidating ns T)
    (alike : Alike id revalidating ns w w') (i i' : Nat) :
    (perform around i t w c).1 = (perform around i' t w' c).1 ∧
      Alike id revalidating ns (perform around i t w c).2 (perform around i' t w' c).2 := by
  cases c
  case now | sleep | spawn | loadStart | loadEnd => exact ⟨rfl, alike⟩
  case mapRead map key =>
    obtain ⟨rfl, k, rfl⟩ := inside
    exact ⟨congrArg (·, t) (alike.maps k), alike⟩
  case mapInsert map key entry =>
    obtain ⟨rfl, k, rfl⟩ := inside
    refine ⟨rfl, fun k' => ?_, alike.markers⟩
    simp only [perform, World.setMap_maps, if_true, HashMap.lookup_insert, alike.maps]
  case mapExpire map key =>
    obtain ⟨rfl, k, rfl⟩ := inside
    refine ⟨rfl, fun k' => ?_, alike.markers⟩
    simp only [perform, World.setMap_maps, if_true, HashMap.lookup_erase, alike.maps]
  case mapRemove map keys =>
    obtain ⟨rfl, _⟩ := inside
    refine ⟨rfl, fun k' => ?_, alike.markers⟩
    simp only [perform, World.setMap_maps, if_true, HashMap.lookup_eraseAll, alike.maps]
  case containsKey revalidating' key =>
    obtain rfl := inside
    exact ⟨alike.markers key, alike⟩
  case insertMarker revalidating' key =>
    obtain rfl := inside
    refine ⟨rfl, alike.maps, fun key' => ?_⟩
    simp only [perform, World.setMarker_markers]
    split
    · rfl
    · exact alike.markers key'
  case removeMarker revalidating' key =>
    obtain rfl := inside
    refine ⟨rfl, alike.maps, fun key' => ?_⟩
    simp only [perform, World.setMarker_markers]
    split
    · rfl
    · exact alike.markers key'
  all_goals exact inside.elim

/-- A command of the other cache is not seen. -/
theorem perform_apart {ns' : String} {revalidating' : Nat}
    (inside : c.Inside id revalidating' ns' T)
    (keys : ∀ k k', buildCacheKey ns' k ≠ buildCacheKey ns k')
    (markers : revalidating' ≠ revalidating) (alike : Alike id revalidating ns w w') :
    Alike id revalidating ns (perform around i t w c).2 w' := by
  cases c
  case now | sleep | spawn | loadStart | loadEnd | mapRead | containsKey => exact alike
  case mapInsert map key entry =>
    obtain ⟨rfl, k, rfl⟩ := inside
    refine ⟨fun k' => ?_, alike.markers⟩
    simp only [perform, World.setMap_maps, if_true, HashMap.lookup_insert,
      if_neg (keys k k').symm, alike.maps]
  case mapExpire map key =>
    obtain ⟨rfl, k, rfl⟩ := inside
    refine ⟨fun k' => ?_, alike.markers⟩
    simp only [perform, World.setMap_maps, if_true, HashMap.lookup_erase,
      if_neg (keys k k').symm, alike.maps]
  case mapRemove map gone =>
    obtain ⟨rfl, inNs⟩ := inside
    refine ⟨fun k' => ?_, alike.markers⟩
    have kept : buildCacheKey ns k' ∉ gone := by
      intro member
      obtain ⟨k, same⟩ := inNs _ member
      exact keys k k' same.symm
    simp only [perform, World.setMap_maps, if_true, HashMap.lookup_eraseAll,
      if_neg kept, alike.maps]
  case insertMarker revalidating'' key =>
    obtain rfl := inside
    refine ⟨alike.maps, fun key' => ?_⟩
    have other : ¬ (revalidating = revalidating'' ∧ key' = key) := fun here => markers here.1.symm
    simp only [perform, World.setMarker_markers, if_neg other, alike.markers]
  case removeMarker revalidating'' key =>
    obtain rfl := inside
    refine ⟨alike.maps, fun key' => ?_⟩
    have other : ¬ (revalidating = revalidating'' ∧ key' = key) := fun here => markers here.1.symm
    simp only [perform, World.setMarker_markers, if_neg other, alike.markers]
  all_goals exact inside.elim

end Alike

/-! ## Sessions -/

section Sessions

variable [DecidableEq ι] {id : Nat} {ty : Bool → ι} {ns : Bool → String}
  {freshMs staleMs : Bool → Int} {revalidating : Bool → Nat}

/-- A turn of one of two caches. -/
abbrev CacheTurn (ι : Type) [SerdeJson ι] [DecidableEq ι] :=
  Turn (system (ι := ι) .atomicMap) (Int × ((i : ι) → Option (Val i))) Bool

/-- The turn calls a method of the agent's own cache, or resumes one of its tasks. -/
def Addressed (caches : Bool → Cache ι) (turn : CacheTurn ι) : Prop :=
  ∀ task : Task ι, turn.act = .call task → ∃ call, task = (caches turn.agent).task call

def results (turns : List (CacheTurn ι)) (w : World ι) : List (Option (Out ι)) :=
  ((driver.session turns (.idle w)).1.filter (fun answer => answer.1)).map
    (fun answer => answer.2.map Prod.fst)

/-- Whatever the two caches do, the results of the second one are what they are when the
    turns of the first are left out. -/
def Isolated (caches : Bool → Cache ι) : Prop :=
  ∀ (w : World ι) (turns : List (CacheTurn ι)), (∀ turn ∈ turns, Addressed caches turn) →
    results turns w = results (turns.filter (fun turn => turn.agent)) w

/-- Two caches over one map. -/
def neighbours (id : Nat) (ty : Bool → ι) (ns : Bool → String) (freshMs staleMs : Bool → Int)
    (revalidating : Bool → Nat) (b : Bool) : Cache ι :=
  .overMap (ty b) (ns b) id (freshMs b) (staleMs b) (revalidating b)

theorem runs_only {b : Bool} {task : Task ι}
    (runs : (neighbours id ty ns freshMs staleMs revalidating b).Runs task) :
    task.body.Only (Cmd.Inside id (revalidating b) (ns b)
      (neighbours id ty ns freshMs staleMs revalidating b).Runs) := by
  obtain ⟨key, isFor⟩ := runs
  exact (overMap_uses key).body_only isFor

/-- With the turns of the first cache and without them. -/
structure SameFor (id : Nat) (ns : String) (revalidating : Nat) (caches : Bool → Cache ι)
    (s s' : Session (system (ι := ι) .atomicMap) Bool) : Prop where
  world : Alike id revalidating ns s.world s'.world
  pending : (s.pending true).map Prod.fst = (s'.pending true).map Prod.fst
  own : ∀ b, ∀ entry ∈ s.pending b, (caches b).Runs entry.1

section Turns

variable {caches : Bool → Cache ι} {s s' rest : Session (system (ι := ι) .atomicMap) Bool}
  {act : Act (system (ι := ι) .atomicMap)} {task : Task ι} {i : Nat} {b : Bool}

theorem picked_own (own : ∀ b, ∀ entry ∈ s.pending b, (caches b).Runs entry.1)
    (addressed : ∀ task : Task ι, act = .call task → ∃ call, task = (caches b).task call)
    (picked : s.pick b act = some ((task, i), rest)) : (caches b).Runs task ∧ rest.world = s.world ∧
      (∀ b', b' ≠ b → rest.pending b' = s.pending b') ∧
      ∀ b, ∀ entry ∈ rest.pending b, (caches b).Runs entry.1 := by
  cases act with
  | call task' =>
      simp only [Session.pick, Option.some.injEq, Prod.mk.injEq] at picked
      obtain ⟨⟨rfl, rfl⟩, rfl⟩ := picked
      obtain ⟨call, rfl⟩ := addressed task' rfl
      exact ⟨Cache.runs_task call, rfl, fun _ _ => rfl, own⟩
  | resume n =>
      simp only [Session.pick] at picked
      split at picked
      · next entry at_n =>
          simp only [Option.some.injEq, Prod.mk.injEq] at picked
          obtain ⟨rfl, rfl⟩ := picked
          refine ⟨own b _ (List.mem_of_getElem? at_n), rfl,
            fun b' other => Function.update_of_ne other _ _, fun b' entry member => ?_⟩
          by_cases same : b' = b
          · subst same
            simp only [Function.update_self] at member
            exact own b' entry (List.mem_of_mem_eraseIdx member)
          · simp only [Function.update_of_ne same] at member
            exact own b' entry member
      · cases picked

theorem alone_own {b : Bool} {inputs : Nat → Int × ((i : ι) → Option (Val i))}
    {a : Solo (system (ι := ι) .atomicMap)} {c : Cmd ι} {T : Task ι → Prop}
    (inside : c.Inside id (revalidating b) (ns b) T)
    (own : ∀ task : Task ι, task ∈ a.spawned → T task) :
    ∀ task : Task ι, task ∈ (driver.alone i inputs c a).2.spawned → T task := by
  intro task member
  rcases List.mem_append.mp member with before | new
  · exact own task before
  · obtain rfl := Cmd.mem_spawned.mp new
    exact inside

theorem leave_own {a : Solo (system (ι := ι) .atomicMap)}
    (own : ∀ b, ∀ entry ∈ s.pending b, (caches b).Runs entry.1)
    (spawned : ∀ task : Task ι, task ∈ a.spawned → (caches b).Runs task) :
    ∀ b', ∀ entry ∈ (s.leave b a).pending b', (caches b').Runs entry.1 := by
  intro b' entry member
  simp only [Session.leave] at member
  by_cases same : b' = b
  · subst same
    simp only [Function.update_self] at member
    rcases List.mem_append.mp member with before | new
    · exact own b' entry before
    · exact spawned _ (List.mem_of_getElem? (List.mem_zipIdx_iff_le_and_getElem?_sub.mp new).2)
  · simp only [Function.update_of_ne same] at member
    exact own b' entry member

theorem turn_other {turn : CacheTurn ι} (first : turn.agent = false)
    (keys : ∀ k k', buildCacheKey (ns false) k ≠ buildCacheKey (ns true) k')
    (markers : revalidating false ≠ revalidating true)
    (same : SameFor id (ns true) (revalidating true)
      (neighbours id ty ns freshMs staleMs revalidating) s s')
    (addressed : Addressed (neighbours id ty ns freshMs staleMs revalidating) turn) :
    SameFor id (ns true) (revalidating true) (neighbours id ty ns freshMs staleMs revalidating)
      (driver.turn turn s).2 s' := by
  unfold Driver.turn
  cases picked : s.pick turn.agent turn.act with
  | none => exact same
  | some next =>
      obtain ⟨⟨task, i⟩, rest⟩ := next
      obtain ⟨runs, world, others, own⟩ := picked_own same.own addressed picked
      have done := Prog.run_keeps (driver.alone i turn.inputs)
        (I := fun a : Solo (system (ι := ι) .atomicMap) =>
          Alike id (revalidating true) (ns true) a.world s'.world ∧
            ∀ task : Task ι, task ∈ a.spawned →
              (neighbours id ty ns freshMs staleMs revalidating turn.agent).Runs task)
        (fun c a inside held => ⟨?_, alone_own inside held.2⟩) (runs_only runs)
        (s := ⟨rest.world, [], []⟩) ⟨?_, fun _ none => by cases none⟩ turn.coins
      · refine ⟨done.1, ?_, leave_own own done.2⟩
        have other : true ≠ turn.agent := by simp [first]
        simp only [Session.leave, Function.update_of_ne other, others true other]
        exact same.pending
      · rw [first] at inside
        exact perform_apart inside keys markers held.1
      · rw [world]
        exact same.world

theorem pick_same (pending : (s.pending b).map Prod.fst = (s'.pending b).map Prod.fst) :
    (s.pick b act = none ∧ s'.pick b act = none) ∨ ∃ task i i' rest rest',
      s.pick b act = some ((task, i), rest) ∧ s'.pick b act = some ((task, i'), rest') ∧
      rest'.world = s'.world ∧ (rest.pending b).map Prod.fst = (rest'.pending b).map Prod.fst := by
  cases act with
  | call task => exact .inr ⟨_, _, _, _, _, rfl, rfl, rfl, pending⟩
  | resume n =>
      have both : ((s.pending b)[n]?).map Prod.fst = ((s'.pending b)[n]?).map Prod.fst := by
        rw [← List.getElem?_map, ← List.getElem?_map, pending]
      simp only [Session.pick]
      cases at_n : (s.pending b)[n]? with
      | none =>
          cases at_n' : (s'.pending b)[n]? with
          | none => exact .inl ⟨rfl, rfl⟩
          | some entry' => simp [at_n, at_n'] at both
      | some entry =>
          cases at_n' : (s'.pending b)[n]? with
          | none => simp [at_n, at_n'] at both
          | some entry' =>
              obtain ⟨task, i⟩ := entry
              obtain ⟨task', i'⟩ := entry'
              obtain rfl : task = task' := by simpa [at_n, at_n'] using both
              refine .inr ⟨_, _, _, _, _, rfl, rfl, rfl, ?_⟩
              simp only [Function.update_self, ← List.eraseIdx_map, pending]

/-- What the second cache is answered does not depend on the turns of the first. -/
theorem turn_own {turn : CacheTurn ι} (second : turn.agent = true)
    (same : SameFor id (ns true) (revalidating true)
      (neighbours id ty ns freshMs staleMs revalidating) s s')
    (addressed : Addressed (neighbours id ty ns freshMs staleMs revalidating) turn) :
    (driver.turn turn s).1 = (driver.turn turn s').1 ∧
      SameFor id (ns true) (revalidating true) (neighbours id ty ns freshMs staleMs revalidating)
        (driver.turn turn s).2 (driver.turn turn s').2 := by
  obtain ⟨agent, act, inputs, coins⟩ := turn
  obtain rfl : agent = true := second
  unfold Driver.turn
  rcases pick_same same.pending with ⟨none, none'⟩ |
    ⟨task, i, i', rest, rest', picked, picked', world', pending⟩
  · rw [none, none']
    exact ⟨rfl, same⟩
  · obtain ⟨runs, world, _, own⟩ := picked_own same.own addressed picked
    rw [picked, picked']
    let Both (a a' : Solo (system (ι := ι) .atomicMap)) : Prop :=
      Alike id (revalidating true) (ns true) a.world a'.world ∧ a.spawned = a'.spawned ∧
        a.issued = a'.issued ∧ ∀ task : Task ι, task ∈ a.spawned →
        (neighbours id ty ns freshMs staleMs revalidating true).Runs task
    have start : Both ⟨rest.world, [], []⟩ ⟨rest'.world, [], []⟩ :=
      ⟨by rw [world, world']; exact same.world, rfl, rfl, fun _ none => by cases none⟩
    have answered (c : Cmd ι) (a a' : Solo (system (ι := ι) .atomicMap))
        (inside : c.Inside id (revalidating true) (ns true)
          (neighbours id ty ns freshMs staleMs revalidating true).Runs)
        (both : Both a a') : (driver.alone i inputs c a).1 = (driver.alone i' inputs c a').1 ∧
          Both (driver.alone i inputs c a).2 (driver.alone i' inputs c a').2 := by
      obtain ⟨alike, spawned, issued, runs'⟩ := both
      obtain ⟨same, later⟩ :=
        perform_alike (.calm (inputs a.issued.length).1 (inputs a.issued.length).2)
        (inputs a.issued.length).1 inside alike i i'
      refine ⟨?_, ?_, ?_, ?_, alone_own inside runs'⟩
      · simp only [Driver.alone, driver, ← issued]
        exact same
      · simp only [Driver.alone, driver, ← issued]
        exact later
      · simp only [Driver.alone, spawned]
      · simp only [Driver.alone, issued]
    obtain ⟨out, ⟨alike, spawned, issued, runs'⟩, _⟩ :=
      Prog.run_related _ _ answered (runs_only runs) start coins
    refine ⟨congrArg some (Prod.ext out issued), alike, ?_, leave_own own runs'⟩
    simp only [Session.leave, Function.update_self, List.map_append, List.zipIdx_map_fst, pending]
    exact congrArg _ spawned

end Turns

/-- If the composite keys are apart, the second cache returns and asks for the same with
    the turns of the first and without them. -/
theorem session_apart
    (keys : ∀ k k', buildCacheKey (ns false) k ≠ buildCacheKey (ns true) k')
    (markers : revalidating false ≠ revalidating true) {turns : List (CacheTurn ι)}
    (addressed : ∀ turn ∈ turns, Addressed (neighbours id ty ns freshMs staleMs revalidating) turn)
    {s s' : Session (system (ι := ι) .atomicMap) Bool}
    (same : SameFor id (ns true) (revalidating true)
      (neighbours id ty ns freshMs staleMs revalidating) s s') :
    (driver.session turns s).1.filter (fun answer => answer.1) =
      (driver.session (turns.filter (fun turn => turn.agent)) s').1.filter
      (fun answer => answer.1) := by
  induction turns generalizing s s' with
  | nil => rfl
  | cons turn turns ih =>
      obtain ⟨here, others⟩ := List.forall_mem_cons.mp addressed
      cases agent : turn.agent with
      | false =>
          have later := ih others (turn_other agent keys markers same here)
          simpa [Driver.session, agent] using later
      | true =>
          obtain ⟨answer, later⟩ := turn_own agent same here
          have rest := ih others later
          simpa [Driver.session, agent, answer] using rest

theorem isolated_of_apart
    (keys : ∀ k k', buildCacheKey (ns false) k ≠ buildCacheKey (ns true) k')
    (markers : revalidating false ≠ revalidating true) :
    Isolated (neighbours id ty ns freshMs staleMs revalidating) := by
  intro w turns addressed
  unfold results
  have start :
      SameFor id (ns true) (revalidating true) (neighbours id ty ns freshMs staleMs revalidating)
      (.idle w) (.idle w) :=
    ⟨⟨fun _ => rfl, fun _ => rfl⟩, rfl, fun _ _ none => by cases none⟩
  rw [session_apart keys markers addressed start]

/-! ## A shared composite key -/

/-- One cache sets a key, and the other one gets one. -/
def writeThenRead (caches : Bool → Cache ι) (key key' : String) (value : (caches false).V) :
    List (CacheTurn ι) :=
  [⟨false, .call ((caches false).task (.setWithOptions key value 1 1)), fun _ =>
    (0, fun _ => none), []⟩, ⟨true, .call ((caches true).task (.get key')), fun _ =>
    (0, fun _ => none), []⟩]

private theorem writeThenRead_addressed {caches : Bool → Cache ι} (key key' : String)
    (value : (caches false).V) :
    ∀ turn ∈ writeThenRead caches key key' value, Addressed caches turn := by
  intro turn member task called
  simp only [writeThenRead, List.mem_cons, List.not_mem_nil, or_false] at member
  rcases member with rfl | rfl
  · cases called
    exact ⟨_, rfl⟩
  · cases called
    exact ⟨_, rfl⟩

section Alone

variable {ty : ι} {ns : String} {id revalidating i : Nat} {freshMs staleMs t : Int} {key : String}
  {w : World ι} {coins : List Bool} {origin : (i : ι) → Option (Val i)}

theorem overMap_set {value : Val ty} {freshMs' staleMs' : Int} :
    (driver.runTask i (fun _ => (t, origin)) coins
      (.set (Cache.overMap ty ns id freshMs staleMs revalidating).swrCache ns key value
        (some ⟨freshMs', staleMs'⟩))
      w).2.world = w.setMap (.hashMap id) ((w.maps (.hashMap id)).insert (buildCacheKey ns key)
        (.fromTypedWithSerializer ty value (addMs t freshMs') (addMs t staleMs'))) := rfl

theorem overMap_get : (driver.runTask i (fun _ => (t, origin)) coins
    (.get (Cache.overMap ty ns id freshMs staleMs revalidating).swrCache ns key) w).1 =
      .value ty (.ok none) ↔ ∀ stored ∈ (w.maps (.hashMap id)).lookup (buildCacheKey ns key),
      stored.staleUntil ≤ t := by
  simp only [Driver.runTask, Task.body, SwrCache.get, SwrCache.getInternal, SwrCache.dyn,
    Cache.overMap, Cache.new, SwrCache.new, Store.dyn, TieredStore.dyn, Store.dynList,
    TieredStore.get, TieredStore.getFrom, HashMapStore.dyn, HashMapStore.get, Ask.mapRead_bind,
    Prog.op_bind, Prog.run_op]
  cases found : (w.maps (.hashMap id)).lookup (buildCacheKey ns key) with
  | none => simp [driver_alone, perform, found]
  | some stored =>
      cases expired : stored.isExpired t with
      | true =>
          have old := StoredEntry.isExpired_iff.mp expired
          simp [driver_alone, perform, found, expired, old]
      | false =>
          have live : ¬ stored.staleUntil ≤ t := by simpa [StoredEntry.isExpired] using expired
          cases typed : stored.intoTyped ty with
          | error e => simp [driver_alone, perform, found, expired, live, typed]
          | ok entry =>
              by_cases old : entry.staleUntil ≤ t
              · simp [driver_alone, perform, found, expired, live, typed, old]
              · by_cases stale : entry.freshUntil ≤ t
                · simp [driver_alone, perform, found, expired, live, typed, old, stale]
                · simp [driver_alone, perform, found, expired, live, typed, old, stale]

end Alone

/-- Where the composite keys meet, the second cache finds what the first one has set. -/
theorem shared_key (value : Val (ty false)) {key key' : String}
    (same : buildCacheKey (ns false) key = buildCacheKey (ns true) key') :
    ¬ Isolated (neighbours id ty ns freshMs staleMs revalidating) := by
  intro isolated
  let reads (i : Nat) (w : World ι) : Out ι := (driver.runTask i (fun _ => (0, fun _ => none)) []
    ((neighbours id ty ns freshMs staleMs revalidating true).task (.get key')) w).1
  let written := driver.runTask 0 (fun _ => (0, fun _ => none)) []
    ((neighbours id ty ns freshMs staleMs revalidating false).task
      (.setWithOptions key value 1 1)) .empty
  have answers : [some (reads (1 + written.2.spawned.length) written.2.world)] =
      [some (reads 0 .empty)] := by
    simpa [results, writeThenRead, Driver.session, Driver.turn, Session.pick,
      Session.leave, Session.idle] using isolated .empty _ (writeThenRead_addressed key key' value)
  have nothing : reads 0 .empty = .value (ty true) (.ok none) :=
    overMap_get.mpr (by simp [World.empty])
  have found : reads (1 + written.2.spawned.length) written.2.world ≠
      .value (ty true) (.ok none) := by
    intro none
    have world : written.2.world =
        World.setMap .empty (.hashMap id) (AList.insert (buildCacheKey (ns false) key)
        (.fromTypedWithSerializer (ty false) value (addMs 0 1) (addMs 0 1)) ∅) := overMap_set
    have live :=
      overMap_get.mp none (.fromTypedWithSerializer (ty false) value (addMs 0 1) (addMs 0 1))
      (by rw [world, World.setMap_maps, if_pos rfl, HashMap.lookup_insert, if_pos same.symm]; rfl)
    have stamp : addMs 0 1 = 1 := by decide
    simp [StoredEntry.fromTypedWithSerializer, StoredEntry.staleUntil, stamp] at live
  exact found (by simpa [nothing] using answers)

/-- Two caches over one map are isolated if and only if neither namespace is the other
    one followed by a separator and more. -/
theorem isolated_iff (id : Nat) (ty : Bool → ι) (freshMs staleMs : Bool → Int)
    (value : Val (ty false)) (distinct : ns false ≠ ns true)
    (markers : revalidating false ≠ revalidating true) :
    Isolated (neighbours id ty ns freshMs staleMs revalidating) ↔
      ¬ Extends (ns false) (ns true) ∧ ¬ Extends (ns true) (ns false) := by
  rw [← keys_apart_iff distinct]
  constructor
  · intro isolated key key' same
    exact shared_key value same isolated
  · intro keys
    exact isolated_of_apart keys markers

theorem isolated_users_orders :
    Isolated (neighbours 0 (fun _ => ()) (fun b => if b then "orders" else "users")
    (fun _ => 1000) (fun _ => 5000) (fun b => if b then 1 else 0)) :=
  (isolated_iff 0 (fun _ => ()) (fun _ => 1000) (fun _ => 5000) true (by decide) (by decide)).mpr
    (by decide)

/-- The namespaces `a` and `a:b` are different, yet `c` in the one is `b:c` in the other. -/
theorem leaking_namespaces :
    let caches :=
    neighbours 0 (fun _ => ()) (fun b => if b then "a:b" else "a") (fun _ => 1000) (fun _ => 5000)
      (fun b => if b then 1 else 0)
    let turns := writeThenRead caches "b:c" "c" true
    (caches false).ns ≠ (caches true).ns ∧ (∀ turn ∈ turns, Addressed caches turn) ∧
      results turns .empty = [some (.value () (.ok (some true)))] ∧
      results (turns.filter (fun turn => turn.agent)) .empty = [some (.value () (.ok none))] :=
  ⟨by decide, writeThenRead_addressed _ _ _, by rfl, by rfl⟩

end Sessions

end Swr
