import Swr.Json
import Swr.StoreCode

/-! # Markers

Who holds which marker of a `revalidating` map. The auxiliary state of a thread is
the marker it has put and not yet taken away, and the outline below says that every
task takes its own marker away again before it returns and calls the origin only in
between.
-/

namespace Swr

open Async

variable {ι : Type} [SerdeJson ι]

/-- What a thread that holds the marker `held` may issue. -/
def markerOk (held : Option (Nat × String)) : Cmd ι → Prop
  | .insertMarker .. | .sleep _ => held = none
  | .removeMarker revalidating key => held = some (revalidating, key)
  | .loadStart cache ns key | .loadEnd cache ns key =>
      held = some (cache.revalidating, buildCacheKey ns key)
  | _ => True

/-- The marker it holds afterwards. -/
def markerNext (held : Option (Nat × String)) : Cmd ι → Option (Nat × String)
  | .insertMarker revalidating key => some (revalidating, key)
  | .removeMarker .. => none
  | _ => held

abbrev markerOutline (ι : Type) [SerdeJson ι] : Outline (sig ι) where
  Ghost := Option (Nat × String)
  ok := markerOk
  may _ _ _ := True
  next held c _ := markerNext held c

/-- The thread returns without a marker. -/
abbrev Unmarked (α : Type) : (markerOutline ι).Ghost → α → Prop := fun held _ => held = none

theorem markerOutline_ofStore {held : (markerOutline ι).Ghost} (c : Cmd ι) (h : c.OfStore) :
    (markerOutline ι).ok held c ∧ ∀ r, (markerOutline ι).next held c r = held := by
  cases c <;> first | exact h.elim | exact ⟨trivial, fun _ => rfl⟩

/-- A call on a store in between changes nothing. -/
theorem keeps_call {α β : Type} {post : (markerOutline ι).Ghost → β → Prop} {p : Code ι α}
    {next : α → Code ι β} {held : (markerOutline ι).Ghost} (uses : p.Only Cmd.OfStore)
    (rest : ∀ value, Prog.Keeps (markerOutline ι) post (next value) held) :
    Prog.Keeps (markerOutline ι) post (p >>= next) held :=
  Prog.Keeps.bind (uses.keeps markerOutline_ofStore rest)

namespace SwrCache

variable (self : SwrCache ι) (ns key : String)

theorem dyn_plain : self.dyn.Plain := Store.plain self.store

theorem revalidateTask_keeps :
    Prog.Keeps (markerOutline ι) (Unmarked Unit) (self.revalidateTask ns key) none := by
  simp only [revalidateTask, unmark, Ask.containsKey_bind, Prog.keeps_op]
  refine ⟨trivial, fun running _ => ?_⟩
  cases running with
  | true => simp [markerNext, Unmarked]
  | false =>
      simp only [Bool.false_eq_true, if_false, Ask.insertMarker_bind, Ask.loadStart_bind,
        Ask.loadEnd_bind, Prog.keeps_op]
      refine ⟨rfl, fun _ _ => ⟨rfl, fun _ _ => ⟨rfl, fun value _ => ?_⟩⟩⟩
      cases value with
      | none => simp [Ask.removeMarker, issue, markerOk, markerNext, Unmarked]
      | some v =>
          simp only [Ask.now_bind, Prog.keeps_op]
          refine ⟨trivial, fun now _ => ?_⟩
          split
          · simp [Ask.removeMarker, issue, markerOk, markerNext, Unmarked]
          · refine keeps_call (self.dyn_plain.set _ _ _) fun _ => ?_
            simp [Ask.removeMarker, issue, markerOk, markerNext, Unmarked]

theorem markedLoad_keeps :
    Prog.Keeps (markerOutline ι) (Unmarked _) (self.markedLoad ns key) none := by
  simp [markedLoad, unmark, markerOk, markerNext, Unmarked]

theorem cacheValue_keeps (value : Val self.ty) {α : Type} (result : α) :
    Prog.Keeps (markerOutline ι) (Unmarked α)
      (do self.cacheValue ns key value; return result) none := by
  simp [cacheValue, markerOk, markerNext, Unmarked]

variable [DecidableEq ι]

theorem getInternal_ofStore : (self.getInternal ns key).Only Cmd.OfStore :=
  getInternal_only (self.dyn_plain.get ns key) trivial

theorem deduplicatedLoadFromOrigin_keeps :
    Prog.Keeps (markerOutline ι) (Unmarked _) (self.deduplicatedLoadFromOrigin ns key) none := by
  simp only [deduplicatedLoadFromOrigin, Ask.containsKey_bind, Prog.keeps_op]
  refine ⟨trivial, fun loading _ => ?_⟩
  cases loading with
  | false => exact self.markedLoad_keeps ns key
  | true =>
      simp only [if_true, Ask.sleep_bind, Prog.keeps_op]
      refine ⟨rfl, fun _ _ => keeps_call (self.dyn_plain.get ns key) fun result => ?_⟩
      rcases result with e | _ | stored
      · exact self.markedLoad_keeps ns key
      · exact self.markedLoad_keeps ns key
      · dsimp only
        split
        · simp [markerNext, Unmarked]
        · exact self.markedLoad_keeps ns key

theorem loadOrFail_keeps :
    Prog.Keeps (markerOutline ι) (Unmarked _) (self.loadOrFail ns key) none := by
  refine Prog.Keeps.bind ((self.deduplicatedLoadFromOrigin_keeps ns key).mono ?_)
  rintro held (e | _ | value) rfl
  · exact Prog.keeps_ret.mpr rfl
  · exact Prog.keeps_ret.mpr rfl
  · exact self.cacheValue_keeps ns key value _

theorem swr_keeps : Prog.Keeps (markerOutline ι) (Unmarked _) (self.swr ns key) none := by
  refine keeps_call (self.getInternal_ofStore ns key) fun result => ?_
  split
  · simp [spawnRevalidation, markerOk, markerNext, Unmarked]
  · refine Prog.Keeps.bind ((self.deduplicatedLoadFromOrigin_keeps ns key).mono ?_)
    rintro held (e | _ | fresh) rfl
    · exact Prog.keeps_ret.mpr rfl
    · exact Prog.keeps_ret.mpr rfl
    · exact self.cacheValue_keeps ns key fresh _
  · exact Prog.keeps_ret.mpr rfl
  · exact self.loadOrFail_keeps ns key
  · exact self.loadOrFail_keeps ns key
  · exact self.loadOrFail_keeps ns key

end SwrCache

/-- The task goes to an origin and looks after the marker for the composite key. -/
def Task.LoadsFor (revalidating : Nat) (cacheKey : String) : Task ι → Prop
  | .swr cache ns key | .revalidate cache ns key =>
      cache.revalidating = revalidating ∧ buildCacheKey ns key = cacheKey
  | _ => False

/-- The other tasks only use stores. -/
theorem Task.body_ofStore [DecidableEq ι] {task : Task ι}
    (other : ∀ revalidating cacheKey, ¬ task.LoadsFor revalidating cacheKey) :
    task.body.Only Cmd.OfStore := by
  cases task with
  | get cache ns key =>
      refine ((cache.getInternal_ofStore ns key).bind fun result => ?_).bind fun _ => trivial
      cases result <;> trivial
  | set cache ns key value opts =>
      refine ((only_issue (by trivial)).bind fun now => ?_).bind fun _ => trivial
      dsimp only
      split
      · trivial
      · exact cache.dyn_plain.set _ _ _
  | remove cache ns key => exact (cache.dyn_plain.remove _ _).bind fun _ => trivial
  | swr | revalidate => exact absurd ⟨rfl, rfl⟩ (other _ _)
  | storeGet store ns key => exact (store.plain.get _ _).bind fun _ => trivial
  | storeSet store ns key entry => exact (store.plain.set _ _ _).bind fun _ => trivial
  | storeRemove store ns keys => exact (store.plain.remove _ _).bind fun _ => trivial
  | cacheValue cache ns key value fresh stale =>
      refine Prog.Only.bind ?_ fun _ => trivial
      simp only [SwrCache.cacheValueTask]
      split
      · trivial
      · exact (cache.dyn_plain.set _ _ _).bind fun _ => trivial
  | backfill lower ns key entry =>
      have fills : (TieredStore.backfill (Store.dynList ι lower) ns key entry).Only Cmd.OfStore :=
        TieredStore.backfill_only fun tier inTiers converted _ =>
          (Store.dynList_plain lower tier inTiers).set ns key converted
      exact fills.bind fun _ => trivial
  | redisDel server cacheKey =>
      exact (RedisStore.backgroundDel_only trivial).bind fun _ => trivial

/-- The outline covers every task there is. -/
theorem markerOutline_body [DecidableEq ι] (task : Task ι) :
    Prog.Keeps (markerOutline ι) (Unmarked _) task.body none := by
  cases task with
  | swr cache ns key =>
      refine Prog.Keeps.bind ((cache.swr_keeps ns key).mono ?_)
      rintro held _ rfl
      simp [Unmarked]
  | revalidate cache ns key =>
      refine Prog.Keeps.bind ((cache.revalidateTask_keeps ns key).mono ?_)
      rintro held _ rfl
      simp [Unmarked]
  | get | set | remove | storeGet | storeSet | storeRemove | cacheValue | backfill | redisDel =>
      exact (Task.body_ofStore fun _ _ => id).keeps markerOutline_ofStore fun _ => rfl

/-! ## Runs -/

section Runs

/-- A command puts a marker, takes one away or leaves the marker maps and the
    auxiliary state alone. -/
inductive MarkerEffect (i : Nat) (w : World ι) : Cmd ι → World ι → Prop where
  | insert (revalidating : Nat) (key : String) :
      MarkerEffect i w (.insertMarker revalidating key) (w.setMarker revalidating key (some i))
  | remove (revalidating : Nat) (key : String) :
      MarkerEffect i w (.removeMarker revalidating key) (w.setMarker revalidating key none)
  | other : w'.markers = w.markers → (∀ held, markerNext held c = held) → MarkerEffect i w c w'

theorem exec_marker {X : ExtSemantics ι} {i : Nat} {t : Int} {w w' : World ι} {c : Cmd ι}
    {r : c.Ans} (h : exec X i t w c r w') : MarkerEffect i w c w' := by
  cases c
  case insertMarker revalidating key => obtain rfl := h; exact .insert revalidating key
  case removeMarker revalidating key => obtain rfl := h; exact .remove revalidating key
  case mapEvict => obtain ⟨_, _, rfl⟩ := h; exact .other rfl fun _ => rfl
  case redisSet | redisSetEx | redisDel =>
    rcases h with ⟨_, rfl⟩ | ⟨_, _, rfl | rfl⟩ <;> exact .other rfl fun _ => rfl
  case extGet | extSet | extRemove => obtain ⟨_, _, rfl⟩ := h; exact .other rfl fun _ => rfl
  all_goals (obtain ⟨_, rfl⟩ := h; exact .other rfl fun _ => rfl)

variable [DecidableEq ι] {X : ExtSemantics ι} {w : World ι} {past : History (system X)}
  {s s' : Config (system X)} {l : Label (system X)}

/-- The marker a thread holds after a history. -/
def held (i : Nat) (past : History (system X)) : Option (Nat × String) :=
  ghost (markerOutline ι) none i past

/-- The thread is between the start and the end of a load for the composite key. -/
def Loading (th : Thread (system X)) (revalidating : Nat) (cacheKey : String) : Prop :=
  ∃ cache ns key, cache.revalidating = revalidating ∧ buildCacheKey ns key = cacheKey ∧
    th.At (.loadEnd cache ns key)

/-- No `revalidating` map has an entry yet. -/
def World.Unmarked (w : World ι) : Prop := ∀ revalidating key, w.markers revalidating key = none

theorem held_exec {i j : Nat} {t : Int} {c : Cmd ι} {r : c.Ans} {past : History (system X)}
    {s : Config (system X)} : held i ((s, .exec j t c r) :: past) =
      if j = i then markerNext (held j past) c else held i past := by
  simp only [held, ghost]
  split
  · next same => subst same; rfl
  · rfl

/-- Every marker in a map was put by a thread that has not taken it away since. -/
def Owned (past : History (system X)) (s : Config (system X)) : Prop :=
  ∀ i revalidating key, s.world.markers revalidating key = some i →
    held i past = some (revalidating, key)

theorem Owned.exec {i : Nat} {t : Int} {c : Cmd ι} {r : c.Ans} {w' : World ι}
    {threads : List (Thread (system X))} (owned : Owned past s)
    (allowed : markerOk (held i past) c) (done : exec X i t s.world c r w') :
    Owned ((s, .exec i t c r) :: past) ⟨w', threads⟩ := by
  intro j revalidating key marked
  rw [held_exec]
  cases exec_marker done with
  | insert revalidating' key' =>
      simp only [World.setMarker_markers] at marked
      split at marked
      · next same =>
          obtain ⟨rfl, rfl⟩ := same
          obtain rfl := Option.some.inj marked
          simp [markerNext]
      · -- thread `i` held nothing before, so the marker of `j` is not its own
        have holds := owned j revalidating key marked
        have other : i ≠ j := by
          rintro rfl
          rw [show held i past = none from allowed] at holds
          cases holds
        rw [if_neg other]
        exact holds
  | remove revalidating' key' =>
      simp only [World.setMarker_markers] at marked
      split at marked
      · cases marked
      · next different =>
          have holds := owned j revalidating key marked
          have other : i ≠ j := by
            rintro rfl
            rw [show held i past = some (revalidating', key') from allowed] at holds
            obtain ⟨rfl, rfl⟩ := Prod.mk.inj (Option.some.inj holds)
            exact different ⟨rfl, rfl⟩
          rw [if_neg other]
          exact holds
  | other same unmoved =>
      have holds := owned j revalidating key (by rw [← same]; exact marked)
      split
      · next here => subst here; rw [unmoved]; exact holds
      · exact holds

/-- The runs of the machine keep the markers owned and every thread on the outline. -/
theorem run_marked (unmarked : w.Unmarked) (run : Run (system X) (.idle w) past s) :
    Outlined (markerOutline ι) (fun _ : Task ι => none) (Unmarked _) past s ∧ Owned past s := by
  refine Run.outline (T := fun _ => True) Owned (fun task _ => markerOutline_body task)
    (fun _ _ _ _ _ => trivial) (fun _ _ _ => True) ?_ ?_ run (fun _ _ _ _ => trivial)
    (fun _ _ _ => trivial)
  · intro i revalidating key marked
    simp [Config.idle, unmarked revalidating key] at marked
  · intro past s l s' before outlined owned _ taken
    refine ⟨fun _ _ _ _ _ _ _ => trivial, ?_⟩
    cases taken with
    | start | turn | drop => exact owned
    | exec at_i next done =>
        obtain ⟨_, _, _, allowed⟩ := outlined.ok (.exec at_i next done)
        exact owned.exec allowed done

/-- A step of another thread does not put a marker of thread `i`. -/
theorem marker_before {i revalidating : Nat} {key : String} (taken : Step (system X) s l s')
    (foreign : l.Foreign i) (marked : s'.world.markers revalidating key = some i) :
    s.world.markers revalidating key = some i := by
  cases taken with
  | start | turn | drop => exact marked
  | @exec _ j _ c _ t r _ at_j next done =>
      cases exec_marker done with
      | insert =>
          simp only [World.setMarker_markers] at marked
          split at marked
          · obtain rfl := Option.some.inj marked
            exact absurd rfl (foreign t _ r)
          · exact marked
      | remove =>
          simp only [World.setMarker_markers] at marked
          split at marked
          · cases marked
          · exact marked
      | other same => rw [← same]; exact marked

/-! ## One load at a time -/

/-- The marker that a step puts. -/
def inserting : Label (system X) → Option (Nat × String)
  | .exec _ _ (.insertMarker revalidating key) _ => some (revalidating, key)
  | _ => none

/-- No marker is put over one of a task that is still there: the check that came
    before still holds when the marker is inserted. -/
def Uncontended (s : Config (system X)) (l : Label (system X)) : Prop :=
  ∀ marker ∈ inserting l, ∀ i ∈ s.world.markers marker.1 marker.2, ∀ th ∈ s.threads[i]?, th.Dropped

instance (s : Config (system X)) (l : Label (system X)) : Decidable (Uncontended s l) :=
  inferInstanceAs (Decidable (∀ _ ∈ _, _))

/-- The marker a running thread holds is the one in the map. -/
def Exclusive (past : History (system X)) (s : Config (system X)) : Prop :=
  ∀ i th revalidating key, s.threads[i]? = some th → ¬ th.Dropped →
    held i past = some (revalidating, key) → s.world.markers revalidating key = some i

theorem held_unstarted (run : Run (system X) (.idle w) past s) {i : Nat}
    (unstarted : s.threads.length ≤ i) : held i past = none :=
  run.ghost_unstarted unstarted

theorem held_foreign {i : Nat} (foreign : l.Foreign i) : held i ((s, l) :: past) = held i past :=
  ghost_foreign foreign

theorem Exclusive.step (exclusive : Exclusive past s) (run : Run (system X) (.idle w) past s)
    (outlined : Outlined (markerOutline ι) (fun _ : Task ι => none) (Unmarked _) past s)
    (uncontended : Uncontended s l) (taken : Step (system X) s l s') :
    Exclusive ((s, l) :: past) s' := by
  intro i th' revalidating key at_i running holds
  cases taken.fate at_i with
  | same was_i foreign =>
      rw [held_foreign foreign] at holds
      have mine := exclusive i th' revalidating key was_i running holds
      cases taken with
      | start | turn | drop => exact mine
      | @exec _ j th c _ t r _ at_j next done =>
          obtain ⟨_, _, _, allowed⟩ := outlined.ok (.exec at_j next done)
          cases exec_marker done with
          | insert revalidating' key' =>
              rw [World.setMarker_markers, if_neg]
              · exact mine
              · rintro ⟨rfl, rfl⟩
                exact running (uncontended _ rfl i mine th' was_i)
          | remove revalidating' key' =>
              rw [World.setMarker_markers, if_neg]
              · exact mine
              · rintro ⟨rfl, rfl⟩
                have other := exclusive j th _ _ at_j (by simp [Thread.Dropped, next]) allowed
                rw [mine] at other
                obtain rfl := Option.some.inj other
                exact foreign t _ r rfl
          | other unchanged => rw [unchanged]; exact mine
  | @moved c th r t rest was_i next =>
      rw [held_exec, if_pos rfl] at holds
      cases taken with
      | exec _ _ done =>
          cases exec_marker done with
          | insert revalidating' key' =>
              obtain ⟨rfl, rfl⟩ := Prod.mk.inj (Option.some.inj holds)
              simp
          | remove => cases holds
          | other unchanged unmoved =>
              rw [unmoved] at holds
              rw [unchanged]
              exact exclusive i th _ _ was_i (by simp [Thread.Dropped, next]) holds
  | @turned th _ _ _ was_i next =>
      rw [held_foreign (by simp [Label.Foreign])] at holds
      cases taken with
      | turn => exact exclusive i th _ _ was_i (by simp [Thread.Dropped, next]) holds
  | dropped _ moved => subst moved; exact absurd rfl running
  | called new =>
      rw [held_foreign (by simp [Label.Foreign]), held_unstarted run (by omega)] at holds
      cases holds
  | @spawned j _ _ _ _ _ new at_j inside =>
      rw [held_foreign (by rintro _ _ _ same; cases same; omega), held_unstarted run new] at holds
      cases holds

/-- In a run whose markers are put uncontended, no configuration has two tasks inside
    the origin for one composite key. -/
theorem single_load (run : Run (system X) (.idle w) past s)
    (uncontended : ∀ e ∈ past, Uncontended e.1 e.2) {i j : Nat} {th th' : Thread (system X)}
    (at_i : s.threads[i]? = some th) (at_j : s.threads[j]? = some th') {revalidating : Nat}
    {key : String} (loading : Loading th revalidating key)
    (loading' : Loading th' revalidating key) : i = j := by
  obtain ⟨outlined, exclusive⟩ := Run.outline (O := markerOutline ι) (T := fun _ => True) Exclusive
    (fun task _ => markerOutline_body task) (fun _ _ _ _ _ => trivial)
    (fun _ => Uncontended)
    (by intro i th _ _ at_i; simp [Config.idle] at at_i)
    (fun past s l s' before outlined exclusive good taken =>
      ⟨fun _ _ _ _ _ _ _ => trivial, exclusive.step before outlined good taken⟩)
    run (fun s l _ suffix => uncontended (s, l) (suffix.subset (by simp))) (fun _ _ _ => trivial)
  have holds {i : Nat} {th : Thread (system X)} (at_i : s.threads[i]? = some th)
      (loading : Loading th revalidating key) :
      s.world.markers revalidating key = some i := by
    obtain ⟨cache, ns, _, rfl, rfl, _, next⟩ := loading
    have allowed := (Prog.keeps_op.mp (outlined i th _ at_i next)).1
    exact exclusive i th _ _ at_i (by simp [Thread.Dropped, next]) allowed
  have same := (holds at_i loading).symm.trans (holds at_j loading')
  exact Option.some.inj same

/-- A cache of booleans over one foreign store. -/
def soleCache : SwrCache Unit := .new () (.ext 0 "store" .typed) 10 20 0

/-- Answered at time `t`, by an origin that has the value `true`. -/
def reading (t : Int) : Int × ((i : Unit) → Option (Val i)) := (t, fun _ => some true)

/-- A call that finds the marker of another one waits. -/
theorem single_load_waiting : ∃ (past : History (system .atomicMap))
    (s : Config (system .atomicMap)), Run (system .atomicMap) (.idle (.empty : World Unit)) past s ∧
    (∃ th, s.threads[0]? = some th ∧ Loading th 0 "ns:k") ∧
    ∀ j th, s.threads[j]? = some th → Loading th 0 "ns:k" → 0 = j := by
  obtain ⟨past, s, played, th, at_0, loading⟩ : ∃ past s,
      driver.play Uncontended [.start (.swr soleCache "ns" "k"), .start (.swr soleCache "ns" "k"),
        .go 0 (reading 0), .go 1 (reading 0), .go 0 (reading 0), .go 0 (reading 0),
        .go 1 (reading 0), .go 0 (reading 0)] ([], .idle .empty) = some (past, s) ∧
      ∃ th, s.threads[0]? = some th ∧ th.At (.loadEnd soleCache "ns" "k") :=
    ⟨_, _, rfl, _, rfl, _, rfl⟩
  obtain ⟨run, uncontended⟩ := Driver.plays played
  have loads : Loading th 0 "ns:k" := ⟨soleCache, "ns", "k", rfl, rfl, loading⟩
  exact ⟨past, s, run, ⟨th, at_0, loads⟩, fun j th' at_j loads' =>
    single_load run uncontended at_0 at_j loads loads'⟩

/-- Two calls that both check for a marker before either puts one are inside the
    origin together. -/
theorem racing_loads : ¬ ∀ (past : History (system .atomicMap)) (s : Config (system .atomicMap)),
    Run (system .atomicMap) (.idle (.empty : World Unit)) past s →
    ∀ (i j : Nat) (th th' : Thread (system .atomicMap)), s.threads[i]? = some th →
    s.threads[j]? = some th' →
      Loading th 0 "ns:k" → Loading th' 0 "ns:k" → i = j := by
  intro alone
  obtain ⟨past, s, played, th, at_0, th', at_1, loading, loading'⟩ : ∃ past s,
      driver.play (fun _ _ => True)
        [.start (.swr soleCache "ns" "k"), .start (.swr soleCache "ns" "k"),
          .go 0 (reading 0), .go 1 (reading 0), .go 0 (reading 0), .go 1 (reading 0),
          .go 0 (reading 0), .go 1 (reading 0), .go 0 (reading 0), .go 1 (reading 0)]
        ([], .idle .empty) = some (past, s) ∧
      ∃ th, s.threads[0]? = some th ∧ ∃ th', s.threads[1]? = some th' ∧
        th.At (.loadEnd soleCache "ns" "k") ∧ th'.At (.loadEnd soleCache "ns" "k") :=
    ⟨_, _, rfl, _, rfl, _, rfl, ⟨_, rfl⟩, ⟨_, rfl⟩⟩
  have same := alone past s (Driver.plays played).1 0 1 th th' at_0 at_1
    ⟨soleCache, "ns", "k", rfl, rfl, loading⟩ ⟨soleCache, "ns", "k", rfl, rfl, loading'⟩
  cases same

/-! ## Dropped tasks -/

/-- A marker is left in a map although the task that put it is gone. -/
def Orphaned (s : Config (system X)) : Prop :=
  ∃ i th revalidating key, s.threads[i]? = some th ∧ th.Gone ∧
    s.world.markers revalidating key = some i

/-- The step drops a task while a marker that it put is in a map. -/
def DropsHolder (s : Config (system X)) (l : Label (system X)) : Prop :=
  ∃ i revalidating key, l = .drop i ∧ s.world.markers revalidating key = some i

theorem finished_unmarked (unmarked : w.Unmarked) (run : Run (system X) (.idle w) past s)
    {i : Nat} {th : Thread (system X)} {out : Out ι} (at_i : s.threads[i]? = some th)
    (finished : th.Finished out) {revalidating : Nat} {key : String} :
    s.world.markers revalidating key ≠ some i := by
  intro marked
  obtain ⟨outlined, owned⟩ := run_marked unmarked run
  have done : held i past = none := Prog.keeps_ret.mp (outlined i th _ at_i finished)
  rw [owned i revalidating key marked] at done
  cases done

theorem not_orphaned (unmarked : w.Unmarked) (run : Run (system X) (.idle w) past s)
    (spared : ∀ e ∈ past, ¬ DropsHolder e.1 e.2) : ¬ Orphaned s := by
  induction run with
  | refl =>
      rintro ⟨i, th, _, _, at_i, _⟩
      simp [Config.idle] at at_i
  | @step past s l s' before taken ih =>
      rintro ⟨i, th, revalidating, key, at_i, gone, marked⟩
      have run := before.step taken
      obtain dropped | ⟨out, finished⟩ := gone
      · cases taken.fate at_i with
        | same at_i foreign =>
            exact ih (fun e member => spared e (by simp [member]))
              ⟨i, th, revalidating, key, at_i, .inl dropped, marker_before taken foreign marked⟩
        | moved _ _ moved => subst moved; cases dropped
        | turned _ _ moved => subst moved; cases dropped
        | dropped =>
            exact spared (s, .drop i) (by simp) ⟨i, revalidating, key, rfl,
              marker_before taken (by simp [Label.Foreign]) marked⟩
        | called _ moved => subst moved; cases dropped
        | spawned _ _ _ _ moved => subst moved; cases dropped
      · exact finished_unmarked unmarked run at_i finished marked

/-- A run leaves no marker of a task that is gone, in no configuration it visits,
    exactly if no task is dropped while its marker is in the map. -/
theorem never_orphaned_iff (unmarked : w.Unmarked) (run : Run (system X) (.idle w) past s) :
    (∀ s', Visits past s s' → ¬ Orphaned s') ↔ ∀ e ∈ past, ¬ DropsHolder e.1 e.2 := by
  constructor
  · rintro clean ⟨s₁, l⟩ member ⟨i, revalidating, key, rfl, marked⟩
    obtain ⟨s₂, taken, visited⟩ := run.after member
    cases taken with
    | @drop _ th _ at_i =>
        have inside := (List.getElem?_eq_some_iff.mp at_i).1
        exact clean _ visited ⟨i, { th with prog := none }, revalidating, key,
          by simp [inside], .inl rfl, marked⟩
  · intro spared s' visited
    obtain ⟨earlier, run', suffix⟩ := run.visits visited
    exact not_orphaned unmarked run' fun e member => spared e (suffix.subset member)

/-- A miss that is left alone takes its marker away. -/
theorem never_orphaned_alone : ∃ (past : History (system .atomicMap))
    (s : Config (system .atomicMap)), Run (system .atomicMap) (.idle (.empty : World Unit)) past s ∧
    (∃ s', Visits past s s' ∧ s'.world.markers 0 "ns:k" = some 0) ∧
    ∀ s', Visits past s s' → ¬ Orphaned s' := by
  obtain ⟨past, s, played, s₁, l, member, marked⟩ : ∃ past s,
      driver.play (fun _ l => l.dropping = none)
        [.start (.swr soleCache "ns" "k"), .go 0 (reading 0), .go 0 (reading 0), .go 0 (reading 0),
          .go 0 (reading 0), .go 0 (reading 0), .go 0 (reading 0)]
        ([], .idle .empty) = some (past, s) ∧
      ∃ s₁ l, (s₁, l) ∈ past ∧ s₁.world.markers 0 "ns:k" = some 0 :=
    ⟨_, _, rfl, _, _, .head _, rfl⟩
  obtain ⟨run, kept⟩ := Driver.plays played
  refine ⟨past, s, run, ⟨s₁, .inr ⟨l, member⟩, marked⟩,
    (never_orphaned_iff (fun _ _ => rfl) run).mpr ?_⟩
  rintro ⟨s₂, _⟩ member ⟨i, _, _, rfl, _⟩
  cases kept _ member

/-- A caller that gives up inside the origin leaves its marker behind. -/
theorem abandoned_load : ¬ ∀ (past : History (system .atomicMap)) (s : Config (system .atomicMap)),
    Run (system .atomicMap) (.idle (.empty : World Unit)) past s →
    ∀ s', Visits past s s' → ¬ Orphaned s' := by
  intro clean
  obtain ⟨past, s, played, th, at_0, gone, marked⟩ : ∃ past s,
      driver.play (fun _ _ => True)
        [.start (.swr soleCache "ns" "k"), .go 0 (reading 0), .go 0 (reading 0), .go 0 (reading 0),
          .go 0 (reading 0), .drop 0] ([], .idle .empty) = some (past, s) ∧
      ∃ th, s.threads[0]? = some th ∧ th.Dropped ∧ s.world.markers 0 "ns:k" = some 0 :=
    ⟨_, _, rfl, _, rfl, rfl, rfl⟩
  exact clean past s (Driver.plays played).1 s (.inl rfl)
    ⟨0, th, 0, "ns:k", at_0, .inl gone, marked⟩

end Runs

end Swr
