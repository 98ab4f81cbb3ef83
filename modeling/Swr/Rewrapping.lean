import Swr.Course
import Swr.Metering

/-! # Metered trees

`MetricsStore`s anywhere: around a whole tree, around some stores in it, several around one
another. Whatever caches do on a tree they can do on the tree with other wrappers as well,
by the same clock and in the same interleaving of their calls and background tasks.
-/

namespace Swr

open Async

namespace Store

mutual
/-- The tree without its `MetricsStore`s. -/
def bare : Store → Store
  | .hashMap id evictOnSet => .hashMap id evictOnSet
  | .moka id => .moka id
  | .redis server disableExpiration => .redis server disableExpiration
  | .tiered tiers => .tiered (allBare tiers)
  | .metrics inner _ => inner.bare
  | .ext id name mode => .ext id name mode

def allBare : List Store → List Store
  | [] => []
  | store :: stores => store.bare :: allBare stores
end

end Store

variable {ι : Type} [SerdeJson ι]

/-- The cache over another store. -/
abbrev SwrCache.over (cache : SwrCache ι) (store : Store) : SwrCache ι := { cache with store }

/-- The tasks are the same but for `MetricsStore`s in the trees that they work on. -/
inductive Task.Remetered : Task ι → Task ι → Prop where
  | get : cache.store.bare = store'.bare →
      Remetered (.get cache ns key) (.get (cache.over store') ns key)
  | set : cache.store.bare = store'.bare →
      Remetered (.set cache ns key value opts) (.set (cache.over store') ns key value opts)
  | remove : cache.store.bare = store'.bare →
      Remetered (.remove cache ns key) (.remove (cache.over store') ns key)
  | swr : cache.store.bare = store'.bare →
      Remetered (.swr cache ns key) (.swr (cache.over store') ns key)
  | storeGet : store.bare = store'.bare →
      Remetered (.storeGet store ns key) (.storeGet store' ns key)
  | storeSet : store.bare = store'.bare →
      Remetered (.storeSet store ns key entry) (.storeSet store' ns key entry)
  | storeRemove : store.bare = store'.bare →
      Remetered (.storeRemove store ns keys) (.storeRemove store' ns keys)
  | cacheValue : cache.store.bare = store'.bare →
      Remetered (.cacheValue cache ns key value freshUntil staleUntil)
      (.cacheValue (cache.over store') ns key value freshUntil staleUntil)
  | revalidate : cache.store.bare = store'.bare →
      Remetered (.revalidate cache ns key) (.revalidate (cache.over store') ns key)
  | backfill : Store.allBare lower = Store.allBare lower' →
      Remetered (.backfill lower ns key entry) (.backfill lower' ns key entry)
  | redisDel : Remetered (.redisDel server cacheKey) (.redisDel server cacheKey)

/-- The commands are the same with the same answer, up to such a tree in a cache or a task. -/
inductive Cmd.Remetered : (Σ c : Cmd ι, c.Ans) → (Σ c : Cmd ι, c.Ans) → Prop where
  | same : Remetered e e
  | spawn : Task.Remetered task task' → Remetered ⟨.spawn task, ()⟩ ⟨.spawn task', ()⟩
  | loadStart {cache : SwrCache ι} : cache.store.bare = store'.bare →
      Remetered ⟨.loadStart cache ns key, ()⟩ ⟨.loadStart (cache.over store') ns key, ()⟩
  | loadEnd {cache : SwrCache ι} :
      cache.store.bare = store'.bare → (loaded : Option (Val cache.ty)) →
      Remetered ⟨.loadEnd cache ns key, loaded⟩ ⟨.loadEnd (cache.over store') ns key, loaded⟩

/-- The command is none of a wrapper and has no tree in it. -/
def Cmd.plain : Cmd ι → Bool
  | .now | .emit .. | .spawn _ | .loadStart .. | .loadEnd .. => false
  | _ => true

variable [DecidableEq ι] {X : ExtSemantics ι}

/-- Other wrappers in the trees: what they do goes without notice. -/
def remetering (X : ExtSemantics ι) : Mirror (system X) :=
  { metering X with task := Task.Remetered, like := Cmd.Remetered, seen := fun e => e.1.plain }

/-! ## Stores -/

/-- The second store does what the first one does, but for the wrappers in it. -/
structure DynStore.Mirrored (X : ExtSemantics ι) (store store' : DynStore ι) : Prop where
  arc : store.arc.bare = store'.arc.bare
  mode : store'.storageMode = store.storageMode
  get : ∀ ns key, Prog.Mirrored (remetering X) (store.get ns key) (store'.get ns key)
  set :
    ∀ ns key entry, Prog.Mirrored (remetering X) (store.set ns key entry) (store'.set ns key entry)
  remove : ∀ ns keys, Prog.Mirrored (remetering X) (store.remove ns keys) (store'.remove ns keys)

section Stores

variable {store store' : DynStore ι} {tiers tiers' : List (DynStore ι)} {ns key : String}
  {keys : List String} {entry : StoredEntry ι}

variable (X) in
theorem remetering_refl {α : Type} (p : Code ι α) : Prog.Mirrored (remetering X) p p :=
  Prog.Mirrored.refl (K := remetering X) (fun _ => Cmd.Remetered.same) p

theorem DynStore.Mirrored.refl (store : DynStore ι) : store.Mirrored X store where
  arc := rfl
  mode := rfl
  get _ _ := remetering_refl X _
  set _ _ _ := remetering_refl X _
  remove _ _ := remetering_refl X _

private theorem emit_hushed {α : Type} {value : α} (sink : Nat) (metric : CacheMetric) :
    Prog.Hushed (remetering X) value (Ask.emit sink metric >>= fun _ => pure value) :=
  .op (fun _ => .inr ⟨sink, metric, rfl⟩) (fun _ => ⟨(), .inr ⟨sink, metric, rfl⟩⟩) fun _ => .ret

/-- What a wrapper adds to a `get`. -/
theorem MetricsStore.get_hushed (inner : DynStore ι) (sink : Nat) (ns key : String) :
    ∃ after : _ → Code ι _, (dyn inner sink).get ns key = inner.get ns key >>= after ∧
      ∀ result, (after result).Hushed (remetering X) result := by
  refine ⟨_, rfl, fun result => ?_⟩
  rcases result with e | _ | entry
  · exact emit_hushed _ _
  · exact emit_hushed _ _
  · exact .op (fun _ => .inl rfl) (fun t => ⟨t, .inl rfl⟩) fun _ => emit_hushed _ _

theorem DynStore.Mirrored.wrapped (mirrored : store.Mirrored X store') (sink : Nat) :
    store.Mirrored X (MetricsStore.dyn store' sink) where
  arc := mirrored.arc
  mode := mirrored.mode
  get ns key := by
    obtain ⟨after, code, hushed⟩ := MetricsStore.get_hushed (X := X) store' sink ns key
    rw [code, ← Prog.bind_ret (store.get ns key)]
    exact (mirrored.get ns key).bind fun result => Prog.Hushed.ret.mirrored (hushed result)
  set ns key entry := by
    rw [← Prog.bind_ret (store.set ns key entry)]
    exact (mirrored.set ns key entry).bind fun _ => Prog.Hushed.ret.mirrored (emit_hushed _ _)
  remove ns keys := by
    rw [← Prog.bind_ret (store.remove ns keys)]
    exact (mirrored.remove ns keys).bind fun _ => Prog.Hushed.ret.mirrored (emit_hushed _ _)

theorem DynStore.Mirrored.unwrapped (mirrored : store.Mirrored X store') (sink : Nat) :
    (MetricsStore.dyn store sink).Mirrored X store' where
  arc := mirrored.arc
  mode := mirrored.mode
  get ns key := by
    obtain ⟨after, code, hushed⟩ := MetricsStore.get_hushed (X := X) store sink ns key
    rw [code, ← Prog.bind_ret (store'.get ns key)]
    exact (mirrored.get ns key).bind fun result => (hushed result).mirrored .ret
  set ns key entry := by
    rw [← Prog.bind_ret (store'.set ns key entry)]
    exact (mirrored.set ns key entry).bind fun _ => (emit_hushed _ _).mirrored .ret
  remove ns keys := by
    rw [← Prog.bind_ret (store'.remove ns keys)]
    exact (mirrored.remove ns keys).bind fun _ => (emit_hushed _ _).mirrored .ret

namespace TieredStore

theorem allBare_arcs (alike : List.Forall₂ (DynStore.Mirrored X) tiers tiers') :
    Store.allBare (tiers.map DynStore.arc) = Store.allBare (tiers'.map DynStore.arc) := by
  induction alike with
  | nil => rfl
  | cons mirrored _ ih => simp only [List.map_cons, Store.allBare, mirrored.arc, ih]

theorem getFrom_remetered {lower lower' : List (DynStore ι)}
    (before : List.Forall₂ (DynStore.Mirrored X) lower lower')
    (rest : List.Forall₂ (DynStore.Mirrored X) tiers tiers') :
    Prog.Mirrored (remetering X) (getFrom lower tiers ns key) (getFrom lower' tiers' ns key) := by
  induction rest generalizing lower lower' with
  | nil => exact .ret _
  | cons mirrored _ ih =>
      refine (mirrored.get ns key).bind fun result => ?_
      rcases result with e | _ | entry
      · exact .ret _
      · exact ih (List.rel_append before (.cons mirrored .nil))
      · cases before with
        | nil => exact .ret _
        | cons first others =>
            exact .like fun r => ⟨r, .spawn (.backfill (allBare_arcs (.cons first others))), .ret _⟩

theorem setTier_remetered (mirrored : store.Mirrored X store') :
    Prog.Mirrored (remetering X) (setTier ns key entry store) (setTier ns key entry store') := by
  unfold setTier
  rw [mirrored.mode]
  cases entry.convertForMode store.storageMode with
  | error e => exact .ret _
  | ok converted => exact mirrored.set ns key converted

theorem backfill_remetered (alike : List.Forall₂ (DynStore.Mirrored X) tiers tiers') :
    Prog.Mirrored (remetering X) (backfill tiers ns key entry) (backfill tiers' ns key entry) := by
  induction alike with
  | nil => exact .ret _
  | @cons store _ _ _ mirrored _ ih =>
      simp only [backfill]
      rw [mirrored.mode]
      cases entry.convertForMode store.storageMode with
      | error e => exact ih
      | ok converted => exact (mirrored.set ns key converted).bind fun _ => ih

/-- Tiers that do the same make tiered stores that do the same. -/
theorem dyn_mirrored (alike : List.Forall₂ (DynStore.Mirrored X) tiers tiers') :
    (dyn tiers).Mirrored X (dyn tiers') where
  arc := congrArg Store.tiered (allBare_arcs alike)
  mode := by
    cases alike with
    | nil => rfl
    | cons mirrored _ => exact mirrored.mode
  get _ _ := getFrom_remetered .nil alike
  set ns key entry := by
    refine (Prog.Mirrored.joinAll ?_).bind fun _ => .ret _
    rw [List.forall₂_map_left_iff, List.forall₂_map_right_iff]
    exact alike.imp fun _ _ mirrored => setTier_remetered mirrored
  remove ns keys := by
    refine (Prog.Mirrored.joinAll ?_).bind fun _ => .ret _
    rw [List.forall₂_map_left_iff, List.forall₂_map_right_iff]
    exact alike.imp fun _ _ mirrored => mirrored.remove ns keys

end TieredStore

end Stores

namespace Store

/-- A leaf, and the same leaf in wrappers. -/
theorem leaf_mirrored {leaf : Store} (bare : leaf.bare = leaf)
    (untiered : ∀ tiers, leaf ≠ .tiered tiers) :
    ∀ store' : Store, leaf = store'.bare → (leaf.dyn ι).Mirrored X (store'.dyn ι)
  | .metrics inner sink, same => (leaf_mirrored bare untiered inner same).wrapped sink
  | .tiered tiers, same => absurd same (untiered _)
  | .hashMap .., same | .moka _, same | .redis .., same | .ext .., same => by
      subst same
      exact .refl _

mutual
/-- Trees that are the same without their wrappers do the same. -/
theorem mirrored :
    ∀ store store' : Store, store.bare = store'.bare → (store.dyn ι).Mirrored X (store'.dyn ι)
  | .metrics inner sink, store', same => (mirrored inner store' same).unwrapped sink
  | .tiered tiers, .metrics inner sink, same => (mirrored (.tiered tiers) inner same).wrapped sink
  | .tiered tiers, .tiered tiers', same =>
      TieredStore.dyn_mirrored (allMirrored tiers tiers' (Store.tiered.inj same))
  | .tiered _, .hashMap .., same | .tiered _, .moka _, same | .tiered _, .redis .., same
  | .tiered _, .ext .., same => by cases same
  | .hashMap .., store', same => leaf_mirrored rfl (fun _ => Store.noConfusion) store' same
  | .moka _, store', same => leaf_mirrored rfl (fun _ => Store.noConfusion) store' same
  | .redis .., store', same => leaf_mirrored rfl (fun _ => Store.noConfusion) store' same
  | .ext .., store', same => leaf_mirrored rfl (fun _ => Store.noConfusion) store' same

theorem allMirrored : ∀ stores stores' : List Store, allBare stores = allBare stores' →
    List.Forall₂ (DynStore.Mirrored X) (dynList ι stores) (dynList ι stores')
  | [], [], _ => .nil
  | [], _ :: _, same | _ :: _, [], same => by cases same
  | store :: stores, store' :: stores', same =>
      .cons (mirrored store store' (List.cons.inj same).1)
        (allMirrored stores stores' (List.cons.inj same).2)
end

end Store

/-! ## Caches -/

namespace SwrCache

variable {cache : SwrCache ι} {store' : Store} {ns key : String}

theorem dyn_remetered (same : cache.store.bare = store'.bare) :
    cache.dyn.Mirrored X (cache.over store').dyn :=
  Store.mirrored cache.store store' same

variable (same : cache.store.bare = store'.bare)

include same

theorem getInternal_remetered :
    Prog.Mirrored (remetering X) (cache.getInternal ns key)
      ((cache.over store').getInternal ns key) := by
  refine ((dyn_remetered same).get ns key).bind fun found => ?_
  rcases found with e | _ | stored
  · exact .ret _
  · exact .ret _
  · dsimp only
    split
    · exact .ret _
    · exact remetering_refl X _

theorem get_remetered :
    Prog.Mirrored (remetering X) (cache.get ns key) ((cache.over store').get ns key) := by
  refine (getInternal_remetered same).bind fun result => ?_
  cases result with
  | error e => exact .ret _
  | ok result => exact .ret _

theorem set_remetered {value : Val cache.ty} {opts : Option SetOptions} :
    Prog.Mirrored (remetering X) (cache.set ns key value opts)
      ((cache.over store').set ns key value opts) := by
  have mirrored := dyn_remetered (X := X) same
  refine (remetering_refl X Ask.now).bind fun now => ?_
  dsimp only
  rw [mirrored.mode]
  split
  · exact .ret _
  · exact mirrored.set ns key _

theorem cacheValue_remetered {value : Val cache.ty} :
    Prog.Mirrored (remetering X) (cache.cacheValue ns key value)
      ((cache.over store').cacheValue ns key value) :=
  (remetering_refl X Ask.now).bind fun _ => .like fun r => ⟨r, .spawn (.cacheValue same), .ret _⟩

theorem cacheValueTask_remetered {value : Val cache.ty} {freshUntil staleUntil : Int} :
    Prog.Mirrored (remetering X) (cache.cacheValueTask ns key value freshUntil staleUntil)
      ((cache.over store').cacheValueTask ns key value freshUntil staleUntil) := by
  have mirrored := dyn_remetered (X := X) same
  unfold cacheValueTask
  rw [mirrored.mode]
  dsimp only
  split
  · exact .ret _
  · exact (mirrored.set ns key _).bind fun _ => .ret _

theorem spawnRevalidation_remetered :
    Prog.Mirrored (remetering X) (cache.spawnRevalidation ns key)
      ((cache.over store').spawnRevalidation ns key) :=
  .like fun r => ⟨r, .spawn (.revalidate same), .ret _⟩

/-- A load, and whatever is done with what it returns. -/
theorem load_remetered {α : Type} {next next' : Option (Val cache.ty) → Code ι α}
    (onward : ∀ loaded, Prog.Mirrored (remetering X) (next loaded) (next' loaded)) :
    Prog.Mirrored (remetering X)
      (do Ask.loadStart cache ns key; next (← Ask.loadEnd cache ns key))
      (do
        Ask.loadStart (cache.over store') ns key
        next' (← Ask.loadEnd (cache.over store') ns key)) :=
  .like fun _ => ⟨(), .loadStart same, .like fun loaded =>
    ⟨loaded, .loadEnd same loaded, onward loaded⟩⟩

theorem revalidateTask_remetered :
    Prog.Mirrored (remetering X) (cache.revalidateTask ns key)
      ((cache.over store').revalidateTask ns key) := by
  have mirrored := dyn_remetered (X := X) same
  refine (remetering_refl X (Ask.containsKey _ _)).bind fun running => ?_
  cases running with
  | true => exact .ret _
  | false =>
      refine (remetering_refl X (Ask.insertMarker _ _)).bind fun _ =>
        load_remetered same fun loaded => ?_
      cases loaded with
      | none => exact remetering_refl X _
      | some value =>
          refine (remetering_refl X Ask.now).bind fun now => ?_
          dsimp only
          rw [mirrored.mode]
          split
          · exact remetering_refl X _
          · exact (mirrored.set ns key _).bind fun _ => remetering_refl X _

theorem markedLoad_remetered :
    Prog.Mirrored (remetering X) (cache.markedLoad ns key)
      ((cache.over store').markedLoad ns key) :=
  (remetering_refl X (Ask.insertMarker _ _)).bind fun _ => load_remetered same fun _ =>
    remetering_refl X _

theorem deduplicatedLoadFromOrigin_remetered :
    Prog.Mirrored (remetering X) (cache.deduplicatedLoadFromOrigin ns key)
      ((cache.over store').deduplicatedLoadFromOrigin ns key) := by
  refine (remetering_refl X (Ask.containsKey _ _)).bind fun loading => ?_
  cases loading with
  | false => exact markedLoad_remetered same
  | true =>
      refine (remetering_refl X (Ask.sleep 100)).bind fun _ =>
        ((dyn_remetered same).get ns key).bind fun found => ?_
      rcases found with e | _ | stored
      · exact markedLoad_remetered same
      · exact markedLoad_remetered same
      · dsimp only
        split
        · exact .ret _
        · exact markedLoad_remetered same

/-- The name in the error text may change with the wrappers, but a load does not fail. -/
theorem loadOrFail_remetered :
    Prog.Mirrored (remetering X) (cache.loadOrFail ns key)
      ((cache.over store').loadOrFail ns key) := by
  refine (deduplicatedLoadFromOrigin_remetered same).bind_yielded fun result returned => ?_
  obtain ⟨_, loads⟩ := returned
  obtain ⟨loaded, rfl, _⟩ := deduplicatedLoadFromOrigin_yields loads
  cases loaded with
  | none => exact .ret _
  | some value => exact (cacheValue_remetered same).bind fun _ => .ret _

theorem swr_remetered :
    Prog.Mirrored (remetering X) (cache.swr ns key) ((cache.over store').swr ns key) := by
  refine (getInternal_remetered same).bind fun result => ?_
  rcases result with e | ⟨_ | value, stale, expired⟩
  · exact loadOrFail_remetered same
  · exact loadOrFail_remetered same
  · cases stale <;> cases expired
    · exact .ret _
    · exact loadOrFail_remetered same
    · exact (spawnRevalidation_remetered same).bind fun _ => .ret _
    · refine (deduplicatedLoadFromOrigin_remetered same).bind fun result => ?_
      rcases result with e | _ | fresh
      · exact .ret _
      · exact .ret _
      · exact (cacheValue_remetered same).bind fun _ => .ret _

end SwrCache

/-! ## Tasks -/

theorem Task.Remetered.body {task task' : Task ι} (remetered : Task.Remetered task task') :
    Prog.Mirrored (remetering X) task.body task'.body := by
  cases remetered with
  | get same => exact (SwrCache.get_remetered same).bind fun _ => .ret _
  | set same => exact (SwrCache.set_remetered same).bind fun _ => .ret _
  | remove same => exact ((SwrCache.dyn_remetered same).remove _ _).bind fun _ => .ret _
  | swr same => exact (SwrCache.swr_remetered same).bind fun _ => .ret _
  | storeGet same => exact ((Store.mirrored _ _ same).get _ _).bind fun _ => .ret _
  | storeSet same => exact ((Store.mirrored _ _ same).set _ _ _).bind fun _ => .ret _
  | storeRemove same => exact ((Store.mirrored _ _ same).remove _ _).bind fun _ => .ret _
  | cacheValue same => exact (SwrCache.cacheValueTask_remetered same).bind fun _ => .ret _
  | revalidate same => exact (SwrCache.revalidateTask_remetered same).bind fun _ => .ret _
  | backfill same =>
      exact (TieredStore.backfill_remetered (Store.allMirrored _ _ same)).bind fun _ => .ret _
  | redisDel => exact remetering_refl X _

omit [DecidableEq ι] in
theorem Task.Remetered.refl (task : Task ι) : Task.Remetered task task := by
  cases task with
  | get => exact .get rfl
  | set => exact .set rfl
  | remove => exact .remove rfl
  | swr => exact .swr rfl
  | storeGet => exact .storeGet rfl
  | storeSet => exact .storeSet rfl
  | storeRemove => exact .storeRemove rfl
  | cacheValue => exact .cacheValue rfl
  | revalidate => exact .revalidate rfl
  | backfill => exact .backfill rfl
  | redisDel => exact .redisDel

theorem remetering_lawful (X : ExtSemantics ι) : (remetering X).Lawful where
  body _ _ := Task.Remetered.body
  exec_like like same done := by
    cases like with
    | same => exact exec_sameStores same done
    | spawn | loadStart | loadEnd =>
        subst done
        exact ⟨_, rfl, same⟩
  spawned_like e e' like := by
    cases like with
    | same => exact List.forall₂_same.mpr fun _ _ => .refl _
    | spawn remetered => exact .cons remetered .nil
    | loadStart | loadEnd => exact .nil
  seen_like e e' like := by
    cases like with
    | same => exact .inl rfl
    | spawn | loadStart | loadEnd => exact .inr ⟨rfl, rfl⟩
  exec_idle := (metering_lawful X).exec_idle
  idle_quiet := by
    rintro ⟨c, r⟩ (rfl | ⟨sink, metric, rfl⟩)
    · exact ⟨rfl, rfl⟩
    · exact ⟨rfl, rfl⟩
  exec_pad := (metering_lawful X).exec_pad
  pad_quiet := by
    rintro t e (rfl | ⟨sink, metric, rfl⟩)
    · exact ⟨rfl, rfl⟩
    · exact ⟨rfl, rfl⟩

/-! ## Runs -/

section Runs

variable {w : World ι} {past : History (system X)} {s : Config (system X)}

/-- It makes no difference where there are `MetricsStore`s. Whatever calls on caches and
    trees have come to, in any interleaving, they can come to with other wrappers in the
    trees: every call and every background task has its counterpart, which is started by
    the counterpart of the same call and returns the same; all that was asked of stores
    and maps of markers was asked by the counterparts in the same order, at the same time
    and with the same answers; and the contents are the same in the end. What a Moka cache
    would evict by itself is left out of both. -/
theorem remetered_run (run : Run (system X) (.idle w) past s)
    (returned : ∀ th ∈ s.threads, ∃ out, th.Finished out) {calls' : List (Task ι)}
    (remetered : List.Forall₂ Task.Remetered (calls past) calls') :
    ∃ (past' : History (system X)) (s' : Config (system X)), Run (system X) (.idle w) past' s' ∧
    calls past' = calls' ∧
      List.Forall₂ (fun th th' => Task.Remetered th.task th'.task ∧ th'.root = th.root ∧
        ∃ out, th.Finished out ∧ th'.Finished out) s.threads s'.threads ∧
      seenSteps (remetering X) past' = seenSteps (remetering X) past ∧ s.world.SameStores s'.world ∧
      (Clocked past → Clocked past') := by
  obtain ⟨past', s', run', called, seen, world, threads, _, clock⟩ :=
    run.mirrored (remetering_lawful X) (N :=
      fun _ => True) (fun _ _ _ _ => trivial) returned remetered (show w.SameStores w from rfl)
  exact ⟨past', s', run', called, threads, seen, world, clock⟩

end Runs

/-- A cache with metrics of the whole tree and of its only tier. -/
def meteredCache : SwrCache Unit := .new () (.metrics (.tiered [.metrics (.moka 0) 1]) 2) 10 20 0

omit [DecidableEq ι] in
/-- What a miss without metrics comes to, it comes to with metrics too. -/
theorem remetered_run_miss :
    ∃ (past' : History (system .atomicMap)) (s' : Config (system .atomicMap)),
    Run (system .atomicMap) (.idle (.empty : World Unit)) past' s' ∧
    calls past' = [.swr meteredCache "ns" "k"] ∧ ∃ th' other', s'.threads = [th', other'] ∧
    th'.Finished (.value () (.ok (some true))) ∧
      other'.Finished (.done (.ok ())) := by
  obtain ⟨past, s, played, called, th, other, threads, ended, ended'⟩ : ∃ past s,
      driver.play (fun _ _ => True) [.start (.swr (meteredCache.over (.tiered [.moka 0])) "ns" "k"),
        .go 0 (reading 0), .go 0 (reading 0), .go 0 (reading 0), .go 0 (reading 0),
        .go 0 (reading 3), .go 0 (reading 3), .go 0 (reading 4), .go 0 (reading 4),
        .go 1 (reading 9)] ([], .idle .empty) = some (past, s) ∧
      calls past = [.swr (meteredCache.over (.tiered [.moka 0])) "ns" "k"] ∧
      ∃ th other, s.threads = [th, other] ∧ th.Finished (.value () (.ok (some true))) ∧
        other.Finished (.done (.ok ())) :=
    ⟨_, _, rfl, rfl, _, _, rfl, rfl, rfl⟩
  obtain ⟨run, _⟩ := Driver.plays played
  have returned : ∀ th ∈ s.threads, ∃ out, th.Finished out := by
    simp only [threads, List.forall_mem_cons]
    exact ⟨⟨_, ended⟩, ⟨_, ended'⟩, List.forall_mem_nil _⟩
  have remetered : List.Forall₂ Task.Remetered (calls past) [.swr meteredCache "ns" "k"] := by
    have wraps : Task.Remetered (.swr (meteredCache.over (.tiered [.moka 0])) "ns" "k")
        (.swr ((meteredCache.over (.tiered [.moka 0])).over meteredCache.store) "ns" "k") :=
        .swr rfl
    rw [called]
    exact .cons wraps .nil
  obtain ⟨past', s', run', called', alike, _⟩ := remetered_run run returned remetered
  rw [threads] at alike
  obtain ⟨th', _, ⟨_, _, _, same, finished⟩, others, threads'⟩ :=
    List.forall₂_cons_left_iff.mp alike
  obtain ⟨other', _, ⟨_, _, _, same', finished'⟩, none, rfl⟩ := List.forall₂_cons_left_iff.mp others
  obtain rfl := List.forall₂_nil_left_iff.mp none
  cases ended.symm.trans same
  cases ended'.symm.trans same'
  exact ⟨past', s', run', called', th', other', threads', finished, finished'⟩

end Swr
