import Swr.Async.Mirror
import Swr.Json
import Swr.System

/-! # Metered tiers

A tiered store with tiers wrapped in `MetricsStore`, beside the one without them. The
wrapper reads the clock and makes metrics, and nothing else comes of it; what it makes
follows the search of a `get` and its back-fill tier by tier.
-/

namespace Swr

open Async

variable {ι : Type} [SerdeJson ι]

/-- A tier, and the sink of the `MetricsStore` around it if there is one. -/
structure Tier where
  store : Store
  sink : Option Nat

namespace Tier

def wrapped (tier : Tier) : Store :=
  match tier.sink with
  | none => tier.store
  | some sink => .metrics tier.store sink

variable (ι) in
/-- What the tier offers without the wrapper. -/
abbrev inner (tier : Tier) : DynStore ι := tier.store.dyn ι

variable (ι) in
/-- What the tier offers as it is. -/
abbrev outer (tier : Tier) : DynStore ι := tier.wrapped.dyn ι

variable {tier tier' : Tier} {ns key : String} {entry : StoredEntry ι} {keys : List String}

@[simp] theorem outer_storageMode : (tier.outer ι).storageMode = (tier.inner ι).storageMode := by
  obtain ⟨store, _ | sink⟩ := tier <;> rfl

/-! ## What the wrapper adds -/

/-- The steps of the wrapper after a `get` that did not fail. -/
def readNote (tier : Tier) (ns key : String) (result : Option (StoredEntry ι)) (now : Int) :
    Log ι :=
  match tier.sink, result with
  | none, _ => []
  | some sink, none => [⟨.emit sink (.read key false none (tier.inner ι).name ns), ()⟩]
  | some sink, some entry =>
      let status :=
        if entry.isFresh now then some .fresh else if entry.isStale now then some .stale else none
      [⟨.now, now⟩, ⟨.emit sink (.read key true status (tier.inner ι).name ns), ()⟩]

variable (ι) in
/-- The step of the wrapper after a `set`. -/
def writeNote (tier : Tier) (ns key : String) : Log ι :=
  match tier.sink with
  | none => []
  | some sink => [⟨.emit sink (.write key (tier.inner ι).name ns), ()⟩]

/-- What a `get` of the tier that returned `result` was answered: the tier, then its wrapper. -/
def Reads (tier : Tier) (ns key : String) (result : Option (StoredEntry ι)) (log : Log ι) : Prop :=
  ∃ own now, ((tier.inner ι).get ns key).Yields own (.ok result) ∧
    log = own ++ tier.readNote ns key result now

/-- What filling the tier was answered: nothing where the entry does not convert, and
    else the tier and then its wrapper. -/
def Writes (tier : Tier) (ns key : String) (entry : StoredEntry ι) (log : Log ι) : Prop :=
  match entry.convertForMode (tier.inner ι).storageMode with
  | .error _ => log = []
  | .ok converted => ∃ own result, ((tier.inner ι).set ns key converted).Yields own result ∧
      log = own ++ tier.writeNote ι ns key

end Tier

/-! ## The mirror -/

/-- The worlds differ in the metrics at most. -/
def World.SameStores (w v : World ι) : Prop := v = { w with metrics := v.metrics }

/-- The same tiers, each with a wrapper or without one. -/
abbrev Rewraps (tiers tiers' : List Tier) : Prop :=
  List.Forall₂ (fun tier tier' => tier.store = tier'.store) tiers tiers'

/-- The tasks are the same but for wrappers of the tiers. -/
inductive Task.Rewrapped : Task ι → Task ι → Prop where
  | same : Rewrapped task task
  | call (call : StoreCall ι) : Rewraps tiers tiers' →
      Rewrapped (call.task (.tiered (tiers.map Tier.wrapped)))
        (call.task (.tiered (tiers'.map Tier.wrapped)))
  | backfill : Rewraps lower lower' →
      Rewrapped (.backfill (lower.map Tier.wrapped) ns key entry)
        (.backfill (lower'.map Tier.wrapped) ns key entry)

/-- A task that is through before the next call: all but the deletions on a server. -/
def Task.awaited : Task ι → Bool
  | .redisDel .. => false
  | _ => true

theorem Task.Rewrapped.awaited {task task' : Task ι} (rewrapped : Task.Rewrapped task task') :
    task'.awaited = true → task.awaited = true := by
  cases rewrapped with
  | same => exact id
  | call call => cases call <;> exact id
  | backfill => exact id

theorem Task.Rewrapped.isCall {task task' : Task ι} (rewrapped : Task.Rewrapped task task') :
    task'.isCall = task.isCall := by
  cases rewrapped with
  | same => rfl
  | call call => cases call <;> rfl
  | backfill => rfl

/-- The command is one for a store. -/
def Cmd.onStore : Cmd ι → Bool
  | .now | .spawn _ | .emit .. => false
  | _ => true

section Mirror

variable [DecidableEq ι]

/-- Wrapping and unwrapping tiers: what wrappers do goes without notice. -/
def metering (X : ExtSemantics ι) : Mirror (system X) where
  task := Task.Rewrapped
  world := World.SameStores
  like e e' := e = e' ∨ ∃ task task', Task.Rewrapped task task' ∧ e = ⟨.spawn task, ()⟩ ∧
  e' = ⟨.spawn task', ()⟩
  idle e := e.1 = .now ∨ ∃ sink metric, e.1 = .emit sink metric
  pad t e := e = ⟨.now, t⟩ ∨ ∃ sink metric, e = ⟨.emit sink metric, ()⟩
  seen e := e.1.onStore

variable {X : ExtSemantics ι} {i : Nat} {t : Int} {w w' v : World ι} {c : Cmd ι} {r : c.Ans}

omit [DecidableEq ι] in
theorem World.SameStores.metered (same : w.SameStores v) (metrics : List (Nat × CacheMetric)) :
    w.SameStores { v with metrics } := by
  rw [World.SameStores] at same ⊢
  rw [same]

omit [DecidableEq ι] in
/-- Stores do not see the metrics. -/
theorem exec_sameStores (same : w.SameStores v) (done : exec X i t w c r w') :
    ∃ v', exec X i t v c r v' ∧ w'.SameStores v' := by
  obtain ⟨metrics, rfl⟩ : ∃ metrics, v = { w with metrics } := ⟨_, same⟩
  cases c with
  | now | rand | mapRead | mapGet | redisGet | containsKey =>
      obtain ⟨answered, rfl⟩ := done
      exact ⟨_, ⟨answered, rfl⟩, rfl⟩
  | mapEvict =>
      obtain ⟨order, perm, rfl⟩ := done
      exact ⟨_, ⟨order, perm, rfl⟩, rfl⟩
  | redisSet | redisSetEx | redisDel =>
      rcases done with ⟨answered, rfl⟩ | ⟨e, answered, rfl | rfl⟩
      · exact ⟨_, .inl ⟨answered, rfl⟩, rfl⟩
      · exact ⟨_, .inr ⟨e, answered, .inl rfl⟩, rfl⟩
      · exact ⟨_, .inr ⟨e, answered, .inr rfl⟩, rfl⟩
  | extGet | extSet | extRemove =>
      obtain ⟨m, answered, rfl⟩ := done
      exact ⟨_, ⟨m, answered, rfl⟩, rfl⟩
  | sleep | spawn | mapInsert | mapExpire | mapRemove | insertMarker | removeMarker | loadStart |
      loadEnd | emit =>
      subst done
      exact ⟨_, rfl, rfl⟩

/-! ## The code -/

section Code

variable {tier : Tier} {ns key : String} {keys : List String} {entry : StoredEntry ι}

private theorem hushed_emit {α : Type} {value : α} (sink : Nat) (metric : CacheMetric) :
    Prog.Hushed (metering X) value (Ask.emit sink metric >>= fun _ => pure value) :=
  .op (fun _ => .inr ⟨sink, metric, rfl⟩) (fun _ => ⟨(), .inr ⟨sink, metric, rfl⟩⟩) fun _ => .ret

/-- A `get` of the tier goes on with what the wrapper adds. -/
theorem Tier.get_outer (tier : Tier) (ns key : String) : ∃ after : _ → Code ι _,
    (tier.outer ι).get ns key = (tier.inner ι).get ns key >>= after ∧
    (∀ result, (after result).Hushed (metering X) result) ∧
    ∀ result log out, (after (.ok result)).Yields log out →
    ∃ now, log = tier.readNote ns key result now := by
  obtain ⟨store, _ | sink⟩ := tier
  · refine ⟨pure, (Prog.bind_ret _).symm, fun _ => .ret, fun result log out yields => ⟨0, ?_⟩⟩
    exact (Prog.yields_ret.mp yields).1
  · refine ⟨_, rfl, fun result => ?_, fun result log out yields => ?_⟩
    · rcases result with e | _ | entry
      · exact hushed_emit _ _
      · exact hushed_emit _ _
      · exact .op (fun _ => .inl rfl) (fun t => ⟨t, .inl rfl⟩) fun _ => hushed_emit _ _
    · cases result with
      | none =>
          obtain ⟨_, _, rfl, ended⟩ := Prog.yields_op.mp yields
          obtain rfl := (Prog.yields_ret.mp ended).1
          exact ⟨0, rfl⟩
      | some entry =>
          obtain ⟨now, _, rfl, noted⟩ := Prog.yields_op.mp yields
          obtain ⟨_, _, rfl, ended⟩ := Prog.yields_op.mp noted
          obtain rfl := (Prog.yields_ret.mp ended).1
          exact ⟨now, rfl⟩

theorem Tier.set_outer (tier : Tier) (ns key : String) (entry : StoredEntry ι) :
    ∃ after : _ → Code ι _, (tier.outer ι).set ns key entry =
      (tier.inner ι).set ns key entry >>= after ∧
    (∀ result, (after result).Hushed (metering X) result) ∧
    ∀ result log out, (after result).Yields log out → log = tier.writeNote ι ns key := by
  obtain ⟨store, _ | sink⟩ := tier
  · exact ⟨pure, (Prog.bind_ret _).symm, fun _ => .ret, fun result log out yields =>
      (Prog.yields_ret.mp yields).1⟩
  · refine ⟨_, rfl, fun result => hushed_emit _ _, fun result log out yields => ?_⟩
    obtain ⟨_, _, rfl, ended⟩ := Prog.yields_op.mp yields
    obtain rfl := (Prog.yields_ret.mp ended).1
    rfl

theorem Tier.remove_outer (tier : Tier) (ns : String) (keys : List String) : ∃ after : _ → Code ι _,
    (tier.outer ι).remove ns keys = (tier.inner ι).remove ns keys >>= after ∧
    ∀ result, (after result).Hushed (metering X) result := by
  obtain ⟨store, _ | sink⟩ := tier
  · exact ⟨pure, (Prog.bind_ret _).symm, fun _ => .ret⟩
  · exact ⟨_, rfl, fun result => hushed_emit _ _⟩

variable (X) in
private theorem metering_refl (e : Σ c : Cmd ι, c.Ans) : (metering X).like e e := .inl rfl

variable {tier' : Tier}

theorem Tier.get_mirrored (same : tier.store = tier'.store) :
    Prog.Mirrored (metering X) ((tier.outer ι).get ns key) ((tier'.outer ι).get ns key) := by
  obtain ⟨after, code, hushed, _⟩ := tier.get_outer (X := X) (ι := ι) ns key
  obtain ⟨after', code', hushed', _⟩ := tier'.get_outer (X := X) (ι := ι) ns key
  rw [code, code', Tier.inner, Tier.inner, same]
  exact (Prog.Mirrored.refl (metering_refl X) _).bind fun result =>
    (hushed result).mirrored (hushed' result)

theorem Tier.set_mirrored (same : tier.store = tier'.store) (entry : StoredEntry ι) :
    Prog.Mirrored (metering X) ((tier.outer ι).set ns key entry)
      ((tier'.outer ι).set ns key entry) := by
  obtain ⟨after, code, hushed, _⟩ := tier.set_outer (X := X) ns key entry
  obtain ⟨after', code', hushed', _⟩ := tier'.set_outer (X := X) ns key entry
  rw [code, code', Tier.inner, Tier.inner, same]
  exact (Prog.Mirrored.refl (metering_refl X) _).bind fun result =>
    (hushed result).mirrored (hushed' result)

theorem Tier.remove_mirrored (same : tier.store = tier'.store) :
    Prog.Mirrored (metering X) ((tier.outer ι).remove ns keys)
      ((tier'.outer ι).remove ns keys) := by
  obtain ⟨after, code, hushed⟩ := tier.remove_outer (X := X) (ι := ι) ns keys
  obtain ⟨after', code', hushed'⟩ := tier'.remove_outer (X := X) (ι := ι) ns keys
  rw [code, code', Tier.inner, Tier.inner, same]
  exact (Prog.Mirrored.refl (metering_refl X) _).bind fun result =>
    (hushed result).mirrored (hushed' result)

namespace TieredStore

variable {tiers tiers' lower lower' : List Tier}

omit [DecidableEq ι] in
theorem arcs_outer (tiers : List Tier) :
    (tiers.map (Tier.outer ι)).map DynStore.arc = tiers.map Tier.wrapped := by
  simp [Tier.outer, Function.comp_def]

theorem getFrom_mirrored (before : Rewraps lower lower') (rest : Rewraps tiers tiers') :
    Prog.Mirrored (metering X)
      (getFrom (lower.map (Tier.outer ι)) (tiers.map (Tier.outer ι)) ns key)
      (getFrom (lower'.map (Tier.outer ι)) (tiers'.map (Tier.outer ι)) ns key) := by
  induction rest generalizing lower lower' with
  | nil => exact .ret _
  | @cons tier tier' tiers tiers' same _ ih =>
      refine (Tier.get_mirrored same).bind fun result => ?_
      rcases result with e | _ | entry
      · exact .ret _
      · have onward := ih (List.rel_append before (.cons same .nil))
        rw [List.map_append, List.map_append] at onward
        exact onward
      · cases before with
        | nil => exact .ret _
        | cons first others =>
            refine .like fun r => ⟨r, .inr ⟨_, _, ?_, rfl, rfl⟩, .ret _⟩
            rw [arcs_outer, arcs_outer]
            exact .backfill (.cons first others)

theorem setTier_mirrored (same : tier.store = tier'.store) :
    Prog.Mirrored (metering X) (setTier ns key entry (tier.outer ι))
      (setTier ns key entry (tier'.outer ι)) := by
  have mode : (tier'.outer ι).storageMode = (tier.outer ι).storageMode := by
    rw [Tier.outer_storageMode, Tier.outer_storageMode, Tier.inner, Tier.inner, same]
  unfold setTier
  rw [mode]
  cases entry.convertForMode (tier.outer ι).storageMode with
  | error e => exact .ret _
  | ok converted => exact Tier.set_mirrored same converted

theorem set_mirrored (all : Rewraps tiers tiers') :
    Prog.Mirrored (metering X) (set (tiers.map (Tier.outer ι)) ns key entry)
      (set (tiers'.map (Tier.outer ι)) ns key entry) := by
  refine (Prog.Mirrored.joinAll ?_).bind fun _ => .ret _
  simp only [List.map_map, List.forall₂_map_left_iff, List.forall₂_map_right_iff]
  exact all.imp fun _ _ same => setTier_mirrored same

theorem remove_mirrored (all : Rewraps tiers tiers') :
    Prog.Mirrored (metering X) (remove (tiers.map (Tier.outer ι)) ns keys)
      (remove (tiers'.map (Tier.outer ι)) ns keys) := by
  refine (Prog.Mirrored.joinAll ?_).bind fun _ => .ret _
  simp only [List.map_map, List.forall₂_map_left_iff, List.forall₂_map_right_iff]
  exact all.imp fun _ _ same => Tier.remove_mirrored same

theorem backfill_mirrored (all : Rewraps lower lower') :
    Prog.Mirrored (metering X) (backfill (lower.map (Tier.outer ι)) ns key entry)
      (backfill (lower'.map (Tier.outer ι)) ns key entry) := by
  induction all with
  | nil => exact .ret _
  | @cons tier tier' _ _ same _ ih =>
      have mode : (tier'.outer ι).storageMode = (tier.outer ι).storageMode := by
        rw [Tier.outer_storageMode, Tier.outer_storageMode, Tier.inner, Tier.inner, same]
      simp only [List.map_cons, backfill]
      rw [mode]
      cases entry.convertForMode (tier.outer ι).storageMode with
      | error e => exact ih
      | ok converted => exact (Tier.set_mirrored same converted).bind fun _ => ih

end TieredStore

theorem Task.Rewrapped.body {task task' : Task ι} (rewrapped : Task.Rewrapped task task') :
    Prog.Mirrored (metering X) task.body task'.body := by
  cases rewrapped with
  | same => exact .refl (metering_refl X) _
  | @call tiers tiers' call all =>
      have code (tiers : List Tier) : Store.dyn ι (.tiered (tiers.map Tier.wrapped)) =
          TieredStore.dyn (tiers.map (Tier.outer ι)) := by
        rw [Store.dyn, Store.dynList_eq_map, List.map_map]
        rfl
      cases call with
      | get ns key =>
          simp only [StoreCall.task, Task.body, code]
          exact (TieredStore.getFrom_mirrored .nil all).bind fun _ => .ret _
      | set ns key entry =>
          simp only [StoreCall.task, Task.body, code]
          exact (TieredStore.set_mirrored all).bind fun _ => .ret _
      | remove ns keys =>
          simp only [StoreCall.task, Task.body, code]
          exact (TieredStore.remove_mirrored all).bind fun _ => .ret _
  | backfill all =>
      simp only [Task.body, Store.dynList_eq_map, List.map_map]
      exact (TieredStore.backfill_mirrored all).bind fun _ => .ret _

theorem metering_lawful (X : ExtSemantics ι) : (metering X).Lawful where
  body _ _ := Task.Rewrapped.body
  exec_like like same done := by
    rcases like with same' | ⟨task, task', _, same', same''⟩
    · cases same'
      exact exec_sameStores same done
    · cases same'
      cases same''
      subst done
      exact ⟨_, rfl, same⟩
  spawned_like e e' like := by
    rcases like with rfl | ⟨task, task', rewrapped, rfl, rfl⟩
    · exact List.forall₂_same.mpr fun _ _ => .same
    · exact .cons rewrapped .nil
  seen_like e e' like := by
    rcases like with rfl | ⟨task, task', _, rfl, rfl⟩
    · exact .inl rfl
    · exact .inr ⟨rfl, rfl⟩
  exec_idle idle same done := by
    rcases idle with rfl | ⟨sink, metric, rfl⟩
    · obtain ⟨_, rfl⟩ := done
      exact same
    · subst done
      exact same
  idle_quiet := by
    rintro ⟨c, r⟩ (rfl | ⟨sink, metric, rfl⟩)
    · exact ⟨rfl, rfl⟩
    · exact ⟨rfl, rfl⟩
  exec_pad pad same := by
    rcases pad with same' | ⟨sink, metric, same'⟩
    · cases same'
      exact ⟨_, ⟨rfl, rfl⟩, same⟩
    · cases same'
      exact ⟨_, rfl, same.metered _⟩
  pad_quiet := by
    rintro t e (rfl | ⟨sink, metric, rfl⟩)
    · exact ⟨rfl, rfl⟩
    · exact ⟨rfl, rfl⟩

end Code

/-! ## The search -/

section Search

variable {ns key : String} {entry : StoredEntry ι} {log : Log ι}

/-- A tier that was asked has been answered its part, and its wrapper has noted it. -/
theorem Tier.reads_yielded {tier : Tier} {result : Option (StoredEntry ι)}
    (yields : ((tier.outer ι).get ns key).Yields log (.ok result)) :
    tier.Reads ns key result log := by
  obtain ⟨after, code, hushed, noted⟩ := tier.get_outer (X := .any) (ι := ι) ns key
  rw [code] at yields
  obtain ⟨own, answer, note, rfl, asked, ended⟩ := Prog.yields_bind.mp yields
  obtain rfl := (hushed answer).returns ended
  obtain ⟨now, rfl⟩ := noted result note _ ended
  exact ⟨own, now, asked, rfl⟩

/-- The search asks the tiers in their order up to the one that has the entry, and has
    those before it filled. -/
theorem TieredStore.getFrom_accounts (lower : List Tier) {tiers : List Tier}
    (yields : (getFrom (lower.map (Tier.outer ι)) (tiers.map (Tier.outer ι)) ns key).Yields log
      (.ok (some entry))) :
    ∃ missed served later parts part, tiers = missed ++ served :: later ∧
      List.Forall₂ (fun tier log => tier.Reads ns key none log) missed parts ∧
      served.Reads ns key (some entry) part ∧
      log = parts.flatten ++ part ++ if (lower ++ missed).isEmpty then [] else
        [⟨.spawn (.backfill ((lower ++ missed).map Tier.wrapped) ns key entry), ()⟩] := by
  induction tiers generalizing lower log with
  | nil =>
      obtain ⟨_, same⟩ := Prog.yields_ret.mp yields
      cases same
  | cons tier tiers ih =>
      obtain ⟨part, result, later, rfl, asked, onward⟩ := Prog.yields_bind.mp yields
      rcases result with e | _ | found
      · obtain ⟨_, same⟩ := Prog.yields_ret.mp onward
        cases same
      · have rest := ih (lower ++ [tier]) (by rw [List.map_append]; exact onward)
        obtain ⟨missed, served, behind, parts, last, rfl, all, hit, rfl⟩ := rest
        refine ⟨tier :: missed, served, behind, part :: parts, last, rfl,
          .cons (Tier.reads_yielded asked) all, hit, ?_⟩
        simp
      · cases lower with
        | nil =>
            obtain ⟨rfl, same⟩ := Prog.yields_ret.mp onward
            cases same
            exact ⟨[], tier, tiers, [], part, rfl, .nil, Tier.reads_yielded asked, by simp⟩
        | cons first others =>
            obtain ⟨_, _, rfl, ended⟩ := Prog.yields_op.mp onward
            obtain ⟨rfl, same⟩ := Prog.yields_ret.mp ended
            cases same
            refine ⟨[], tier, tiers, [], part, rfl, .nil, Tier.reads_yielded asked, ?_⟩
            rw [arcs_outer]
            simp

/-- A back-fill fills tier by tier. -/
theorem TieredStore.backfill_accounts {lower : List Tier} {out : Unit}
    (yields : (backfill (lower.map (Tier.outer ι)) ns key entry).Yields log out) :
    ∃ parts, List.Forall₂ (fun tier log => tier.Writes ns key entry log) lower parts ∧
    log = parts.flatten := by
  induction lower generalizing log with
  | nil => exact ⟨[], .nil, (Prog.yields_ret.mp yields).1⟩
  | cons tier lower ih =>
      simp only [List.map_cons, backfill, Tier.outer_storageMode] at yields
      cases converts : entry.convertForMode (tier.inner ι).storageMode with
      | error e =>
          rw [converts] at yields
          obtain ⟨parts, all, rfl⟩ := ih yields
          refine ⟨[] :: parts, .cons ?_ all, rfl⟩
          simp only [Tier.Writes, converts]
      | ok converted =>
          rw [converts] at yields
          obtain ⟨part, result, later, rfl, filled, onward⟩ := Prog.yields_bind.mp yields
          obtain ⟨parts, all, rfl⟩ := ih onward
          obtain ⟨after, code, hushed, noted⟩ := tier.set_outer (X := .any) ns key converted
          rw [code] at filled
          obtain ⟨own, answer, note, rfl, put, ended⟩ := Prog.yields_bind.mp filled
          obtain rfl := noted answer note result ended
          refine ⟨(own ++ tier.writeNote ι ns key) :: parts, .cons ?_ all, by simp⟩
          simp only [Tier.Writes, converts]
          exact ⟨own, answer, put, rfl⟩

end Search

/-! ## Runs -/

section Runs

variable {past : History (system X)} {s : Config (system X)}

/-- Calls on the store one after the other, each with its back-fills, and all of them over. -/
structure Drained (store : Store) (calls : List (StoreCall ι)) (w : World ι)
    (past : History (system X)) (s : Config (system X)) : Prop where
  run : Run (system X) (.idle w) past s
  called : Async.calls past = calls.map (StoreCall.task store)
  inTurn : OneByOne (fun task : Task ι => task.awaited = true) past
  returned : ∀ th ∈ s.threads, ∃ out, th.Finished out

/-- What a thread has returned. -/
def callResult (th : Thread (system X)) : Option (Out ι) :=
  match th.prog with
  | some (.ret out) => some out
  | _ => none

/-- What the calls have returned, in their order. -/
def callResults (s : Config (system X)) : List (Option (Out ι)) :=
  (s.threads.filter (·.task.isCall)).map callResult

/-- The commands for stores with their answers, latest first. -/
def storeSteps (past : History (system X)) : List (Nat × Int × Σ c : Cmd ι, c.Ans) :=
  past.filterMap fun e =>
    match e.2 with
    | .exec i t c r => if c.onStore then some (i, t, ⟨c, r⟩) else none
    | _ => none

variable (X) in
/-- Whatever calls do on the first store, they can do on the second one as well, by the same
    clock: the inner stores answer the same, so that the calls return the same and leave
    the same contents. -/
def Matched (store store' : Store) : Prop :=
  ∀ (calls : List (StoreCall ι)) (w : World ι) (past : History (system X)) (s : Config (system X)),
    Drained store calls w past s → ∃ (past' : History (system X)) (s' : Config (system X)),
      Drained store' calls w past' s' ∧ callResults s' = callResults s ∧
      s.world.SameStores s'.world ∧
        storeSteps past' = storeSteps past ∧ (Clocked past → Clocked past')

theorem seenSteps_metering (past : History (system X)) :
    seenSteps (metering X) past = storeSteps past := by
  unfold seenSteps storeSteps
  congr 1
  funext e
  cases e.2 <;> rfl

private theorem results_rewrapped {ths ths' : List (Thread (system X))}
    (all : List.Forall₂ (fun th th' => Task.Rewrapped th.task th'.task ∧ th'.root = th.root ∧
      ∃ out, th.Finished out ∧ th'.Finished out) ths ths') :
    (ths'.filter (·.task.isCall)).map callResult = (ths.filter (·.task.isCall)).map callResult := by
  induction all with
  | nil => rfl
  | cons related _ ih =>
      obtain ⟨rewrapped, _, out, finished, finished'⟩ := related
      simp only [List.filter_cons, rewrapped.isCall]
      split
      · simp only [List.map_cons, ih, callResult, show _ = _ from finished,
          show _ = _ from finished']
      · exact ih

/-- It makes no difference which tiers are wrapped. -/
theorem rewrapped_matched {tiers tiers' : List Tier} (alike : Rewraps tiers tiers') :
    Matched X (.tiered (tiers.map Tier.wrapped)) (.tiered (tiers'.map Tier.wrapped)) := by
  intro calls w past s drained
  have tasks : List.Forall₂ (metering X).task (Async.calls past)
      (calls.map (StoreCall.task (.tiered (tiers'.map Tier.wrapped)))) := by
    rw [drained.called, List.forall₂_map_left_iff, List.forall₂_map_right_iff]
    exact List.forall₂_same.mpr fun call _ => .call call alike
  obtain ⟨past', s', run, called, seen, world, threads, inTurn, clock⟩ :=
    drained.run.mirrored (metering_lawful X) (fun _ _ => Task.Rewrapped.awaited) drained.returned
      tasks (show w.SameStores w from rfl)
  rw [seenSteps_metering, seenSteps_metering] at seen
  refine ⟨past', s', ⟨run, called, inTurn drained.inTurn, fun th' member => ?_⟩,
    results_rewrapped threads, world, seen, clock⟩
  obtain ⟨i, inside, rfl⟩ := List.mem_iff_getElem.mp member
  obtain ⟨_, _, out, _, finished⟩ := threads.get (threads.length_eq ▸ inside) inside
  exact ⟨out, finished⟩

/-- What a `get` that returned `entry` came to, with all the wrappers made of it: the tiers
    before the one that had the entry missed it, the tiers after that one were not asked,
    and a task of its own filled those before it and nothing else. -/
def Accounted (tiers : List Tier) (ns key : String) (entry : StoredEntry ι) (g : Nat)
    (past : History (system X)) (s : Config (system X)) : Prop :=
  ∃ missed served later parts part, tiers = missed ++ served :: later ∧
    List.Forall₂ (fun tier log => tier.Reads ns key none log) missed parts ∧
    served.Reads ns key (some entry) part ∧ (missed = [] ∧ replies g past = part ∨
      missed ≠ [] ∧ ∃ s₁ t earlier child fills,
        let task := Task.backfill (missed.map Tier.wrapped) ns key entry
        (s₁, .exec g t (.spawn task) ()) :: earlier <:+ past ∧
        replies g earlier = parts.flatten ++ part ∧
        replies g past = replies g earlier ++ [⟨.spawn task, ()⟩] ∧
        s.threads[s₁.threads.length]? = some child ∧ child.task = task ∧
        List.Forall₂ (fun tier log => tier.Writes ns key entry log) missed fills ∧
        replies s₁.threads.length past = fills.flatten)

/-- The task of a spawning step is the next thread, and has a place in the end. -/
theorem Run.spawned {w : World ι} (run : Run (system X) (.idle w) past s) {s₁ : Config (system X)}
    {g : Nat} {t : Int} {task : Task ι} {earlier : History (system X)}
    (step : (s₁, .exec g t (.spawn task) ()) :: earlier <:+ past) :
    ∃ child, s.threads[s₁.threads.length]? = some child ∧ child.task = task := by
  obtain ⟨s₂, taken, visited⟩ := run.goes_on step
  cases taken with
  | @exec _ _ th _ rest =>
      have at_k :=
        List.getElem?_concat_length (l := s₁.threads.set g { th with prog := some (rest ()) })
        (a := Thread.spawn task th.root)
      rw [List.length_set] at at_k
      obtain ⟨child, at_k', same, _⟩ := run.persistsAt visited at_k
      exact ⟨child, at_k', same⟩

theorem Drained.accounted {tiers : List Tier} {calls : List (StoreCall ι)} {w : World ι}
    (drained : Drained (.tiered (tiers.map Tier.wrapped)) calls w past s) {g : Nat}
    {th : Thread (system X)} {ns key : String} {entry : StoredEntry ι}
    (at_g : s.threads[g]? = some th)
    (task : th.task = .storeGet (.tiered (tiers.map Tier.wrapped)) ns key)
    (finished : th.Finished (.entry (.ok (some entry)))) :
    Accounted tiers ns key entry g past s := by
  have yields := drained.run.finished_yields at_g finished
  rw [task] at yields
  obtain ⟨log, result, none, whole, searched, ended⟩ := Prog.yields_bind.mp yields
  obtain ⟨rfl, same⟩ := Prog.yields_ret.mp ended
  obtain rfl : Except.ok (some entry) = result := by injection same
  rw [List.append_nil] at whole
  simp only [Store.dyn, Store.dynList_eq_map, List.map_map, TieredStore.dyn] at searched
  obtain ⟨missed, served, later, parts, part, split, misses, hit, rfl⟩ :=
    TieredStore.getFrom_accounts [] searched
  refine ⟨missed, served, later, parts, part, split, misses, hit, ?_⟩
  cases missed with
  | nil =>
      cases misses
      exact .inl ⟨rfl, by simpa using whole⟩
  | cons first others =>
      simp only [List.nil_append, List.isEmpty_cons, Bool.false_eq_true, if_false] at whole
      obtain ⟨s₁, t, earlier, step, before⟩ := step_of_replies whole
      obtain ⟨child, at_k, same⟩ := Run.spawned drained.run step
      obtain ⟨out, finished'⟩ := drained.returned child (List.mem_of_getElem? at_k)
      have filled := drained.run.finished_yields at_k finished'
      rw [same] at filled
      obtain ⟨log, done, none, traced, filling, ended⟩ := Prog.yields_bind.mp filled
      obtain ⟨rfl, _⟩ := Prog.yields_ret.mp ended
      rw [List.append_nil] at traced
      simp only [Store.dynList_eq_map, List.map_map] at filling
      obtain ⟨fills, all, rfl⟩ := TieredStore.backfill_accounts filling
      exact .inr ⟨List.cons_ne_nil _ _, s₁, t, earlier, child, fills, step, before,
        by rw [whole, before], at_k, same, all, traced⟩

/-- Without the wrappers. -/
private theorem unwrapped (tiers : List Tier) :
    ∃ bare, Rewraps tiers bare ∧ bare.map Tier.wrapped = tiers.map Tier.store := by
  refine ⟨tiers.map fun tier => ⟨tier.store, none⟩, ?_, by simp [Function.comp_def, Tier.wrapped]⟩
  exact List.forall₂_map_right_iff.mpr (List.forall₂_same.mpr fun _ _ => rfl)

/-- Wrapping any of its tiers in `MetricsStore` changes nothing in what a tiered store
    returns and holds, and the wrappers account for every entry that a `get` returned. A Moka
    cache among the tiers is taken to evict nothing by itself. -/
theorem metrics_unseen (X : ExtSemantics ι) (tiers : List Tier) :
    Matched X (.tiered (tiers.map Tier.wrapped)) (.tiered (tiers.map Tier.store)) ∧
    Matched X (.tiered (tiers.map Tier.store)) (.tiered (tiers.map Tier.wrapped)) ∧
    ∀ (calls : List (StoreCall ι)) (w : World ι) (past : History (system X)) (s :
      Config (system X)), Drained (.tiered (tiers.map Tier.wrapped)) calls w past s →
      ∀ (g : Nat) (th : Thread (system X)) (ns key : String) (entry : StoredEntry ι),
      s.threads[g]? = some th →
        th.task = .storeGet (.tiered (tiers.map Tier.wrapped)) ns key →
        th.Finished (.entry (.ok (some entry))) → Accounted tiers ns key entry g past s := by
  obtain ⟨bare, alike, same⟩ := unwrapped tiers
  have back : Rewraps bare tiers := List.Forall₂.flip (alike.imp fun _ _ same => same.symm)
  rw [← same]
  exact ⟨rewrapped_matched alike, rewrapped_matched back,
    fun calls w past s drained g th ns key entry at_g task finished =>
      drained.accounted at_g task finished⟩

end Runs

end Mirror

section Examples

/-- Two tiers, both wrapped. -/
def twoWrapped : List Tier := [⟨.ext 0 "first" .typed, some 0⟩, ⟨.ext 1 "second" .typed, some 1⟩]

/-- The second tier has the key. -/
def secondHas : World Unit :=
  World.empty.setExt 1 (Contents.put (fun _ _ => none) "ns" "k"
    (.fromTypedWithSerializer () true 10 20))

/-- A `get` that is served by the second tier, and its back-fill. -/
theorem metrics_unseen_backfilling :
    ∃ (past : History (system .atomicMap)) (s : Config (system .atomicMap)),
    Drained (.tiered (twoWrapped.map Tier.wrapped)) [.get "ns" "k"] secondHas past s ∧
    s.world.metrics = [(0, .read "k" false none "first" "ns"),
      (1, .read "k" true (some .fresh) "second" "ns"), (0, .write "k" "first" "ns")] ∧
    Accounted twoWrapped "ns" "k" (.fromTypedWithSerializer () true 10 20) 0 past s := by
  obtain ⟨past, s, played, called, metrics, th, th', threads, task, hit, out, filled⟩ :
      ∃ past s, driver.play (InTurn fun task => task.awaited = true)
        (.start (.storeGet (.tiered (twoWrapped.map Tier.wrapped)) "ns" "k") ::
          List.replicate 6 (.go 0 (5, fun _ => none)) ++
          List.replicate 2 (.go 1 (6, fun _ => none)))
        ([], .idle secondHas) = some (past, s) ∧
      Async.calls past = [.storeGet (.tiered (twoWrapped.map Tier.wrapped)) "ns" "k"] ∧
      s.world.metrics = [(0, .read "k" false none "first" "ns"),
        (1, .read "k" true (some .fresh) "second" "ns"), (0, .write "k" "first" "ns")] ∧
      ∃ th th', s.threads = [th, th'] ∧
      th.task = .storeGet (.tiered (twoWrapped.map Tier.wrapped)) "ns" "k" ∧
        th.prog = some (.ret (.entry (.ok (some (.fromTypedWithSerializer () true 10 20))))) ∧
        ∃ out, th'.prog = some (.ret out) :=
    ⟨_, _, rfl, rfl, rfl, _, _, rfl, rfl, rfl, _, rfl⟩
  obtain ⟨run, inTurn⟩ := Driver.plays played
  have drained : Drained (.tiered (twoWrapped.map Tier.wrapped)) [.get "ns" "k"] secondHas past s :=
    ⟨run, called, inTurn,
      by simp only [threads, List.forall_mem_cons]; exact ⟨⟨_, hit⟩, ⟨out, filled⟩, nofun⟩⟩
  refine ⟨past, s, drained, metrics, ?_⟩
  exact (metrics_unseen .atomicMap twoWrapped).2.2 _ _ past s drained 0 th "ns" "k"
    _ (by rw [threads]; rfl) task hit

end Examples

end Swr
