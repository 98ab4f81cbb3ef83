import Swr.SwrSteps
import Swr.TierContents

/-! # What a load goes by

A call loads when its last look at the store gave it nothing to return, or an entry that
had expired. It has a task load in its stead when its look gave it a stale entry. Which
look that was can be read off the history of a run.
-/

namespace Swr

open Async

variable {ι : Type} [SerdeJson ι]

/-- The command looks the key up in the foreign store. -/
def Cmd.asksFor (id : Nat) (ns key : String) : Cmd ι → Bool
  | .extGet store ns' key' => store == id && ns' == ns && key' == key
  | _ => false

theorem Cmd.asksFor_self {id : Nat} {ns key : String} :
    (.extGet id ns key : Cmd ι).asksFor id ns key = true := by
  simp [Cmd.asksFor]

theorem own_not_asksFor {cache : SwrCache ι} {id : Nat} {ns key ns' key' : String} {c : Cmd ι}
    (own : cache.Own ns key c) : c.asksFor id ns' key' = false := by
  cases c <;> first | rfl | exact own.elim

namespace SwrCache

variable {self cache : SwrCache ι} {ns key ns' key' : String} {log : Log ι}

theorem markedLoad_reaches_load
    (reaches : (self.markedLoad ns key).Reaches log (.loadStart cache ns' key')) :
    log = [⟨.insertMarker self.revalidating (buildCacheKey ns key), ()⟩] := by
  simp only [markedLoad, unmark, Ask.insertMarker_bind, Ask.loadStart_bind, Ask.loadEnd_bind,
    Ask.removeMarker_bind, Prog.reaches_op, Prog.pure_eq, Prog.not_reaches_ret] at reaches
  rcases reaches with ⟨_, other⟩ |
    ⟨_, _, rfl, ⟨rfl, _⟩ | ⟨_, _, rfl, ⟨_, other⟩ | ⟨_, _, rfl, ⟨_, other⟩ |
    ⟨_, _, _, none⟩⟩⟩⟩
  · cases other
  · rfl
  · cases other
  · cases other
  · exact none.elim

theorem cacheValue_not_reaches_load {value : Val self.ty} :
    ¬ (self.cacheValue ns key value).Reaches log (.loadStart cache ns' key') := by
  intro reaches
  simp only [cacheValue, Ask.now_bind, Ask.spawn, issue, Prog.reaches_op,
    Prog.not_reaches_ret] at reaches
  rcases reaches with ⟨_, other⟩ | ⟨now, _, rfl, ⟨_, other⟩ | ⟨_, _, _, none⟩⟩
  · cases other
  · cases other
  · exact none.elim

variable [DecidableEq ι]

/-- The last look-up of a log gave a call nothing to return: nothing that can be decoded,
    or an entry that a later reading of the clock showed to have expired. -/
def Unserved (self : SwrCache ι) (ns key : String) (log : Log ι) : Prop :=
  ∃ before look after, log = before ++ look ++ after ∧ (∀ e ∈ after, self.Own ns key e.1) ∧
    (self.Misses ns key look ∨
      ∃ entry now, self.Finds ns key look entry ∧ ⟨.now, now⟩ ∈ after ∧ entry.staleUntil ≤ now)

theorem Unserved.after (before : Log ι) (unserved : self.Unserved ns key log) :
    self.Unserved ns key (before ++ log) := by
  obtain ⟨before', look, after, rfl, own, gave⟩ := unserved
  exact ⟨before ++ before', look, after, by simp, own, gave⟩

/-- A load that follows a wait follows a look-up in vain. -/
theorem deduplicatedLoadFromOrigin_reaches_load
    (reaches : (self.deduplicatedLoadFromOrigin ns key).Reaches log (.loadStart cache ns' key')) :
    (∀ e ∈ log, self.Own ns key e.1) ∨ self.Unserved ns key log := by
  simp only [deduplicatedLoadFromOrigin, Ask.containsKey_bind, Prog.reaches_op] at reaches
  rcases reaches with ⟨_, other⟩ | ⟨loading, log, rfl, onward⟩
  · cases other
  · cases loading with
    | false =>
        obtain rfl := markedLoad_reaches_load onward
        exact .inl (by simp [Own])
    | true =>
        simp only [if_true, Ask.sleep_bind, Prog.reaches_op] at onward
        rcases onward with ⟨_, other⟩ | ⟨_, log, rfl, onward⟩
        · cases other
        · rcases onward.of_bind with within | ⟨look, result, rest, rfl, looks, onward⟩
          · exact ((self.dyn_plain.read ns key).reaches within).1.elim
          · have ends : rest = [⟨.insertMarker self.revalidating (buildCacheKey ns key), ()⟩] ∧
                self.Misses ns key look := by
              rcases result with e | _ | stored
              · exact ⟨markedLoad_reaches_load onward, .failed looks⟩
              · exact ⟨markedLoad_reaches_load onward, .absent looks⟩
              · dsimp only at onward
                split at onward
                · cases onward
                · next fails => exact ⟨markedLoad_reaches_load onward, .undecodable looks fails⟩
            obtain ⟨rfl, misses⟩ := ends
            exact .inr (Unserved.after [_, _] ⟨[], look, _, rfl, by simp [Own], .inl misses⟩)

theorem getInternal_not_reaches_load :
    ¬ (self.getInternal ns key).Reaches log (.loadStart cache ns' key') := by
  intro reaches
  have uses : (self.getInternal ns key).Only Cmd.OfStore :=
    getInternal_only (self.dyn_plain.get ns key) trivial
  exact uses.reaches reaches

theorem loadOrFail_reaches_load
    (reaches : (self.loadOrFail ns key).Reaches log (.loadStart cache ns' key')) :
    (∀ e ∈ log, self.Own ns key e.1) ∨ self.Unserved ns key log := by
  rcases reaches.of_bind with within | ⟨load, result, _, _, _, onward⟩
  · exact deduplicatedLoadFromOrigin_reaches_load within
  · rcases result with e | _ | value
    · cases onward
    · cases onward
    · rcases onward.of_bind with within | ⟨_, _, _, _, _, onward⟩
      · exact absurd within cacheValue_not_reaches_load
      · cases onward

/-- A call loads only if its last look-up gave it nothing to return. -/
theorem swr_reaches_load (reaches : (self.swr ns key).Reaches log (.loadStart cache ns' key')) :
    self.Unserved ns key log := by
  rcases reaches.of_bind with within | ⟨first, found, rest, rfl, looks, onward⟩
  · exact absurd within getInternal_not_reaches_load
  · have missed (misses : self.Misses ns key first)
        (onward : (self.loadOrFail ns key).Reaches rest (.loadStart cache ns' key')) :
        self.Unserved ns key (first ++ rest) := by
      rcases loadOrFail_reaches_load onward with own | unserved
      · exact ⟨[], first, rest, rfl, own, .inl misses⟩
      · exact unserved.after first
    rcases getInternal_yields looks with ⟨misses, ⟨e, rfl⟩ | rfl⟩ |
      ⟨look, entry, now, finds, rfl, ⟨expired, rfl⟩ | ⟨_, stale, _, rfl⟩⟩
    · exact missed misses onward
    · exact missed misses onward
    · rcases onward.of_bind with within | ⟨load, handed, _, _, _, onward⟩
      · rcases deduplicatedLoadFromOrigin_reaches_load within with own | unserved
        · refine ⟨[], look, ⟨.now, now⟩ :: rest, by simp, ?_,
            .inr ⟨entry, now, finds, by simp, expired⟩⟩
          exact List.forall_mem_cons.mpr ⟨trivial, own⟩
        · exact unserved.after _
      · rcases handed with e | _ | value
        · cases onward
        · cases onward
        · rcases onward.of_bind with within | ⟨_, _, _, _, _, onward⟩
          · exact absurd within cacheValue_not_reaches_load
          · cases onward
    · cases stale with
      | true =>
          simp only [spawnRevalidation, Ask.spawn_bind, Prog.reaches_op, Prog.pure_eq,
            Prog.not_reaches_ret] at onward
          rcases onward with ⟨_, other⟩ | ⟨_, _, _, none⟩
          · cases other
          · exact none.elim
      | false => cases onward

/-- The command starts a revalidation. -/
def Renews (c : Cmd ι) : Prop := ∃ cache ns key, c = .spawn (.revalidate cache ns key)

omit [DecidableEq ι] in
theorem not_renews_ofStore {c : Cmd ι} (ofStore : c.OfStore) : ¬ Renews c := by
  rintro ⟨_, _, _, rfl⟩
  exact ofStore

omit [DecidableEq ι] in
theorem not_renews_quiet {c : Cmd ι} (quiet : c.spawned = []) : ¬ Renews c := by
  rintro ⟨_, _, _, rfl⟩
  cases quiet

omit [DecidableEq ι] in
theorem unmark_not_renews : (self.unmark ns key).Only (¬ Renews ·) :=
  only_issue (not_renews_quiet rfl)

omit [DecidableEq ι] in
theorem markedLoad_not_renews : (self.markedLoad ns key).Only (¬ Renews ·) :=
  (only_issue (not_renews_quiet rfl)).bind fun _ => (only_issue (not_renews_quiet rfl)).bind
    fun _ => (only_issue (not_renews_quiet rfl)).bind fun _ => unmark_not_renews.bind
    fun _ => trivial

theorem deduplicatedLoadFromOrigin_not_renews :
    (self.deduplicatedLoadFromOrigin ns key).Only (¬ Renews ·) := by
  simp only [deduplicatedLoadFromOrigin]
  refine (only_issue (not_renews_quiet rfl)).bind fun loading => ?_
  split
  · refine (only_issue (not_renews_quiet rfl)).bind fun _ =>
      ((self.dyn_plain.get ns key).mono fun _ => not_renews_ofStore).bind fun result => ?_
    rcases result with e | _ | stored
    · exact markedLoad_not_renews
    · exact markedLoad_not_renews
    · dsimp only
      split
      · trivial
      · exact markedLoad_not_renews
  · exact markedLoad_not_renews

omit [DecidableEq ι] in
theorem cacheValue_not_renews (value : Val self.ty) :
    (self.cacheValue ns key value).Only (¬ Renews ·) :=
  (only_issue (not_renews_quiet rfl)).bind fun _ => only_issue nofun

theorem loadOrFail_not_renews : (self.loadOrFail ns key).Only (¬ Renews ·) := by
  simp only [loadOrFail]
  refine deduplicatedLoadFromOrigin_not_renews.bind fun result => ?_
  rcases result with e | _ | value
  · trivial
  · trivial
  · exact (cacheValue_not_renews value).bind fun _ => trivial

/-- A call has the entry revalidated that its look-up found, and right after it has seen
    that the entry is stale. -/
theorem swr_reaches_renewal
    (reaches : (self.swr ns key).Reaches log (.spawn (.revalidate cache ns' key'))) :
    ∃ look entry now, log = look ++ [⟨.now, now⟩] ∧ self.Finds ns key look entry ∧
    entry.freshUntil ≤ now := by
  have renews : Renews (.spawn (.revalidate cache ns' key') : Cmd ι) := ⟨cache, ns', key', rfl⟩
  rcases reaches.of_bind with within | ⟨first, found, rest, rfl, looks, onward⟩
  · have uses : (self.getInternal ns key).Only Cmd.OfStore :=
      getInternal_only (self.dyn_plain.get ns key) trivial
    exact absurd renews (not_renews_ofStore (uses.reaches within))
  · rcases getInternal_yields looks with ⟨misses, ⟨e, rfl⟩ | rfl⟩ |
      ⟨look, entry, now, finds, rfl, ⟨expired, rfl⟩ | ⟨_, stale, old, rfl⟩⟩
    · exact absurd renews (loadOrFail_not_renews.reaches onward)
    · exact absurd renews (loadOrFail_not_renews.reaches onward)
    · rcases onward.of_bind with within | ⟨load, handed, _, _, _, onward⟩
      · exact absurd renews (deduplicatedLoadFromOrigin_not_renews.reaches within)
      · rcases handed with e | _ | value
        · cases onward
        · cases onward
        · rcases onward.of_bind with within | ⟨_, _, _, _, _, onward⟩
          · exact absurd renews ((cacheValue_not_renews value).reaches within)
          · cases onward
    · cases stale with
      | true =>
          simp only [spawnRevalidation, Ask.spawn_bind, Prog.reaches_op, Prog.pure_eq,
            Prog.not_reaches_ret] at onward
          rcases onward with ⟨rfl, _⟩ | ⟨_, _, _, none⟩
          · exact ⟨look, entry, now, by simp, finds, old rfl⟩
          · exact none.elim
      | false => cases onward

omit [DecidableEq ι] in
theorem revalidateTask_not_renews : (self.revalidateTask ns key).Only (¬ Renews ·) := by
  simp only [revalidateTask]
  refine (only_issue (not_renews_quiet rfl)).bind fun running => ?_
  split
  · trivial
  · refine (only_issue (not_renews_quiet rfl)).bind fun _ =>
      (only_issue (not_renews_quiet rfl)).bind fun _ =>
      (only_issue (not_renews_quiet rfl)).bind fun value => ?_
    cases value with
    | none => exact unmark_not_renews
    | some v =>
        refine (only_issue (not_renews_quiet rfl)).bind fun now => ?_
        split
        · exact unmark_not_renews
        · exact ((self.dyn_plain.set ns key _).mono fun _ => not_renews_ofStore).bind
            fun _ => unmark_not_renews

omit [DecidableEq ι] in
/-- A revalidation loads without a look at the store. -/
theorem revalidateTask_reaches_load
    (reaches : (self.revalidateTask ns key).Reaches log (.loadStart cache ns' key')) :
    ∀ e ∈ log, self.Own ns key e.1 := by
  have unmarks : (self.unmark ns key).Only (· ≠ Cmd.loadStart cache ns' key') :=
    only_issue (by simp)
  simp only [revalidateTask, Ask.containsKey_bind, Prog.reaches_op] at reaches
  rcases reaches with ⟨_, other⟩ | ⟨running, log, rfl, onward⟩
  · cases other
  · cases running with
    | true => cases onward
    | false =>
        simp only [Bool.false_eq_true, if_false, Ask.insertMarker_bind, Ask.loadStart_bind,
          Ask.loadEnd_bind, Prog.reaches_op] at onward
        rcases onward with ⟨_, other⟩ |
          ⟨_, _, rfl, ⟨rfl, _⟩ | ⟨_, _, rfl, ⟨_, other⟩ | ⟨value, _, rfl, onward⟩⟩⟩
        · cases other
        · simp [Own]
        · cases other
        · cases value with
          | none => exact absurd rfl (unmarks.reaches onward)
          | some v =>
              simp only [Ask.now_bind, Prog.reaches_op] at onward
              rcases onward with ⟨_, other⟩ | ⟨now, log, rfl, onward⟩
              · cases other
              · split at onward
                · exact absurd rfl (unmarks.reaches onward)
                · rcases onward.of_bind with within | ⟨_, _, _, _, _, onward⟩
                  · exact ((self.dyn_plain.set ns key _).reaches within).elim
                  · exact absurd rfl (unmarks.reaches onward)

end SwrCache

/-- Only calls of `swr` and revalidations issue more than the commands of a store. -/
theorem Task.IsFor.plain [DecidableEq ι] {cache : SwrCache ι} {ns key : String} {task : Task ι}
    (isFor : task.IsFor cache ns key) :
    (task = .swr cache ns key ∨ task = .revalidate cache ns key) ∨ task.body.Only Cmd.OfStore := by
  cases task with
  | swr =>
      obtain ⟨rfl, rfl, rfl⟩ := isFor
      exact .inl (.inl rfl)
  | revalidate =>
      obtain ⟨rfl, rfl, rfl⟩ := isFor
      exact .inl (.inr rfl)
  | get cache' ns' key' =>
      refine .inr (Prog.Only.bind ?_ fun _ => trivial)
      simp only [SwrCache.get]
      refine (SwrCache.getInternal_only (cache'.dyn_plain.get ns' key') trivial).bind
        fun result => ?_
      cases result <;> trivial
  | set cache' ns' key' value opts =>
      refine .inr (Prog.Only.bind ?_ fun _ => trivial)
      simp only [SwrCache.set]
      refine (only_issue trivial).bind fun now => ?_
      split
      · trivial
      · exact cache'.dyn_plain.set ns' key' _
  | remove cache' ns' key' =>
      exact .inr ((cache'.dyn_plain.remove ns' [key']).bind fun _ => trivial)
  | cacheValue cache' ns' key' value freshUntil staleUntil =>
      refine .inr (Prog.Only.bind ?_ fun _ => trivial)
      simp only [SwrCache.cacheValueTask]
      split
      · trivial
      · exact (cache'.dyn_plain.set ns' key' _).bind fun _ => trivial
  | storeGet | storeSet | storeRemove | backfill | redisDel => exact isFor.elim

section Tasks

variable [DecidableEq ι] {cache : SwrCache ι} {ns key ns' key' : String}
  {task : Task ι} {log : Log ι}

/-- A load of the key is that of a call which its look-up gave nothing to return, or that of
    a revalidation. -/
theorem Task.IsFor.reaches_load (isFor : task.IsFor cache ns' key')
    (reaches : task.body.Reaches log (.loadStart cache ns key)) :
    task = .swr cache ns key ∧ cache.Unserved ns key log ∨
      task = .revalidate cache ns key ∧ ∀ e ∈ log, cache.Own ns key e.1 := by
  have same : task.body.Only Cmd.OfStore ∨ ns = ns' ∧ key = key' := by
    rcases isFor.reaches SwrCache.looksUp_ofGet reaches with (looks | ⟨own, _⟩) |
      ⟨_, _, _, _, _, _, _, writes⟩ | ⟨_, removes⟩
    · exact looks.1.elim
    · exact .inr own.2
    · exact ((cache.dyn_plain.set ns' key' _).reaches writes).elim
    · exact ((cache.dyn_plain.remove ns' [key']).reaches removes).elim
  rcases isFor.plain with (rfl | rfl) | plain
  · rcases same with plain | ⟨rfl, rfl⟩
    · exact (plain.reaches reaches).elim
    · rcases reaches.of_bind with within | ⟨_, _, _, _, _, none⟩
      · exact .inl ⟨rfl, SwrCache.swr_reaches_load within⟩
      · cases none
  · rcases same with plain | ⟨rfl, rfl⟩
    · exact (plain.reaches reaches).elim
    · rcases reaches.of_bind with within | ⟨_, _, _, _, _, none⟩
      · exact .inr ⟨rfl, SwrCache.revalidateTask_reaches_load within⟩
      · cases none
  · exact (plain.reaches reaches).elim

/-- A revalidation of the key is started by a call that found a stale entry. -/
theorem Task.IsFor.reaches_renewal (isFor : task.IsFor cache ns' key')
    (reaches : task.body.Reaches log (.spawn (.revalidate cache ns key))) :
    task = .swr cache ns key ∧
      ∃ look entry now, log = look ++ [⟨.now, now⟩] ∧ cache.Finds ns key look entry ∧
      entry.freshUntil ≤ now := by
  have renews : SwrCache.Renews (.spawn (.revalidate cache ns key) : Cmd ι) := ⟨cache, ns, key, rfl⟩
  rcases isFor.plain with (rfl | rfl) | plain
  · rcases reaches.of_bind with within | ⟨_, _, _, _, _, none⟩
    · rcases SwrCache.swr_reaches SwrCache.looksUp_ofGet within with looks |
        ⟨same | ⟨_, _, _, other⟩, _⟩
      · exact looks.1.elim
      · cases same
        exact ⟨rfl, SwrCache.swr_reaches_renewal within⟩
      · cases other
    · cases none
  · rcases reaches.of_bind with within | ⟨_, _, _, _, _, none⟩
    · exact absurd renews (SwrCache.revalidateTask_not_renews.reaches within)
    · cases none
  · exact absurd renews (SwrCache.not_renews_ofStore (plain.reaches reaches))

end Tasks

end Swr
