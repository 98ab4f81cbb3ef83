import Swr.Course
import Swr.SwrCode

/-! # Where the commands of an SwrCache stand

A command of the cache together with what the code was answered before it. A value is
handed over to be cached, or written by a revalidation, with stamps made from the clock
reading that came right before.
-/

namespace Swr

open Async

variable {ι : Type} [SerdeJson ι]

namespace SwrCache

variable {self : SwrCache ι} {ns key : String} {log : Log ι} {c : Cmd ι} {N : Log ι → Cmd ι → Prop}

/-- The stamps are those of the clock reading that was answered last. -/
def StampedNow (self : SwrCache ι) (log : Log ι) (freshUntil staleUntil : Int) : Prop :=
  ∃ now, log.getLast? = some ⟨.now, now⟩ ∧ freshUntil = addMs now self.freshMs ∧
    staleUntil = addMs now self.staleMs

theorem StampedNow.after {freshUntil staleUntil : Int} (before : Log ι)
    (stamped : self.StampedNow log freshUntil staleUntil) :
    self.StampedNow (before ++ log) freshUntil staleUntil := by
  obtain ⟨now, last, stamps⟩ := stamped
  exact ⟨now, by simp [last], stamps⟩

/-- What the cache may issue beside the commands `N` of a look-up, and when it may hand
    over a value to be cached. -/
def Issues (self : SwrCache ι) (ns key : String) (N : Log ι → Cmd ι → Prop)
    (log : Log ι) (c : Cmd ι) : Prop :=
  N log c ∨ self.Own ns key c ∧ ∀ value freshUntil staleUntil,
    c = .spawn (.cacheValue self ns key value freshUntil staleUntil) →
    self.StampedNow log freshUntil staleUntil

/-- The commands a look-up issues, wherever in the code it stands. -/
structure LooksUp (cache : SwrCache ι) (ns key : String) (N : Log ι → Cmd ι → Prop) : Prop where
  reads : ∀ {past next}, (cache.dyn.get ns key).Reaches past next → N past next
  after : ∀ before {past next}, N past next → N (before ++ past) next

theorem looksUp_ofGet : self.LooksUp ns key (fun _ c => c.OfGet) where
  reads reaches := (self.dyn_plain.read ns key).reaches reaches
  after _ _ _ same := same

theorem Issues.after (looksUp : self.LooksUp ns key N) (before : Log ι)
    (issues : self.Issues ns key N log c) : self.Issues ns key N (before ++ log) c := by
  rcases issues with reads | ⟨own, stamped⟩
  · exact .inl (looksUp.after before reads)
  · exact .inr ⟨own, fun value freshUntil staleUntil same =>
      (stamped value freshUntil staleUntil same).after before⟩

/-- What the cache issues itself without starting a task. -/
theorem issues_own (own : self.Own ns key c) (quiet : c.spawned = []) :
    self.Issues ns key N log c := by
  refine .inr ⟨own, ?_⟩
  rintro _ _ _ rfl
  cases quiet

theorem cacheValue_reaches {value : Val self.ty}
    (reaches : (self.cacheValue ns key value).Reaches log c) : self.Issues ns key N log c := by
  simp only [cacheValue, Ask.now_bind, Ask.spawn, issue, Prog.reaches_op,
    Prog.not_reaches_ret] at reaches
  rcases reaches with ⟨rfl, rfl⟩ | ⟨now, _, rfl, ⟨rfl, rfl⟩ | ⟨_, _, _, none⟩⟩
  · exact issues_own trivial rfl
  · refine .inr ⟨.inr ⟨_, _, _, rfl⟩, ?_⟩
    rintro _ _ _ ⟨⟩
    exact ⟨now, rfl, rfl, rfl⟩
  · exact none.elim

theorem markedLoad_reaches (reaches : (self.markedLoad ns key).Reaches log c) :
    self.Issues ns key N log c := by
  simp only [markedLoad, unmark, Ask.insertMarker_bind, Ask.loadStart_bind, Ask.loadEnd_bind,
    Ask.removeMarker_bind, Prog.reaches_op, Prog.pure_eq, Prog.not_reaches_ret] at reaches
  rcases reaches with ⟨rfl, rfl⟩ | ⟨_, _, rfl, ⟨rfl, rfl⟩ | ⟨_, _, rfl, ⟨rfl, rfl⟩ |
    ⟨_, _, rfl, ⟨rfl, rfl⟩ | ⟨_, _, _, none⟩⟩⟩⟩
  · exact issues_own ⟨rfl, rfl⟩ rfl
  · exact issues_own ⟨rfl, rfl, rfl⟩ rfl
  · exact issues_own ⟨rfl, rfl, rfl⟩ rfl
  · exact issues_own ⟨rfl, rfl⟩ rfl
  · exact none.elim

variable [DecidableEq ι]

theorem deduplicatedLoadFromOrigin_reaches (looksUp : self.LooksUp ns key N)
    (reaches : (self.deduplicatedLoadFromOrigin ns key).Reaches log c) :
    self.Issues ns key N log c := by
  simp only [deduplicatedLoadFromOrigin, Ask.containsKey_bind, Prog.reaches_op] at reaches
  rcases reaches with ⟨rfl, rfl⟩ | ⟨loading, log, rfl, onward⟩
  · exact issues_own ⟨rfl, rfl⟩ rfl
  · cases loading with
    | false => exact (markedLoad_reaches onward).after looksUp [_]
    | true =>
        simp only [if_true, Ask.sleep_bind, Prog.reaches_op] at onward
        rcases onward with ⟨rfl, rfl⟩ | ⟨_, log, rfl, onward⟩
        · exact issues_own trivial rfl
        · rcases onward.of_bind with within | ⟨look, result, log, rfl, _, onward⟩
          · exact .inl (looksUp.after [_, _] (looksUp.reads within))
          · refine Issues.after looksUp (_ :: _ :: look) ?_
            rcases result with e | _ | stored
            · exact markedLoad_reaches onward
            · exact markedLoad_reaches onward
            · dsimp only at onward
              split at onward
              · cases onward
              · exact markedLoad_reaches onward

theorem loadOrFail_reaches (looksUp : self.LooksUp ns key N)
    (reaches : (self.loadOrFail ns key).Reaches log c) : self.Issues ns key N log c := by
  rcases reaches.of_bind with within | ⟨load, result, log, rfl, _, onward⟩
  · exact deduplicatedLoadFromOrigin_reaches looksUp within
  · refine Issues.after looksUp load ?_
    rcases result with e | _ | value
    · cases onward
    · cases onward
    · rcases onward.of_bind with within | ⟨_, _, _, _, _, onward⟩
      · exact cacheValue_reaches within
      · cases onward

theorem getInternal_reaches (looksUp : self.LooksUp ns key N)
    (reaches : (self.getInternal ns key).Reaches log c) : self.Issues ns key N log c := by
  rcases reaches.of_bind with within | ⟨look, result, log, rfl, _, onward⟩
  · exact .inl (looksUp.reads within)
  · rcases result with e | _ | stored
    · cases onward
    · cases onward
    · dsimp only at onward
      split at onward
      · cases onward
      · simp only [Ask.now_bind, Prog.reaches_op] at onward
        rcases onward with ⟨rfl, rfl⟩ | ⟨now, _, rfl, onward⟩
        · exact issues_own trivial rfl
        · split at onward
          · cases onward
          · split at onward <;> cases onward

theorem swr_reaches (looksUp : self.LooksUp ns key N)
    (reaches : (self.swr ns key).Reaches log c) : self.Issues ns key N log c := by
  rcases reaches.of_bind with within | ⟨look, result, log, rfl, _, onward⟩
  · exact getInternal_reaches looksUp within
  · refine Issues.after looksUp look ?_
    split at onward
    · simp only [spawnRevalidation, Ask.spawn_bind, Prog.reaches_op, Prog.pure_eq,
        Prog.not_reaches_ret] at onward
      rcases onward with ⟨rfl, rfl⟩ | ⟨_, _, _, none⟩
      · exact .inr ⟨.inl rfl, by simp⟩
      · exact none.elim
    · rcases onward.of_bind with within | ⟨load, result, log, rfl, _, onward⟩
      · exact deduplicatedLoadFromOrigin_reaches looksUp within
      · refine Issues.after looksUp load ?_
        rcases result with e | _ | value
        · cases onward
        · cases onward
        · rcases onward.of_bind with within | ⟨_, _, _, _, _, onward⟩
          · exact cacheValue_reaches within
          · cases onward
    · cases onward
    · exact loadOrFail_reaches looksUp onward
    · exact loadOrFail_reaches looksUp onward
    · exact loadOrFail_reaches looksUp onward

/-- What a revalidation is answered until it has an entry to write. -/
def renewalLog (self : SwrCache ι) (ns key : String) (value : Val self.ty) (now : Int) : Log ι :=
  [⟨.containsKey self.revalidating (buildCacheKey ns key), false⟩,
    ⟨.insertMarker self.revalidating (buildCacheKey ns key), ()⟩, ⟨.loadStart self ns key, ()⟩,
    ⟨.loadEnd self ns key, some value⟩, ⟨.now, now⟩]

omit [DecidableEq ι] in
/-- What a revalidation writes was loaded just before, and stamped at once. -/
theorem revalidateTask_reaches (reaches : (self.revalidateTask ns key).Reaches log c) :
    self.Issues ns key N log c ∨ ∃ value now stored second,
      storedEntry self.ty self.dyn.storageMode value (addMs now self.freshMs)
        (addMs now self.staleMs) = .ok stored ∧
      log = self.renewalLog ns key value now ++ second ∧
      (self.dyn.set ns key stored).Reaches second c := by
  simp only [revalidateTask, Ask.containsKey_bind, Prog.reaches_op] at reaches
  rcases reaches with ⟨rfl, rfl⟩ | ⟨running, log, rfl, onward⟩
  · exact .inl (issues_own ⟨rfl, rfl⟩ rfl)
  · cases running with
    | true => cases onward
    | false =>
        simp only [Bool.false_eq_true, if_false, Ask.insertMarker_bind, Ask.loadStart_bind,
          Ask.loadEnd_bind, Prog.reaches_op] at onward
        rcases onward with ⟨rfl, rfl⟩ |
          ⟨_, _, rfl, ⟨rfl, rfl⟩ | ⟨_, _, rfl, ⟨rfl, rfl⟩ | ⟨value, _, rfl, onward⟩⟩⟩
        · exact .inl (issues_own ⟨rfl, rfl⟩ rfl)
        · exact .inl (issues_own ⟨rfl, rfl, rfl⟩ rfl)
        · exact .inl (issues_own ⟨rfl, rfl, rfl⟩ rfl)
        · have unmarks : ∀ {log : Log ι}, (self.unmark ns key).Reaches log c →
              ∀ before, self.Issues ns key N (before ++ log) c := by
            intro log reaches before
            simp only [unmark, Ask.removeMarker, issue, Prog.reaches_op,
              Prog.not_reaches_ret] at reaches
            rcases reaches with ⟨rfl, rfl⟩ | ⟨_, _, _, none⟩
            · exact issues_own ⟨rfl, rfl⟩ rfl
            · exact none.elim
          cases value with
          | none => exact .inl (unmarks onward [_, _, _, _])
          | some v =>
              simp only [Ask.now_bind, Prog.reaches_op] at onward
              rcases onward with ⟨rfl, rfl⟩ | ⟨now, log, rfl, onward⟩
              · exact .inl (issues_own trivial rfl)
              · split at onward
                · exact .inl (unmarks onward [_, _, _, _, _])
                · next stored made =>
                    rcases onward.of_bind with within | ⟨_, _, _, rfl, _, onward⟩
                    · exact .inr ⟨v, now, stored, log, made, rfl, within⟩
                    · exact .inl (unmarks onward ([_, _, _, _, _] ++ _))

end SwrCache

/-! ## The tasks of a cache -/

/-- The entry that a task hands to its store, and what it was answered until then. -/
inductive Task.Hands (cache : SwrCache ι) (ns key : String) :
    Task ι → Log ι → Entry (Val cache.ty) → Prop where
  | set (now : Int) : Hands cache ns key (.set cache ns key value opts) [⟨.now, now⟩]
      ⟨value, addMs now ((opts.map SetOptions.freshMs).getD cache.freshMs),
        addMs now ((opts.map SetOptions.staleMs).getD cache.staleMs)⟩
  | cacheValue : Hands cache ns key (.cacheValue cache ns key value freshUntil staleUntil) []
      ⟨value, freshUntil, staleUntil⟩
  | revalidate (now : Int) :
      Hands cache ns key (.revalidate cache ns key) (cache.renewalLog ns key value now)
      ⟨value, addMs now cache.freshMs, addMs now cache.staleMs⟩

/-- A command of the call with which a task hands an entry to its store. -/
def Task.Sets (cache : SwrCache ι) (ns key : String) (task : Task ι) (log : Log ι)
    (c : Cmd ι) : Prop :=
  ∃ first entry stored second, task.Hands cache ns key first entry ∧
    SwrCache.storedEntry cache.ty cache.dyn.storageMode entry.value entry.freshUntil
      entry.staleUntil = .ok stored ∧
    log = first ++ second ∧ (cache.dyn.set ns key stored).Reaches second c

/-- Where a command of a task for a key stands. -/
theorem Task.IsFor.reaches [DecidableEq ι] {cache : SwrCache ι} {ns key : String}
    {N : Log ι → Cmd ι → Prop} {task : Task ι} {log : Log ι} {c : Cmd ι}
    (isFor : task.IsFor cache ns key) (looksUp : cache.LooksUp ns key N)
    (reaches : task.body.Reaches log c) :
    cache.Issues ns key N log c ∨ task.Sets cache ns key log c ∨
      task = .remove cache ns key ∧ (cache.dyn.remove ns [key]).Reaches log c := by
  cases task with
  | get cache' ns' key' =>
      obtain ⟨rfl, rfl, rfl⟩ := isFor
      rcases reaches.of_bind with within | ⟨_, _, _, _, _, onward⟩
      · rcases within.of_bind with within | ⟨_, result, _, _, _, onward⟩
        · exact .inl (SwrCache.getInternal_reaches looksUp within)
        · cases result <;> cases onward
      · cases onward
  | set cache' ns' key' value opts =>
      obtain ⟨rfl, rfl, rfl⟩ := isFor
      rcases reaches.of_bind with within | ⟨_, _, _, _, _, onward⟩
      · simp only [SwrCache.set, Ask.now_bind, Prog.reaches_op] at within
        rcases within with ⟨_, rfl⟩ | ⟨now, second, rfl, onward⟩
        · exact .inl (SwrCache.issues_own trivial rfl)
        · split at onward
          · cases onward
          · next stored made =>
              exact .inr (.inl ⟨_, _, stored, second, .set now, made, rfl, onward⟩)
      · cases onward
  | remove cache' ns' key' =>
      obtain ⟨rfl, rfl, rfl⟩ := isFor
      rcases reaches.of_bind with within | ⟨_, _, _, _, _, onward⟩
      · exact .inr (.inr ⟨rfl, within⟩)
      · cases onward
  | swr cache' ns' key' =>
      obtain ⟨rfl, rfl, rfl⟩ := isFor
      rcases reaches.of_bind with within | ⟨_, _, _, _, _, onward⟩
      · exact .inl (SwrCache.swr_reaches looksUp within)
      · cases onward
  | cacheValue cache' ns' key' value freshUntil staleUntil =>
      obtain ⟨rfl, rfl, rfl⟩ := isFor
      rcases reaches.of_bind with within | ⟨_, _, _, _, _, onward⟩
      · simp only [SwrCache.cacheValueTask] at within
        split at within
        · cases within
        · next stored made =>
            rcases within.of_bind with within | ⟨_, _, _, _, _, onward⟩
            · exact .inr (.inl ⟨_, _, stored, log, .cacheValue, made, rfl, within⟩)
            · cases onward
      · cases onward
  | revalidate cache' ns' key' =>
      obtain ⟨rfl, rfl, rfl⟩ := isFor
      rcases reaches.of_bind with within | ⟨_, _, _, _, _, onward⟩
      · rcases SwrCache.revalidateTask_reaches within with issued |
          ⟨value, now, stored, second, made, rfl, writes⟩
        · exact .inl issued
        · exact .inr (.inl ⟨_, _, stored, second, .revalidate now, made, rfl, writes⟩)
      · cases onward
  | storeGet | storeSet | storeRemove | backfill | redisDel => exact isFor.elim

end Swr
