import Swr.StoreCode

/-! # The commands of an SwrCache

What the code of `SwrCache` issues for one key: store calls, and commands of its own on
the markers, the clock and the origin.
-/

namespace Swr

open Async

variable {ι : Type} [SerdeJson ι]

namespace SwrCache

variable {self : SwrCache ι} {ns key : String} {N : Cmd ι → Prop}

/-- The commands that `SwrCache` itself issues for a key. -/
def Own (self : SwrCache ι) (ns key : String) : Cmd ι → Prop
  | .now | .sleep _ => True
  | .spawn task => task = .revalidate self ns key ∨
      ∃ value freshUntil staleUntil, task = .cacheValue self ns key value freshUntil staleUntil
  | .containsKey revalidating key' | .insertMarker revalidating key' |
      .removeMarker revalidating key' =>
      revalidating = self.revalidating ∧ key' = buildCacheKey ns key
  | .loadStart cache ns' key' | .loadEnd cache ns' key' => cache = self ∧ ns' = ns ∧ key' = key
  | _ => False

/-- All that the cache does for the key are `N` commands. -/
structure Uses (cache : SwrCache ι) (ns key : String) (N : Cmd ι → Prop) : Prop where
  get : (cache.dyn.get ns key).Only N
  set : ∀ entry, (cache.dyn.set ns key entry).Only N
  remove : (cache.dyn.remove ns [key]).Only N
  own : ∀ c, cache.Own ns key c → N c

theorem Uses.set_only (uses : self.Uses ns key N) (value : Val self.ty) (opts : Option SetOptions) :
    (self.set ns key value opts).Only N := by
  simp only [SwrCache.set]
  refine (only_issue (uses.own _ (by trivial))).bind fun now => ?_
  split
  · trivial
  · exact uses.set _

theorem Uses.cacheValue_only (uses : self.Uses ns key N) (value : Val self.ty) :
    (self.cacheValue ns key value).Only N :=
  (only_issue (uses.own _ (by trivial))).bind fun _ =>
    only_issue (uses.own _ (by exact .inr ⟨_, _, _, rfl⟩))

theorem Uses.cacheValueTask_only (uses : self.Uses ns key N) (value : Val self.ty)
    (freshUntil staleUntil : Int) :
    (self.cacheValueTask ns key value freshUntil staleUntil).Only N := by
  simp only [cacheValueTask]
  split
  · trivial
  · exact (uses.set _).bind fun _ => trivial

theorem Uses.unmark_only (uses : self.Uses ns key N) : (self.unmark ns key).Only N :=
  only_issue (uses.own _ (by exact ⟨rfl, rfl⟩))

theorem Uses.revalidateTask_only (uses : self.Uses ns key N) :
    (self.revalidateTask ns key).Only N := by
  simp only [revalidateTask]
  refine (only_issue (uses.own _ (by exact ⟨rfl, rfl⟩))).bind fun running => ?_
  split
  · trivial
  · refine (only_issue (uses.own _ (by exact ⟨rfl, rfl⟩))).bind fun _ =>
      (only_issue (uses.own _ (by exact ⟨rfl, rfl, rfl⟩))).bind fun _ =>
      (only_issue (uses.own _ (by exact ⟨rfl, rfl, rfl⟩))).bind fun value => ?_
    cases value with
    | none => exact uses.unmark_only
    | some v =>
        refine (only_issue (uses.own _ (by trivial))).bind fun now => ?_
        split
        · exact uses.unmark_only
        · exact (uses.set _).bind fun _ => uses.unmark_only

theorem Uses.markedLoad_only (uses : self.Uses ns key N) : (self.markedLoad ns key).Only N :=
  (only_issue (uses.own _ (by exact ⟨rfl, rfl⟩))).bind fun _ =>
    (only_issue (uses.own _ (by exact ⟨rfl, rfl, rfl⟩))).bind fun _ =>
    (only_issue (uses.own _ (by exact ⟨rfl, rfl, rfl⟩))).bind fun _ =>
      uses.unmark_only.bind fun _ => trivial

variable [DecidableEq ι]

theorem Uses.getInternal_only (uses : self.Uses ns key N) : (self.getInternal ns key).Only N :=
  SwrCache.getInternal_only uses.get (uses.own _ (by trivial))

theorem Uses.get_only (uses : self.Uses ns key N) : (SwrCache.get self ns key).Only N := by
  simp only [SwrCache.get]
  refine uses.getInternal_only.bind fun result => ?_
  cases result <;> trivial

theorem Uses.deduplicatedLoadFromOrigin_only (uses : self.Uses ns key N) :
    (self.deduplicatedLoadFromOrigin ns key).Only N := by
  simp only [deduplicatedLoadFromOrigin]
  refine (only_issue (uses.own _ (by exact ⟨rfl, rfl⟩))).bind fun loading => ?_
  split
  · refine (only_issue (uses.own _ (by trivial))).bind fun _ => uses.get.bind fun result => ?_
    rcases result with e | _ | stored
    · exact uses.markedLoad_only
    · exact uses.markedLoad_only
    · dsimp only
      split
      · trivial
      · exact uses.markedLoad_only
  · exact uses.markedLoad_only

theorem Uses.loadOrFail_only (uses : self.Uses ns key N) : (self.loadOrFail ns key).Only N := by
  simp only [loadOrFail]
  refine uses.deduplicatedLoadFromOrigin_only.bind fun result => ?_
  rcases result with e | _ | v
  · trivial
  · trivial
  · exact (uses.cacheValue_only v).bind fun _ => trivial

theorem Uses.swr_only (uses : self.Uses ns key N) : (self.swr ns key).Only N := by
  simp only [swr]
  refine uses.getInternal_only.bind fun result => ?_
  split
  · exact (only_issue (uses.own _ (by exact .inl rfl))).bind fun _ => trivial
  · refine uses.deduplicatedLoadFromOrigin_only.bind fun loaded => ?_
    rcases loaded with e | _ | fresh
    · trivial
    · trivial
    · exact (uses.cacheValue_only fresh).bind fun _ => trivial
  · trivial
  · exact uses.loadOrFail_only
  · exact uses.loadOrFail_only
  · exact uses.loadOrFail_only

end SwrCache

/-- The task works on the key for the cache. -/
def Task.IsFor (cache : SwrCache ι) (ns key : String) : Task ι → Prop
  | .get cache' ns' key' | .set cache' ns' key' .. | .remove cache' ns' key' | .swr cache' ns' key'
  | .cacheValue cache' ns' key' .. | .revalidate cache' ns' key' =>
      cache' = cache ∧ ns' = ns ∧ key' = key
  | _ => False

theorem SwrCache.Uses.body_only [DecidableEq ι] {cache : SwrCache ι} {ns key : String}
    {N : Cmd ι → Prop} (uses : cache.Uses ns key N) {task : Task ι}
    (isFor : task.IsFor cache ns key) : task.body.Only N := by
  cases task with
  | get cache' ns' key' =>
      obtain ⟨rfl, rfl, rfl⟩ := isFor
      exact uses.get_only.bind fun _ => trivial
  | set cache' ns' key' value opts =>
      obtain ⟨rfl, rfl, rfl⟩ := isFor
      exact (uses.set_only value opts).bind fun _ => trivial
  | remove cache' ns' key' =>
      obtain ⟨rfl, rfl, rfl⟩ := isFor
      exact uses.remove.bind fun _ => trivial
  | swr cache' ns' key' =>
      obtain ⟨rfl, rfl, rfl⟩ := isFor
      exact uses.swr_only.bind fun _ => trivial
  | cacheValue cache' ns' key' value freshUntil staleUntil =>
      obtain ⟨rfl, rfl, rfl⟩ := isFor
      exact (uses.cacheValueTask_only value freshUntil staleUntil).bind fun _ => trivial
  | revalidate cache' ns' key' =>
      obtain ⟨rfl, rfl, rfl⟩ := isFor
      exact uses.revalidateTask_only.bind fun _ => trivial
  | storeGet | storeSet | storeRemove | backfill | redisDel => exact isFor.elim

end Swr
