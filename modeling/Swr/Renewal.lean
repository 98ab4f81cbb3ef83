import Swr.ExpiredValues
import Swr.Reports
import Swr.Sections

/-! # Renewals

What the name of the library promises: a call of `swr` that finds a stale entry returns it
at once, and the entry is renewed while nobody waits. Either the task that the call starts
goes to its origin, or there is another task at an origin for the same key already.
-/

namespace Swr

open Async

variable {ι : Type} [SerdeJson ι]

namespace SwrCache

variable [DecidableEq ι] {self : SwrCache ι} {ns key : String} {log look rest : Log ι} {now : Int}
  {entry : Entry (Val self.ty)}

/-- A call that finds an entry before it expires returns it. It starts a renewal if the
    entry is stale, and that is all. -/
theorem Finds.served (finds : self.Finds ns key look entry)
    {result : Except CacheError (Option (Val self.ty))}
    (yields : (self.swr ns key).Yields (look ++ ⟨.now, now⟩ :: rest) result)
    (current : now < entry.staleUntil) : result = .ok (some entry.value) ∧
      rest = if now < entry.freshUntil then [] else [⟨.spawn (.revalidate self ns key), ()⟩] := by
  obtain ⟨stored, looks, decodes⟩ := finds
  obtain ⟨_, found, second, split, gets, onward⟩ := Prog.yields_bind.mp yields
  obtain ⟨first, answer, later, rfl, looks', onward'⟩ := Prog.yields_bind.mp gets
  rw [List.append_assoc] at split
  obtain ⟨rfl, rfl, split⟩ := (self.store.get_straight ns key).yields_unique looks looks' split
  simp only [decodes, Ask.now_bind, Prog.yields_op] at onward'
  obtain ⟨now', later, rfl, onward'⟩ := onward'
  obtain ⟨same, rfl⟩ := List.cons.inj split
  cases same
  rw [if_neg (Int.not_le.mpr current)] at onward'
  by_cases fresh : now < entry.freshUntil
  · rw [if_neg (Int.not_le.mpr fresh)] at onward'
    obtain ⟨rfl, rfl⟩ := Prog.yields_ret.mp onward'
    obtain ⟨rfl, rfl⟩ := Prog.yields_ret.mp onward
    exact ⟨rfl, by simp [fresh]⟩
  · rw [if_pos (Int.not_lt.mp fresh)] at onward'
    obtain ⟨rfl, rfl⟩ := Prog.yields_ret.mp onward'
    simp only [spawnRevalidation, Ask.spawn_bind, Prog.yields_op, Prog.pure_eq,
      Prog.yields_ret] at onward
    obtain ⟨_, _, rfl, rfl, rfl⟩ := onward
    exact ⟨rfl, by simp [fresh]⟩

section Marks

variable {revalidating : Nat} {cacheKey : String}

omit [DecidableEq ι] in
theorem marks_after (ofGet : ∀ e ∈ look, e.1.OfGet)
    (marks : ⟨.insertMarker revalidating cacheKey, ()⟩ ∈ look ++ rest) :
    ⟨.insertMarker revalidating cacheKey, ()⟩ ∈ rest :=
  (List.mem_append.mp marks).resolve_left (own_notMem ofGet id)

theorem Load.asks {loaded : Option (Val self.ty)} (load : self.Load ns key log loaded)
    (marks : ⟨.insertMarker revalidating cacheKey, ()⟩ ∈ log) :
    ⟨.loadEnd self ns key, loaded⟩ ∈ log := by
  cases load with
  | @waited look _ finds =>
      have inLook : ⟨.insertMarker revalidating cacheKey, ()⟩ ∈ look ++ [] := by simpa using marks
      cases marks_after finds.ofGet inLook
  | again => simp [markedLog]
  | free => simp [markedLog]

theorem Course.asks {value : Option (Val self.ty)} (course : self.Course ns key log value)
    (marks : ⟨.insertMarker revalidating cacheKey, ()⟩ ∈ log) :
    ∃ loaded, ⟨.loadEnd self ns key, loaded⟩ ∈ log := by
  cases course with
  | fresh _ finds | stale _ finds =>
      have after := marks_after finds.ofGet marks
      simp at after
  | @renewed _ _ load value _ _ finds _ loads =>
      have after := marks_after finds.ofGet marks
      have inLoad :
          ⟨.insertMarker revalidating cacheKey, ()⟩ ∈ load := by simpa [cachingLog] using after
      exact ⟨some value, by simp [loads.asks inLoad]⟩
  | @fallback _ _ load _ finds _ loads =>
      have after := marks_after finds.ofGet marks
      have inLoad : ⟨.insertMarker revalidating cacheKey, ()⟩ ∈ load := by simpa using after
      exact ⟨none, by simp [loads.asks inLoad]⟩
  | @loaded _ load value _ misses loads =>
      have after := marks_after misses.ofGet marks
      have inLoad :
          ⟨.insertMarker revalidating cacheKey, ()⟩ ∈ load := by simpa [cachingLog] using after
      exact ⟨some value, by simp [loads.asks inLoad]⟩
  | @empty _ load misses loads =>
      have inLoad := marks_after misses.ofGet marks
      exact ⟨none, by simp [loads.asks inLoad]⟩

end Marks

omit [DecidableEq ι] in
theorem revalidateTask_asks (yields : (self.revalidateTask ns key).Yields log ()) :
    log = [⟨.containsKey self.revalidating (buildCacheKey ns key), true⟩] ∨
      ∃ loaded, ⟨.loadEnd self ns key, loaded⟩ ∈ log := by
  simp only [revalidateTask, Ask.containsKey_bind, Prog.yields_op] at yields
  obtain ⟨running, _, rfl, onward⟩ := yields
  cases running with
  | true =>
      obtain ⟨rfl, _⟩ := Prog.yields_ret.mp onward
      exact .inl rfl
  | false =>
      simp only [Bool.false_eq_true, if_false, Ask.insertMarker_bind, Ask.loadStart_bind,
        Ask.loadEnd_bind, Prog.yields_op] at onward
      obtain ⟨_, _, rfl, _, _, rfl, loaded, _, rfl, _⟩ := onward
      exact .inr ⟨loaded, by simp⟩

end SwrCache

section Runs

variable [DecidableEq ι] {X : ExtSemantics ι} {w : World ι} {past : History (system X)}
  {s : Config (system X)} {i j : Nat} {th : Thread (system X)} {cache : SwrCache ι}
  {ns key : String}

def Asked (past : History (system X)) (revalidating : Nat) (cacheKey : String) (i : Nat) : Prop :=
  ∃ (cache : SwrCache ι) (ns key : String) (loaded : Option (Val cache.ty)), cache.revalidating =
    revalidating ∧ buildCacheKey ns key = cacheKey ∧
    ⟨.loadEnd cache ns key, loaded⟩ ∈ replies i past

/-- A task that has put a marker and returned has been at its origin in between. -/
theorem marked_asked (run : Run (system X) (.idle w) past s)
    (at_i : s.threads[i]? = some th) {out : Out ι} (finished : th.Finished out) {revalidating : Nat}
    {cacheKey : String} (loads : th.task.LoadsFor revalidating cacheKey)
    (marks : ⟨.insertMarker revalidating cacheKey, ()⟩ ∈ replies i past) :
    Asked past revalidating cacheKey i := by
  cases task : th.task with
  | swr cache ns key =>
      rw [task] at loads
      obtain ⟨_, _, course⟩ := swr_course run at_i task finished
      obtain ⟨loaded, returned⟩ := course.asks marks
      exact ⟨cache, ns, key, loaded, loads.1, loads.2, returned⟩
  | revalidate cache ns key =>
      rw [task] at loads
      have yields := run.finished_yields at_i finished
      rw [task] at yields
      obtain ⟨_, renews, _⟩ := Prog.yields_map.mp yields
      rcases SwrCache.revalidateTask_asks renews with gaveWay | ⟨loaded, returned⟩
      · rw [gaveWay] at marks
        simp at marks
      · exact ⟨cache, ns, key, loaded, loads.1, loads.2, returned⟩
  | get | set | remove | storeGet | storeSet | storeRemove | cacheValue | backfill | redisDel =>
      rw [task] at loads
      exact loads.elim

/-- What has become of a renewal: its task has been at the origin, or it gave way to a task
    that was in its section then, and that one has been there. -/
inductive Renewed (past : History (system X)) (revalidating : Nat) (cacheKey : String)
    (j : Nat) : Prop where
  | own : Asked past revalidating cacheKey j → Renewed past revalidating cacheKey j
  | shared : (s₁, .exec j t (.containsKey revalidating cacheKey) true) :: earlier <:+ past →
      InSection earlier s₁ revalidating cacheKey k → k ≠ j → Asked past revalidating cacheKey k →
      Renewed past revalidating cacheKey j

theorem revalidate_renewed (unmarked : w.Unmarked) (run : Run (system X) (.idle w) past s)
    (returned : ∀ (i : Nat) (th : Thread (system X)), s.threads[i]? = some th →
      ∃ out, th.Finished out)
    (at_j : s.threads[j]? = some th) (task : th.task = .revalidate cache ns key) :
    Renewed past cache.revalidating (buildCacheKey ns key) j := by
  obtain ⟨out, finished⟩ := returned j th at_j
  have yields := run.finished_yields at_j finished
  rw [task] at yields
  obtain ⟨_, renews, _⟩ := Prog.yields_map.mp yields
  rcases SwrCache.revalidateTask_asks renews with gaveWay | ⟨loaded, answered⟩
  · -- The check is all that the task did, so the marker that it saw is not its own.
    obtain ⟨⟨t, e⟩, issued, rfl⟩ := List.map_eq_singleton_iff.mp gaveWay
    have first := issued.trans (List.nil_append _).symm
    obtain ⟨s₁, earlier, step, before⟩ := step_of_trace first
    have kept := run.kept_returned returned
    obtain ⟨run₁, s₂, taken⟩ := run.upTo step
    cases taken with
    | exec at_j₁ next done =>
        obtain ⟨i, marked⟩ := Option.isSome_iff_exists.mp done.1.symm
        have kept₁ : ∀ e ∈ earlier, e.2.dropping = none := fun e member =>
          kept e (step.subset (List.mem_cons_of_mem _ member))
        have inside := marked_inSection unmarked run₁ kept₁ marked
        have ⟨_, at_i, _, loads, holds⟩ := inside
        obtain ⟨t', r, put⟩ := held_inserted holds
        refine .shared step inside ?_ ?_
        · rintro rfl
          rw [before] at put
          cases put
        · have older : earlier <:+ past := (List.suffix_cons _ _).trans step
          obtain ⟨final, at_i', same, _⟩ := run.persists (step.subset (List.mem_cons_self ..)) at_i
          obtain ⟨out', finished'⟩ := returned i final at_i'
          refine marked_asked run at_i' finished' (same ▸ loads) ?_
          exact (replies_suffix older).subset (List.mem_map_of_mem put)
  · exact .own ⟨cache, ns, key, loaded, rfl, rfl, answered⟩

/-- A call that finds an entry which has not expired returns it, with no origin in between.
    It does no more if the entry is fresh. If it is stale the call has started a task as its
    last act; and once everything has returned, that task has renewed the entry or has left
    this to another one, and an origin has been asked either way. -/
theorem stale_renewed (unmarked : w.Unmarked) (run : Run (system X) (.idle w) past s)
    (returned : ∀ (i : Nat) (th : Thread (system X)), s.threads[i]? = some th →
      ∃ out, th.Finished out)
    (at_i : s.threads[i]? = some th) (task : th.task = .swr cache ns key)
    {look rest : Log ι} {now : Int} {entry : Entry (Val cache.ty)}
    (finds : cache.Finds ns key look entry) (read : replies i past = look ++ ⟨.now, now⟩ :: rest)
    (current : now < entry.staleUntil) : th.Finished (.value cache.ty (.ok (some entry.value))) ∧
      (now < entry.freshUntil → rest = []) ∧
      (entry.freshUntil ≤ now → rest = [⟨.spawn (.revalidate cache ns key), ()⟩] ∧
        ∃ j heir, s.threads[j]? = some heir ∧ heir.task = .revalidate cache ns key ∧
        heir.root = th.root ∧
          Renewed past cache.revalidating (buildCacheKey ns key) j) := by
  obtain ⟨out, finished⟩ := returned i th at_i
  have yields := run.finished_yields at_i finished
  rw [task] at yields
  obtain ⟨_, calls, rfl⟩ := Prog.yields_map.mp yields
  rw [read] at calls
  obtain ⟨rfl, onward⟩ := finds.served calls current
  refine ⟨finished, fun fresh => by rw [onward, if_pos fresh], fun stale => ?_⟩
  rw [if_neg (Int.not_lt.mpr stale)] at onward
  have handed : ⟨.spawn (.revalidate cache ns key), ()⟩ ∈ replies i past := by simp [read, onward]
  obtain ⟨⟨t, _⟩, inTrace, rfl⟩ := List.mem_map.mp handed
  obtain ⟨s₁, earlier, step⟩ := step_of_mem_trace inTrace
  obtain ⟨j, heir, at_j, task', root⟩ :=
    run.heir (step.subset (List.mem_cons_self ..)) at_i (List.mem_singleton_self _)
  exact ⟨onward, j, heir, at_j, task', root, revalidate_renewed unmarked run returned at_j task'⟩

/-- Two calls are served a stale entry, and the task of the second leaves the renewal to
    that of the first. -/
theorem stale_renewed_shared :
    ∃ (past : History (system .atomicMap)) (s : Config (system .atomicMap)),
    Run (system .atomicMap) (.idle expiredWorld) past s ∧
    (∃ th, s.threads[1]? = some th ∧ th.Finished (.value () (.ok (some true)))) ∧
    ∃ j heir, s.threads[j]? = some heir ∧ heir.task = .revalidate soleCache "ns" "k" ∧
    Renewed past 0 "ns:k" j := by
  obtain ⟨past, s, played, th₀, th₁, th₂, th₃, threads, ⟨_, ended₀⟩, ⟨_, ended₁⟩, ⟨_, ended₂⟩,
    ⟨_, ended₃⟩, task,
      look, rest, read, finds⟩ : ∃ past s,
      driver.play (fun _ _ => True)
        [.start (.swr soleCache "ns" "k"), .start (.swr soleCache "ns" "k"),
          .go 0 (reading 15), .go 0 (reading 15), .go 0 (reading 15),
          .go 1 (reading 15), .go 1 (reading 15), .go 1 (reading 15),
          .go 2 (reading 15), .go 2 (reading 15), .go 3 (reading 15),
          .go 2 (reading 15), .go 2 (reading 16), .go 2 (reading 16), .go 2 (reading 16),
          .go 2 (reading 16)]
        ([], .idle expiredWorld) = some (past, s) ∧
      ∃ th₀ th₁ th₂ th₃, s.threads = [th₀, th₁, th₂, th₃] ∧ (∃ out, th₀.Finished out) ∧
      (∃ out, th₁.Finished out) ∧
        (∃ out, th₂.Finished out) ∧ (∃ out, th₃.Finished out) ∧ th₁.task = .swr soleCache "ns" "k" ∧
        ∃ look rest, replies 1 past = look ++ ⟨.now, (15 : Int)⟩ :: rest ∧
          soleCache.Finds "ns" "k" look (⟨true, 10, 20⟩ : Entry Bool) :=
    ⟨_, _, rfl, _, _, _, _, rfl, ⟨_, rfl⟩, ⟨_, rfl⟩, ⟨_, rfl⟩, ⟨_, rfl⟩, rfl, [_], _, rfl, _,
      .op .ret, rfl⟩
  obtain ⟨run, _⟩ := Driver.plays played
  have returned : ∀ (i : Nat) (th : Thread (system .atomicMap)), s.threads[i]? = some th →
      ∃ out, th.Finished out := by
    intro i th at_i
    have among := List.mem_of_getElem? at_i
    simp only [threads, List.mem_cons, List.not_mem_nil, or_false] at among
    rcases among with rfl | rfl | rfl | rfl
    · exact ⟨_, ended₀⟩
    · exact ⟨_, ended₁⟩
    · exact ⟨_, ended₂⟩
    · exact ⟨_, ended₃⟩
  have at_1 : s.threads[1]? = some th₁ := by simp [threads]
  obtain ⟨served, _, stale⟩ :=
    stale_renewed (fun _ _ => rfl) run returned at_1 task finds read (by decide)
  obtain ⟨_, j, heir, at_j, task', _, renewed⟩ := stale (by decide)
  exact ⟨past, s, run, ⟨th₁, at_1, served⟩, j, heir, at_j, task', renewed⟩

end Runs

end Swr
