import Swr.Async.Trace
import Swr.Provenance
import Swr.SwrCode

/-! # Sections of a marker

A task is in the section of a marker from the step that puts it to the step that takes
it away. No marker is in a map unless a task that still runs is in its section, so a
background revalidation that gives way to another load gives way to a running one.
-/

namespace Swr

open Async

variable {ι : Type} [SerdeJson ι]

theorem SwrCache.uses_own (self : SwrCache ι) (ns key : String) :
    self.Uses ns key fun c => c.OfStore ∨ self.Own ns key c where
  get := (self.dyn_plain.get ns key).mono fun _ => .inl
  set entry := (self.dyn_plain.set ns key entry).mono fun _ => .inl
  remove := (self.dyn_plain.remove ns [key]).mono fun _ => .inl
  own _ := .inr

variable [DecidableEq ι]

def Task.Marks (task : Task ι) (c : Cmd ι) : Prop :=
  ∀ revalidating cacheKey, c = .insertMarker revalidating cacheKey →
    task.LoadsFor revalidating cacheKey

theorem Task.body_marks (task : Task ι) : task.body.Only task.Marks := by
  by_cases other : ∀ revalidating cacheKey, ¬ task.LoadsFor revalidating cacheKey
  · refine (Task.body_ofStore other).mono fun c ofStore => ?_
    rintro _ _ rfl
    exact ofStore.elim
  · cases task with
    | swr cache ns key | revalidate cache ns key =>
        refine ((cache.uses_own ns key).body_only (by exact ⟨rfl, rfl, rfl⟩)).mono fun c uses => ?_
        rintro _ _ rfl
        rcases uses with ofStore | ⟨rfl, rfl⟩
        · exact ofStore.elim
        · exact ⟨rfl, rfl⟩
    | get | set | remove | storeGet | storeSet | storeRemove | cacheValue | backfill | redisDel =>
        exact absurd (fun _ _ => id) other

omit [DecidableEq ι] in
/-- A revalidation that calls no origin has found a marker, and that is all it did. -/
theorem SwrCache.revalidateTask_yields {self : SwrCache ι} {ns key : String}
    {log : List (Σ c : Cmd ι, c.Ans)} (yields : (self.revalidateTask ns key).Yields log ())
    (idle : ∀ e ∈ log, e.1 ≠ .loadStart self ns key) :
    log = [⟨.containsKey self.revalidating (buildCacheKey ns key), true⟩] := by
  simp only [revalidateTask, Ask.containsKey_bind, Prog.yields_op] at yields
  obtain ⟨running, later, rfl, onward⟩ := yields
  cases running with
  | true =>
      obtain ⟨rfl, _⟩ := Prog.yields_ret.mp onward
      rfl
  | false =>
      simp only [Bool.false_eq_true, if_false, Ask.insertMarker_bind, Ask.loadStart_bind,
        Prog.yields_op] at onward
      obtain ⟨_, _, rfl, _, _, rfl, _⟩ := onward
      exact absurd rfl (idle _ (.tail _ (.tail _ (.head _))))

section Runs

variable {X : ExtSemantics ι} {w : World ι} {past : History (system X)} {s : Config (system X)}
  {i : Nat} {revalidating : Nat} {cacheKey : String}

theorem held_inserted (holds : held i past = some (revalidating, cacheKey)) :
    ∃ t r, (t, ⟨.insertMarker revalidating cacheKey, r⟩) ∈ trace i past := by
  induction past with
  | nil => cases holds
  | cons e past ih =>
      obtain ⟨s, l⟩ := e
      rcases l.foreign_or i with foreign | ⟨t, c, r, rfl⟩
      · rw [held_foreign foreign] at holds
        rw [trace_foreign foreign]
        exact ih holds
      · rw [held_exec, if_pos rfl] at holds
        simp only [trace_own, List.mem_append]
        cases c
        case insertMarker =>
          cases holds
          exact ⟨t, r, .inr (.head _)⟩
        case removeMarker => cases holds
        all_goals
          obtain ⟨t, r, member⟩ := ih holds
          exact ⟨t, r, .inl member⟩

/-- A running task for the composite key has put its marker and not taken it away. -/
def InSection (past : History (system X)) (s : Config (system X)) (revalidating : Nat)
    (cacheKey : String) (i : Nat) : Prop :=
  ∃ th, s.threads[i]? = some th ∧ ¬ th.Gone ∧ th.task.LoadsFor revalidating cacheKey ∧
    held i past = some (revalidating, cacheKey)

/-- The marker in a map belongs to a task in its section, unless tasks are dropped. -/
theorem marked_inSection (unmarked : w.Unmarked) (run : Run (system X) (.idle w) past s)
    (kept : ∀ e ∈ past, e.2.dropping = none)
    (marked : s.world.markers revalidating cacheKey = some i) :
    InSection past s revalidating cacheKey i := by
  have holds := (run_marked unmarked run).2 i revalidating cacheKey marked
  have inside : i < s.threads.length := by
    by_contra outside
    rw [held_unstarted run (by omega)] at holds
    cases holds
  have at_i := List.getElem?_eq_getElem inside
  refine ⟨_, at_i, ?_, ?_, holds⟩
  · rintro (dropped | ⟨out, finished⟩)
    · exact run.not_dropped kept at_i dropped
    · exact finished_unmarked unmarked run at_i finished marked
  · obtain ⟨t, r, member⟩ := held_inserted holds
    exact run.traced_only Task.body_marks at_i member _ _ rfl

/-- Without cancellation a marker in a map is that of a running load. A revalidation
    that calls no origin found another load of its key running, and where none runs
    the map is empty. -/
theorem markers_running (unmarked : w.Unmarked) (run : Run (system X) (.idle w) past s)
    (kept : ∀ e ∈ past, e.2.dropping = none) :
    (∀ revalidating cacheKey, (s.world.markers revalidating cacheKey).isSome →
      ∃ i, InSection past s revalidating cacheKey i) ∧
    (∀ j th cache ns key out, s.threads[j]? = some th → th.task = .revalidate cache ns key →
      th.Finished out → (∀ t r, (t, ⟨.loadStart cache ns key, r⟩) ∉ trace j past) →
      ∃ s₁ t earlier i, trace j past =
        [(t, ⟨.containsKey cache.revalidating (buildCacheKey ns key), true⟩)] ∧
        (s₁, .exec j t (.containsKey cache.revalidating (buildCacheKey ns key)) true) ::
        earlier <:+ past ∧ i ≠ j ∧
        InSection earlier s₁ cache.revalidating (buildCacheKey ns key) i) ∧
    (∀ revalidating, (∀ cacheKey i, ¬ InSection past s revalidating cacheKey i) →
      ∀ cacheKey, s.world.markers revalidating cacheKey = none) := by
  have running : ∀ revalidating cacheKey, (s.world.markers revalidating cacheKey).isSome →
      ∃ i, InSection past s revalidating cacheKey i := by
    intro revalidating cacheKey marked
    obtain ⟨i, marked⟩ := Option.isSome_iff_exists.mp marked
    exact ⟨i, marked_inSection unmarked run kept marked⟩
  refine ⟨running, ?_, ?_⟩
  · intro j th cache ns key out at_j task finished idle
    have yields := run.finished_yields at_j finished
    rw [task] at yields
    obtain ⟨log, _, _, split, revalidates, rest⟩ := Prog.yields_bind.mp yields
    obtain ⟨rfl, _⟩ := Prog.yields_ret.mp rest
    rw [List.append_nil] at split
    have only := SwrCache.revalidateTask_yields revalidates ?_
    · rw [only] at split
      obtain ⟨⟨t, e⟩, issued, rfl⟩ := List.map_eq_singleton_iff.mp split
      have first := issued.trans (List.nil_append _).symm
      obtain ⟨s₁, earlier, step, before⟩ := step_of_trace first
      obtain ⟨run₁, s₂, taken⟩ := run.upTo step
      cases taken with
      | exec at_j₁ next done =>
          obtain ⟨i, marked⟩ := Option.isSome_iff_exists.mp done.1.symm
          have kept₁ : ∀ e ∈ earlier, e.2.dropping = none := fun e member =>
            kept e (step.subset (List.mem_cons_of_mem _ member))
          have inside := marked_inSection unmarked run₁ kept₁ marked
          refine ⟨s₁, t, earlier, i, issued, step, ?_, inside⟩
          rintro rfl
          -- `j` has not issued anything before this check
          obtain ⟨_, _, _, _, holds⟩ := inside
          obtain ⟨_, _, member⟩ := held_inserted holds
          rw [before] at member
          cases member
    · rintro ⟨c, r⟩ member rfl
      rw [← split] at member
      obtain ⟨⟨t, e⟩, member, rfl⟩ := List.mem_map.mp member
      exact idle t _ member
  · intro revalidating none cacheKey
    by_contra marked
    obtain ⟨i, inside⟩ := running revalidating cacheKey (Option.ne_none_iff_isSome.mp marked)
    exact none cacheKey i inside

/-- Of two callers that are served a stale entry one revalidates it, and the task of
    the other one gives way. -/
theorem markers_running_shared :
    ∃ (past : History (system .atomicMap)) (s : Config (system .atomicMap)),
    Run (system .atomicMap) (.idle expiredWorld) past s ∧
    (∃ i, InSection past s 0 "ns:k" i) ∧
    ∃ s₁ earlier i, i ≠ 3 ∧ InSection earlier s₁ 0 "ns:k" i ∧
      (s₁, .exec 3 15 (.containsKey 0 "ns:k") true) :: earlier <:+ past := by
  obtain ⟨past, s, played, marked, th, at_3, task, finished, idle⟩ : ∃ past s,
      driver.play (fun _ l => l.dropping = none)
        [.start (.swr soleCache "ns" "k"), .start (.swr soleCache "ns" "k"),
          .go 0 (reading 15), .go 0 (reading 15), .go 0 (reading 15),
          .go 1 (reading 15), .go 1 (reading 15), .go 1 (reading 15),
          .go 2 (reading 15), .go 2 (reading 15), .go 3 (reading 15)]
        ([], .idle expiredWorld) = some (past, s) ∧
      (s.world.markers 0 "ns:k").isSome ∧
      ∃ th, s.threads[3]? = some th ∧ th.task = .revalidate soleCache "ns" "k" ∧
        th.Finished (.done (.ok ())) ∧ trace 3 past = [(15, ⟨.containsKey 0 "ns:k", true⟩)] :=
    ⟨_, _, rfl, rfl, _, rfl, rfl, rfl, rfl⟩
  obtain ⟨run, kept⟩ := Driver.plays played
  obtain ⟨running, gaveWay, _⟩ := markers_running (fun _ _ => rfl) run kept
  obtain ⟨s₁, t, earlier, i, issued, step, other, inside⟩ :=
    gaveWay 3 th soleCache "ns" "k" _ at_3 task finished (by simp [idle])
  rw [idle] at issued
  cases issued
  exact ⟨past, s, run, running 0 "ns:k" marked, s₁, earlier, i, other, inside, step⟩

end Runs

end Swr
