import Swr.Supply

/-! # Ages

An entry is stored as text or as a value, converted, filled back into other tiers and read
by other caches; its value and its two stamps stay together through all of it. So what a
look-up finds is as old as it seems, counted by the clock of whoever has made it.
-/

namespace Swr

open Async

theorem addMs_le {now ms : Int} (low : minI64 ≤ now + ms) : addMs now ms ≤ now + ms := by
  simp only [minI64] at low
  simp only [addMs, Int.bmod_def]
  omega

theorem age_lt {now ms t : Int} (low : minI64 ≤ now + ms) (before : t < addMs now ms) :
    t - now < ms := by
  have bound := addMs_le low
  omega

variable {ι : Type} [SerdeJson ι] [DecidableEq ι] {X : ExtSemantics ι} {typing : String → ι}
  {past : History (system X)} {s : Config (system X)} {i : Nat} {th : Thread (system X)}
  {cache : SwrCache ι} {ns key cacheKey : String}

theorem Issued.reading {stamp : Stamp} {value : Σ ty : ι, Val ty}
    (issued : Issued past cacheKey stamp value) : ∃ e ∈ past, e.2.time = some stamp.now := by
  cases issued with
  | set _ _ read | renewed _ read | loaded _ read | found _ read =>
      obtain ⟨s₁, th, member, _⟩ := read
      exact ⟨_, member, rfl⟩

/-- Whatever a look-up finds, just this entry was made for the composite key before the
    look-up was over, by one `set`, `swr` or revalidation and with stamps that it counted
    from one clock reading. An entry that is found to be fresh was made less than its
    maker's `fresh_ms` ago, and one that has not expired less than its maker's `stale_ms`. -/
theorem found_issued [LawfulSerdeJson ι] (run : Run (system X) (.idle .empty) past s)
    (calls : ∀ e ∈ past, TypedCalls typing e.2) (clocked : Clocked past)
    (at_i : s.threads[i]? = some th) (task : th.task = .get cache ns key ∨
      th.task = .swr cache ns key) {before look after : Log ι} {t : Int}
    {entry : Entry (Val cache.ty)} (read : replies i past = before ++ look ++ ⟨.now, t⟩ :: after)
    (finds : cache.Finds ns key look entry) :
    ∃ s₁ earlier stamp, (s₁, .exec i t .now t) :: earlier <:+ past ∧ stamp.now ≤ t ∧
      Issued earlier (buildCacheKey ns key) stamp ⟨cache.ty, entry.value⟩ ∧
      stamp.mark entry.value = entry ∧
      (minI64 ≤ stamp.now + stamp.freshMs → t < entry.freshUntil → t - stamp.now < stamp.freshMs) ∧
      (minI64 ≤ stamp.now + stamp.staleMs → t < entry.staleUntil →
        t - stamp.now < stamp.staleMs) := by
  have reads : cache.store.closed = true ∧ cache.ty = typing (buildCacheKey ns key) := by
    have honest := (run_traceable run calls).tasks i th at_i
    rcases task with same | same
    · rw [same] at honest
      exact honest
    · rw [same] at honest
      exact honest
  obtain ⟨closed, typed⟩ := reads
  -- what was known when the clock was read
  obtain ⟨timed, ending, split, looked, reading⟩ := List.map_eq_append_iff.mp read
  obtain ⟨⟨t', _⟩, rest, rfl, rfl, _⟩ := List.map_eq_cons_iff.mp reading
  obtain ⟨s₁, earlier, step, rfl⟩ := step_of_trace split
  obtain rfl := trace_now run (mem_trace (step.subset (List.mem_cons_self ..)))
  obtain ⟨run₁, _⟩ := run.upTo step
  have within : earlier ⊆ past := fun e member => step.subset (List.mem_cons_of_mem _ member)
  have told := (run_traceable run₁ fun e member => calls e (within member)).told i
  obtain ⟨stamp, marks, issued⟩ := finds.issued closed typed fun e member => told e (by
    rw [show replies i earlier = before ++ look from looked]
    exact List.mem_append_right _ member)
  obtain ⟨e, member, at_e⟩ := issued.reading
  have first :=
    (List.pairwise_cons.mp (clocked.sublist step.sublist)).1 e member _ rfl stamp.now at_e
  refine ⟨s₁, earlier, stamp, step, first, issued, marks, fun low fresh =>
    ?_, fun low current => ?_⟩
  · rw [← marks] at fresh
    exact age_lt low fresh
  · rw [← marks] at current
    exact age_lt low current

def plainCache : SwrCache Unit := .new () (.moka 0) 5 5 1

omit [DecidableEq ι] in
/-- What one cache has set is fresh for another one, by the stamps of the first. -/
theorem found_issued_neighbour :
    ∃ (past : History (system .atomicMap)) (s : Config (system .atomicMap)),
    Run (system .atomicMap) (.idle (.empty : World Unit)) past s ∧
    (∃ look rest, replies 1 past = look ++ rest ∧
      plainCache.Finds "ns" "k" look ⟨true, 10, 20⟩) ∧
    ∃ earlier stamp, earlier <:+ past ∧ stamp.now ≤ 7 ∧ Issued earlier "ns:k" stamp ⟨(), true⟩ ∧
      stamp.mark true = ⟨true, 10, 20⟩ := by
  obtain ⟨past, s, played, clocked, called, th, at_1, task, read⟩ : ∃ past s,
      driver.play (fun _ _ => True) [.start (.set writerCache "ns" "k" true none),
        .go 0 (reading 0), .go 0 (reading 0), .start (.get plainCache "ns" "k"), .go 1 (reading 7),
        .go 1 (reading 7), .go 1 (reading 7)] ([], .idle .empty) = some (past, s) ∧
      Clocked past ∧
      past.filterMap (fun e => e.2.starting) =
        [.get plainCache "ns" "k", .set writerCache "ns" "k" true none] ∧
      ∃ th, s.threads[1]? = some th ∧ th.task = .get plainCache "ns" "k" ∧
        replies 1 past = [] ++
        [⟨.mapGet (.moka 0) "ns:k", some (.fromTypedWithSerializer () true 10 20)⟩,
          ⟨.now, (7 : Int)⟩] ++ ⟨.now, (7 : Int)⟩ :: [] :=
    ⟨_, _, rfl, by decide, rfl, _, rfl, rfl, rfl⟩
  obtain ⟨run, _⟩ := Driver.plays played
  have calls : ∀ e ∈ past, TypedCalls (fun _ => ()) e.2 := by
    intro e member task starts
    have among : task ∈ past.filterMap (fun e => e.2.starting) :=
      List.mem_filterMap.mpr ⟨e, member, starts⟩
    rw [called] at among
    simp only [List.mem_cons, List.not_mem_nil, or_false] at among
    rcases among with rfl | rfl
    · exact ⟨rfl, rfl⟩
    · exact ⟨rfl, rfl⟩
  have finds : plainCache.Finds "ns" "k"
      [⟨.mapGet (.moka 0) "ns:k", some (.fromTypedWithSerializer () true 10 20)⟩,
      ⟨.now, (7 : Int)⟩] (⟨true, 10, 20⟩ : Entry Bool) := ⟨_, .op (.op .ret), rfl⟩
  obtain ⟨s₁, earlier, stamp, step, first, issued, marks, _⟩ :=
    found_issued run calls clocked at_1 (.inl task) read finds
  exact ⟨past, s, run, ⟨_, _, read, finds⟩, earlier, stamp, (List.suffix_cons _ _).trans step,
    first, issued, marks⟩

end Swr
