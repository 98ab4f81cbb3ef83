import Swr.Async.Rest
import Swr.Markers
import Swr.Work

/-! # Settling

Once no more calls come in, everything that was started comes to its end by itself:
calls, revalidations, writes of loaded values, back-fills and deferred deletions. What
they leave behind holds no marker, so the next look-up that needs its origin goes there
without waiting.
-/

namespace Swr

open Async

variable {ι : Type} [SerdeJson ι] [DecidableEq ι] {X : ExtSemantics ι} {w : World ι}
  {past : History (system X)} {s : Config (system X)}

theorem held_finished
    (outlined : Outlined (markerOutline ι) (fun _ : Task ι => none) (Unmarked _) past s) {i : Nat}
    {th : Thread (system X)} {out : Out ι} (at_i : s.threads[i]? = some th)
    (finished : th.Finished out) : held i past = none :=
  Prog.keeps_ret.mp (outlined i th _ at_i finished)

theorem unmarked_of_returned (unmarked : w.Unmarked) (run : Run (system X) (.idle w) past s)
    (returned : ∀ (i : Nat) (th : Thread (system X)), s.threads[i]? = some th →
      ∃ out, th.Finished out) :
    s.world.Unmarked := by
  obtain ⟨outlined, owned⟩ := run_marked unmarked run
  intro revalidating key
  cases marked : s.world.markers revalidating key with
  | none => rfl
  | some i =>
      have holds := owned i revalidating key marked
      cases at_i : s.threads[i]? with
      | none =>
          rw [held_unstarted run (List.getElem?_eq_none_iff.mp at_i)] at holds
          cases holds
      | some th =>
          obtain ⟨out, finished⟩ := returned i th at_i
          rw [held_finished outlined at_i finished] at holds
          cases holds

/-- Whatever calls there were, and wherever they and their background tasks stand: without
    further calls no schedule goes on forever, and where one cannot go on everything has
    returned and no key is marked. -/
theorem all_settles (answers : X.Answers) (unmarked : w.Unmarked)
    (run : Run (system X) (.idle w) past s) (kept : ∀ e ∈ past, e.2.dropping = none) :
    Acc (fun after before => Onward before after) s ∧
      ∀ later s', Run (system X) s later s' → (∀ e ∈ later, e.2.Inner) → (∀ s'', ¬ Onward s' s'') →
        (∀ (i : Nat) (th : Thread (system X)), s'.threads[i]? = some th → ∃ out, th.Finished out) ∧
        s'.world.Unmarked := by
  refine ⟨run.halts Task.body_costs, fun later s' onward inner stuck => ?_⟩
  have whole := run.trans onward
  have undropped : ∀ e ∈ later ++ past, e.2.dropping = none := by
    intro e member
    rcases List.mem_append.mp member with after | before
    · have inside := inner e after
      cases e with
      | mk _ l => cases l <;> first | rfl | exact inside.elim
    · exact kept e before
  have returned : ∀ (i : Nat) (th : Thread (system X)), s'.threads[i]? = some th →
      ∃ out, th.Finished out := by
    intro i th at_i
    rcases stuck_atRest (exec_answers answers) stuck i th at_i with dropped | finished
    · exact absurd dropped (whole.not_dropped undropped at_i)
    · exact finished
  exact ⟨returned, unmarked_of_returned unmarked whole returned⟩

/-- One call is at its origin, another one waits for it, and a renewal was only just started. -/
theorem all_settles_loading :
    ∃ (past : History (system .atomicMap)) (s : Config (system .atomicMap)),
    Run (system .atomicMap) (.idle (.empty : World Unit)) past s ∧
    (∃ th, s.threads[1]? = some th ∧ th.At (.loadEnd busyCache "ns" "other")) ∧
    (∃ th, s.threads[2]? = some th ∧ th.At (.sleep 100)) ∧
    (∃ th, s.threads[4]? = some th ∧ th = .spawn (.revalidate busyCache "ns" "k") 3) ∧
    ∃ later s', Run (system .atomicMap) s later s' ∧ (∀ e ∈ later, e.2.Inner) ∧
      (∀ (i : Nat) (th : Thread (system .atomicMap)), s'.threads[i]? = some th →
        ∃ out, th.Finished out) ∧
      s'.world.Unmarked := by
  obtain ⟨past, s, played, loads, waits, renews⟩ : ∃ past s,
      driver.play (fun _ l => l.dropping = none) [.start (.set busyCache "ns" "k" true none),
        .go 0 (reading 0), .go 0 (reading 0), .start (.swr busyCache "ns" "other"),
        .go 1 (reading 0), .go 1 (reading 0), .go 1 (reading 0), .go 1 (reading 0),
        .start (.swr busyCache "ns" "other"), .go 2 (reading 0), .go 2 (reading 0),
        .start (.swr busyCache "ns" "k"), .go 3 (reading 15), .go 3 (reading 15),
        .go 3 (reading 15)] ([], .idle .empty) = some (past, s) ∧
      (∃ th, s.threads[1]? = some th ∧ th.At (.loadEnd busyCache "ns" "other")) ∧
      (∃ th, s.threads[2]? = some th ∧ th.At (.sleep 100)) ∧
      ∃ th, s.threads[4]? = some th ∧ th = .spawn (.revalidate busyCache "ns" "k") 3 :=
    ⟨_, _, rfl, ⟨_, rfl, _, rfl⟩, ⟨_, rfl, _, rfl⟩, _, rfl, rfl⟩
  obtain ⟨run, kept⟩ := Driver.plays played
  obtain ⟨halts, rests⟩ := all_settles atomicMap_answers (fun _ _ => rfl) run kept
  obtain ⟨later, s', onward, inner, stuck⟩ := Run.comes_to_rest halts
  exact ⟨past, s, run, loads, waits, renews, later, s', onward, inner,
    rests later s' onward inner stuck⟩

end Swr
