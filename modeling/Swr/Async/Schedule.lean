import Swr.Async.Machine

/-! # Playing a schedule

A machine whose commands have settled answers can be driven by a list of moves. What
comes out is one of its runs, so a run that is needed as an example is written down
as a schedule and computed.
-/

namespace Async

/-- A decision of the scheduler. `input` settles what the command is answered. -/
inductive Move (M : System) (Input : Type) where
  | start (task : M.Task)
  | go (i : Nat) (input : Input)
  | turn (i : Nat) (left : Bool)
  | drop (i : Nat)

variable {M : System} {Input : Type}

/-- Answers for every input, at the time the input says. -/
structure Driver (M : System) (Input : Type) where
  time : Input → Int
  answer : Input → Nat → M.World → (c : M.sig.Cmd) → M.sig.Ans c × M.World
  sound : ∀ input i w c, M.exec i (time input) w c (answer input i w c).1 (answer input i w c).2

namespace Driver

/-- One move, if it is possible. -/
def next (D : Driver M Input) (s : Config M) : Move M Input → Option (Label M × Config M)
  | .start task => some (.start task, ⟨s.world, s.threads ++ [.spawn task s.threads.length]⟩)
  | .go i input =>
      match s.threads[i]? with
      | some ⟨task, root, some (.op c rest)⟩ =>
          let (r, w) := D.answer input i s.world c
          some (.exec i (D.time input) c r,
            ⟨w, s.threads.set i ⟨task, root, some (rest r)⟩ ++
              (M.spawned c).map (Thread.spawn · root)⟩)
      | _ => none
  | .turn i left =>
      match s.threads[i]? with
      | some ⟨task, root, some (.choice p q)⟩ =>
          some (.turn i left,
            ⟨s.world, s.threads.set i ⟨task, root, some (if left then p else q)⟩⟩)
      | _ => none
  | .drop i =>
      match s.threads[i]? with
      | some ⟨task, root, _⟩ =>
          some (.drop i, ⟨s.world, s.threads.set i ⟨task, root, none⟩⟩)
      | none => none

theorem next_step {D : Driver M Input} {s s' : Config M} {m : Move M Input} {l : Label M}
    (h : D.next s m = some (l, s')) : Step M s l s' := by
  cases m with
  | start task =>
      simp only [next, Option.some.injEq, Prod.mk.injEq] at h
      obtain ⟨rfl, rfl⟩ := h
      exact .start task
  | go i input =>
      simp only [next] at h
      split at h
      · next at_i =>
          simp only [Option.some.injEq, Prod.mk.injEq] at h
          obtain ⟨rfl, rfl⟩ := h
          exact .exec at_i rfl (D.sound input i s.world _)
      · cases h
  | turn i left =>
      simp only [next] at h
      split at h
      · next at_i =>
          simp only [Option.some.injEq, Prod.mk.injEq] at h
          obtain ⟨rfl, rfl⟩ := h
          exact .turn at_i rfl
      · cases h
  | drop i =>
      simp only [next] at h
      split at h
      · next at_i =>
          simp only [Option.some.injEq, Prod.mk.injEq] at h
          obtain ⟨rfl, rfl⟩ := h
          exact .drop at_i
      · cases h

/-- All moves of a schedule, if they are possible and every step meets a condition. -/
def play (D : Driver M Input) (Good : Config M → Label M → Prop) [∀ s l, Decidable (Good s l)] :
    List (Move M Input) → History M × Config M → Option (History M × Config M)
  | [], reached => some reached
  | m :: ms, (past, s) =>
      match D.next s m with
      | some (l, s') => if Good s l then D.play Good ms ((s, l) :: past, s') else none
      | none => none

variable {D : Driver M Input} {Good : Config M → Label M → Prop} [∀ s l, Decidable (Good s l)]
  {init : Config M} {ms : List (Move M Input)} {past past' : History M} {s s' : Config M}

theorem play_run (before : Run M init past s) (h : D.play Good ms (past, s) = some (past', s')) :
    Run M init past' s' := by
  induction ms generalizing past s with
  | nil =>
      simp only [play, Option.some.injEq, Prod.mk.injEq] at h
      obtain ⟨rfl, rfl⟩ := h
      exact before
  | cons m ms ih =>
      simp only [play] at h
      split at h
      · next taken =>
          split at h
          · exact ih (before.step (next_step taken)) h
          · cases h
      · cases h

theorem play_good (before : ∀ e ∈ past, Good e.1 e.2)
    (h : D.play Good ms (past, s) = some (past', s')) : ∀ e ∈ past', Good e.1 e.2 := by
  induction ms generalizing past s with
  | nil =>
      simp only [play, Option.some.injEq, Prod.mk.injEq] at h
      obtain ⟨rfl, rfl⟩ := h
      exact before
  | cons m ms ih =>
      simp only [play] at h
      split at h
      · split at h
        · next good => exact ih (List.forall_mem_cons.mpr ⟨good, before⟩) h
        · cases h
      · cases h

/-- A schedule that can be played from the idle configuration is a run whose steps
    all meet the condition. -/
theorem plays (h : D.play Good ms ([], init) = some (past, s)) :
    Run M init past s ∧ ∀ e ∈ past, Good e.1 e.2 :=
  ⟨play_run .refl h, play_good (List.forall_mem_nil _) h⟩

end Driver

end Async
