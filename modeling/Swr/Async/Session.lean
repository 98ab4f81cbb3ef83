import Swr.Async.Schedule
import Swr.Async.Sequential

/-! # Sessions

Tasks that run one at a time, each from its start to its end. A task leaves the tasks
that it has spawned behind; they are resumed later, and every agent resumes its own.
What happens in a session is a run of the machine.
-/

namespace Async

variable {M : System} {Input A : Type}

/-- What a program on its own has done so far. -/
structure Solo (M : System) where
  world : M.World
  spawned : List M.Task
  issued : List M.sig.Cmd

/-- The tasks that were spawned and not run yet are pending, each with its thread. -/
structure Session (M : System) (A : Type) where
  world : M.World
  /-- How many threads there are. -/
  started : Nat
  pending : A → List (M.Task × Nat)

/-- Call a task, or resume the `n`-th pending one. -/
inductive Act (M : System) where
  | call (task : M.Task)
  | resume (n : Nat)

/-- The `n`-th command of a turn is answered by the `n`-th input. -/
structure Turn (M : System) (Input A : Type) where
  agent : A
  act : Act M
  inputs : Nat → Input
  coins : List Bool

namespace Session

def idle (w : M.World) : Session M A := ⟨w, 0, fun _ => []⟩

variable [DecidableEq A]

def pick (s : Session M A) (agent : A) : Act M → Option ((M.Task × Nat) × Session M A)
  | .call task => some ((task, s.started), { s with started := s.started + 1 })
  | .resume n =>
      match (s.pending agent)[n]? with
      | some next => some (next,
          { s with pending := Function.update s.pending agent ((s.pending agent).eraseIdx n) })
      | none => none

def leave (s : Session M A) (agent : A) (a : Solo M) : Session M A :=
  ⟨a.world, s.started + a.spawned.length,
    Function.update s.pending agent (s.pending agent ++ a.spawned.zipIdx s.started)⟩

end Session

/-- What a machine that answers each input answers to a list of them, and its state in
    the end. -/
def replay {Op Out σ : Type} (step : Op → σ → Out × σ) : List Op → σ → List Out × σ
  | [], s => ([], s)
  | op :: ops, s =>
      let rest := replay step ops (step op s).2
      ((step op s).1 :: rest.1, rest.2)

namespace Driver

/-- Answer a command of thread `i`. -/
def alone (D : Driver M Input) (i : Nat) (inputs : Nat → Input) (c : M.sig.Cmd) (a : Solo M) :
    M.sig.Ans c × Solo M :=
  let answer := D.answer (inputs a.issued.length) i a.world c
  (answer.1, ⟨answer.2, a.spawned ++ M.spawned c, a.issued ++ [c]⟩)

def runTask (D : Driver M Input) (i : Nat) (inputs : Nat → Input) (coins : List Bool)
    (task : M.Task) (w : M.World) : M.Out × Solo M :=
  let done := (M.body task).run (D.alone i inputs) ⟨w, [], []⟩ coins
  (done.1, done.2.1)

variable [DecidableEq A]

def turn (D : Driver M Input) (t : Turn M Input A) (s : Session M A) :
    Option (M.Out × List M.sig.Cmd) × Session M A :=
  match s.pick t.agent t.act with
  | none => (none, s)
  | some ((task, i), rest) =>
      let done := D.runTask i t.inputs t.coins task rest.world
      (some (done.1, done.2.issued), rest.leave t.agent done.2)

/-- All turns of a session, one after the other. -/
def session (D : Driver M Input) :
    List (Turn M Input A) → Session M A → List (A × Option (M.Out × List M.sig.Cmd)) × Session M A
  | [], s => ([], s)
  | t :: ts, s =>
      let rest := D.session ts (D.turn t s).2
      ((t.agent, (D.turn t s).1) :: rest.1, rest.2)

end Driver

/-! ## A session is a run -/

/-- What a program does on its own, a thread of the machine can do. -/
theorem Driver.run_alone (D : Driver M Input) {i : Nat} (inputs : Nat → Input) {task : M.Task}
    {root : Nat} {p : Prog M.sig M.Out} {threads : List (Thread M)} (a : Solo M) (coins : List Bool)
    (at_i : threads[i]? = some ⟨task, root, some p⟩) :
    ∃ past new, (p.run (D.alone i inputs) a coins).2.1.spawned = a.spawned ++ new ∧
      Run M ⟨a.world, threads⟩ past ⟨(p.run (D.alone i inputs) a coins).2.1.world,
        threads.set i ⟨task, root, some (.ret (p.run (D.alone i inputs) a coins).1)⟩ ++
          new.map (Thread.spawn · root)⟩ := by
  have inside := (List.getElem?_eq_some_iff.mp at_i).1
  induction p generalizing threads a coins with
  | ret out =>
      refine ⟨[], [], by simp, ?_⟩
      have same : threads.set i ⟨task, root, some (.ret out)⟩ = threads := by
        rw [← (List.getElem?_eq_some_iff.mp at_i).2, List.set_getElem_self]
      simp only [Prog.run_ret, same, List.map_nil, List.append_nil]
      exact .refl
  | op c rest ih =>
      let r := (D.alone i inputs c a).1
      have taken : Step M ⟨a.world, threads⟩ (.exec i (D.time (inputs a.issued.length)) c r)
          ⟨(D.alone i inputs c a).2.world, threads.set i ⟨task, root, some (rest r)⟩ ++
            (M.spawned c).map (Thread.spawn · root)⟩ :=
        Step.exec (s := ⟨a.world, threads⟩) at_i rfl (D.sound _ i a.world c)
      have at_i' : (threads.set i ⟨task, root, some (rest r)⟩ ++
          (M.spawned c).map (Thread.spawn · root))[i]? = some ⟨task, root, some (rest r)⟩ := by
        rw [List.getElem?_append_left (by simpa using inside), List.getElem?_set_self inside]
      obtain ⟨past, new, spawned, run⟩ := ih r (D.alone i inputs c a).2 coins at_i'
        (by simp only [List.length_append, List.length_set]; omega)
      rw [List.set_append_left _ _ (by simpa using inside), List.set_set, List.append_assoc,
        ← List.map_append] at run
      exact ⟨_, M.spawned c ++ new, spawned.trans (List.append_assoc _ _ _),
        Run.trans (.step .refl taken) run⟩
  | choice p q ihp ihq =>
      have taken (left : Bool) : Step M ⟨a.world, threads⟩ (.turn i left)
          ⟨a.world, threads.set i ⟨task, root, some (if left then p else q)⟩⟩ :=
        Step.turn (s := ⟨a.world, threads⟩) at_i rfl
      have here (p : Prog M.sig M.Out) :
          (threads.set i ⟨task, root, some p⟩)[i]? = some ⟨task, root, some p⟩ :=
        List.getElem?_set_self inside
      simp only [Prog.run]
      split
      · obtain ⟨past, new, spawned, run⟩ :=
          ihp a (Prog.toss coins).2 (here p) (by simpa using inside)
        rw [List.set_set] at run
        exact ⟨_, new, spawned, Run.trans (.step .refl (taken true)) run⟩
      · obtain ⟨past, new, spawned, run⟩ :=
          ihq a (Prog.toss coins).2 (here q) (by simpa using inside)
        rw [List.set_set] at run
        exact ⟨_, new, spawned, Run.trans (.step .refl (taken false)) run⟩

namespace Session

/-- The configuration has a thread that has not begun for every pending task. -/
structure Shown (s : Session M A) (cfg : Config M) : Prop where
  world : cfg.world = s.world
  started : cfg.threads.length = s.started
  pending : ∀ agent task i, (task, i) ∈ s.pending agent →
    ∃ root, cfg.threads[i]? = some (.spawn task root)
  apart : ∀ agent, ((s.pending agent).map Prod.snd).Nodup
  owned : ∀ agent agent' i, i ∈ (s.pending agent).map Prod.snd →
    i ∈ (s.pending agent').map Prod.snd → agent = agent'

theorem shown_idle {w : M.World} : (idle w : Session M A).Shown (.idle w) where
  world := rfl
  started := rfl
  pending _ _ _ member := by cases member
  apart _ := List.nodup_nil
  owned _ _ _ member := by cases member

variable {s rest : Session M A} {cfg : Config M} {agent : A} {act : Act M} {task : M.Task} {i : Nat}

theorem Shown.lt (shown : s.Shown cfg) (member : i ∈ (s.pending agent).map Prod.snd) :
    i < s.started := by
  obtain ⟨⟨task, i⟩, pending, rfl⟩ := List.mem_map.mp member
  obtain ⟨root, at_i⟩ := shown.pending agent task i pending
  rw [← shown.started]
  exact (List.getElem?_eq_some_iff.mp at_i).1

variable [DecidableEq A]

theorem Shown.pick (shown : s.Shown cfg) (picked : s.pick agent act = some ((task, i), rest)) :
    ∃ past cfg' root, Run M cfg past cfg' ∧ rest.Shown cfg' ∧
      cfg'.threads[i]? = some (.spawn task root) ∧
      ∀ agent', i ∉ (rest.pending agent').map Prod.snd := by
  cases act with
  | call task' =>
      simp only [Session.pick, Option.some.injEq, Prod.mk.injEq] at picked
      obtain ⟨⟨rfl, rfl⟩, rfl⟩ := picked
      refine ⟨_, _, cfg.threads.length, .step .refl (.start task'), ?_, ?_, fun agent' member => ?_⟩
      · refine ⟨shown.world, by simp [shown.started], fun agent' task i member =>
          ?_, shown.apart, shown.owned⟩
        obtain ⟨root, at_i⟩ := shown.pending agent' task i member
        exact ⟨root, by rw [List.getElem?_append_left (List.getElem?_eq_some_iff.mp at_i).1, at_i]⟩
      · simp [← shown.started]
      · exact absurd (shown.lt member) (Nat.lt_irrefl _)
  | resume n =>
      simp only [Session.pick] at picked
      split at picked
      · next next at_n =>
          simp only [Option.some.injEq, Prod.mk.injEq] at picked
          obtain ⟨rfl, rfl⟩ := picked
          have fewer (agent' : A) :
              (Function.update s.pending agent ((s.pending agent).eraseIdx n) agent').Sublist
              (s.pending agent') := by
            by_cases same : agent' = agent
            · subst same
              simpa using List.eraseIdx_sublist _ _
            · simp [Function.update_of_ne same]
          obtain ⟨root, at_i⟩ := shown.pending agent task i (List.mem_of_getElem? at_n)
          refine ⟨[], cfg, root, .refl, ?_, at_i, fun agent' member => ?_⟩
          · exact ⟨shown.world, shown.started, fun agent' task i member =>
              shown.pending agent' task i ((fewer agent').subset member),
              fun agent' => (shown.apart agent').sublist ((fewer agent').map _),
              fun a b i first second => shown.owned a b i (((fewer a).map _).subset first)
                (((fewer b).map _).subset second)⟩
          · have here : i ∈ (s.pending agent).map Prod.snd :=
              List.mem_map.mpr ⟨(task, i), List.mem_of_getElem? at_n, rfl⟩
            obtain rfl := shown.owned _ _ i (((fewer agent').map _).subset member) here
            simp only [Function.update_self] at member
            obtain ⟨⟨task', i⟩, kept, rfl⟩ := List.mem_map.mp member
            obtain ⟨m, other, at_m⟩ := List.mem_eraseIdx_iff_getElem?.mp kept
            have same :
                ((s.pending agent').map Prod.snd)[m]? = ((s.pending agent').map Prod.snd)[n]? := by
              simp [at_m, at_n]
            have inside : m < ((s.pending agent').map Prod.snd).length := by
              simpa using (List.getElem?_eq_some_iff.mp at_m).1
            exact other ((List.getElem?_inj inside (shown.apart agent')).mp same)
      · cases picked

theorem Shown.leave {a : Solo M} {cfg' : Config M} {th : Thread M} {root : Nat}
    (shown : s.Shown cfg) (gone : ∀ agent', i ∉ (s.pending agent').map Prod.snd)
    (world : cfg'.world = a.world)
    (threads : cfg'.threads = cfg.threads.set i th ++ a.spawned.map (Thread.spawn · root)) :
    (s.leave agent a).Shown cfg' := by
  have old {agent' : A} {j : Nat} (member : j ∈ (s.pending agent').map Prod.snd) : j < s.started :=
    shown.lt member
  have parts {agent' : A} {entry : M.Task × Nat}
      (member : entry ∈ (s.leave agent a).pending agent') :
      entry ∈ s.pending agent' ∨ (agent' = agent ∧ entry ∈ a.spawned.zipIdx s.started) := by
    simp only [Session.leave] at member
    by_cases same : agent' = agent
    · subst same
      simpa using member
    · rw [Function.update_of_ne same] at member
      exact .inl member
  have new {j : Nat} (member : j ∈ (a.spawned.zipIdx s.started).map Prod.snd) : s.started ≤ j := by
    rw [List.zipIdx_map_snd] at member
    exact (List.mem_range'_1.mp member).1
  refine ⟨world, ?_, ?_, ?_, ?_⟩
  · simp [threads, Session.leave, shown.started]
  · intro agent' task j member
    rw [threads]
    rcases parts member with before | ⟨_, late⟩
    · obtain ⟨root', at_j⟩ := shown.pending agent' task j before
      have other : i ≠ j := by
        rintro rfl
        exact gone agent' (List.mem_map.mpr ⟨_, before, rfl⟩)
      refine ⟨root', ?_⟩
      rw [List.getElem?_append_left (by simpa using (List.getElem?_eq_some_iff.mp at_j).1),
        List.getElem?_set_ne other, at_j]
    · obtain ⟨le, found⟩ := List.mem_zipIdx_iff_le_and_getElem?_sub.mp late
      refine ⟨root, ?_⟩
      rw [List.getElem?_append_right (by simpa [shown.started] using le), List.getElem?_map,
        List.length_set, shown.started, found]
      rfl
  · intro agent'
    simp only [Session.leave]
    by_cases same : agent' = agent
    · subst same
      rw [Function.update_self, List.map_append]
      refine List.nodup_append.mpr ⟨shown.apart agent', ?_, fun j before j' late same => ?_⟩
      · rw [List.zipIdx_map_snd]
        exact List.nodup_range'
      · have lt := old before
        have ge := new late
        omega
    · rw [Function.update_of_ne same]
      exact shown.apart agent'
  · intro b b' j first second
    have split {agent' : A} (member : j ∈ ((s.leave agent a).pending agent').map Prod.snd) :
        j ∈ (s.pending agent').map Prod.snd ∨ (agent' = agent ∧ s.started ≤ j) := by
      obtain ⟨entry, inside, rfl⟩ := List.mem_map.mp member
      exact (parts inside).imp List.mem_map_of_mem fun late =>
        ⟨late.1, new (List.mem_map_of_mem late.2)⟩
    rcases split first with before | ⟨rfl, late⟩
    · rcases split second with before' | ⟨rfl, late'⟩
      · exact shown.owned b b' j before before'
      · have lt := old before
        omega
    · rcases split second with before' | ⟨rfl, _⟩
      · have lt := old before'
        omega
      · rfl

end Session

namespace Driver

variable [DecidableEq A] {D : Driver M Input} {s : Session M A} {cfg : Config M}

/-- Every turn is a run of the machine, at whose end the thread returns what the turn
    returns. -/
theorem turn_run (t : Turn M Input A) (shown : s.Shown cfg) : ∃ past cfg', Run M cfg past cfg' ∧
    (D.turn t s).2.Shown cfg' ∧ ∀ out issued, (D.turn t s).1 = some (out, issued) →
      ∃ th ∈ cfg'.threads, th.Finished out := by
  unfold turn
  cases picked : s.pick t.agent t.act with
  | none => exact ⟨[], cfg, .refl, shown, fun _ _ none => by cases none⟩
  | some next =>
      obtain ⟨⟨task, i⟩, rest⟩ := next
      obtain ⟨past, ⟨world, threads⟩, root, first, shown', at_i, gone⟩ := shown.pick picked
      obtain rfl : world = rest.world := shown'.world
      obtain ⟨past', new, spawned, second⟩ := D.run_alone t.inputs ⟨rest.world, [], []⟩ t.coins at_i
      rw [List.nil_append] at spawned
      subst spawned
      refine ⟨past' ++ past, _, first.trans second, shown'.leave gone rfl rfl,
        fun out issued same => ?_⟩
      obtain ⟨rfl, _⟩ := Prod.mk.inj (Option.some.inj same)
      have inside := (List.getElem?_eq_some_iff.mp at_i).1
      exact ⟨_, List.mem_append_left _ (List.mem_set inside _), rfl⟩

/-- A session is a run of the machine. -/
theorem session_run (ts : List (Turn M Input A)) (shown : s.Shown cfg) :
    ∃ past cfg', Run M cfg past cfg' ∧ (D.session ts s).2.Shown cfg' := by
  induction ts generalizing s cfg with
  | nil => exact ⟨[], cfg, .refl, shown⟩
  | cons t ts ih =>
      obtain ⟨first, cfg₁, run₁, shown₁, _⟩ := turn_run t shown
      obtain ⟨second, cfg₂, run₂, shown₂⟩ := ih shown₁
      exact ⟨second ++ first, cfg₂, run₁.trans run₂, shown₂⟩

end Driver

end Async
