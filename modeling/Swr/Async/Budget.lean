import Mathlib.Algebra.GroupWithZero.Nat
import Swr.Async.Trace

/-! # Budgets

Commands have a cost, and the code of a task has to get along with the budget of the
task. A task that starts another one pays the budget of the new task out of its own, so
a family of threads spends no more than the call it began with was given, whatever
other threads do.
-/

namespace Async

namespace Prog

variable {S : Sig} {α β γ : Type} {cost cost' : S.Cmd → Nat} {n m : Nat}

/-- On every path the commands cost no more than `n` together. -/
def Costs (cost : S.Cmd → Nat) : Prog S α → Nat → Prop
  | .ret _, _ => True
  | .op c rest, n => ∃ m, cost c + m ≤ n ∧ ∀ r, (rest r).Costs cost m
  | .choice left right, n => left.Costs cost n ∧ right.Costs cost n

theorem Costs.mono {p : Prog S α} (costs : p.Costs cost n) (more : n ≤ m) : p.Costs cost m := by
  induction p generalizing n m with
  | ret => trivial
  | op c rest ih =>
      obtain ⟨left, pays, onward⟩ := costs
      exact ⟨left, Nat.le_trans pays more, onward⟩
  | choice left right ihl ihr => exact ⟨ihl costs.1 more, ihr costs.2 more⟩

theorem Costs.bind {p : Prog S α} {next : α → Prog S β} (first : p.Costs cost n)
    (rest : ∀ value, (next value).Costs cost m) : (p >>= next).Costs cost (n + m) := by
  induction p generalizing n with
  | ret value => exact (rest value).mono (Nat.le_add_left _ _)
  | op c k ih =>
      obtain ⟨left, pays, onward⟩ := first
      exact ⟨left + m, by omega, fun r => ih r (onward r)⟩
  | choice left right ihl ihr => exact ⟨ihl first.1, ihr first.2⟩

theorem Only.free {N : S.Cmd → Prop} {p : Prog S α} (uses : p.Only N)
    (free : ∀ c, N c → cost c = 0) : p.Costs cost 0 := by
  induction p with
  | ret => trivial
  | op c rest ih => exact ⟨0, Nat.le_of_eq (free c uses.1), fun r => ih r (uses.2 r)⟩
  | choice left right ihl ihr => exact ⟨ihl uses.1, ihr uses.2⟩

/-! ## Joined programs -/

private theorem Costs.beside {c : S.Cmd} {left : S.Ans c → Prog S β → Prog S γ}
    {last : β → Prog S γ} {q : Prog S β} {k : Nat} (pays : cost c + k ≤ n)
    (onLeft : ∀ r q m, q.Costs cost m → (left r q).Costs cost (k + m))
    (onLast : ∀ value, (last value).Costs cost n) (second : q.Costs cost m) :
    (Prog.beside c left last q).Costs cost (n + m) := by
  induction q generalizing m with
  | ret value => exact (onLast value).mono (Nat.le_add_right _ _)
  | op d rest ih =>
      obtain ⟨m', pays', onward⟩ := second
      refine ⟨⟨k + m, by omega, fun r => onLeft r _ m ⟨m', pays', onward⟩⟩, ?_⟩
      exact ⟨n + m', by omega, fun r => ih r (onward r)⟩
  | choice q₁ q₂ ih₁ ih₂ => exact ⟨ih₁ second.1, ih₂ second.2⟩

theorem Costs.par {p : Prog S α} {q : Prog S β} (first : p.Costs cost n) (second : q.Costs cost m) :
    (par p q).Costs cost (n + m) := by
  induction p generalizing q n m with
  | ret value =>
      have costs : (q >>= fun other => .ret (value, other)).Costs cost (m + 0) :=
        second.bind fun _ => trivial
      exact costs.mono (Nat.le_add_left _ _)
  | op c rest ih =>
      obtain ⟨k, pays, onward⟩ := first
      refine Costs.beside pays (fun r q m hq => ih r (onward r) hq) (fun value => ?_) second
      exact ⟨k, pays, fun r => (onward r).bind (m := 0) fun _ => trivial⟩
  | choice p₁ p₂ ih₁ ih₂ => exact ⟨ih₁ first.1 second, ih₂ first.2 second⟩

theorem Costs.joinAll {ps : List (Prog S α)} {ns : List Nat}
    (each : List.Forall₂ (Costs cost) ps ns) : (joinAll ps).Costs cost ns.sum := by
  induction each with
  | nil => trivial
  | cons here _ ih => exact (here.par ih).bind (m := 0) fun _ => trivial

theorem Costs.cheaper {p : Prog S α} (costs : p.Costs cost n) (less : ∀ c, cost' c ≤ cost c) :
    p.Costs cost' n := by
  induction p generalizing n with
  | ret => trivial
  | op c rest ih =>
      obtain ⟨m, pays, onward⟩ := costs
      have here := less c
      exact ⟨m, by omega, fun r => ih r (onward r)⟩
  | choice left right ihl ihr => exact ⟨ihl costs.1, ihr costs.2⟩

/-! ## What was spent -/

/-- The cost of what was answered. -/
def paid (cost : S.Cmd → Nat) (log : List (Σ c, S.Ans c)) : Nat := (log.map fun e => cost e.1).sum

@[simp] theorem paid_nil : paid cost [] = 0 := rfl

@[simp] theorem paid_cons (e : Σ c, S.Ans c) (log : List (Σ c, S.Ans c)) :
    paid cost (e :: log) = cost e.1 + paid cost log := rfl

theorem paid_one (log : List (Σ c, S.Ans c)) : paid (fun _ => 1) log = log.length := by
  simp [paid]

/-- What is left of a program gets along with what is left of the budget. -/
theorem Costs.leads {p q : Prog S α} {log : List (Σ c, S.Ans c)} (costs : p.Costs cost n)
    (leads : p.Leads log q) : ∃ m, paid cost log + m ≤ n ∧ q.Costs cost m := by
  induction leads generalizing n with
  | refl => exact ⟨n, by simp, costs⟩
  | op _ ih =>
      obtain ⟨k, pays, onward⟩ := costs
      obtain ⟨m, sum, rest⟩ := ih (onward _)
      exact ⟨m, by simp only [paid_cons]; omega, rest⟩
  | left _ ih => exact ih costs.1
  | right _ ih => exact ih costs.2

theorem Costs.reaches {p : Prog S α} {log : List (Σ c, S.Ans c)} {c : S.Cmd}
    (costs : p.Costs cost n) (reaches : p.Reaches log c) : paid cost log + cost c ≤ n := by
  induction reaches generalizing n with
  | here =>
      obtain ⟨m, pays, _⟩ := costs
      simp only [paid_nil]
      omega
  | op _ ih =>
      obtain ⟨m, pays, onward⟩ := costs
      have rest := ih (onward _)
      simp only [paid_cons]
      omega
  | left _ ih => exact ih costs.1
  | right _ ih => exact ih costs.2

end Prog

variable {M : System}

/-! ## Families -/

/-- What a command costs together with the tasks it starts. -/
def price (cost : M.sig.Cmd → Nat) (budget : M.Task → Nat) (c : M.sig.Cmd) : Nat :=
  cost c + ((M.spawned c).map budget).sum

/-- What threads of the families `R` have spent. -/
def spent (cost : M.sig.Cmd → Nat) (R : Nat → Bool) : History M → Nat
  | [] => 0
  | (s, .exec i _ c _) :: past =>
      spent cost R past + if (s.threads[i]?).any (fun th => R th.root) then cost c else 0
  | (_, .start _) :: past | (_, .turn _ _) :: past | (_, .drop _) :: past => spent cost R past

/-- What the families `R` were given when they were called. -/
def granted (budget : M.Task → Nat) (R : Nat → Bool) : History M → Nat
  | [] => 0
  | (s, .start task) :: past =>
      granted budget R past + if R s.threads.length then budget task else 0
  | (_, .exec ..) :: past | (_, .turn _ _) :: past | (_, .drop _) :: past => granted budget R past

/-- `n` is enough for what is left of the threads of the families `R`. -/
def Funded (cost : M.sig.Cmd → Nat) (R : Nat → Bool) : List (Thread M) → Nat → Prop
  | [], _ => True
  | th :: threads, n => ∃ k m, k + m ≤ n ∧
      (R th.root = true → ∀ p, th.prog = some p → p.Costs cost k) ∧ Funded cost R threads m

namespace Funded

variable {cost : M.sig.Cmd → Nat} {R : Nat → Bool} {threads more : List (Thread M)} {n m : Nat}

theorem mono (funded : Funded cost R threads n) (enough : n ≤ m) : Funded cost R threads m := by
  cases threads with
  | nil => trivial
  | cons th threads =>
      obtain ⟨k, rest, sum, mine, others⟩ := funded
      exact ⟨k, rest, by omega, mine, others⟩

theorem append (first : Funded cost R threads n) (second : Funded cost R more m) :
    Funded cost R (threads ++ more) (n + m) := by
  induction threads generalizing n with
  | nil => exact second.mono (Nat.le_add_left _ _)
  | cons th threads ih =>
      obtain ⟨k, rest, sum, mine, others⟩ := first
      exact ⟨k, rest + m, by omega, mine, ih others⟩

theorem set {i : Nat} {th th' : Thread M} {spends : Nat} (funded : Funded cost R threads n)
    (at_i : threads[i]? = some th)
    (moves : ∀ k, (R th.root = true → ∀ p, th.prog = some p → p.Costs cost k) →
      ∃ k', spends + k' ≤ k ∧ (R th'.root = true → ∀ p, th'.prog = some p → p.Costs cost k')) :
    ∃ m, spends + m ≤ n ∧ Funded cost R (threads.set i th') m := by
  induction threads generalizing i n with
  | nil => cases at_i
  | cons th₀ threads ih =>
      obtain ⟨k, rest, sum, mine, others⟩ := funded
      cases i with
      | zero =>
          obtain rfl := Option.some.inj at_i
          obtain ⟨k', pays, onward⟩ := moves k mine
          exact ⟨k' + rest, by omega, k', rest, Nat.le_refl _, onward, others⟩
      | succ i =>
          obtain ⟨m, pays, kept⟩ := ih others at_i
          exact ⟨k + m, by omega, k, m, Nat.le_refl _, mine, kept⟩

theorem keep {i : Nat} {th th' : Thread M} (funded : Funded cost R threads n)
    (at_i : threads[i]? = some th)
      (moves : ∀ k, (R th.root = true → ∀ p, th.prog = some p → p.Costs cost k) →
      R th'.root = true → ∀ p, th'.prog = some p → p.Costs cost k) :
      Funded cost R (threads.set i th') n := by
  obtain ⟨m, pays, kept⟩ : ∃ m, 0 + m ≤ n ∧ Funded cost R (threads.set i th') m :=
    funded.set at_i fun k costs => ⟨k, by omega, moves k costs⟩
  exact kept.mono (by omega)

/-- New threads need the budgets of their tasks, and nothing if they are of no interest. -/
theorem spawned {budget : M.Task → Nat} (bodies : ∀ task, (M.body task).Costs cost (budget task))
    (tasks : List M.Task) (root : Nat) : Funded cost R (tasks.map (Thread.spawn · root))
      (if R root then (tasks.map budget).sum else 0) := by
  induction tasks with
  | nil => trivial
  | cons task tasks ih =>
      refine ⟨if R root then budget task else 0, _, ?_, ?_, ih⟩
      · split
        · simp
        · simp
      · intro member p prog
        obtain rfl := Option.some.inj prog
        simp only [Thread.spawn] at member
        rw [if_pos member]
        exact bodies task

end Funded

namespace Run

variable {w : M.World} {past : History M} {s : Config M} {cost : M.sig.Cmd → Nat}
  {budget : M.Task → Nat}

/-- One step of a family is paid out of what the family has left. -/
theorem funded_step {s' : Config M} {l : Label M} {R : Nat → Bool} {n : Nat}
    (bodies : ∀ task, (M.body task).Costs (price cost budget) (budget task)) (taken : Step M s l s')
    (funded : Funded (price cost budget) R s.threads n)
    (sum : spent cost R past + n ≤ granted budget R past) :
    ∃ n', Funded (price cost budget) R s'.threads n' ∧
      spent cost R ((s, l) :: past) + n' ≤ granted budget R ((s, l) :: past) := by
  cases taken with
  | start task =>
      have new := Funded.spawned (R := R) bodies [task] s.threads.length
      refine ⟨_, funded.append new, ?_⟩
      simp only [spent, granted, List.map_cons, List.map_nil, List.sum_cons,
        List.sum_nil, Nat.add_zero]
      omega
  | @exec _ i th c rest _ r _ at_i next =>
      have mine : (s.threads[i]?).any (fun th => R th.root) = R th.root := by rw [at_i]; rfl
      have pays : ∃ m, (if R th.root then price cost budget c else 0) + m ≤ n ∧
          Funded (price cost budget) R (s.threads.set i { th with prog := some (rest r) }) m := by
        refine funded.set at_i fun k costs => ?_
        cases member : R th.root with
        | false => exact ⟨k, by simp, fun other => by cases other⟩
        | true =>
            obtain ⟨k', pays, onward⟩ := costs member _ next
            refine ⟨k', by simpa using pays, fun _ p prog => ?_⟩
            obtain rfl := Option.some.inj prog
            exact onward r
      obtain ⟨m, pays, kept⟩ := pays
      refine ⟨_, kept.append (Funded.spawned bodies (M.spawned c) th.root), ?_⟩
      simp only [spent, granted, mine]
      split at pays
      · next member =>
          simp only [price] at pays
          simp only [if_pos member]
          omega
      · next other =>
          simp only [if_neg other]
          omega
  | turn at_i next =>
      refine ⟨n, funded.keep at_i fun k costs member p prog => ?_, sum⟩
      obtain rfl := Option.some.inj prog
      have both := costs member _ next
      split
      · exact both.1
      · exact both.2
  | drop at_i =>
      refine ⟨n, funded.keep at_i fun k _ _ p prog => ?_, sum⟩
      cases prog

/-- No families spend more than their calls were given. -/
theorem spent_le (bodies : ∀ task, (M.body task).Costs (price cost budget) (budget task))
    (R : Nat → Bool) (run : Run M (.idle w) past s) :
    spent cost R past ≤ granted budget R past := by
  suffices ∃ n, Funded (price cost budget) R s.threads n ∧
    spent cost R past + n ≤ granted budget R past by
    obtain ⟨n, _, sum⟩ := this
    omega
  induction run with
  | refl => exact ⟨0, trivial, Nat.le_refl _⟩
  | step before taken ih =>
      obtain ⟨n, funded, sum⟩ := ih
      exact funded_step bodies taken funded sum

/-- A family is given the budget of the call that it began with. -/
theorem granted_family (budget : M.Task → Nat) (run : Run M (.idle w) past s) (root : Nat) :
    granted budget (· == root) past ≤ ((s.threads[root]?).map fun th => budget th.task).getD 0 := by
  induction run with
  | refl => simp [granted]
  | @step past s l s' before taken ih =>
      have kept : ∀ th, s.threads[root]? = some th →
          granted budget (· == root) past ≤
            ((s'.threads[root]?).map fun th => budget th.task).getD 0 := by
        intro th at_root
        obtain ⟨th', at_root', task, _⟩ := taken.persists at_root
        rw [at_root', Option.map_some, Option.getD_some, task]
        rw [at_root, Option.map_some, Option.getD_some] at ih
        exact ih
      have old : granted budget (· == root) past ≤
          ((s'.threads[root]?).map fun th => budget th.task).getD 0 := by
        cases here : s.threads[root]? with
        | some th => exact kept th here
        | none =>
            rw [here] at ih
            simp only [Option.map_none, Option.getD_none] at ih
            omega
      cases taken with
      | exec | turn | drop => exact old
      | start task =>
          simp only [granted]
          split
          · next same =>
              have first : s.threads.length = root := by simpa using same
              subst first
              rw [List.getElem?_eq_none (Nat.le_refl _)] at ih
              simp only [Option.map_none, Option.getD_none] at ih
              simp only [List.getElem?_concat_length, Option.map_some,
                Option.getD_some, Thread.spawn]
              omega
          · exact old

/-- What one family spends is bounded by the budget of its call. -/
theorem spent_family (bodies : ∀ task, (M.body task).Costs (price cost budget) (budget task))
    (run : Run M (.idle w) past s) {root : Nat} {th : Thread M}
    (at_root : s.threads[root]? = some th) : spent cost (· == root) past ≤ budget th.task := by
  have bound := run.granted_family budget root
  rw [at_root, Option.map_some, Option.getD_some] at bound
  exact Nat.le_trans (run.spent_le bodies _) bound

/-- What one thread pays is bounded by the budget of its task. -/
theorem paid_le (costs : ∀ task, (M.body task).Costs cost (budget task))
    (run : Run M (.idle w) past s) {i : Nat} {th : Thread M} (at_i : s.threads[i]? = some th) :
    Prog.paid cost (replies i past) ≤ budget th.task := by
  rcases List.eq_nil_or_concat (replies i past) with none | ⟨before, ⟨c, r⟩, last⟩
  · rw [none]
    exact Nat.zero_le _
  · rw [List.concat_eq_append] at last
    obtain ⟨s₁, t, earlier, step, answered⟩ := step_of_replies last
    obtain ⟨th₁, at_i₁, reaches⟩ := run.reached step
    obtain ⟨th', at_i', same, _⟩ := run.persists (step.subset (List.mem_cons_self ..)) at_i₁
    obtain rfl := Option.some.inj (at_i.symm.trans at_i')
    have bound := (costs th₁.task).reaches reaches
    rw [last, same, Prog.paid, List.map_append, List.sum_append]
    simpa [Prog.paid, answered] using bound

end Run

/-! ## Counting commands -/

/-- What a step costs. -/
def Label.cost (cost : M.sig.Cmd → Nat) : Label M → Nat
  | .exec _ _ c _ => cost c
  | .start _ | .turn .. | .drop _ => 0

/-- What all steps together cost. -/
def outlay (cost : M.sig.Cmd → Nat) (past : History M) : Nat :=
  (past.map fun e => e.2.cost cost).sum

/-- The number of commands among the steps. -/
abbrev commands (past : History M) : Nat := outlay (fun _ => 1) past

theorem outlay_append (cost : M.sig.Cmd → Nat) (later past : History M) :
    outlay cost (later ++ past) = outlay cost later + outlay cost past := by
  simp [outlay]

theorem spent_all {init s : Config M} {past : History M} (cost : M.sig.Cmd → Nat)
    (run : Run M init past s) : spent cost (fun _ => true) past = outlay cost past := by
  induction run with
  | refl => rfl
  | step before taken ih =>
      cases taken with
      | exec at_i => simp [spent, outlay, at_i, Label.cost, ih, Nat.add_comm]
      | start | turn | drop => simpa [spent, outlay, Label.cost] using ih

theorem granted_all (budget : M.Task → Nat) (past : History M) :
    granted budget (fun _ => true) past =
      ((past.filterMap fun e => e.2.starting).map budget).sum := by
  induction past with
  | nil => rfl
  | cons e past ih =>
      obtain ⟨s, l⟩ := e
      cases l with
      | start => simp [granted, Label.starting, ih, Nat.add_comm]
      | exec | turn | drop => simpa [granted, Label.starting] using ih

/-- Everything is paid for by the calls. -/
theorem Run.outlay_le {w : M.World} {past : History M} {s : Config M} {cost : M.sig.Cmd → Nat}
    {budget : M.Task → Nat} (bodies : ∀ task, (M.body task).Costs (price cost budget) (budget task))
    (run : Run M (.idle w) past s) :
    outlay cost past ≤ ((past.filterMap fun e => e.2.starting).map budget).sum := by
  have bound := run.spent_le bodies fun _ => true
  rwa [spent_all _ run, granted_all] at bound

/-! ## Finishing alone -/

/-- Whatever is asked and whenever, there is an answer. -/
def System.Answers (M : System) : Prop := ∀ i t w c, ∃ r w', M.exec i t w c r w'

/-- The step is one of thread `i`, and commands are answered at time `t`. -/
def Label.Solo (i : Nat) (t : Int) : Label M → Prop
  | .exec j t' _ _ => j = i ∧ t' = t
  | .turn j _ => j = i
  | .start _ | .drop _ => False

/-- A thread that is left alone comes to its end, with no more commands than its program
    costs. -/
theorem Prog.Costs.finishes (answers : M.Answers) {p : Prog M.sig M.Out} {n : Nat}
    {s : Config M} {i : Nat} {th : Thread M} (costs : p.Costs (fun _ => 1) n)
    (at_i : s.threads[i]? = some th) (prog : th.prog = some p) (t : Int) :
    ∃ later s' th' out, Run M s later s' ∧ (∀ e ∈ later, e.2.Solo i t) ∧ commands later ≤ n ∧
      s'.threads[i]? = some th' ∧ th'.task = th.task ∧ th'.Finished out := by
  have inside : i < s.threads.length := (List.getElem?_eq_some_iff.mp at_i).1
  induction p generalizing n s th with
  | ret out =>
      exact ⟨[], s, th, out, .refl, List.forall_mem_nil _, Nat.zero_le _, at_i, rfl, prog⟩
  | op c rest ih =>
      obtain ⟨m, pays, onward⟩ := costs
      obtain ⟨r, w', done⟩ := answers i t s.world c
      have taken := Step.exec at_i prog done
      have moved : (s.threads.set i { th with prog := some (rest r) } ++
          (M.spawned c).map (Thread.spawn · th.root))[i]? = some
          { th with prog := some (rest r) } := by
        rw [List.getElem?_append_left (by simpa using inside), List.getElem?_set_self inside]
      obtain ⟨later, s', th', out, run, solo, few, found, task, finished⟩ :=
        ih r (onward r) (s := ⟨w', _⟩) moved rfl (List.getElem?_eq_some_iff.mp moved).1
      refine ⟨later ++ [(s, .exec i t c r)], s', th', out, (Run.refl.step taken).trans run, ?_,
        ?_, found, task, finished⟩
      · intro e member
        rcases List.mem_append.mp member with after | first
        · exact solo e after
        · obtain rfl := List.mem_singleton.mp first
          exact ⟨rfl, rfl⟩
      · calc commands (later ++ [(s, .exec i t c r)]) = commands later + 1 := outlay_append ..
          _ ≤ m + 1 := Nat.add_le_add_right few 1
          _ = 1 + m := Nat.add_comm ..
          _ ≤ n := pays
  | choice left right ihl ihr =>
      have taken : Step M s (.turn i true) _ := Step.turn at_i prog
      have turned : (s.threads.set i { th with prog := some left })[i]? =
          some { th with prog := some left } :=
        List.getElem?_set_self inside
      obtain ⟨later, s', th', out, run, solo, few, found, task, finished⟩ :=
        ihl costs.1 (s := ⟨s.world, _⟩) turned rfl (List.getElem?_eq_some_iff.mp turned).1
      refine ⟨later ++ [(s, .turn i true)], s', th', out, (Run.refl.step taken).trans run, ?_,
        ?_, found, task, finished⟩
      · intro e member
        rcases List.mem_append.mp member with after | first
        · exact solo e after
        · obtain rfl := List.mem_singleton.mp first
          rfl
      · rw [commands, outlay_append]
        exact few

end Async
