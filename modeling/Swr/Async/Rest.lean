import Swr.Async.Budget

/-! # Coming to rest

What happens when no more calls come in. Every command is paid for out of a budget that
was granted with a call, and between two commands of a thread there are finitely many
turns. So no schedule goes on forever, and one that cannot go on has left no thread at work.
-/

namespace Async

namespace Prog

variable {S : Sig} {α : Type}

/-- The most turns that may come before the next command. -/
def turns : Prog S α → Nat
  | .ret _ | .op _ _ => 0
  | .choice left right => max left.turns right.turns + 1

theorem turns_choice (left right : Prog S α) (first : Bool) :
    (if first then left else right).turns < (Prog.choice left right).turns := by
  cases first with
  | true => exact Nat.lt_succ_of_le (Nat.le_max_left _ _)
  | false => exact Nat.lt_succ_of_le (Nat.le_max_right _ _)

end Prog

variable {M : System}

/-- The step is one of the machine itself: nobody calls, and nobody drops a thread. -/
def Label.Inner : Label M → Prop
  | .exec .. | .turn .. => True
  | .start _ | .drop _ => False

/-- The machine goes on by itself. -/
def Onward (s s' : Config M) : Prop := ∃ l : Label M, l.Inner ∧ Step M s l s'

def Thread.turns (th : Thread M) : Nat := th.prog.elim 0 Prog.turns

/-- No thread is at work. -/
def Config.AtRest (s : Config M) : Prop :=
  ∀ (i : Nat) (th : Thread M), s.threads[i]? = some th → th.Gone

theorem sum_set_lt {A : Type} {f : A → Nat} {as : List A} {i : Nat} {a a' : A}
    (at_i : as[i]? = some a) (less : f a' < f a) : ((as.set i a').map f).sum < (as.map f).sum := by
  induction as generalizing i with
  | nil => cases at_i
  | cons b as ih =>
      cases i with
      | zero =>
          obtain rfl := Option.some.inj at_i
          simp only [List.set_cons_zero, List.map_cons, List.sum_cons]
          omega
      | succ i =>
          have later := ih at_i
          simp only [List.set_cons_succ, List.map_cons, List.sum_cons]
          omega

/-- Where nothing can go on, no thread is at work. -/
theorem stuck_atRest (answers : M.Answers) {s : Config M} (stuck : ∀ s', ¬ Onward s s') :
    s.AtRest := by
  intro i th at_i
  cases prog : th.prog with
  | none => exact .inl prog
  | some p =>
      cases p with
      | ret out => exact .inr ⟨out, prog⟩
      | op c rest =>
          obtain ⟨r, w', done⟩ := answers i 0 s.world c
          exact absurd ⟨.exec i 0 c r, trivial, .exec at_i prog done⟩ (stuck _)
      | choice left right => exact absurd ⟨.turn i true, trivial, .turn at_i prog⟩ (stuck _)

namespace Run

/-- A task that a thread has started has a thread of its own, of the same family. -/
theorem heir {init : Config M} {past : History M} {s : Config M} (run : Run M init past s)
    {s₁ : Config M} {i : Nat}
    {t : Int} {c : M.sig.Cmd} {r : M.sig.Ans c} (member : (s₁, .exec i t c r) ∈ past)
    {th : Thread M} (at_i : s.threads[i]? = some th) {task : M.Task} (starts : task ∈ M.spawned c) :
    ∃ (j : Nat) (heir : Thread M), s.threads[j]? = some heir ∧ heir.task = task ∧
    heir.root = th.root := by
  obtain ⟨s₂, taken, visited⟩ := run.after member
  cases taken with
  | @exec _ _ parent _ rest _ _ w' was_i next done =>
      have born :
          Thread.spawn task parent.root ∈ s₁.threads.set i { parent with prog := some (rest r) } ++
          (M.spawned c).map (Thread.spawn · parent.root) :=
        List.mem_append_right _ (List.mem_map_of_mem starts)
      obtain ⟨j, at_j⟩ := List.getElem?_of_mem born
      obtain ⟨th', at_i', _, root⟩ := run.persists member was_i
      obtain rfl := Option.some.inj (at_i'.symm.trans at_i)
      have stays : ∃ heir, s.threads[j]? = some heir ∧ heir.task = task ∧
          heir.root = parent.root := by
        rcases visited with rfl | ⟨l, later⟩
        · exact ⟨_, at_j, rfl, rfl⟩
        · exact run.persists later at_j
      obtain ⟨heir, found, same, root'⟩ := stays
      exact ⟨j, heir, found, same, root'.trans root.symm⟩

variable {w : M.World} {past : History M} {s : Config M} {budget : M.Task → Nat}

/-- No schedule goes on forever. -/
theorem halts (bodies : ∀ task, (M.body task).Costs (price (fun _ => 1) budget) (budget task))
    (run : Run M (.idle w) past s) : Acc (fun after before => Onward before after) s := by
  -- first what is left of the budgets, then the turns before the next commands
  suffices byLeft : ∀ left turns past s, Run M (.idle w) past s →
      ((past.filterMap fun e => e.2.starting).map budget).sum - commands past = left →
      (s.threads.map Thread.turns).sum = turns →
      Acc (fun after before => Onward before after) s from
    byLeft _ _ past s run rfl rfl
  intro left
  induction left using Nat.strongRecOn with
  | ind left byLeft =>
    intro turns
    induction turns using Nat.strongRecOn with
    | ind turns byTurns =>
      rintro past s run rfl rfl
      constructor
      rintro s' ⟨l, inner, taken⟩
      cases taken with
      | start | drop => exact inner.elim
      | exec at_i next done =>
          have taken := Step.exec at_i next done
          have bound := (run.step taken).outlay_le bodies
          refine byLeft _ ?_ _ _ _ (run.step taken) rfl rfl
          simp only [outlay, List.map_cons, List.sum_cons, Label.cost, Label.starting,
            List.filterMap_cons] at bound ⊢
          omega
      | turn at_i next =>
          refine byTurns _ ?_ _ _ (run.step (.turn at_i next)) ?_ rfl
          · apply sum_set_lt at_i
            simp only [Thread.turns, next, Option.elim_some]
            exact Prog.turns_choice _ _ _
          · simp [commands, outlay, Label.cost, Label.starting]

/-- What goes on by itself comes to where it cannot go on. -/
theorem comes_to_rest (halts : Acc (fun after before => Onward before after) s) :
    ∃ later s', Run M s later s' ∧ (∀ e ∈ later, e.2.Inner) ∧ ∀ s'', ¬ Onward s' s'' := by
  induction halts with
  | intro s _ ih =>
      by_cases goes : ∃ s', Onward s s'
      · obtain ⟨s₁, l, inner, taken⟩ := goes
        obtain ⟨later, s', run, inners, stuck⟩ := ih s₁ ⟨l, inner, taken⟩
        refine ⟨later ++ [(s, l)], s', (Run.refl.step taken).trans run, fun e member => ?_, stuck⟩
        rcases List.mem_append.mp member with after | first
        · exact inners e after
        · obtain rfl := List.mem_singleton.mp first
          exact inner
      · exact ⟨[], s, .refl, List.forall_mem_nil _, fun s' onward => goes ⟨s', onward⟩⟩

end Run

end Async
