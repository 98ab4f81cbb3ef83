import Swr.Async.Machine

/-! # Taking turns

Tasks of a kind that are started only when all earlier ones are gone. No two of them
are running in any configuration.
-/

namespace Async

variable {M : System} {K : M.Task → Prop} {w : M.World} {past : History M} {s s' : Config M}
  {l : Label M}

/-- A task of the kind is started only when the earlier ones are gone. -/
def InTurn (K : M.Task → Prop) (s : Config M) (l : Label M) : Prop :=
  ∀ task ∈ l.starting, K task → ∀ th ∈ s.threads, K th.task → th.Gone

theorem Thread.running {th : Thread M} {p : Prog M.sig M.Out} (prog : th.prog = some p)
    (going : ∀ out, p ≠ .ret out) : ¬ th.Gone := by
  rintro (dropped | ⟨out, finished⟩)
  · rw [dropped] at prog
    cases prog
  · exact going out (Option.some.inj (prog.symm.trans finished))

instance (th : Thread M) : Decidable th.Gone :=
  match prog : th.prog with
  | none => isTrue (.inl prog)
  | some (.ret out) => isTrue (.inr ⟨out, prog⟩)
  | some (.op ..) => isFalse (Thread.running prog nofun)
  | some (.choice ..) => isFalse (Thread.running prog nofun)

instance [DecidablePred K] (s : Config M) (l : Label M) : Decidable (InTurn K s l) :=
  inferInstanceAs (Decidable (∀ _ ∈ _, _ → ∀ _ ∈ _, _ → _))

/-- A thread that is gone takes no steps. -/
theorem Step.idle {i : Nat} {t : Int} {c : M.sig.Cmd} {r : M.sig.Ans c} {th : Thread M}
    (h : Step M s (.exec i t c r) s') (at_i : s.threads[i]? = some th) : ¬ th.Gone := by
  cases h with
  | exec was_i next =>
      obtain rfl := Option.some.inj (at_i.symm.trans was_i)
      exact Thread.running next nofun

/-- A thread that was there before a step and is running after it was running before. -/
theorem Step.running (h : Step M s l s') {j : Nat} {th th' : Thread M}
    (was_j : s.threads[j]? = some th) (at_j : s'.threads[j]? = some th') (going : ¬ th'.Gone) :
    ¬ th.Gone := by
  have inside := (List.getElem?_eq_some_iff.mp was_j).1
  cases h.fate at_j with
  | same was_j' =>
      obtain rfl := Option.some.inj (was_j.symm.trans was_j')
      exact going
  | moved was_j' next _ | turned was_j' next _ =>
      obtain rfl := Option.some.inj (was_j.symm.trans was_j')
      exact Thread.running next nofun
  | dropped _ moved =>
      subst moved
      exact absurd (.inl rfl) going
  | called new _ => omega
  | spawned new _ _ _ _ => omega

/-- Two running threads of the kind are one. -/
theorem Run.one_at_a_time (h : Run M (.idle w) past s) (turns : ∀ e ∈ past, InTurn K e.1 e.2)
    (others : ∀ s₁ i t c r, (s₁, .exec i t c r) ∈ past → ∀ task ∈ M.spawned c, ¬ K task) :
    ∀ (i j : Nat) (th th' : Thread M), s.threads[i]? = some th → s.threads[j]? = some th' →
    K th.task → K th'.task →
      ¬ th.Gone → ¬ th'.Gone → i = j := by
  induction h with
  | refl => intro i _ _ _ at_i; simp [Config.idle] at at_i
  | @step past s l s' before taken ih =>
      have alone := ih (fun e member => turns e (List.mem_cons_of_mem _ member))
        fun s₁ i t c r member => others s₁ i t c r (List.mem_cons_of_mem _ member)
      have old {j : Nat} {th' : Thread M} (at_j : s'.threads[j]? = some th') (kind : K th'.task)
          (going : ¬ th'.Gone) : (∃ th, s.threads[j]? = some th ∧ K th.task ∧ ¬ th.Gone) ∨
          (j = s.threads.length ∧ ∃ task, l = .start task ∧ K task) := by
        rcases taken.origin at_j with ⟨th, was_j, same⟩ | ⟨new, started | ⟨i, t, c, r, rfl, member⟩⟩
        · exact .inl ⟨th, was_j, same ▸ kind, taken.running was_j at_j going⟩
        · refine .inr ⟨?_, _, started, kind⟩
          have inside := (List.getElem?_eq_some_iff.mp at_j).1
          subst started
          cases taken with
          | start =>
              simp only [List.length_append, List.length_cons, List.length_nil] at inside
              omega
        · exact absurd kind (others s i t c r (List.mem_cons_self ..) _ member)
      have waits {task : M.Task} (started : l = .start task) (kind : K task) {j : Nat}
        {th : Thread M}
          (at_j : s.threads[j]? = some th) (kind' : K th.task) (going : ¬ th.Gone) : False :=
        going (turns (s, l) (List.mem_cons_self ..) task (by rw [started]; rfl) kind th
          (List.mem_of_getElem? at_j) kind')
      intro i j th th' at_i at_j kind_i kind_j going_i going_j
      rcases old at_i kind_i going_i with ⟨a, was_i, kind_a, going_a⟩ | ⟨new_i, task, started, kind⟩
      · rcases old at_j kind_j going_j with ⟨b, was_j, kind_b, going_b⟩ | ⟨_, task, started, kind⟩
        · exact alone i j a b was_i was_j kind_a kind_b going_a going_b
        · exact (waits started kind was_i kind_a going_a).elim
      · rcases old at_j kind_j going_j with ⟨b, was_j, kind_b, going_b⟩ | ⟨new_j, _⟩
        · exact (waits started kind was_j kind_b going_b).elim
        · rw [new_i, new_j]

end Async
