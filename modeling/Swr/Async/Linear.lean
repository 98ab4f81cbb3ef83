import Swr.Async.Budget

/-! # Linearization points

An object that many threads use at once. Each operation takes effect at one command of
its own, the decisive one. In the order of their decisive commands the operations are a
history of the object on its own, and that order never contradicts real time: an operation
that has returned before another one was called comes first.
-/

namespace Async

namespace Prog

variable {S : Sig} {α : Type} {cost : S.Cmd → Nat} {n : Nat}

theorem Costs.yields {p : Prog S α} {log : List (Σ c, S.Ans c)} {value : α} (costs : p.Costs cost n)
    (yields : p.Yields log value) : paid cost log ≤ n := by
  induction yields generalizing n with
  | ret => exact Nat.zero_le _
  | op _ ih =>
      obtain ⟨m, pays, onward⟩ := costs
      have rest := ih (onward _)
      simp only [paid_cons]
      omega
  | left _ ih => exact ih costs.1
  | right _ ih => exact ih costs.2

theorem Costs.nothing (p : Prog S α) : p.Costs (fun _ => 0) n := by
  induction p generalizing n with
  | ret => trivial
  | op c rest ih => exact ⟨n, Nat.le_of_eq (Nat.zero_add n), fun r => ih r⟩
  | choice left right ihl ihr => exact ⟨ihl, ihr⟩

theorem paid_append (first second : List (Σ c, S.Ans c)) :
    paid cost (first ++ second) = paid cost first + paid cost second := by
  simp [paid]

theorem paid_unique {log : List (Σ c, S.Ans c)} (bound : paid cost log ≤ 1) {e e' : Σ c, S.Ans c}
    (member : e ∈ log) (member' : e' ∈ log) (pays : cost e.1 = 1) (pays' : cost e'.1 = 1) :
    e = e' := by
  obtain ⟨before, after, rfl⟩ := List.append_of_mem member
  rw [paid_append, paid_cons, pays] at bound
  have none : ∀ rest : List (Σ c, S.Ans c), paid cost rest = 0 → e' ∉ rest := by
    intro rest free inside
    obtain ⟨first, last, rfl⟩ := List.append_of_mem inside
    rw [paid_append, paid_cons, pays'] at free
    omega
  rcases List.mem_append.mp member' with inside | inside
  · exact absurd inside (none before (by omega))
  · rcases List.mem_cons.mp inside with same | inside
    · exact same.symm
    · exact absurd inside (none after (by omega))

end Prog

variable {M : System} {Q : Type}

/-! ## Histories of an object on its own -/

/-- The operations take effect one after the other. -/
inductive Applies (effect : Nat → Q → Q → Prop) : Q → List Nat → Q → Prop where
  | nil : Applies effect q [] q
  | cons : effect i q q₁ → Applies effect q₁ order q₂ → Applies effect q (i :: order) q₂

namespace Applies

variable {effect effect' : Nat → Q → Q → Prop} {q q₁ q₂ : Q} {order : List Nat}

theorem concat {i : Nat} (applies : Applies effect q order q₁) (last : effect i q₁ q₂) :
    Applies effect q (order ++ [i]) q₂ := by
  induction applies with
  | nil => exact .cons last .nil
  | cons first _ ih => exact .cons first (ih last)

theorem mono (applies : Applies effect q order q₁)
    (more : ∀ i ∈ order, ∀ q q', effect i q q' → effect' i q q') :
    Applies effect' q order q₁ := by
  induction applies with
  | nil => exact .nil
  | cons first _ ih =>
      obtain ⟨here, later⟩ := List.forall_mem_cons.mp more
      exact .cons (here _ _ first) (ih later)

/-- Where a state comes from: the last one that brings it about, and only such after it as
    keep it. -/
theorem last_change {brings keeps : Nat → Prop} (applies : Applies effect q order q₂)
    (changes : ∀ i q₁, effect i q₁ q₂ → brings i ∨ q₁ = q₂ ∧ keeps i) :
    (q = q₂ ∧ ∀ k ∈ order, keeps k) ∨
      ∃ before i after, order = before ++ i :: after ∧ brings i ∧ ∀ k ∈ after, keeps k := by
  induction applies with
  | nil => exact .inl ⟨rfl, List.forall_mem_nil _⟩
  | @cons i q q₁ order q₂ first _ ih =>
      rcases ih changes with ⟨rfl, kept⟩ | ⟨before, k, after, rfl, brought, kept⟩
      · rcases changes i q first with brought | ⟨rfl, keeps⟩
        · exact .inr ⟨[], i, order, rfl, brought, kept⟩
        · exact .inl ⟨rfl, List.forall_mem_cons.mpr ⟨keeps, kept⟩⟩
      · exact .inr ⟨i :: before, k, after, rfl, brought, kept⟩

end Applies

def Thread.result (th : Thread M) : Option M.Out :=
  match th.prog with
  | some (.ret out) => some out
  | _ => none

theorem Thread.result_iff {th : Thread M} {out : M.Out} :
    th.result = some out ↔ th.Finished out := by
  simp only [Thread.result, Thread.Finished]
  split
  · next returned => simp [returned]
  · next other =>
      constructor
      · intro none
        cases none
      · intro returned
        exact absurd returned (other out)

/-- Thread `i` had returned when thread `j` was not there yet. -/
def Precedes (past : History M) (s : Config M) (i j : Nat) : Prop :=
  ∃ s₁, Visits past s s₁ ∧ s₁.threads.length ≤ j ∧ ∃ th out, s₁.threads[i]? = some th ∧
    th.Finished out

theorem Precedes.irrefl {past : History M} {s : Config M} {i : Nat} : ¬ Precedes past s i i := by
  rintro ⟨s₁, _, absent, th, _, at_i, _⟩
  have there := (List.getElem?_eq_some_iff.mp at_i).1
  omega

/-- The order explains what the threads have returned: taking effect in this order, each
    one once, they take the object from `q` through effects of which each is legal for what
    the thread has returned, was answered and was to do. It holds all operations that count,
    and does not contradict real time. -/
structure Linearized (counts : M.Task → M.Out → Prop)
    (legal : M.Task → List (Σ c, M.sig.Ans c) → Option M.Out → Q → Q → Prop) (q : Q)
    (past : History M) (s : Config M) (order : List Nat) : Prop where
  once : order.Nodup
  complete : ∀ i th out, s.threads[i]? = some th → th.Finished out → counts th.task out → i ∈ order
  timely : order.Pairwise fun i j => ¬ Precedes past s j i
  applies : ∃ q', Applies (fun i q q' => ∃ th, s.threads[i]? = some th ∧
    legal th.task (replies i past) th.result q q') q order q'

theorem Thread.Gone.no_op {th : Thread M} (gone : th.Gone) (c : M.sig.Cmd)
    (rest : M.sig.Ans c → Prog M.sig M.Out) : th.prog ≠ some (.op c rest) := by
  intro next
  rcases gone with dropped | ⟨out, finished⟩
  · cases next.symm.trans dropped
  · cases next.symm.trans finished

theorem Thread.Gone.no_choice {th : Thread M} (gone : th.Gone) (left right : Prog M.sig M.Out) :
    th.prog ≠ some (.choice left right) := by
  intro next
  rcases gone with dropped | ⟨out, finished⟩
  · cases next.symm.trans dropped
  · cases next.symm.trans finished

/-! ## The order of the decisive commands -/

/-- The threads with a decisive command so far, in the order of these commands. -/
def decided (decides : M.Task → M.sig.Cmd → Bool) : History M → List Nat
  | [] => []
  | (s, .exec i _ c _) :: past =>
      decided decides past ++ if (s.threads[i]?).any (fun th => decides th.task c) then [i] else []
  | (_, .start _) :: past | (_, .turn _ _) :: past | (_, .drop _) :: past => decided decides past

theorem decided_suffix {decides : M.Task → M.sig.Cmd → Bool} {past earlier : History M}
    (within : earlier <:+ past) : decided decides earlier ⊆ decided decides past := by
  induction past with
  | nil => rw [List.suffix_nil.mp within]; exact List.Subset.refl _
  | cons e past ih =>
      rcases List.suffix_cons_iff.mp within with rfl | older
      · exact List.Subset.refl _
      · obtain ⟨s, l⟩ := e
        cases l with
        | start | turn | drop => exact ih older
        | exec i t c r => exact fun j member => List.mem_append_left _ (ih older member)

namespace Run

variable {w : M.World} {past : History M} {s : Config M} {decides : M.Task → M.sig.Cmd → Bool}

theorem stays_gone (run : Run M (.idle w) past s) {s₁ : Config M} (visited : Visits past s s₁)
    {i : Nat} {th : Thread M} (at_i : s₁.threads[i]? = some th) (gone : th.Gone) :
    ∃ th', s.threads[i]? = some th' ∧ (th' = th ∨ th'.Dropped) := by
  induction run with
  | refl =>
      rcases visited with rfl | ⟨_, member⟩
      · exact ⟨th, at_i, .inl rfl⟩
      · cases member
  | @step past s l s' before taken ih =>
      have earlier : Visits past s s₁ → ∃ th', s'.threads[i]? = some th' ∧
          (th' = th ∨ th'.Dropped) := by
        intro visited
        obtain ⟨th₀, was_i, kept⟩ := ih visited
        have ended : th₀.Gone := kept.elim (fun same => same ▸ gone) .inl
        obtain ⟨th', at_i', _⟩ := taken.persists was_i
        have inside := (List.getElem?_eq_some_iff.mp was_i).1
        refine ⟨th', at_i', ?_⟩
        cases taken.fate at_i' with
        | same was_i' =>
            obtain rfl := Option.some.inj (was_i.symm.trans was_i')
            exact kept
        | moved was_i' next =>
            obtain rfl := Option.some.inj (was_i.symm.trans was_i')
            exact absurd next (ended.no_op _ _)
        | turned was_i' next =>
            obtain rfl := Option.some.inj (was_i.symm.trans was_i')
            exact absurd next (ended.no_choice _ _)
        | dropped _ moved =>
            subst moved
            exact .inr rfl
        | called new | spawned new => omega
      rcases visited with rfl | ⟨l₁, member⟩
      · exact ⟨th, at_i, .inl rfl⟩
      · rcases List.mem_cons.mp member with here | older
        · cases here
          exact earlier (.inl rfl)
        · exact earlier (.inr ⟨l₁, older⟩)

theorem kept_returned (run : Run M (.idle w) past s)
    (returned : ∀ (i : Nat) (th : Thread M), s.threads[i]? = some th → ∃ out, th.Finished out) :
    ∀ e ∈ past, e.2.dropping = none := by
  rintro ⟨s₁, l⟩ member
  cases l with
  | start | exec | turn => rfl
  | drop i =>
      exfalso
      obtain ⟨s₂, taken, visited⟩ := run.after member
      cases taken with
      | @drop _ th _ was_i =>
          have at_i :
              (s₁.threads.set i { th with prog := none })[i]? = some { th with prog := none } :=
            List.getElem?_set_self (List.getElem?_eq_some_iff.mp was_i).1
          obtain ⟨th', final, kept⟩ := run.stays_gone visited at_i (.inl rfl)
          obtain ⟨out, finished⟩ := returned i th' final
          have dropped : th'.Dropped := kept.elim (fun same => same ▸ rfl) id
          cases finished.symm.trans dropped

theorem mem_decided (run : Run M (.idle w) past s) {i : Nat} : i ∈ decided decides past ↔
    ∃ th, s.threads[i]? = some th ∧ ∃ e ∈ replies i past, decides th.task e.1 = true := by
  induction run with
  | refl =>
      constructor
      · intro none
        cases none
      · rintro ⟨th, at_i, _⟩
        simp [Config.idle] at at_i
  | @step past s l s' before taken ih =>
      have kept :
          (∃ th, s'.threads[i]? = some th ∧ ∃ e ∈ replies i past, decides th.task e.1 = true) ↔
          i ∈ decided decides past := by
        rw [ih]
        constructor
        · rintro ⟨th', at_i', e, member, decisive⟩
          rcases taken.origin at_i' with ⟨th, at_i, same⟩ | ⟨new, _⟩
          · rw [← same] at decisive
            exact ⟨th, at_i, e, member, decisive⟩
          · rw [replies, before.trace_unstarted new] at member
            cases member
        · rintro ⟨th, at_i, e, member, decisive⟩
          obtain ⟨th', at_i', same, _⟩ := taken.persists at_i
          rw [← same] at decisive
          exact ⟨th', at_i', e, member, decisive⟩
      cases l with
      | start | turn | drop =>
          simp only [decided]
          rw [← kept, replies_foreign (by simp [Label.Foreign])]
      | exec j t c r =>
          simp only [decided, List.mem_append, ← kept]
          constructor
          · rintro (⟨th, at_i, e, member, decisive⟩ | last)
            · exact ⟨th, at_i, e, List.IsPrefix.subset replies_prefix member, decisive⟩
            · split at last
              · next decisive =>
                  obtain rfl := List.mem_singleton.mp last
                  obtain ⟨th, at_i, _⟩ := (before.step taken).reached (List.suffix_refl _)
                  rw [at_i, Option.any_some] at decisive
                  obtain ⟨th', at_i', same, _⟩ := taken.persists at_i
                  refine ⟨th', at_i', ⟨c, r⟩, mem_replies_cons.mpr (.inr ⟨t, rfl⟩), ?_⟩
                  rw [same]
                  exact decisive
              · cases last
          · rintro ⟨th', at_i', e, member, decisive⟩
            rcases mem_replies_cons.mp member with earlier | ⟨_, here⟩
            · exact .inl ⟨th', at_i', e, earlier, decisive⟩
            · cases here
              obtain ⟨th, at_i, _⟩ := (before.step taken).reached (List.suffix_refl _)
              obtain ⟨th₁, at_i₁, same, _⟩ := taken.persists at_i
              obtain rfl := Option.some.inj (at_i'.symm.trans at_i₁)
              refine .inr ?_
              rw [at_i, Option.any_some, ← same, decisive]
              exact List.mem_singleton_self _

theorem decided_lt (run : Run M (.idle w) past s) {i : Nat} (member : i ∈ decided decides past) :
    i < s.threads.length := by
  obtain ⟨th, at_i, _⟩ := run.mem_decided.mp member
  exact (List.getElem?_eq_some_iff.mp at_i).1

theorem running (run : Run M (.idle w) past s) {i : Nat} {t : Int} {c : M.sig.Cmd} {r : M.sig.Ans c}
    {s' : Config M} (taken : Step M s (.exec i t c r) s') {s₁ : Config M}
    (visited : Visits past s s₁) {th : Thread M} {out : M.Out} (at_i : s₁.threads[i]? = some th) :
    ¬ th.Finished out := by
  intro finished
  obtain ⟨th', at_i', kept⟩ := run.stays_gone visited at_i (.inr ⟨out, finished⟩)
  have ended : th'.Gone := kept.elim (fun same => same ▸ .inr ⟨out, finished⟩) .inl
  cases taken with
  | exec was_i next =>
      obtain rfl := Option.some.inj (was_i.symm.trans at_i')
      exact ended.no_op _ _ next

/-- The decisive commands come in an order that does not contradict real time. -/
theorem decided_timely (run : Run M (.idle w) past s) :
    (decided decides past).Pairwise fun i j => ¬ Precedes past s j i := by
  induction run with
  | refl => exact .nil
  | @step past s l s' before taken ih =>
      -- what was there before the step is there after it
      have kept : ∀ i j, i ∈ decided decides past → ¬ Precedes past s j i →
          ¬ Precedes ((s, l) :: past) s' j i := by
        rintro i j member unordered ⟨s₁, visited, absent, returned⟩
        rcases visited with rfl | ⟨l₁, inside⟩
        · have there := before.decided_lt member
          have longer := taken.length_le
          omega
        · refine unordered ⟨s₁, ?_, absent, returned⟩
          rcases List.mem_cons.mp inside with here | older
          · cases here
            exact .inl rfl
          · exact .inr ⟨l₁, older⟩
      have old := ih.imp_of_mem fun member _ unordered => kept _ _ member unordered
      cases l with
      | start | turn | drop => exact old
      | exec j t c r =>
          simp only [decided]
          refine List.pairwise_append.mpr ⟨old, ?_, fun i member k last => ?_⟩
          · split
            · exact List.pairwise_singleton _ _
            · exact .nil
          · obtain rfl : k = j := by
              split at last
              · exact List.mem_singleton.mp last
              · cases last
            refine kept i k member ?_
            rintro ⟨s₁, visited, _, th, out, at_k, finished⟩
            exact before.running taken visited at_k finished

end Run

/-! ## The rule -/

section Rule

variable {w : M.World} {past : History M} {s : Config M} {decides : M.Task → M.sig.Cmd → Bool}
  {counts : M.Task → M.Out → Prop}
  {legal : M.Task → List (Σ c, M.sig.Ans c) → Option M.Out → Q → Q → Prop}
  {represents : M.World → Q → Prop}

/-- Every task has at most one decisive command, and one if its result counts. The world
    represents a state of the object; other commands leave it as it is, and a decisive
    command has an effect that is legal for whatever the task may return afterwards. -/
structure Decisive (decides : M.Task → M.sig.Cmd → Bool) (counts : M.Task → M.Out → Prop)
    (legal : M.Task → List (Σ c, M.sig.Ans c) → Option M.Out → Q → Q → Prop)
    (represents : M.World → Q → Prop) (T : M.Task → Prop) : Prop where
  once : ∀ task, T task → (M.body task).Costs (fun c => (decides task c).toNat) 1
  needed : ∀ task log out, T task → (M.body task).Yields log out → counts task out →
    ∃ e ∈ log, decides task e.1 = true
  heirs : ∀ task log c, T task → (M.body task).Reaches log c → ∀ task' ∈ M.spawned c, T task'
  quiet : ∀ task log c, T task → (M.body task).Reaches log c → decides task c = false →
    ∀ i t w r w' q, M.exec i t w c r w' → represents w q → represents w' q
  effect : ∀ task log c, T task → (M.body task).Reaches log c → decides task c = true →
    ∀ i t w r w' q, M.exec i t w c r w' → represents w q → ∃ q', represents w' q' ∧
      (∀ rest, legal task (log ++ ⟨c, r⟩ :: rest) none q q') ∧
      ∀ rest out, (M.body task).Yields (log ++ ⟨c, r⟩ :: rest) out →
      legal task (log ++ ⟨c, r⟩ :: rest) (some out) q q'

variable {T : M.Task → Prop}

/-- The effect is legal, whatever happens from now on. -/
def Explained (legal : M.Task → List (Σ c, M.sig.Ans c) → Option M.Out → Q → Q → Prop)
    (past : History M) (s : Config M) (i : Nat) (q q' : Q) : Prop :=
  ∃ th, s.threads[i]? = some th ∧ ∃ log, log <+: replies i past ∧
    (∀ rest, legal th.task (log ++ rest) none q q') ∧
    ∀ rest out, (M.body th.task).Yields (log ++ rest) out →
    legal th.task (log ++ rest) (some out) q q'

theorem Explained.later {i : Nat} {q q' : Q} {l : Label M} {s' : Config M}
    (explained : Explained legal past s i q q') (taken : Step M s l s') :
    Explained legal ((s, l) :: past) s' i q q' := by
  obtain ⟨th, at_i, log, begins, pending, returned⟩ := explained
  obtain ⟨th', at_i', same, _⟩ := taken.persists at_i
  rw [← same] at pending returned
  exact ⟨th', at_i', log, begins.trans replies_prefix, pending, returned⟩

theorem Explained.conforms (run : Run M (.idle w) past s) {i : Nat} {q q' : Q}
    (explained : Explained legal past s i q q') :
    ∃ th, s.threads[i]? = some th ∧ legal th.task (replies i past) th.result q q' := by
  obtain ⟨th, at_i, log, ⟨rest, split⟩, pending, returned⟩ := explained
  refine ⟨th, at_i, ?_⟩
  rw [← split]
  cases result : th.result with
  | none => exact pending rest
  | some out =>
      have finished := run.finished_yields at_i (Thread.result_iff.mp result)
      rw [← split] at finished
      exact returned rest out finished

/-- The decisive commands take the object to the state that the world represents. -/
theorem Run.applies {q : Q} (rule : Decisive decides counts legal represents T)
    (run : Run M (.idle w) past s) (calls : ∀ s₀ task, (s₀, .start task) ∈ past → T task)
    (start : represents w q) :
    ∃ q', represents s.world q' ∧ Applies (Explained legal past s) q (decided decides past) q' := by
  induction run with
  | refl => exact ⟨q, start, .nil⟩
  | @step past s l s' before taken ih =>
      obtain ⟨q', held, applies⟩ :=
        ih fun s₀ task member => calls s₀ task (List.mem_cons_of_mem _ member)
      have applies := applies.mono fun i _ q q' explained => Explained.later explained taken
      cases l with
      | start | turn | drop =>
          refine ⟨q', ?_, applies⟩
          cases taken
          exact held
      | exec i t c r =>
          obtain ⟨th, at_i, mine, reaches⟩ := (before.step taken).acts
            (A := fun task log c => (M.body task).Reaches log c) (fun _ _ _ _ reaches => reaches)
            (fun task log c mine reaches => rule.heirs task log c mine reaches) calls
            (List.suffix_refl _)
          have done : M.exec i t s.world c r s'.world := by
            cases taken with
            | exec _ _ done => exact done
          simp only [decided, at_i, Option.any_some]
          cases decisive : decides th.task c with
          | false =>
              simp only [Bool.false_eq_true, if_false, List.append_nil]
              exact ⟨q', rule.quiet _ _ _ mine reaches decisive _ _ _ _ _ _ done held, applies⟩
          | true =>
              simp only [if_true]
              obtain ⟨q₂, held', pending, returned⟩ :=
                rule.effect _ _ _ mine reaches decisive _ _ _ _ _ _ done held
              obtain ⟨th', at_i', same, _⟩ := taken.persists at_i
              refine ⟨q₂, held', applies.concat ⟨th', at_i',
                replies i past ++ [⟨c, r⟩], ?_, ?_, ?_⟩⟩
              · exact ⟨[], by rw [List.append_nil, replies_own]⟩
              · intro rest
                rw [same, List.append_assoc]
                exact pending rest
              · intro rest out
                rw [same, List.append_assoc]
                exact returned rest out

/-- No thread has two decisive commands. -/
theorem Run.decided_once (rule : Decisive decides counts legal represents T)
    (run : Run M (.idle w) past s) (calls : ∀ s₀ task, (s₀, .start task) ∈ past → T task) :
    (decided decides past).Nodup := by
  induction run with
  | refl => exact .nil
  | @step past s l s' before taken ih =>
      have old := ih fun s₀ task member => calls s₀ task (List.mem_cons_of_mem _ member)
      cases l with
      | start | turn | drop => exact old
      | exec i t c r =>
          obtain ⟨th, at_i, mine, reaches⟩ := (before.step taken).acts
            (A := fun task log c => (M.body task).Reaches log c) (fun _ _ _ _ reaches => reaches)
            (fun task log c mine reaches => rule.heirs task log c mine reaches) calls
            (List.suffix_refl _)
          simp only [decided, at_i, Option.any_some]
          cases decisive : decides th.task c with
          | false => simpa using old
          | true =>
              simp only [if_true]
              refine List.nodup_append.mpr ⟨old, List.pairwise_singleton _ i, ?_⟩
              rintro j member _ here rfl
              obtain rfl := List.mem_singleton.mp here
              obtain ⟨th₀, at_j, e, answered, decisive₀⟩ := before.mem_decided.mp member
              obtain rfl := Option.some.inj (at_i.symm.trans at_j)
              have bound := (rule.once _ mine).reaches reaches
              obtain ⟨first, last, split⟩ := List.append_of_mem answered
              rw [split, Prog.paid_append, Prog.paid_cons, decisive, decisive₀] at bound
              simp only [Bool.toNat_true] at bound
              omega

/-- The order of the decisive commands explains what the operations return. -/
theorem Run.linearized {q : Q} (rule : Decisive decides counts legal represents T)
    (run : Run M (.idle w) past s) (calls : ∀ s₀ task, (s₀, .start task) ∈ past → T task)
    (start : represents w q) : Linearized counts legal q past s (decided decides past) where
  once := run.decided_once rule calls
  complete i th out at_i finished counted := by
    have mine : T th.task :=
      run.tasks (fun task log c mine reaches => rule.heirs task log c mine reaches) calls at_i
    obtain ⟨e, answered, decisive⟩ :=
      rule.needed _ _ _ mine (run.finished_yields at_i finished) counted
    exact run.mem_decided.mpr ⟨th, at_i, e, answered, decisive⟩
  timely := run.decided_timely
  applies := by
    obtain ⟨q', _, applies⟩ := run.applies rule calls start
    exact ⟨q', applies.mono fun i _ q q' explained => Explained.conforms run explained⟩

/-! ## Where a state comes from -/

variable {seen : Q} {brings : M.Task → List (Σ c, M.sig.Ans c) → Prop}
  {spoils : M.Task → M.Out → Prop}

/-- If the object is in a state that was not there from the start, somebody has brought it
    about, and nobody has spoiled it who was called after that one had returned. -/
theorem Run.latest {q : Q} (rule : Decisive decides counts legal represents T)
    (run : Run M (.idle w) past s) (calls : ∀ s₀ task, (s₀, .start task) ∈ past → T task)
    (start : represents w q) (fresh : q ≠ seen)
      (changes : ∀ task log out q₁, legal task log out q₁ seen → brings task log ∨ q₁ = seen ∧
        ∀ value, out = some value → ¬ spoils task value)
    (counted : ∀ task out, spoils task out → counts task out) :
    ∃ q', represents s.world q' ∧
    (q' = seen → ∃ i th, s.threads[i]? = some th ∧ brings th.task (replies i past) ∧
      i ∈ decided decides past ∧ ∀ k th' out, s.threads[k]? = some th' → th'.Finished out →
      spoils th'.task out → ¬ Precedes past s i k) := by
  have linearized := run.linearized rule calls start
  obtain ⟨q', held, applies⟩ := run.applies rule calls start
  refine ⟨q', held, ?_⟩
  rintro rfl
  have applies := applies.mono fun i _ q q' explained => Explained.conforms run explained
  have changed :
      ∀ i q₁, (∃ th, s.threads[i]? = some th ∧ legal th.task (replies i past) th.result q₁ q') →
      (∃ th, s.threads[i]? = some th ∧ brings th.task (replies i past)) ∨
      q₁ = q' ∧ ∀ th out, s.threads[i]? = some th → th.Finished out → ¬ spoils th.task out := by
    rintro i q₁ ⟨th, at_i, legal_i⟩
    rcases changes _ _ _ _ legal_i with brought | ⟨same, kept⟩
    · exact .inl ⟨th, at_i, brought⟩
    · refine .inr ⟨same, fun th' out at_i' finished => ?_⟩
      obtain rfl := Option.some.inj (at_i.symm.trans at_i')
      exact kept out (Thread.result_iff.mpr finished)
  rcases applies.last_change changed with ⟨same, _⟩ |
    ⟨before, i, after, order, ⟨th, at_i, brought⟩, kept⟩
  · exact absurd same fresh
  · refine ⟨i, th, at_i, brought, by simp [order],
      fun k th' out at_k finished spoiled precedes => ?_⟩
    have inside := linearized.complete k th' out at_k finished (counted _ _ spoiled)
    have timely := linearized.timely
    rw [order] at inside timely
    rcases List.mem_append.mp inside with inside | inside
    · exact (List.pairwise_append.mp timely).2.2 k inside i (List.mem_cons_self ..) precedes
    · rcases List.mem_cons.mp inside with rfl | inside
      · exact Precedes.irrefl precedes
      · exact kept k inside th' out at_k finished spoiled

theorem Run.visited_before {init : Config M} (run : Run M init past s)
    {s₁ s₂ : Config M} {l : Label M} {earlier : History M} (step : (s₁, l) :: earlier <:+ past)
    {j : Nat} (present : j < s₁.threads.length) (visited : Visits past s s₂)
    (absent : s₂.threads.length ≤ j) : Visits earlier s₁ s₂ := by
  induction run with
  | refl => exact absurd step.length_le (by simp)
  | @step past s₀ l₀ s' before taken ih =>
      rcases visited with rfl | ⟨l₂, member⟩
      · obtain ⟨th, at_j, _⟩ := (before.step taken).persists (step.subset (List.mem_cons_self ..))
          (List.getElem?_eq_getElem present)
        have inside := (List.getElem?_eq_some_iff.mp at_j).1
        omega
      · rcases List.suffix_cons_iff.mp step with same | older
        · cases same
          rcases List.mem_cons.mp member with here | old
          · cases here
            exact .inl rfl
          · exact .inr ⟨l₂, old⟩
        · refine ih older ?_
          rcases List.mem_cons.mp member with here | old
          · cases here
            exact .inl rfl
          · exact .inr ⟨l₂, old⟩

/-- Whoever finds the object in a state that was not there from the start finds what somebody
    has brought about, and not after itself. Nobody has spoiled it who came after that one and
    had returned when the finder was called. -/
theorem Run.observed {q : Q} (rule : Decisive decides counts legal represents T)
    (run : Run M (.idle w) past s) (calls : ∀ s₀ task, (s₀, .start task) ∈ past → T task)
    (start : represents w q) (fresh : q ≠ seen)
      (changes : ∀ task log out q₁, legal task log out q₁ seen → brings task log ∨ q₁ = seen ∧
        ∀ value, out = some value → ¬ spoils task value)
    (counted : ∀ task out, spoils task out → counts task out)
    (lasts : ∀ task log rest, brings task log → brings task (log ++ rest)) {s₁ : Config M}
    {j : Nat} {t : Int} {c : M.sig.Cmd} {r : M.sig.Ans c} {earlier : History M}
    (step : (s₁, .exec j t c r) :: earlier <:+ past)
    (shows : ∀ q', represents s₁.world q' → q' = seen) :
    ∃ i th, s.threads[i]? = some th ∧ brings th.task (replies i past) ∧ i ∈ decided decides past ∧
      ¬ Precedes past s j i ∧ ∀ k th' out, s.threads[k]? = some th' → th'.Finished out →
      spoils th'.task out →
        ¬ (Precedes past s i k ∧ Precedes past s k j) := by
  obtain ⟨first, s₂, taken⟩ := run.upTo step
  have within := (List.suffix_cons _ _).trans step
  obtain ⟨q', held, source⟩ :=
    first.latest rule (fun s₀ task member => calls s₀ task (within.subset member)) start
    fresh changes counted
  obtain ⟨i, th, at_i, brought, decisive, unspoiled⟩ := source (shows q' held)
  have inside : j < s₁.threads.length := by
    cases taken with
    | exec at_j => exact (List.getElem?_eq_some_iff.mp at_j).1
  have present := (List.getElem?_eq_some_iff.mp at_i).1
  obtain ⟨th', at_i', task, _⟩ := run.persists (step.subset (List.mem_cons_self ..)) at_i
  refine ⟨i, th', at_i', ?_, decided_suffix within decisive, ?_, ?_⟩
  · obtain ⟨rest, split⟩ := replies_suffix (i := i) within
    rw [task, ← split]
    exact lasts _ _ rest brought
  · rintro ⟨s₃, visited, absent, _, _, at_j, finished⟩
    exact first.running taken (run.visited_before step present visited absent) at_j finished
  · rintro k other out at_k finished spoiled ⟨⟨s₃, visited, absent, before⟩, s₄, visited', absent',
      th₀, out₀, was_k, ended⟩
    -- who had returned when `j` was called has returned at the step of `j`
    obtain ⟨th₁, at_k₁, kept⟩ :=
      first.stays_gone (run.visited_before step inside visited' absent') was_k
      (.inr ⟨out₀, ended⟩)
    have gone : th₁.Gone := kept.elim (fun same => same ▸ .inr ⟨out₀, ended⟩) .inl
    obtain ⟨th₂, at_k₂, kept⟩ :=
      run.stays_gone (.inr ⟨_, step.subset (List.mem_cons_self ..)⟩) at_k₁ gone
    obtain rfl := Option.some.inj (at_k.symm.trans at_k₂)
    rcases kept with rfl | dropped
    · have there := (List.getElem?_eq_some_iff.mp at_k₁).1
      exact unspoiled k other out at_k₁ finished spoiled
        ⟨s₃, run.visited_before step there visited absent, absent, before⟩
    · cases dropped.symm.trans finished

end Rule

end Async
