import Swr.Async.Trace

/-! # Leaving threads out

Some families of threads do not see what the others do: what they are answered depends on
a part of the world that the others leave alone. Then the others can be taken out of a
run, and what is left is a run in which everything else happens as before.
-/

namespace Async

variable {M : System}

/-- What happens in a step, whichever thread it happens to. -/
inductive Event (M : System) where
  | start (task : M.Task)
  | exec (time : Int) (c : M.sig.Cmd) (r : M.sig.Ans c)
  | turn (left : Bool)
  | drop

def Label.event : Label M → Event M
  | .start task => .start task
  | .exec _ time c r => .exec time c r
  | .turn _ left => .turn left
  | .drop _ => .drop

/-- The family that takes a step, or begins with it. -/
def actor (s : Config M) : Label M → Option Nat
  | .start _ => some s.threads.length
  | .exec i _ _ _ | .turn i _ | .drop i => (s.threads[i]?).map Thread.root

/-- What happens to the families `R`, latest first. -/
def eventsOf (R : Nat → Bool) (past : History M) : List (Event M) :=
  past.filterMap fun e => if (actor e.1 e.2).any R then some e.2.event else none

def Thread.state (th : Thread M) : M.Task × Option (Prog M.sig M.Out) := (th.task, th.prog)

/-- What has become of the threads of the families `R`, in the order in which they were
    started. -/
def statesOf (R : Nat → Bool) (s : Config M) : List (M.Task × Option (Prog M.sig M.Out)) :=
  (s.threads.filter fun th => R th.root).map Thread.state

/-- Tasks come in two kinds. Each kind starts tasks of its own kind only, and the commands
    `N true` of the one kind do not see what the commands `N false` of the other one do. -/
structure Separate (M : System) (T : Bool → M.Task → Prop) (N : Bool → M.sig.Cmd → Prop)
    (View : M.World → M.World → Prop) : Prop where
  bodies : ∀ kind task, T kind task → (M.body task).Only (N kind)
  heirs : ∀ kind c, N kind c → ∀ task ∈ M.spawned c, T kind task
  seen : ∀ {c i t w r w'}, N true c → M.exec i t w c r w' → ∀ j v, View w v →
    ∃ v', M.exec j t v c r v' ∧ View w' v'
  unseen : ∀ {c i t w r w'}, N false c → M.exec i t w c r w' → ∀ v, View w v → View w' v

/-! ## Positions -/

section Positions

variable {α : Type} {p : α → Bool} {xs : List α} {a b : α}

theorem filter_set_of_pos (at_i : xs[i]? = some a) (here : p a = true) :
    ∃ j, (xs.filter p)[j]? = some a ∧ ∀ b, p b = true →
    (xs.set i b).filter p = (xs.filter p).set j b := by
  induction xs generalizing i with
  | nil => cases at_i
  | cons x xs ih =>
      cases i with
      | zero =>
          obtain rfl := Option.some.inj at_i
          exact ⟨0, by simp [here], fun b after => by simp [here, after]⟩
      | succ i =>
          obtain ⟨j, found, same⟩ := ih at_i
          cases kept : p x with
          | true =>
              exact ⟨j + 1, by simp [kept, found], fun b after => by simp [kept, same b after]⟩
          | false => exact ⟨j, by simp [kept, found], fun b after => by simp [kept, same b after]⟩

theorem filter_set_of_neg (at_i : xs[i]? = some a) (here : p a = false) (after : p b = false) :
    (xs.set i b).filter p = xs.filter p := by
  induction xs generalizing i with
  | nil => rfl
  | cons x xs ih =>
      cases i with
      | zero =>
          obtain rfl := Option.some.inj at_i
          simp [here, after]
      | succ i => simp only [List.set_cons_succ, List.filter_cons, ih at_i]

end Positions

/-! ## The run without the others -/

section Runs

variable {T : Bool → M.Task → Prop} {N : Bool → M.sig.Cmd → Prop} {View : M.World → M.World → Prop}
  {R : Nat → Bool} {s s' s₁ : Config M} {l : Label M}

/-- A smaller machine with the families `R` only, which sees their part of the world. -/
structure Shrunk (R : Nat → Bool) (View : M.World → M.World → Prop) (s s₁ : Config M) : Prop where
  view : View s.world s₁.world
  states : s₁.threads.map Thread.state = statesOf R s

theorem actor_at {i : Nat} {th : Thread M} (at_i : s.threads[i]? = some th) :
    ((s.threads[i]?).map Thread.root).any R = R th.root := by
  rw [at_i]
  rfl

/-- What moves a thread of these families has a counterpart in the smaller machine. -/
theorem Shrunk.counterpart (shrunk : Shrunk R View s s₁) {i : Nat} {th : Thread M}
    (at_i : s.threads[i]? = some th) (here : R th.root = true) :
    ∃ j th₁, s₁.threads[j]? = some th₁ ∧ th₁.prog = th.prog ∧ ∀ prog : Option (Prog M.sig M.Out),
      (s₁.threads.set j { th₁ with prog := prog }).map Thread.state =
        ((s.threads.set i { th with prog := prog }).filter fun th => R th.root).map
          Thread.state := by
  obtain ⟨j, found, moved⟩ := filter_set_of_pos (p := fun th : Thread M => R th.root) at_i here
  have in_small : (s₁.threads.map Thread.state)[j]? = some th.state := by
    rw [shrunk.states, statesOf, List.getElem?_map, found]
    rfl
  rw [List.getElem?_map, Option.map_eq_some_iff] at in_small
  obtain ⟨th₁, at_j, state⟩ := in_small
  refine ⟨j, th₁, at_j, congrArg Prod.snd state, fun prog => ?_⟩
  have same : Thread.state { th₁ with prog := prog } = Thread.state { th with prog := prog } :=
    congrArg (·, prog) (congrArg Prod.fst state)
  rw [List.map_set, shrunk.states, same, moved { th with prog := prog } here, List.map_set]
  rfl

theorem spawn_states (tasks : List M.Task) (root : Nat) :
    (tasks.map (Thread.spawn · root)).map Thread.state = tasks.map fun task =>
    (task, some (M.body task)) := by
  simp [Thread.state, Thread.spawn]

theorem spawn_filter (tasks : List M.Task) (root : Nat) :
    ((tasks.map (Thread.spawn · root)).filter fun th => R th.root) =
      if R root then tasks.map (Thread.spawn · root) else [] := by
  induction tasks with
  | nil => simp
  | cons task tasks ih =>
      rw [List.map_cons, List.filter_cons, ih]
      simp only [Thread.spawn]
      split <;> rfl

/-- One step of these families is one step of the smaller machine. -/
theorem Shrunk.insider (separate : Separate M T N View) (shrunk : Shrunk R View s s₁)
    (taken : Step M s l s') (here : (actor s l).any R = true)
    (allowed : ∀ i t c r, l = .exec i t c r → N true c) :
    ∃ l₁ s₁', Step M s₁ l₁ s₁' ∧ l₁.event = l.event ∧ Shrunk R View s' s₁' := by
  cases taken with
  | start task =>
      have kept : R s.threads.length = true := here
      refine ⟨_, _, .start task, rfl, shrunk.view, ?_⟩
      simp only [List.map_append, shrunk.states, statesOf, List.filter_append,
        List.map_cons, List.map_nil]
      simp [Thread.state, Thread.spawn, kept]
  | @exec _ i th c rest t r w' at_i next done =>
      have kept : R th.root = true := (actor_at at_i).symm.trans here
      obtain ⟨j, th₁, at_j, same, moved⟩ := shrunk.counterpart at_i kept
      obtain ⟨v', done', view⟩ := separate.seen (allowed i t c r rfl) done j s₁.world shrunk.view
      refine ⟨_, _, .exec at_j (same.trans next) done', rfl, view, ?_⟩
      simp only [statesOf, List.map_append, List.filter_append, moved, spawn_filter, kept,
        if_true, spawn_states]
  | turn at_i next =>
      have kept := (actor_at at_i).symm.trans here
      obtain ⟨j, th₁, at_j, same, moved⟩ := shrunk.counterpart at_i kept
      exact ⟨_, _, .turn at_j (same.trans next), rfl, shrunk.view, moved _⟩
  | drop at_i =>
      have kept := (actor_at at_i).symm.trans here
      obtain ⟨j, th₁, at_j, _, moved⟩ := shrunk.counterpart at_i kept
      exact ⟨_, _, .drop at_j, rfl, shrunk.view, moved _⟩

/-- A step of another family is no step of the smaller machine. -/
theorem Shrunk.outsider (separate : Separate M T N View) (shrunk : Shrunk R View s s₁)
    (taken : Step M s l s') (other : (actor s l).any R = false)
    (allowed : ∀ i t c r, l = .exec i t c r → N false c) : Shrunk R View s' s₁ := by
  have unmoved :
      ∀ {i : Nat} {th : Thread M} (prog : Option (Prog M.sig M.Out)), s.threads[i]? = some th →
      R th.root = false →
      ((s.threads.set i { th with prog := prog }).filter fun th => R th.root) =
        s.threads.filter fun th => R th.root :=
    fun _ at_i foreign => filter_set_of_neg at_i foreign foreign
  cases taken with
  | start task =>
      have left : R s.threads.length = false := other
      refine ⟨shrunk.view, ?_⟩
      simp only [statesOf, List.filter_append, shrunk.states]
      simp [Thread.spawn, left]
  | @exec _ i th c rest t r w' at_i next done =>
      have foreign : R th.root = false := (actor_at at_i).symm.trans other
      refine ⟨separate.unseen (allowed i t c r rfl) done _ shrunk.view, ?_⟩
      simp only [statesOf, List.filter_append, unmoved _ at_i foreign, spawn_filter, foreign,
        Bool.false_eq_true, if_false, List.append_nil]
      exact shrunk.states
  | turn at_i next =>
      have foreign := (actor_at at_i).symm.trans other
      exact ⟨shrunk.view, shrunk.states.trans (by rw [statesOf, statesOf, unmoved _ at_i foreign])⟩
  | drop at_i =>
      have foreign := (actor_at at_i).symm.trans other
      exact ⟨shrunk.view, shrunk.states.trans (by rw [statesOf, statesOf, unmoved _ at_i foreign])⟩

/-- Each thread is of the kind of its family. -/
theorem Separate.step (separate : Separate M T N View) (taken : Step M s l s')
    (kinds : ∀ (i : Nat) (th : Thread M), s.threads[i]? = some th → T (R th.root) th.task)
    (call : ∀ task, l = .start task → T (R s.threads.length) task)
    (acts : ∀ i t c r th, l = .exec i t c r → s.threads[i]? = some th → N (R th.root) c) :
    ∀ (i : Nat) (th : Thread M), s'.threads[i]? = some th → T (R th.root) th.task := by
  intro i th at_i
  cases taken.fate at_i with
  | same was_i => exact kinds i th was_i
  | moved was_i _ moved | turned was_i _ moved | dropped was_i moved =>
      have kind := kinds i _ was_i
      subst moved
      exact kind
  | called here moved =>
      subst moved
      rw [here]
      exact call _ rfl
  | spawned _ was_j _ member moved =>
      subst moved
      exact separate.heirs _ _ (acts _ _ _ _ _ rfl was_j) _ member

/-- The families `R` do in a run what they would do in a run without the others: they take
    the same steps at the same times, with the same answers, and are where they would be
    then. -/
theorem Run.without (separate : Separate M T N View) {w v : M.World} {past : History M}
    (run : Run M (.idle w) past s)
    (calls : ∀ s₀ task, (s₀, .start task) ∈ past → T (R s₀.threads.length) task)
    (view : View w v) : ∃ past₁ s₁, Run M (.idle v) past₁ s₁ ∧
      past₁.map (fun e => e.2.event) = eventsOf R past ∧ Shrunk R View s s₁ := by
  suffices (∀ (i : Nat) (th : Thread M), s.threads[i]? = some th → T (R th.root) th.task) ∧
      ∃ past₁ s₁, Run M (.idle v) past₁ s₁ ∧ past₁.map (fun e => e.2.event) = eventsOf R past ∧
      Shrunk R View s s₁
    from this.2
  induction run with
  | refl =>
      exact ⟨fun i th at_i => by simp [Config.idle] at at_i, [], .idle v, .refl, rfl, view, rfl⟩
  | @step past s l s' before taken ih =>
      obtain ⟨kinds, past₁, s₁, run₁, events, shrunk⟩ :=
        ih fun s₀ task member => calls s₀ task (List.mem_cons_of_mem _ member)
      have acts : ∀ i t c r th, l = .exec i t c r → s.threads[i]? = some th → N (R th.root) c := by
        rintro i t c r th rfl at_i
        obtain ⟨th', at_i', reaches⟩ := (before.step taken).reached (List.suffix_refl _)
        obtain rfl := Option.some.inj (at_i.symm.trans at_i')
        exact (separate.bodies _ _ (kinds i th at_i)).reaches reaches
      refine ⟨separate.step taken kinds (fun task started => calls s task (by simp [started])) acts,
        ?_⟩
      have allowed : ∀ kind, (actor s l).any R = kind → ∀ i t c r, l = .exec i t c r →
          N kind c := by
        rintro kind ofKind i t c r rfl
        obtain ⟨th, at_i, _⟩ := (before.step taken).reached (List.suffix_refl _)
        have same : R th.root = kind := (actor_at at_i).symm.trans ofKind
        rw [← same]
        exact acts i t c r th rfl at_i
      cases kind : (actor s l).any R with
      | true =>
          obtain ⟨l₁, s₁', taken₁, event, shrunk'⟩ :=
            shrunk.insider separate taken kind (allowed true kind)
          refine ⟨_, s₁', run₁.step taken₁, ?_, shrunk'⟩
          simp only [List.map_cons, event, events, eventsOf, List.filterMap_cons, kind, if_true]
      | false =>
          refine ⟨past₁, s₁, run₁, ?_, shrunk.outsider separate taken kind (allowed false kind)⟩
          simp only [events, eventsOf, List.filterMap_cons, kind, Bool.false_eq_true, if_false]

end Runs

end Async
