import Swr.Async.Session
import Swr.Async.Shuffle
import Swr.Async.Turns

/-! # Programs that do the same up to padding

Two programs can differ in commands that leave no trace in what they work on. One of them
mirrors the other if whatever the other one yields, it yields as well, for replies that
differ by such padding. A run whose threads have all returned is then mirrored by a run of
the other programs, step by step; each thread puts its padding right after its last
command, so the two runs go by one clock.
-/

namespace Async

/-- What is to be mirrored. -/
structure Mirror (M : System) where
  task : M.Task → M.Task → Prop
  world : M.World → M.World → Prop
  like : (Σ c, M.sig.Ans c) → (Σ c, M.sig.Ans c) → Prop
  /-- What may be left out. -/
  idle : (Σ c, M.sig.Ans c) → Prop
  /-- What may be put in at a time. -/
  pad : Int → (Σ c, M.sig.Ans c) → Prop
  /-- What has to be there on both sides, and the same. -/
  seen : (Σ c, M.sig.Ans c) → Bool

/-- Replies with their times. -/
abbrev Timed (M : System) := List (Int × Σ c, M.sig.Ans c)

variable {M : System} {K : Mirror M}

/-! ## Logs -/

/-- At time `t` the logs agree up to padding from there on. -/
inductive Mirrors (K : Mirror M) : Int → Timed M → Timed M → Prop where
  | nil : Mirrors K t [] []
  | both : K.like e e' → Mirrors K u log log' → Mirrors K t ((u, e) :: log) ((u, e') :: log')
  | left : K.idle e → Mirrors K u log log' → Mirrors K t ((u, e) :: log) log'
  | right : K.pad t e' → Mirrors K t log log' → Mirrors K t log ((t, e') :: log')

/-- The padding that is due was put in. -/
inductive Ready (K : Mirror M) : Timed M → Timed M → Prop where
  | nil : Ready K [] []
  | both : K.like e e' → Mirrors K u log log' → Ready K ((u, e) :: log) ((u, e') :: log')
  | left : K.idle e → Mirrors K u log log' → Ready K ((u, e) :: log) log'

/-- The time of the last reply. -/
def lastTime (t : Int) : Timed M → Int
  | [] => t
  | (u, _) :: log => lastTime u log

variable {log log' : Timed M} {t : Int}

theorem Ready.mirrors (ready : Ready K log log') (t : Int) : Mirrors K t log log' := by
  cases ready with
  | nil => exact .nil
  | both like onward => exact .both like onward
  | left idle onward => exact .left idle onward

/-- Padding at the time `t`. -/
def Padding (K : Mirror M) (t : Int) (pads : Timed M) : Prop := ∀ e ∈ pads, e.1 = t ∧ K.pad t e.2

theorem Mirrors.flush (mirrors : Mirrors K t log log') :
    ∃ pads rest, log' = pads ++ rest ∧ Padding K t pads ∧ Ready K log rest := by
  induction mirrors with
  | nil => exact ⟨[], [], rfl, by simp [Padding], .nil⟩
  | both like onward => exact ⟨[], _, rfl, by simp [Padding], .both like onward⟩
  | left idle onward => exact ⟨[], _, rfl, by simp [Padding], .left idle onward⟩
  | right pad _ ih =>
      obtain ⟨pads, rest, rfl, padding, ready⟩ := ih
      exact ⟨_ :: pads, rest, rfl, List.forall_mem_cons.mpr ⟨⟨rfl, pad⟩, padding⟩, ready⟩

theorem Padding.mirrors {pads : Timed M} (padding : Padding K t pads)
    (mirrors : Mirrors K t log log') : Mirrors K t log (pads ++ log') := by
  induction pads with
  | nil => exact mirrors
  | cons e pads ih =>
      obtain ⟨⟨time, pad⟩, others⟩ := List.forall_mem_cons.mp padding
      obtain ⟨u, e⟩ := e
      obtain rfl : u = t := time
      exact .right pad (ih others)

theorem Mirrors.append {later later' : Timed M} (first : Mirrors K t log log')
    (second : Mirrors K (lastTime t log) later later') :
    Mirrors K t (log ++ later) (log' ++ later') := by
  induction first with
  | nil => exact second
  | both like _ ih => exact .both like (ih second)
  | left idle _ ih => exact .left idle (ih second)
  | right pad _ ih => exact .right pad (ih second)

/-- What mirrors the parts of a shuffle can be shuffled to mirror the whole. -/
theorem Mirrors.shuffle {as bs cs as' bs' : Timed M} (shuffle : Shuffle as bs cs)
    (first : Mirrors K t as as') (second : Mirrors K t bs bs') :
    ∃ cs', Shuffle as' bs' cs' ∧ Mirrors K t cs cs' := by
  induction shuffle generalizing t as' bs' with
  | nil =>
      obtain ⟨pads, _, rfl, padding, ready⟩ := first.flush
      obtain ⟨pads', _, rfl, padding', ready'⟩ := second.flush
      cases ready
      cases ready'
      refine ⟨pads ++ pads', ?_, padding.mirrors (by simpa using padding'.mirrors .nil)⟩
      simpa using (Shuffle.only_right pads').append_left pads
  | left shuffle ih =>
      -- The padding of both sides goes first, so that only the step is left at its time.
      obtain ⟨pads, _, rfl, padding, ready⟩ := first.flush
      obtain ⟨pads', rest', rfl, padding', ready'⟩ := second.flush
      cases ready with
      | both like onward =>
          obtain ⟨cs', shuffled, mirrors⟩ := ih onward (ready'.mirrors _)
          exact ⟨pads ++ (pads' ++ _ :: cs'),
            ((Shuffle.left shuffled).append_right pads').append_left pads,
            padding.mirrors (padding'.mirrors (.both like mirrors))⟩
      | left idle onward =>
          obtain ⟨cs', shuffled, mirrors⟩ := ih onward (ready'.mirrors _)
          exact ⟨pads ++ (pads' ++ cs'), (shuffled.append_right pads').append_left pads,
            padding.mirrors (padding'.mirrors (.left idle mirrors))⟩
  | right shuffle ih =>
      obtain ⟨pads, rest, rfl, padding, ready⟩ := first.flush
      obtain ⟨pads', _, rfl, padding', ready'⟩ := second.flush
      cases ready' with
      | both like onward =>
          obtain ⟨cs', shuffled, mirrors⟩ := ih (ready.mirrors _) onward
          exact ⟨pads ++ (pads' ++ _ :: cs'),
            ((Shuffle.right shuffled).append_right pads').append_left pads,
            padding.mirrors (padding'.mirrors (.both like mirrors))⟩
      | left idle onward =>
          obtain ⟨cs', shuffled, mirrors⟩ := ih (ready.mirrors _) onward
          exact ⟨pads ++ (pads' ++ cs'), (shuffled.append_right pads').append_left pads,
            padding.mirrors (padding'.mirrors (.left idle mirrors))⟩

/-! ## Programs -/

/-- Whatever the first program yields the second one yields as well, up to padding. -/
def Prog.Mirrored {α : Type} (K : Mirror M) (p p' : Prog M.sig α) : Prop :=
  ∀ t log value, p.Yields (log.map Prod.snd) value →
    ∃ log', p'.Yields (log'.map Prod.snd) value ∧ Mirrors K t log log'

namespace Prog.Mirrored

variable {α β : Type} {p p' : Prog M.sig α} {q q' : Prog M.sig β}

theorem ret (value : α) : Prog.Mirrored K (.ret value) (.ret value) := by
  intro t log value' yields
  obtain ⟨none, rfl⟩ := Prog.yields_ret.mp yields
  obtain rfl := List.map_eq_nil_iff.mp none
  exact ⟨[], .ret, .nil⟩

/-- Commands that are answered alike. -/
theorem like {c c' : M.sig.Cmd} {rest : M.sig.Ans c → Prog M.sig α}
    {rest' : M.sig.Ans c' → Prog M.sig α}
    (onward : ∀ r, ∃ r', K.like ⟨c, r⟩ ⟨c', r'⟩ ∧ Prog.Mirrored K (rest r) (rest' r')) :
    Prog.Mirrored K (.op c rest) (.op c' rest') := by
  intro t log value yields
  obtain ⟨r, later, shape, yields⟩ := Prog.yields_op.mp yields
  obtain ⟨⟨u, e⟩, log, rfl, rfl, rfl⟩ := List.map_eq_cons_iff.mp shape
  obtain ⟨r', like, mirrored⟩ := onward r
  obtain ⟨log', yields', mirrors⟩ := mirrored u log value yields
  exact ⟨(u, ⟨c', r'⟩) :: log', .op yields', .both like mirrors⟩

theorem left {c : M.sig.Cmd} {rest : M.sig.Ans c → Prog M.sig α}
    (onward : ∀ r, K.idle ⟨c, r⟩ ∧ Prog.Mirrored K (rest r) p') :
    Prog.Mirrored K (.op c rest) p' := by
  intro t log value yields
  obtain ⟨r, later, shape, yields⟩ := Prog.yields_op.mp yields
  obtain ⟨⟨u, e⟩, log, rfl, rfl, rfl⟩ := List.map_eq_cons_iff.mp shape
  obtain ⟨log', yields', mirrors⟩ := (onward r).2 u log value yields
  exact ⟨log', yields', .left (onward r).1 mirrors⟩

theorem right {c' : M.sig.Cmd} {rest' : M.sig.Ans c' → Prog M.sig α}
    (onward : ∀ t, ∃ r', K.pad t ⟨c', r'⟩ ∧ Prog.Mirrored K p (rest' r')) :
    Prog.Mirrored K p (.op c' rest') := by
  intro t log value yields
  obtain ⟨r', pad, mirrored⟩ := onward t
  obtain ⟨log', yields', mirrors⟩ := mirrored t log value yields
  exact ⟨(t, ⟨c', r'⟩) :: log', .op yields', .right pad mirrors⟩

theorem choice {l r l' r' : Prog M.sig α} (first : Prog.Mirrored K l l')
    (second : Prog.Mirrored K r r') : Prog.Mirrored K (.choice l r) (.choice l' r') := by
  intro t log value yields
  rcases Prog.yields_choice.mp yields with onward | onward
  · obtain ⟨log', yields', mirrors⟩ := first t log value onward
    exact ⟨log', .left yields', mirrors⟩
  · obtain ⟨log', yields', mirrors⟩ := second t log value onward
    exact ⟨log', .right yields', mirrors⟩

/-- A program mirrors itself. -/
theorem refl (same : ∀ e, K.like e e) (p : Prog M.sig α) : Prog.Mirrored K p p := by
  induction p with
  | ret value => exact ret value
  | op c rest ih => exact like fun r => ⟨r, same _, ih r⟩
  | choice l r ihl ihr => exact choice ihl ihr

/-- Only what the first part can return has to be followed. -/
theorem bind_yielded {next next' : α → Prog M.sig β} (first : Prog.Mirrored K p p')
    (rest : ∀ value, (∃ log, p.Yields log value) → Prog.Mirrored K (next value) (next' value)) :
    Prog.Mirrored K (p >>= next) (p' >>= next') := by
  intro t log value yields
  obtain ⟨_, mid, _, split, begun, ended⟩ := Prog.yields_bind.mp yields
  obtain ⟨a, b, rfl, rfl, rfl⟩ := List.map_eq_append_iff.mp split
  obtain ⟨a', begun', mirrors⟩ := first t a mid begun
  obtain ⟨b', ended', onward⟩ := rest mid ⟨_, begun⟩ (lastTime t a) b value ended
  exact ⟨a' ++ b', Prog.yields_bind.mpr ⟨_, mid, _, List.map_append, begun', ended'⟩,
    mirrors.append onward⟩

theorem bind {next next' : α → Prog M.sig β} (first : Prog.Mirrored K p p')
    (rest : ∀ value, Prog.Mirrored K (next value) (next' value)) :
    Prog.Mirrored K (p >>= next) (p' >>= next') :=
  first.bind_yielded fun value _ => rest value

theorem par (first : Prog.Mirrored K p p') (second : Prog.Mirrored K q q') :
    Prog.Mirrored K (Prog.par p q) (Prog.par p' q') := by
  intro t log both yields
  obtain ⟨_, _, shuffle, yields, yields'⟩ := Prog.yields_par.mp yields
  obtain ⟨as, bs, rfl, rfl, parts⟩ := shuffle.of_map
  obtain ⟨as', onward, mirrors⟩ := first t as both.1 yields
  obtain ⟨bs', onward', mirrors'⟩ := second t bs both.2 yields'
  obtain ⟨cs', shuffled, mirrored⟩ := mirrors.shuffle parts mirrors'
  exact ⟨cs', Prog.yields_par.mpr ⟨_, _, shuffled.map _, onward, onward'⟩, mirrored⟩

theorem joinAll {ps ps' : List (Prog M.sig α)} (all : List.Forall₂ (Prog.Mirrored K) ps ps') :
    Prog.Mirrored K (Prog.joinAll ps) (Prog.joinAll ps') := by
  induction all with
  | nil => exact ret []
  | cons head _ ih => exact (par head ih).bind fun both => ret (both.1 :: both.2)

end Prog.Mirrored

/-- The program issues only what may be put in and left out, and returns the value. -/
inductive Prog.Hushed {α : Type} (K : Mirror M) (value : α) : Prog M.sig α → Prop where
  | ret : Prog.Hushed K value (.ret value)
  | op : (∀ r, K.idle ⟨c, r⟩) → (∀ t, ∃ r, K.pad t ⟨c, r⟩) → (∀ r, Prog.Hushed K value (rest r)) →
      Prog.Hushed K value (.op c rest)

theorem Prog.Hushed.mirrored {α : Type} {value : α} {p p' : Prog M.sig α}
    (first : Prog.Hushed K value p) (second : Prog.Hushed K value p') : Prog.Mirrored K p p' := by
  induction first with
  | ret =>
      induction second with
      | ret => exact .ret value
      | op _ pad _ ih => exact .right fun t => (pad t).imp fun r pad => ⟨pad, ih r⟩
  | op idle _ _ ih => exact .left fun r => ⟨idle r, ih r⟩

theorem Prog.Hushed.returns {α : Type} {value value' : α} {p : Prog M.sig α}
    {log : List (Σ c, M.sig.Ans c)} (hushed : Prog.Hushed K value p)
    (yields : p.Yields log value') : value' = value := by
  induction hushed generalizing log with
  | ret => exact (Prog.yields_ret.mp yields).2
  | op _ _ _ ih =>
      obtain ⟨r, _, _, onward⟩ := Prog.yields_op.mp yields
      exact ih r onward

/-! ## What remains of a thread -/

section Rest

variable {init s s₁ : Config M} {past earlier : History M} {i : Nat} {th th₁ : Thread M}

theorem VisitsAt.before {l : Label M} {s' : Config M}
    (visited : VisitsAt ((s, l) :: past) s' earlier s₁) :
    (earlier = (s, l) :: past ∧ s₁ = s') ∨ VisitsAt past s earlier s₁ := by
  rcases visited with here | ⟨l₁, step⟩
  · exact .inl here
  · rcases List.suffix_cons_iff.mp step with same | older
    · cases same
      exact .inr (.inl ⟨rfl, rfl⟩)
    · exact .inr (.inr ⟨l₁, older⟩)

/-- Every step of a run leads to a configuration it passes through. -/
theorem Run.goes_on (run : Run M init past s) {l : Label M} (step : (s₁, l) :: earlier <:+ past) :
    ∃ s₂, Step M s₁ l s₂ ∧ VisitsAt past s ((s₁, l) :: earlier) s₂ := by
  induction run with
  | refl => exact absurd step.length_le (by simp)
  | @step past s l' s' before taken ih =>
      rcases List.suffix_cons_iff.mp step with same | older
      · cases same
        exact ⟨_, taken, .inl ⟨rfl, rfl⟩⟩
      · obtain ⟨s₂, taken₁, visited⟩ := ih older
        refine ⟨s₂, taken₁, .inr ?_⟩
        rcases visited with ⟨here, rfl⟩ | ⟨l₂, further⟩
        · exact ⟨l', by simp only [here, List.suffix_refl]⟩
        · exact ⟨l₂, further.trans (List.suffix_cons _ _)⟩

theorem Run.persistsAt (run : Run M init past s) (visited : VisitsAt past s earlier s₁)
    (at_i : s₁.threads[i]? = some th₁) :
    ∃ th, s.threads[i]? = some th ∧ th.task = th₁.task ∧ th.root = th₁.root := by
  rcases visited with ⟨_, rfl⟩ | ⟨l, step⟩
  · exact ⟨th₁, at_i, rfl, rfl⟩
  · exact run.persists (step.subset (List.mem_cons_self ..)) at_i

/-- The rest of its trace leads a thread from any program it has had to the last one. -/
theorem Run.leads_on (run : Run M init past s) (visited : VisitsAt past s earlier s₁)
    (was_i : s₁.threads[i]? = some th₁) (at_i : s.threads[i]? = some th) {q : Prog M.sig M.Out}
    (here : th.prog = some q) :
    ∃ p rest, th₁.prog = some p ∧ trace i past = trace i earlier ++ rest ∧
      p.Leads (rest.map Prod.snd) q := by
  induction run generalizing th q with
  | refl =>
      rcases visited with ⟨rfl, rfl⟩ | ⟨_, step⟩
      · obtain rfl := Option.some.inj (was_i.symm.trans at_i)
        exact ⟨q, [], here, by simp, .refl⟩
      · exact absurd step.length_le (by simp)
  | step before taken ih =>
      rcases visited.before with ⟨rfl, rfl⟩ | older
      · obtain rfl := Option.some.inj (was_i.symm.trans at_i)
        exact ⟨q, [], here, by simp, .refl⟩
      · obtain ⟨th₀, there, _⟩ := before.persistsAt older was_i
        have inside := (List.getElem?_eq_some_iff.mp there).1
        cases taken.fate at_i with
        | same was foreign =>
            rw [trace_foreign foreign]
            exact ih older was here
        | moved was next moved =>
            subst moved
            obtain rfl := Option.some.inj here
            obtain ⟨p, rest, prog, split, leads⟩ := ih older was next
            refine ⟨p, _, prog, by rw [trace_own, split, List.append_assoc], ?_⟩
            simpa using leads.answered _
        | turned was next moved =>
            subst moved
            obtain rfl := Option.some.inj here
            obtain ⟨p, rest, prog, split, leads⟩ := ih older was next
            rw [trace_foreign (by simp [Label.Foreign])]
            exact ⟨p, rest, prog, split, leads.turned _⟩
        | dropped _ moved => subst moved; cases here
        | called new => omega
        | spawned new => omega

end Rest

/-! ## Runs -/

/-- What has to be mirrored of a step. -/
def Label.seen (K : Mirror M) : Label M → Option (Nat × Int × Σ c, M.sig.Ans c)
  | .exec i t c r => if K.seen ⟨c, r⟩ then some (i, t, ⟨c, r⟩) else none
  | .start _ | .turn .. | .drop _ => none

/-- What has to be mirrored of a run, latest first. -/
def seenSteps (K : Mirror M) (past : History M) : List (Nat × Int × Σ c, M.sig.Ans c) :=
  past.filterMap fun e => e.2.seen K

/-- The tasks that were called from outside, in order. -/
def calls (past : History M) : List M.Task := (past.filterMap fun e => e.2.starting).reverse

/-- The relations of a mirror fit together. -/
structure Mirror.Lawful (K : Mirror M) : Prop where
  body : ∀ task task', K.task task task' → Prog.Mirrored K (M.body task) (M.body task')
  exec_like : ∀ {i t c r c' r' w v w'}, K.like ⟨c, r⟩ ⟨c', r'⟩ → K.world w v → M.exec i t w c r w' →
    ∃ v', M.exec i t v c' r' v' ∧ K.world w' v'
  spawned_like : ∀ e e', K.like e e' → List.Forall₂ K.task (M.spawned e.1) (M.spawned e'.1)
  seen_like : ∀ e e', K.like e e' → e = e' ∨ K.seen e = false ∧ K.seen e' = false
  exec_idle : ∀ {i t c r w v w'}, K.idle ⟨c, r⟩ → K.world w v → M.exec i t w c r w' → K.world w' v
  idle_quiet : ∀ e, K.idle e → M.spawned e.1 = [] ∧ K.seen e = false
  exec_pad : ∀ {i t c r w v}, K.pad t ⟨c, r⟩ → K.world w v →
    ∃ v', M.exec i t v c r v' ∧ K.world w v'
  pad_quiet : ∀ t e, K.pad t e → M.spawned e.1 = [] ∧ K.seen e = false

/-- Steps that do not show and that call nothing, all at the same time. -/
def Silent (K : Mirror M) (t : Int) (past : History M) : Prop :=
  ∀ e ∈ past, e.2.starting = none ∧ e.2.seen K = none ∧ ∀ u ∈ e.2.time, u = t

/-- No decision of the scheduler is left before the first command of the log. -/
structure Settled (p : Prog M.sig M.Out) (log : List (Σ c, M.sig.Ans c)) (out : M.Out) : Prop where
  yields : p.Yields log out
  ends : log = [] → p = .ret out
  next : ∀ c r rest, log = ⟨c, r⟩ :: rest → ∃ k, p = .op c k ∧ (k r).Yields rest out

theorem Prog.Yields.settles {p : Prog M.sig M.Out} {log : List (Σ c, M.sig.Ans c)} {out : M.Out}
    (yields : p.Yields log out) : ∃ p', p.Leads [] p' ∧ Settled p' log out := by
  induction yields with
  | ret => exact ⟨_, .refl, .ret, fun _ => rfl, nofun⟩
  | @op _ _ _ _ rest onward =>
      refine ⟨_, .refl, .op onward, nofun, fun c' r' later same => ?_⟩
      cases same
      exact ⟨rest, rfl, onward⟩
  | left _ ih =>
      obtain ⟨p', leads, settled⟩ := ih
      exact ⟨p', .left leads, settled⟩
  | right _ ih =>
      obtain ⟨p', leads, settled⟩ := ih
      exact ⟨p', .right leads, settled⟩

section Alone

variable {s : Config M} {i root : Nat} {task : M.Task} {p : Prog M.sig M.Out}
  {out : M.Out} {t : Int}

private theorem decide_first (left : Bool) {l r p' : Prog M.sig M.Out}
    (at_i : s.threads[i]? = some ⟨task, root, some (.choice l r)⟩)
    (rest : ∀ {s : Config M}, s.threads[i]? = some ⟨task, root, some (if left then l else r)⟩ →
      ∃ turns, Run M s turns ⟨s.world, s.threads.set i ⟨task, root, some p'⟩⟩ ∧ Silent K t turns) :
    ∃ turns, Run M s turns ⟨s.world, s.threads.set i ⟨task, root, some p'⟩⟩ ∧ Silent K t turns := by
  have inside := (List.getElem?_eq_some_iff.mp at_i).1
  obtain ⟨turns, run, silent⟩ :=
    rest (s := ⟨s.world, s.threads.set i ⟨task, root, some (if left then l else r)⟩⟩)
    (List.getElem?_set_self inside)
  rw [List.set_set] at run
  refine ⟨turns ++ [(s, .turn i left)], (Run.step .refl (.turn at_i rfl)).trans run,
    fun e member => ?_⟩
  rcases List.mem_append.mp member with later | here
  · exact silent e later
  · obtain rfl := List.mem_singleton.mp here
    exact ⟨rfl, rfl, nofun⟩

/-- A thread can take the decisions that come before its next command. -/
theorem decide_next {p' : Prog M.sig M.Out} (at_i : s.threads[i]? = some ⟨task, root, some p⟩)
    (leads : p.Leads [] p') :
    ∃ turns, Run M s turns ⟨s.world, s.threads.set i ⟨task, root, some p'⟩⟩ ∧
      Silent K t turns := by
  generalize none : ([] : List (Σ c, M.sig.Ans c)) = log at leads
  induction leads generalizing s with
  | refl =>
      refine ⟨[], ?_, by simp [Silent]⟩
      rw [← (List.getElem?_eq_some_iff.mp at_i).2, List.set_getElem_self]
      exact .refl
  | op => cases none
  | left _ ih => exact decide_first true at_i fun here => ih here none
  | right _ ih => exact decide_first false at_i fun here => ih here none

/-- A thread can put in the padding that is due. -/
theorem pad_next (lawful : K.Lawful) {pads rest : Timed M} {w : M.World}
    (at_i : s.threads[i]? = some ⟨task, root, some p⟩)
    (yields : p.Yields ((pads ++ rest).map Prod.snd) out) (padding : Padding K t pads)
      (world : K.world w s.world) : ∃ more world' p',
      Run M s more ⟨world', s.threads.set i ⟨task, root, some p'⟩⟩ ∧ Silent K t more ∧
      K.world w world' ∧
        Settled p' (rest.map Prod.snd) out := by
  induction pads generalizing s p with
  | nil =>
      obtain ⟨p', leads, settled⟩ := Prog.Yields.settles yields
      obtain ⟨turns, run, silent⟩ := decide_next (K := K) at_i leads
      exact ⟨turns, s.world, p', run, silent, world, settled⟩
  | cons e pads ih =>
      obtain ⟨⟨time, pad⟩, others⟩ := List.forall_mem_cons.mp padding
      obtain ⟨u, ⟨c, r⟩⟩ := e
      obtain rfl : u = t := time
      obtain ⟨p', leads, settled⟩ := Prog.Yields.settles yields
      obtain ⟨turns, run, silent⟩ := decide_next (K := K) at_i leads
      obtain ⟨k, rfl, onward⟩ := settled.next c r _ rfl
      have inside := (List.getElem?_eq_some_iff.mp at_i).1
      obtain ⟨v, done, world'⟩ := lawful.exec_pad (i := i) pad world
      obtain ⟨unspawned, unseen⟩ := lawful.pad_quiet u ⟨c, r⟩ pad
      have taken := Step.exec (s := ⟨s.world, s.threads.set i ⟨task, root, some (.op c k)⟩⟩)
        (List.getElem?_set_self inside) rfl done
      simp only [unspawned, List.map_nil, List.append_nil, List.set_set] at taken
      obtain ⟨more, world₂, p₂, run₂, silent₂, related, settled₂⟩ :=
        ih (s := ⟨v, s.threads.set i ⟨task, root, some (k r)⟩⟩)
          (List.getElem?_set_self inside) onward others world'
      rw [List.set_set] at run₂
      refine ⟨more ++ (_, .exec i u c r) :: turns, world₂, p₂, (run.step taken).trans run₂,
        fun e member => ?_, related, settled₂⟩
      rcases List.mem_append.mp member with later | here
      · exact silent₂ e later
      · rcases List.mem_cons.mp here with rfl | before
        · exact ⟨rfl, by simp [Label.seen, unseen], fun _ same => (Option.some.inj same).symm⟩
        · exact silent e before

end Alone

/-- The thread still has to be mirrored from here on, and padding may be due at the time `t`. -/
structure Lagging (K : Mirror M) (t : Int) (rest : Timed M) (out : M.Out)
    (th th' : Thread M) : Prop where
  task : K.task th.task th'.task
  root : th'.root = th.root
  prog : ∃ p log, th'.prog = some p ∧ p.Yields (log.map Prod.snd) out ∧ Mirrors K t rest log

/-- Neither padding nor a decision is due before the next command. -/
structure Abreast (K : Mirror M) (rest : Timed M) (out : M.Out) (th th' : Thread M) : Prop where
  task : K.task th.task th'.task
  root : th'.root = th.root
  prog : ∃ p log, th'.prog = some p ∧ Settled p (log.map Prod.snd) out ∧ Ready K rest log

variable {s s₁ s₁' : Config M} {past earlier : History M}

theorem Abreast.lagging {rest : Timed M} {out : M.Out} {th th' : Thread M}
    (abreast : Abreast K rest out th th') (t : Int) : Lagging K t rest out th th' := by
  obtain ⟨p, log, prog, settled, ready⟩ := abreast.prog
  exact ⟨abreast.task, abreast.root, p, log, prog, settled.yields, ready.mirrors t⟩

theorem Forall₂.getElem? {α β : Type} {R : α → β → Prop} {as : List α} {bs : List β}
    (all : List.Forall₂ R as bs) {n : Nat} {a : α} (at_n : as[n]? = some a) :
    ∃ b, bs[n]? = some b ∧ R a b := by
  induction all generalizing n with
  | nil => cases at_n
  | cons head _ ih =>
      cases n with
      | zero =>
          obtain rfl := Option.some.inj at_n
          exact ⟨_, rfl, head⟩
      | succ n => exact ih at_n

/-- Thread by thread, the configuration `s₁'` stands to `s₁` as `P` says. The run that
    is mirrored goes on from `s₁` to its end `s`, with the rest of every trace. -/
structure Alongside (K : Mirror M) (past : History M) (s : Config M)
    (P : Nat → Timed M → M.Out → Thread M → Thread M → Prop) (earlier : History M)
    (s₁ s₁' : Config M) : Prop where
  world : K.world s₁.world s₁'.world
  length : s₁'.threads.length = s₁.threads.length
  threads : ∀ j th, s₁.threads[j]? = some th → ∃ th' last rest out, s₁'.threads[j]? = some th' ∧
    s.threads[j]? = some last ∧ last.Finished out ∧ trace j past = trace j earlier ++ rest ∧
    P j rest out th th'

theorem Alongside.mono {P Q : Nat → Timed M → M.Out → Thread M → Thread M → Prop}
    (alongside : Alongside K past s P earlier s₁ s₁')
      (implies : ∀ j rest out th th', s₁.threads[j]? = some th → P j rest out th th' →
        Q j rest out th th') : Alongside K past s Q earlier s₁ s₁' where
  world := alongside.world
  length := alongside.length
  threads j th at_j := by
    obtain ⟨th', last, rest, out, at_j', final, finished, split, holds⟩ :=
      alongside.threads j th at_j
    exact ⟨th', last, rest, out, at_j', final, finished, split,
      implies j rest out th th' at_j holds⟩

/-- The thread that is next catches up, the others stay where they are. -/
private theorem catch_up_one (lawful : K.Lawful) {n : Nat} {t : Int} (lags : Alongside K past s
      (fun j => if j < n then Abreast K else Lagging K t) earlier s₁ s₁') :
      ∃ more s₂, Run M s₁' more s₂ ∧
    Silent K t more ∧ Alongside K past s (fun j =>
      if j < n + 1 then Abreast K else Lagging K t) earlier s₁ s₂ := by
  by_cases inside : n < s₁.threads.length
  · obtain ⟨th', last, rest, out, at_n, final, finished, split, lagging⟩ :=
      lags.threads n _ (List.getElem?_eq_getElem inside)
    rw [if_neg (Nat.lt_irrefl n)] at lagging
    obtain ⟨p, log, prog, yields, mirrors⟩ := lagging.prog
    obtain ⟨pads, log, rfl, padding, ready⟩ := mirrors.flush
    obtain ⟨task, root, prog'⟩ := th'
    obtain rfl : prog' = some p := prog
    obtain ⟨more, world, p', run, silent, related, settled⟩ :=
      pad_next lawful at_n yields padding lags.world
    refine ⟨more, _, run, silent, related, by simpa using lags.length, fun j th at_j => ?_⟩
    by_cases here : j = n
    · subst here
      obtain rfl := Option.some.inj ((List.getElem?_eq_getElem inside).symm.trans at_j)
      refine ⟨_, last, rest, out, List.getElem?_set_self (List.getElem?_eq_some_iff.mp at_n).1,
        final, finished, split, ?_⟩
      rw [if_pos (Nat.lt_succ_self j)]
      exact ⟨lagging.task, lagging.root, p', log, rfl, settled, ready⟩
    · obtain ⟨th', last, rest, out, at_j', final, finished, split, holds⟩ := lags.threads j th at_j
      refine ⟨th', last, rest, out, by rw [List.getElem?_set_ne (Ne.symm here), at_j'], final,
        finished, split, ?_⟩
      have same : (j < n + 1) = (j < n) := by simp only [eq_iff_iff]; omega
      simpa only [same] using holds
  · refine ⟨[], s₁', .refl, by simp [Silent], lags.mono fun j rest out th th' at_j holds => ?_⟩
    have before := (List.getElem?_eq_some_iff.mp at_j).1
    rw [if_pos (by omega)] at holds ⊢
    exact holds

/-- All threads can put in the padding that is due. -/
theorem catch_up (lawful : K.Lawful) {t : Int}
    (lags : Alongside K past s (fun _ => Lagging K t) earlier s₁ s₁') :
    ∃ more s₂, Run M s₁' more s₂ ∧ Silent K t more ∧
    Alongside K past s (fun _ => Abreast K) earlier s₁ s₂ := by
  have upTo (n : Nat) : ∃ more s₂, Run M s₁' more s₂ ∧ Silent K t more ∧
      Alongside K past s (fun j => if j < n then Abreast K else Lagging K t) earlier s₁ s₂ := by
    induction n with
    | zero =>
        exact ⟨[], s₁', .refl, by simp [Silent],
          lags.mono fun _ _ _ _ _ _ holds => by simpa using holds⟩
    | succ n ih =>
        obtain ⟨more, s₂, run, silent, alongside⟩ := ih
        obtain ⟨more', s₃, run', silent', alongside'⟩ := catch_up_one lawful alongside
        exact ⟨more' ++ more, s₃, run.trans run',
          List.forall_mem_append.mpr ⟨silent', silent⟩, alongside'⟩
  obtain ⟨more, s₂, run, silent, alongside⟩ := upTo s₁.threads.length
  refine ⟨more, s₂, run, silent, alongside.mono fun j rest out th th' at_j holds => ?_⟩
  rw [if_pos (List.getElem?_eq_some_iff.mp at_j).1] at holds
  exact holds

section Steps

variable {w : M.World} {s₂ : Config M} {l : Label M}

/-- A thread that has just been started has everything before it. -/
theorem spawn_lagging (lawful : K.Lawful) (run : Run M (.idle w) past s)
    (returned : ∀ th ∈ s.threads, ∃ out, th.Finished out) (visited : VisitsAt past s earlier s₁)
    {j root root' : Nat} {task task' : M.Task} (at_j : s₁.threads[j]? = some (.spawn task root))
    (partner : K.task task task') (same : root' = root) (t : Int) :
    ∃ last rest out, s.threads[j]? = some last ∧ last.Finished out ∧
      trace j past = trace j earlier ++ rest ∧
      Lagging K t rest out (.spawn task root) (.spawn task' root') := by
  obtain ⟨last, final, _⟩ := run.persistsAt visited at_j
  obtain ⟨out, finished⟩ := returned last (List.mem_of_getElem? final)
  obtain ⟨p, rest, prog, split, leads⟩ := run.leads_on visited at_j final finished
  obtain rfl := Option.some.inj prog
  obtain ⟨log, yields, mirrors⟩ := lawful.body task task' partner t rest out leads.yields
  exact ⟨last, rest, out, final, finished, split, partner, same, _, log, rfl, yields, mirrors⟩

/-- What has not moved is where it was. -/
theorem Alongside.unmoved (abreast : Alongside K past s (fun _ => Abreast K) earlier s₁ s₁')
    {j : Nat} {th : Thread M} (at_j : s₁.threads[j]? = some th) (foreign : l.Foreign j) (t : Int) :
    ∃ th' last rest out,
      s₁'.threads[j]? = some th' ∧ s.threads[j]? = some last ∧ last.Finished out ∧
      trace j past = trace j ((s₁, l) :: earlier) ++ rest ∧ Lagging K t rest out th th' := by
  obtain ⟨th', last, rest, out, at_j', final, finished, split, abreast⟩ := abreast.threads j th at_j
  exact ⟨th', last, rest, out, at_j', final, finished, by rw [trace_foreign foreign, split],
    abreast.lagging t⟩

theorem Alongside.start (lawful : K.Lawful) (run : Run M (.idle w) past s)
    (returned : ∀ th ∈ s.threads, ∃ out, th.Finished out)
    (abreast : Alongside K past s (fun _ => Abreast K) earlier s₁ s₁') {task task' : M.Task}
    (partner : K.task task task') (visited : VisitsAt past s ((s₁, .start task) :: earlier)
      ⟨s₁.world, s₁.threads ++ [.spawn task s₁.threads.length]⟩) (t : Int) :
    Alongside K past s (fun _ => Lagging K t) ((s₁, .start task) :: earlier)
      ⟨s₁.world, s₁.threads ++ [.spawn task s₁.threads.length]⟩
      ⟨s₁'.world, s₁'.threads ++ [.spawn task' s₁'.threads.length]⟩ where
  world := abreast.world
  length := by simp [abreast.length]
  threads j th at_j := by
    rcases Nat.lt_trichotomy j s₁.threads.length with old | new | beyond
    · rw [List.getElem?_append_left old] at at_j
      rw [List.getElem?_append_left (abreast.length ▸ old)]
      exact abreast.unmoved at_j (by simp [Label.Foreign]) t
    · subst new
      obtain rfl : Thread.spawn task s₁.threads.length = th := by simpa using at_j
      refine ⟨.spawn task' s₁'.threads.length, ?_⟩
      obtain ⟨last, rest, out, facts⟩ :=
        spawn_lagging lawful run returned visited at_j partner abreast.length t
      exact ⟨last, rest, out, by simp [← abreast.length], facts⟩
    · rw [List.getElem?_eq_none (by simp; omega)] at at_j
      cases at_j

/-- A command is mirrored by one that is like it, or can be left out. -/
theorem Alongside.exec (lawful : K.Lawful) (run : Run M (.idle w) past s)
    (returned : ∀ th ∈ s.threads, ∃ out, th.Finished out)
    (abreast : Alongside K past s (fun _ => Abreast K) earlier s₁ s₁') {i : Nat} {t : Int}
    {c : M.sig.Cmd} {r : M.sig.Ans c} (taken : Step M s₁ (.exec i t c r) s₂)
    (visited : VisitsAt past s ((s₁, .exec i t c r) :: earlier) s₂) :
    ∃ more s₂', Run M s₁' more s₂' ∧ (∀ e ∈ more, e.2.starting = none ∧ ∀ u ∈ e.2.time, u = t) ∧
      seenSteps K more = (Label.seen K (.exec i t c r)).toList ∧
      Alongside K past s (fun _ => Lagging K t) ((s₁, .exec i t c r) :: earlier) s₂ s₂' := by
  cases taken with
  | @exec _ _ th _ k _ _ w' at_i next done =>
      have inside := (List.getElem?_eq_some_iff.mp at_i).1
      obtain ⟨⟨task', root', prog'⟩, last, rest, out, at_i', final, finished, split, holds⟩ :=
        abreast.threads i th at_i
      obtain ⟨p', log, prog, settled, ready⟩ := holds.prog
      obtain rfl : prog' = some p' := prog
      have inside' := (List.getElem?_eq_some_iff.mp at_i').1
      have moved : (s₁.threads.set i { th with prog := some (k r) } ++
          (M.spawned c).map (Thread.spawn · th.root))[i]? = some
          { th with prog := some (k r) } := by
        rw [List.getElem?_append_left (by simpa using inside), List.getElem?_set_self inside]
      obtain ⟨_, rest₂, _, split₂, _⟩ := run.leads_on visited moved final finished
      rw [trace_own, List.append_assoc, split] at split₂
      obtain rfl := List.append_cancel_left split₂
      have split' : trace i past = trace i ((s₁, .exec i t c r) :: earlier) ++ rest₂ := by
        rw [split, trace_own, List.append_assoc]
      have others {j : Nat} {ts : List (Thread M)} {th' : Thread M} (old : j < s₁.threads.length)
        (other : j ≠ i)
          (at_j : (s₁.threads.set i { th with prog := some (k r) } ++ ts)[j]? = some th') :
          s₁.threads[j]? = some th' ∧ Label.Foreign j (Label.exec (M := M) i t c r) := by
        rw [List.getElem?_append_left (by simpa using old),
          List.getElem?_set_ne (Ne.symm other)] at at_j
        exact ⟨at_j, by rintro _ _ _ same; cases same; exact other rfl⟩
      cases ready with
      | left idle mirrors =>
          obtain ⟨unspawned, unseen⟩ := lawful.idle_quiet _ idle
          refine ⟨[], s₁', .refl, by simp, by simp [seenSteps, Label.seen, unseen],
            lawful.exec_idle idle abreast.world done,
            by simpa [unspawned] using abreast.length, fun j th₂ at_j => ?_⟩
          have old : j < s₁.threads.length := by
            simpa [unspawned] using (List.getElem?_eq_some_iff.mp at_j).1
          by_cases here : j = i
          · subst here
            obtain rfl := Option.some.inj (moved.symm.trans at_j)
            exact ⟨_, last, rest₂, out, at_i', final, finished, split', holds.task,
              holds.root, p', log, rfl, settled.yields, mirrors⟩
          · obtain ⟨at_j, foreign⟩ := others old here at_j
            exact abreast.unmoved at_j foreign t
      | @both _ e' _ _ log' like mirrors =>
          obtain ⟨c', r'⟩ := e'
          obtain ⟨k', rfl, onward⟩ := settled.next c' r' _ rfl
          obtain ⟨v', done', world'⟩ := lawful.exec_like (i := i) like abreast.world done
          have spawned := lawful.spawned_like _ _ like
          have same := lawful.seen_like _ _ like
          have moved' : (s₁'.threads.set i ⟨task', root', some (k' r')⟩ ++
              (M.spawned c').map (Thread.spawn · root'))[i]? =
                some ⟨task', root', some (k' r')⟩ := by
            rw [List.getElem?_append_left (by simpa using inside'), List.getElem?_set_self inside']
          refine ⟨_, _, Run.step .refl (.exec at_i' rfl done'), ?_, ?_, world', ?_,
            fun j th₂ at_j => ?_⟩
          · exact List.forall_mem_singleton.mpr ⟨rfl, fun _ same => (Option.some.inj same).symm⟩
          · rcases same with here | ⟨unseen, unseen'⟩
            · cases here
              simp only [seenSteps, List.filterMap_cons, List.filterMap_nil]
              cases Label.seen K (.exec i t c r) <;> rfl
            · simp [seenSteps, Label.seen, unseen, unseen']
          · simp only [List.length_append, List.length_set, List.length_map, abreast.length,
              spawned.length_eq]
          · rcases Nat.lt_or_ge j s₁.threads.length with old | new
            · by_cases here : j = i
              · subst here
                obtain rfl := Option.some.inj (moved.symm.trans at_j)
                exact ⟨_, last, rest₂, out, moved', final, finished, split', holds.task,
                  holds.root, _, log', rfl, onward, mirrors⟩
              · obtain ⟨was_j, foreign⟩ := others old here at_j
                obtain ⟨th', last', rest', out', at_j', facts⟩ := abreast.unmoved was_j foreign t
                refine ⟨th', last', rest', out', ?_, facts⟩
                rw [List.getElem?_append_left (by simpa [abreast.length] using old),
                  List.getElem?_set_ne (Ne.symm here), at_j']
            · have at_j₂ := at_j
              rw [List.getElem?_append_right (by simpa using new), List.getElem?_map,
                Option.map_eq_some_iff] at at_j
              obtain ⟨child, at_m, rfl⟩ := at_j
              rw [List.length_set] at at_m
              obtain ⟨child', at_m', partner⟩ := Forall₂.getElem? spawned at_m
              obtain ⟨last', rest', out', facts⟩ :=
                spawn_lagging lawful run returned visited at_j₂ partner holds.root t
              refine ⟨.spawn child' root', last', rest', out', ?_, facts⟩
              rw [List.getElem?_append_right (by simpa [abreast.length] using new),
                List.getElem?_map, List.length_set, abreast.length, at_m', Option.map_some]

/-- A decision of the scheduler is not mirrored at once. -/
theorem Alongside.turn (abreast : Alongside K past s (fun _ => Abreast K) earlier s₁ s₁')
    {i : Nat} {left : Bool} (taken : Step M s₁ (.turn i left) s₂) (t : Int) :
    Alongside K past s (fun _ => Lagging K t) ((s₁, .turn i left) :: earlier) s₂ s₁' where
  world := by
    cases taken with
    | turn => exact abreast.world
  length := by
    cases taken with
    | turn => simpa using abreast.length
  threads j th at_j := by
    cases taken.fate at_j with
    | same was => exact abreast.unmoved was (by simp [Label.Foreign]) t
    | turned was _ moved =>
        subst moved
        obtain ⟨th', last, rest, out, at_j', final, finished, split, lags⟩ :=
          abreast.unmoved was (l := .turn i left) (by simp [Label.Foreign]) t
        exact ⟨th', last, rest, out, at_j', final, finished, split, lags.task, lags.root, lags.prog⟩

/-- A thread that is to return is not dropped. -/
theorem Run.undropped (run : Run M (.idle w) past s)
    (returned : ∀ th ∈ s.threads, ∃ out, th.Finished out) {i : Nat}
    (taken : Step M s₁ (.drop i) s₂) : ¬ VisitsAt past s ((s₁, .drop i) :: earlier) s₂ := by
  intro visited
  cases taken with
  | @drop _ th _ at_i =>
      have dropped :=
        List.getElem?_set_self (a := { th with prog := none }) (List.getElem?_eq_some_iff.mp at_i).1
      obtain ⟨last, final, _⟩ := run.persistsAt visited dropped
      obtain ⟨out, finished⟩ := returned last (List.mem_of_getElem? final)
      obtain ⟨_, _, going, _⟩ := run.leads_on visited dropped final finished
      cases going

end Steps

/-! ## Mirrored runs -/

section Calls

variable {first second : History M}

theorem calls_append : calls (second ++ first) = calls first ++ calls second := by
  simp [calls, List.filterMap_append]

theorem seenSteps_append :
    seenSteps K (second ++ first) = seenSteps K second ++ seenSteps K first :=
  List.filterMap_append

theorem calls_uncalled (none : ∀ e ∈ second, e.2.starting = none) : calls second = [] := by
  rw [calls, List.filterMap_eq_nil_iff.mpr none, List.reverse_nil]

theorem Silent.uncalled {t : Int} (silent : Silent K t second) :
    ∀ e ∈ second, e.2.starting = none :=
  fun e member => (silent e member).1

theorem Silent.unseen {t : Int} (silent : Silent K t second) : seenSteps K second = [] :=
  List.filterMap_eq_nil_iff.mpr fun e member => (silent e member).2.1

end Calls

/-- Tasks of the kind are called when those before them are done. -/
def OneByOne (N : M.Task → Prop) (past : History M) : Prop := ∀ e ∈ past, InTurn N e.1 e.2

theorem OneByOne.uncalled {N : M.Task → Prop} {first second : History M} (turns : OneByOne N first)
    (none : ∀ e ∈ second, e.2.starting = none) : OneByOne N (second ++ first) := by
  refine List.forall_mem_append.mpr ⟨fun e member task started => ?_, turns⟩
  rw [none e member] at started
  cases started

/-- The last reading of the clock. -/
def lastReading (first : Int) (past : History M) : Int :=
  (past.findSome? fun e => e.2.time).getD first

/-- The clock goes neither back nor beyond `t`. -/
structure Within (t : Int) (past : History M) : Prop where
  clocked : Clocked past
  before : ∀ e ∈ past, ∀ u ∈ e.2.time, u ≤ t

theorem Within.append {t u : Int} {first second : History M} (within : Within t first)
    (later : t ≤ u) (now : ∀ e ∈ second, ∀ v ∈ e.2.time, v = u) : Within u (second ++ first) where
  clocked := by
    refine List.pairwise_append.mpr ⟨List.pairwise_iff_forall_sublist.mpr fun part =>
      ?_, within.clocked, fun e member e' member' v at_e v' at_e' => ?_⟩
    · intro v at_e v' at_e'
      have same := now _ (part.subset (by simp)) v at_e
      exact Int.le_of_eq ((now _ (part.subset (by simp)) v' at_e').trans same.symm)
    · rw [now e member v at_e]
      exact Int.le_trans (within.before e' member' v' at_e') later
  before := by
    refine List.forall_mem_append.mpr
      ⟨fun e member v at_e => Int.le_of_eq (now e member v at_e), fun e member v at_e => ?_⟩
    exact Int.le_trans (within.before e member v at_e) later

/-- A clock has a first reading. -/
theorem first_reading (past : History M) : ∃ first, ∀ e ∈ past, ∀ t ∈ e.2.time, first ≤ t := by
  induction past with
  | nil => exact ⟨0, by simp⟩
  | cons e past ih =>
      obtain ⟨first, least⟩ := ih
      refine ⟨min first (e.2.time.getD first),
        List.forall_mem_cons.mpr ⟨fun t at_e => ?_, fun e' member t at_e => ?_⟩⟩
      · rw [show e.2.time = some t from at_e]
        exact Int.min_le_right _ _
      · exact Int.le_trans (Int.min_le_left _ _) (least e' member t at_e)

theorem lastReading_le {first : Int} {l : Label M} (clocked : Clocked ((s₁, l) :: earlier))
    (least : ∀ e ∈ (s₁, l) :: earlier, ∀ t ∈ e.2.time, first ≤ t) :
    lastReading first earlier ≤ lastReading first ((s₁, l) :: earlier) := by
  cases l with
  | start | turn | drop => exact Int.le_refl _
  | exec i t c r =>
      change lastReading first earlier ≤ t
      unfold lastReading
      cases last : earlier.findSome? fun e => e.2.time with
      | none => exact least _ (List.mem_cons_self ..) t rfl
      | some u =>
          obtain ⟨e, member, at_e⟩ := List.exists_of_findSome?_eq_some last
          exact (List.pairwise_cons.mp clocked).1 e member t rfl u at_e

/-- The run up to here was mirrored. -/
structure Reflected (K : Mirror M) (N : M.Task → Prop) (first : Int) (past : History M)
    (s : Config M) (calls' : List M.Task) (earlier : History M) (s₁ : Config M) (past' : History M)
    (s₁' : Config M) : Prop where
  alongside : Alongside K past s (fun _ => Abreast K) earlier s₁ s₁'
  seen : seenSteps K past' = seenSteps K earlier
  called : calls past' = calls'.take (calls earlier).length
  turns : OneByOne N past → OneByOne N past'
  clock : Clocked past → Within (lastReading first earlier) past'

section Whole

variable {N : M.Task → Prop} {first : Int} {w v : M.World} {calls' : List M.Task}
  {past' : History M} {l : Label M} {s₂ : Config M}

theorem VisitsAt.suffix (visited : VisitsAt past s ((s₁, l) :: earlier) s₂) :
    (s₁, l) :: earlier <:+ past := by
  rcases visited with ⟨rfl, _⟩ | ⟨l', step⟩
  · exact List.suffix_refl _
  · exact (List.suffix_cons _ _).trans step

/-- A thread that is to return is gone when it has returned, and then its mirror has, too. -/
theorem Alongside.gone (kept : ∀ task task', K.task task task' → N task' → N task)
    (run : Run M (.idle w) past s) (visited : VisitsAt past s earlier s₁)
    (abreast : Alongside K past s (fun _ => Abreast K) earlier s₁ s₁')
    (gone : ∀ th ∈ s₁.threads, N th.task → th.Gone) :
    ∀ th' ∈ s₁'.threads, N th'.task → th'.Gone := by
  intro th' member kind
  obtain ⟨j, inside', rfl⟩ := List.mem_iff_getElem.mp member
  have inside : j < s₁.threads.length := abreast.length ▸ inside'
  have at_j := List.getElem?_eq_getElem inside
  obtain ⟨th', last, rest, out, at_j', final, finished, split, holds⟩ := abreast.threads j _ at_j
  obtain rfl := Option.some.inj ((List.getElem?_eq_getElem inside').symm.trans at_j')
  obtain ⟨p, log, prog, settled, ready⟩ := holds.prog
  obtain ⟨q, onward, was, split', leads⟩ := run.leads_on visited at_j final finished
  obtain rfl := List.append_cancel_left (split.symm.trans split')
  rcases gone _ (List.getElem_mem inside) (kept _ _ holds.task kind) with dropped | ⟨_, done⟩
  · rw [dropped] at was
    cases was
  · obtain rfl := Option.some.inj (done.symm.trans was)
    obtain rfl := List.map_eq_nil_iff.mp (Prog.yields_ret.mp leads.yields).1
    cases ready
    exact .inr ⟨out, prog.trans (congrArg some (settled.ends rfl))⟩

/-- What is left to mirror after a step can be caught up with. -/
theorem Alongside.caught (lawful : K.Lawful) {s₂' : Config M}
    (lags : Alongside K past s (fun _ => Lagging K (lastReading first ((s₁, l) :: earlier)))
      ((s₁, l) :: earlier) s₂ s₂') (ran : Run M (.idle v) past' s₂')
    (seen : seenSteps K past' = seenSteps K ((s₁, l) :: earlier))
    (called : calls past' = calls'.take (calls ((s₁, l) :: earlier)).length)
    (turns : OneByOne N past → OneByOne N past')
    (clock : Clocked past → Within (lastReading first ((s₁, l) :: earlier)) past') : ∃ past' s₂',
      Run M (.idle v) past' s₂' ∧
      Reflected K N first past s calls' ((s₁, l) :: earlier) s₂ past' s₂' := by
  obtain ⟨more, s₃, onward, silent, abreast⟩ := catch_up lawful lags
  refine ⟨more ++ past', s₃, ran.trans onward, abreast, ?_, ?_, fun whole =>
    (turns whole).uncalled silent.uncalled, fun clocked => (clock clocked).append (Int.le_refl _)
      fun e member => (silent e member).2.2⟩
  · rw [seenSteps_append, silent.unseen, List.nil_append, seen]
  · rw [calls_append, calls_uncalled silent.uncalled, List.append_nil, called]

/-- One step is mirrored. -/
theorem Reflected.step (lawful : K.Lawful)
    (kept : ∀ task task', K.task task task' → N task' → N task) (run : Run M (.idle w) past s)
    (returned : ∀ th ∈ s.threads, ∃ out, th.Finished out)
    (same : List.Forall₂ K.task (calls past) calls') (least : ∀ e ∈ past, ∀ t ∈ e.2.time, first ≤ t)
    (ran : Run M (.idle v) past' s₁')
    (reflected : Reflected K N first past s calls' earlier s₁ past' s₁') (taken : Step M s₁ l s₂)
    (visited : VisitsAt past s ((s₁, l) :: earlier) s₂) : ∃ past' s₂',
    Run M (.idle v) past' s₂' ∧
    Reflected K N first past s calls' ((s₁, l) :: earlier) s₂ past' s₂' := by
  have abreast := reflected.alongside
  have readings (clocked : Clocked past) :
      lastReading first earlier ≤ lastReading first ((s₁, l) :: earlier) :=
    lastReading_le (clocked.sublist visited.suffix.sublist) fun e member =>
      least e (visited.suffix.subset member)
  cases l with
  | start task =>
      cases taken
      obtain ⟨later, rfl⟩ := visited.suffix
      have started : calls ((s₁, .start task) :: earlier) = calls earlier ++ [task] := by
        simp [calls, Label.starting]
      have next : (calls (later ++ (s₁, .start task) :: earlier))[(calls earlier).length]? =
          some task := by
        simp [calls_append, started]
      obtain ⟨task', next', partner⟩ := Forall₂.getElem? same next
      refine Alongside.caught lawful (abreast.start lawful run returned partner visited _)
        (ran.step (.start task')) ?_ ?_
        (fun whole => List.forall_mem_cons.mpr
          ⟨fun _ called kind th member kind' => ?_, reflected.turns whole⟩)
        fun clocked => ?_
      · exact reflected.seen
      · rw [started, List.length_append, List.length_singleton, List.take_add_one, next',
          ← reflected.called]
        simp [calls, Label.starting]
      · have before : VisitsAt (later ++ (s₁, .start task) :: earlier) s earlier s₁ :=
          .inr ⟨_, List.suffix_append _ _⟩
        obtain rfl : task' = _ := Option.some.inj called
        have free := whole (s₁, .start task) (by simp) task rfl (kept _ _ partner kind)
        exact abreast.gone kept run before free th member kind'
      · have untimed : ∀ e ∈ [(s₁', Label.start task')], ∀ u ∈ e.2.time,
            u = lastReading first ((s₁, .start task) :: earlier) :=
            List.forall_mem_singleton.mpr nofun
        exact (reflected.clock clocked).append (readings clocked) untimed
  | exec i t c r =>
      obtain ⟨more, s₂', onward, silent, seen, lags⟩ :=
        abreast.exec lawful run returned taken visited
      have uncalled e member := (silent e member).1
      refine Alongside.caught lawful lags (ran.trans onward) ?_ ?_
        (fun whole => (reflected.turns whole).uncalled uncalled)
        fun clocked => (reflected.clock clocked).append (readings clocked) fun e member =>
          (silent e member).2
      · rw [seenSteps_append, seen, reflected.seen]
        cases shown : Label.seen K (.exec i t c r) <;> simp [seenSteps, shown]
      · rw [calls_append, calls_uncalled uncalled, List.append_nil, reflected.called]
        rfl
  | turn i left =>
      exact Alongside.caught lawful (abreast.turn taken _) ran reflected.seen reflected.called
        reflected.turns reflected.clock
  | drop i => exact absurd visited (run.undropped returned taken)

/-- Every configuration of the run is mirrored. -/
theorem Run.reflected (lawful : K.Lawful)
    (kept : ∀ task task', K.task task task' → N task' → N task) (run : Run M (.idle w) past s)
    (returned : ∀ th ∈ s.threads, ∃ out, th.Finished out)
    (same : List.Forall₂ K.task (calls past) calls') (least : ∀ e ∈ past, ∀ t ∈ e.2.time, first ≤ t)
    (worlds : K.world w v) (part : Run M (.idle w) earlier s₁)
    (visited : VisitsAt past s earlier s₁) : ∃ past' s₁', Run M (.idle v) past' s₁' ∧
    Reflected K N first past s calls' earlier s₁ past' s₁' := by
  induction part with
  | refl =>
      refine ⟨[], .idle v, .refl, ⟨worlds, rfl, ?_⟩, rfl, by simp [calls], by simp [OneByOne],
        fun _ => ⟨.nil, by simp⟩⟩
      intro j th at_j
      simp [Config.idle] at at_j
  | step before taken ih =>
      obtain ⟨past', s₁', ran, reflected⟩ := ih (.inr ⟨_, visited.suffix⟩)
      exact reflected.step lawful kept run returned same least ran taken visited

/-- A run in which every thread returned is mirrored, thread by thread and with all that has
to show. -/
theorem Run.mirrored (lawful : K.Lawful) (kept : ∀ task task', K.task task task' → N task' → N task)
    (run : Run M (.idle w) past s) (returned : ∀ th ∈ s.threads, ∃ out, th.Finished out)
    (same : List.Forall₂ K.task (calls past) calls')
    (worlds : K.world w v) : ∃ past' s', Run M (.idle v) past' s' ∧ calls past' = calls' ∧
      seenSteps K past' = seenSteps K past ∧ K.world s.world s'.world ∧
      List.Forall₂ (fun th th' => K.task th.task th'.task ∧ th'.root = th.root ∧
        ∃ out, th.Finished out ∧ th'.Finished out) s.threads s'.threads ∧ (OneByOne N past →
        OneByOne N past') ∧
      (Clocked past → Clocked past') := by
  obtain ⟨first, least⟩ := first_reading past
  obtain ⟨past', s', ran, reflected⟩ :=
    run.reflected lawful kept returned same least worlds run (.inl ⟨rfl, rfl⟩)
  have abreast := reflected.alongside
  refine ⟨past', s', ran, ?_, reflected.seen, abreast.world, ?_, reflected.turns,
    fun clocked => (reflected.clock clocked).clocked⟩
  · rw [reflected.called, same.length_eq, List.take_length]
  · refine List.forall₂_iff_get.mpr ⟨abreast.length.symm, fun j inside inside' => ?_⟩
    have at_j := List.getElem?_eq_getElem inside
    obtain ⟨th', last, rest, out, at_j', final, finished, split, holds⟩ := abreast.threads j _ at_j
    obtain rfl := Option.some.inj ((List.getElem?_eq_getElem inside').symm.trans at_j')
    obtain rfl := Option.some.inj (at_j.symm.trans final)
    obtain ⟨p, log, prog, settled, ready⟩ := holds.prog
    obtain rfl := List.append_cancel_left ((List.append_nil _).trans split)
    cases ready
    exact ⟨holds.task, holds.root, out, finished, prog.trans (congrArg some (settled.ends rfl))⟩

end Whole

end Async
