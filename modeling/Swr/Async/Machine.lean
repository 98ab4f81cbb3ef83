import Mathlib.Data.List.Basic
import Swr.Async.Outline

/-! # Interleaving machines

A `System` says which tasks exist, what program each one runs, what a command does
to the world they share and which tasks it starts. A configuration is that world
with the threads started so far. One step is one command of one thread, so the
runs of the machine are all interleavings at command granularity.

Threads started by a command belong to the family of the thread that started them
(`root`); threads started from outside are the root of their own family. A thread
whose program is `none` was dropped.
-/

namespace Async

structure System where
  sig : Sig
  Task : Type
  Out : Type
  World : Type
  body : Task → Prog sig Out
  spawned : sig.Cmd → List Task
  /-- `exec i t w c r w'`: at time `t` the command `c` of thread `i` is answered `r`. -/
  exec : Nat → Int → World → (c : sig.Cmd) → sig.Ans c → World → Prop

variable {M : System}

structure Thread (M : System) where
  task : M.Task
  root : Nat
  prog : Option (Prog M.sig M.Out)

namespace Thread

def spawn (task : M.Task) (root : Nat) : Thread M := ⟨task, root, some (M.body task)⟩

/-- The thread has returned. -/
def Finished (th : Thread M) (out : M.Out) : Prop := th.prog = some (.ret out)

/-- The thread was dropped before it returned. -/
def Dropped (th : Thread M) : Prop := th.prog = none

instance (th : Thread M) : Decidable th.Dropped :=
  decidable_of_iff (th.prog.isNone = true) Option.isNone_iff_eq_none

/-- The thread is no longer running. -/
def Gone (th : Thread M) : Prop := th.Dropped ∨ ∃ out, th.Finished out

/-- The thread's next command. -/
def At (th : Thread M) (c : M.sig.Cmd) : Prop := ∃ rest, th.prog = some (.op c rest)

end Thread

structure Config (M : System) where
  world : M.World
  threads : List (Thread M)

inductive Label (M : System) where
  | start (task : M.Task)
  | exec (i : Nat) (time : Int) (c : M.sig.Cmd) (r : M.sig.Ans c)
  | turn (i : Nat) (left : Bool)
  | drop (i : Nat)

/-- The task that a step starts from outside. -/
def Label.starting : Label M → Option M.Task
  | .start task => some task
  | .exec .. | .turn .. | .drop _ => none

/-- The thread that a step drops. -/
def Label.dropping : Label M → Option Nat
  | .drop i => some i
  | .start _ | .exec .. | .turn .. => none

inductive Step (M : System) : Config M → Label M → Config M → Prop where
  | start (task : M.Task) :
      Step M s (.start task) ⟨s.world, s.threads ++ [.spawn task s.threads.length]⟩
  | exec {s : Config M} {i : Nat} {th : Thread M} {c : M.sig.Cmd}
      {rest : M.sig.Ans c → Prog M.sig M.Out} {time : Int} {r : M.sig.Ans c} {w : M.World} :
      s.threads[i]? = some th → th.prog = some (.op c rest) → M.exec i time s.world c r w →
      Step M s (.exec i time c r)
        ⟨w, s.threads.set i { th with prog := some (rest r) } ++
          (M.spawned c).map (Thread.spawn · th.root)⟩
  | turn : s.threads[i]? = some th → th.prog = some (.choice l r) →
      Step M s (.turn i left)
        ⟨s.world, s.threads.set i { th with prog := some (if left then l else r) }⟩
  | drop : s.threads[i]? = some th →
      Step M s (.drop i) ⟨s.world, s.threads.set i { th with prog := none }⟩

/-- What happened, latest first: each step with the configuration it was taken in. -/
abbrev History (M : System) := List (Config M × Label M)

inductive Run (M : System) (init : Config M) : History M → Config M → Prop where
  | refl : Run M init [] init
  | step : Run M init past s → Step M s l s' → Run M init ((s, l) :: past) s'

/-- The configuration in which no task was started yet. -/
def Config.idle (w : M.World) : Config M := ⟨w, []⟩

/-- Every configuration a run passes through, the last one included. -/
def Visits (past : History M) (s s' : Config M) : Prop := s' = s ∨ ∃ l, (s', l) ∈ past

/-- The run passes through the configuration with just this history. -/
def VisitsAt (past : History M) (s : Config M) (part : History M) (s' : Config M) : Prop :=
  (part = past ∧ s' = s) ∨ ∃ l, (s', l) :: part <:+ past

/-- Every step satisfies a condition, which may look at what happened before it. -/
def Throughout (P : History M → Config M → Label M → Prop) : History M → Prop
  | [] => True
  | (s, l) :: past => P past s l ∧ Throughout P past

instance Throughout.decidable {P : History M → Config M → Label M → Prop}
    [∀ past s l, Decidable (P past s l)] : ∀ past, Decidable (Throughout P past)
  | [] => inferInstanceAs (Decidable True)
  | (s, l) :: past =>
      have : Decidable (Throughout P past) := Throughout.decidable past
      inferInstanceAs (Decidable (P past s l ∧ Throughout P past))

theorem throughout_iff {P : History M → Config M → Label M → Prop} {past : History M} :
    Throughout P past ↔ ∀ s l earlier, (s, l) :: earlier <:+ past → P earlier s l := by
  induction past with
  | nil => exact ⟨fun _ s l earlier step => absurd step.length_le (by simp), fun _ => trivial⟩
  | cons e past ih =>
      obtain ⟨s, l⟩ := e
      refine ⟨fun ⟨here, before⟩ s₁ l₁ earlier step => ?_, fun all => ⟨?_, ?_⟩⟩
      · rcases List.suffix_cons_iff.mp step with same | older
        · cases same
          exact here
        · exact ih.mp before s₁ l₁ earlier older
      · exact all s l past (List.suffix_refl _)
      · exact ih.mpr fun s₁ l₁ earlier step => all s₁ l₁ earlier (step.trans (List.suffix_cons _ _))

/-- The clock at a step. -/
def Label.time : Label M → Option Int
  | .exec _ time _ _ => some time
  | .start _ | .turn .. | .drop _ => none

/-- The clock does not go back. -/
def Clocked (past : History M) : Prop :=
  past.Pairwise fun later earlier => ∀ t ∈ later.2.time, ∀ t' ∈ earlier.2.time, t' ≤ t

instance (past : History M) : Decidable (Clocked past) :=
  inferInstanceAs (Decidable (List.Pairwise _ _))

/-! ## What a step does to the threads -/

namespace Step

theorem length_le {s s' : Config M} {l : Label M} (h : Step M s l s') :
    s.threads.length ≤ s'.threads.length := by
  cases h <;> simp

/-- The thread at an index after a step: it is untouched, it took the step, or the
    step has just started it. -/
inductive Fate (s : Config M) (j : Nat) (th' : Thread M) : Label M → Prop where
  | same : s.threads[j]? = some th' → (∀ t c r, l ≠ .exec j t c r) → Fate s j th' l
  | moved {rest : M.sig.Ans c → Prog M.sig M.Out} : s.threads[j]? = some th →
      th.prog = some (.op c rest) → th' = { th with prog := some (rest r) } →
      Fate s j th' (.exec j t c r)
  | turned : s.threads[j]? = some th → th.prog = some (.choice p q) →
      th' = { th with prog := some (if left then p else q) } → Fate s j th' (.turn j left)
  | dropped : s.threads[j]? = some th → th' = { th with prog := none } → Fate s j th' (.drop j)
  | called : j = s.threads.length → th' = .spawn task j → Fate s j th' (.start task)
  | spawned : s.threads.length ≤ j → s.threads[i]? = some th → i < s.threads.length →
      task ∈ M.spawned c → th' = .spawn task th.root → Fate s j th' (.exec i t c r)

private theorem set_fate {ts : List (Thread M)} {i j : Nat} {th new th' : Thread M}
    (at_i : ts[i]? = some th) (at_j : (ts.set i new)[j]? = some th') :
    (j ≠ i ∧ ts[j]? = some th') ∨ (j = i ∧ th' = new) := by
  rw [List.getElem?_set] at at_j
  split at at_j
  · next same =>
      have inside : i < ts.length := (List.getElem?_eq_some_iff.mp at_i).1
      rw [if_pos inside] at at_j
      exact .inr ⟨same.symm, (Option.some.inj at_j).symm⟩
  · next other => exact .inl ⟨fun same => other same.symm, at_j⟩

theorem fate {s s' : Config M} {l : Label M} (h : Step M s l s') {j : Nat} {th' : Thread M}
    (at_j : s'.threads[j]? = some th') : Fate s j th' l := by
  cases h with
  | start task =>
      by_cases inside : j < s.threads.length
      · rw [List.getElem?_append_left inside] at at_j
        exact .same at_j (by simp)
      · rw [List.getElem?_append_right (by omega)] at at_j
        have here : j - s.threads.length = 0 := by
          by_contra later
          rw [List.getElem?_eq_none (by simp; omega)] at at_j
          simp at at_j
        rw [here] at at_j
        refine .called (by omega) ?_
        rw [show j = s.threads.length by omega]
        exact (Option.some.inj at_j).symm
  | exec at_i next =>
      by_cases inside : j < s.threads.length
      · rw [List.getElem?_append_left (by simpa using inside)] at at_j
        rcases set_fate at_i at_j with ⟨other, at_j⟩ | ⟨rfl, rfl⟩
        · exact .same at_j (by simp [other.symm])
        · exact .moved at_i next rfl
      · rw [List.getElem?_append_right (by simpa using inside), List.getElem?_map,
          Option.map_eq_some_iff] at at_j
        obtain ⟨task, member, rfl⟩ := at_j
        exact .spawned (by omega) at_i (List.getElem?_eq_some_iff.mp at_i).1
          (List.mem_of_getElem? member) rfl
  | turn at_i next =>
      rcases set_fate at_i at_j with ⟨_, at_j⟩ | ⟨rfl, rfl⟩
      · exact .same at_j (by simp)
      · exact .turned at_i next rfl
  | drop at_i =>
      rcases set_fate at_i at_j with ⟨_, at_j⟩ | ⟨rfl, rfl⟩
      · exact .same at_j (by simp)
      · exact .dropped at_i rfl

/-- A thread keeps its task and its family. -/
theorem persists {s s' : Config M} {l : Label M} (h : Step M s l s') {j : Nat} {th : Thread M}
    (at_j : s.threads[j]? = some th) :
    ∃ th', s'.threads[j]? = some th' ∧ th'.task = th.task ∧ th'.root = th.root := by
  have inside := (List.getElem?_eq_some_iff.mp at_j).1
  have set_persists : ∀ (i : Nat) (new other : Thread M), s.threads[i]? = some other →
      new.task = other.task → new.root = other.root →
      ∃ th', (s.threads.set i new)[j]? = some th' ∧ th'.task = th.task ∧ th'.root = th.root := by
    intro i new other at_i task root
    by_cases same : i = j
    · subst same
      obtain rfl := Option.some.inj (at_j.symm.trans at_i)
      exact ⟨new, by simp [inside], task, root⟩
    · exact ⟨th, by rw [List.getElem?_set_ne same, at_j], rfl, rfl⟩
  cases h with
  | start => exact ⟨th, by rw [List.getElem?_append_left inside, at_j], rfl, rfl⟩
  | @exec _ i other c rest _ r _ at_i =>
      obtain ⟨th', found, same⟩ :=
        set_persists i { other with prog := some (rest r) } other at_i rfl rfl
      exact ⟨th', by rw [List.getElem?_append_left (by simpa using inside), found], same⟩
  | turn at_i => exact set_persists _ _ _ at_i rfl rfl
  | drop at_i => exact set_persists _ _ _ at_i rfl rfl

/-- A thread there after a step was there before it, or the step has just started it. -/
theorem origin {s s' : Config M} {l : Label M} (h : Step M s l s') {j : Nat} {th' : Thread M}
    (at_j : s'.threads[j]? = some th') :
    (∃ th, s.threads[j]? = some th ∧ th.task = th'.task) ∨ (s.threads.length ≤ j ∧
      (l = .start th'.task ∨ ∃ i t c r, l = .exec i t c r ∧ th'.task ∈ M.spawned c)) := by
  cases h.fate at_j with
  | same was_j => exact .inl ⟨_, was_j, rfl⟩
  | moved was_j _ moved | turned was_j _ moved | dropped was_j moved =>
      subst moved
      exact .inl ⟨_, was_j, rfl⟩
  | called new moved =>
      subst moved
      exact .inr ⟨by omega, .inl rfl⟩
  | spawned new _ _ member moved =>
      subst moved
      exact .inr ⟨new, .inr ⟨_, _, _, _, rfl, member⟩⟩

end Step

/-! ## The auxiliary state of a thread -/

/-- The auxiliary state that thread `i` has reached: `next` folded over the commands
    it was answered so far. -/
def ghost (O : Outline M.sig) (first : O.Ghost) (i : Nat) : History M → O.Ghost
  | [] => first
  | (_, .exec j _ c r) :: past =>
      if j = i then O.next (ghost O first i past) c r else ghost O first i past
  | (_, .start _) :: past | (_, .turn _ _) :: past | (_, .drop _) :: past => ghost O first i past

/-- The step is not a command of thread `i`. -/
def Label.Foreign (i : Nat) (l : Label M) : Prop := ∀ t c r, l ≠ .exec i t c r

theorem Label.foreign_or (i : Nat) (l : Label M) : l.Foreign i ∨ ∃ t c r, l = .exec i t c r := by
  by_cases foreign : l.Foreign i
  · exact .inl foreign
  · refine .inr ?_
    simpa [Label.Foreign] using foreign

@[simp] theorem ghost_foreign {O : Outline M.sig} {first : O.Ghost} {i : Nat} {s : Config M}
    {l : Label M} {past : History M} (foreign : l.Foreign i) :
    ghost O first i ((s, l) :: past) = ghost O first i past := by
  cases l with
  | exec j t c r =>
      have other : j ≠ i := by rintro rfl; exact foreign t c r rfl
      simp [ghost, other]
  | start | turn | drop => rfl

@[simp] theorem ghost_own {O : Outline M.sig} {first : O.Ghost} {i : Nat} {s : Config M} {t : Int}
    {c : M.sig.Cmd} {r : M.sig.Ans c} {past : History M} :
    ghost O first i ((s, .exec i t c r) :: past) = O.next (ghost O first i past) c r := by
  simp [ghost]

namespace Run

variable {init : Config M} {past : History M} {s : Config M}

/-- Only threads that exist take steps. -/
theorem exec_lt (h : Run M init past s) {s₀ : Config M} {i : Nat} {t : Int} {c : M.sig.Cmd}
    {r : M.sig.Ans c} (member : (s₀, .exec i t c r) ∈ past) : i < s.threads.length := by
  induction h with
  | refl => simp at member
  | step before taken ih =>
      refine Nat.lt_of_lt_of_le ?_ taken.length_le
      rcases List.mem_cons.mp member with same | earlier
      · obtain ⟨rfl, rfl⟩ := Prod.mk.inj same
        cases taken with
        | exec at_i => exact (List.getElem?_eq_some_iff.mp at_i).1
      · exact ih earlier

theorem ghost_unstarted {O : Outline M.sig} {first : O.Ghost} (h : Run M init past s) {i : Nat}
    (unstarted : s.threads.length ≤ i) : ghost O first i past = first := by
  induction h with
  | refl => rfl
  | step before taken ih =>
      have small := Nat.le_trans taken.length_le unstarted
      rw [ghost_foreign, ih small]
      rintro t c r rfl
      have inside := exec_lt (before.step taken) (List.mem_cons_self ..)
      omega

/-- Every configuration a run visits is reached by an earlier part of it. -/
theorem visits (h : Run M init past s) {s₁ : Config M} (visited : Visits past s s₁) :
    ∃ earlier, Run M init earlier s₁ ∧ earlier <:+ past := by
  induction h with
  | refl =>
      rcases visited with rfl | ⟨_, member⟩
      · exact ⟨[], .refl, List.suffix_refl _⟩
      · simp at member
  | @step past s l s' before taken ih =>
      rcases visited with rfl | ⟨l₁, member⟩
      · exact ⟨_, before.step taken, List.suffix_refl _⟩
      · have earlier : Visits past s s₁ := by
          rcases List.mem_cons.mp member with same | older
          · exact .inl (Prod.mk.inj same).1
          · exact .inr ⟨l₁, older⟩
        obtain ⟨part, run, suffix⟩ := ih earlier
        exact ⟨part, run, suffix.trans (List.suffix_cons _ _)⟩

/-- A family is known by the index of its first thread. -/
theorem root_le {w : M.World} (h : Run M (.idle w) past s) {i : Nat} {th : Thread M}
    (at_i : s.threads[i]? = some th) : th.root ≤ i := by
  induction h generalizing i th with
  | refl => simp [Config.idle] at at_i
  | step before taken ih =>
      cases taken.fate at_i with
      | same was_i => exact ih was_i
      | moved was_i _ moved | turned was_i _ moved | dropped was_i moved =>
          have same := ih was_i
          subst moved
          exact same
      | called _ moved =>
          subst moved
          exact Nat.le_refl i
      | spawned new was_j inside _ moved =>
          subst moved
          have earlier := ih was_j
          simp only [Thread.spawn]
          omega

theorem trans {a b c : Config M} {first second : History M} (h : Run M a first b)
    (h' : Run M b second c) : Run M a (second ++ first) c := by
  induction h' with
  | refl => exact h
  | step _ taken ih => exact ih.step taken

/-- A run is its beginning and what follows. -/
theorem cut {later earlier : History M} (h : Run M init (later ++ earlier) s) :
    ∃ s₁, Run M init earlier s₁ ∧ Run M s₁ later s := by
  induction later generalizing s with
  | nil => exact ⟨s, h, .refl⟩
  | cons e later ih =>
      cases h with
      | step before taken =>
          obtain ⟨s₁, first, rest⟩ := ih before
          exact ⟨s₁, first, rest.step taken⟩

/-- A run up to one of its steps. -/
theorem upTo (h : Run M init past s) {s₁ : Config M} {l : Label M} {earlier : History M}
    (step : (s₁, l) :: earlier <:+ past) : Run M init earlier s₁ ∧ ∃ s₂, Step M s₁ l s₂ := by
  obtain ⟨later, rfl⟩ := step
  obtain ⟨_, first, _⟩ := h.cut
  cases first with
  | step before taken => exact ⟨before, _, taken⟩

theorem visitsAt (h : Run M init past s) {part : History M} {s' : Config M}
    (visited : VisitsAt past s part s') : Run M init part s' ∧ part <:+ past := by
  rcases visited with ⟨rfl, rfl⟩ | ⟨l, step⟩
  · exact ⟨h, List.suffix_refl _⟩
  · exact ⟨(h.upTo step).1, (List.suffix_cons _ _).trans step⟩

/-- Where a step of a run leads. -/
theorem next (h : Run M init past s) {s₁ : Config M} {l : Label M} {earlier : History M}
    (step : (s₁, l) :: earlier <:+ past) :
    ∃ s₂, Step M s₁ l s₂ ∧ VisitsAt past s ((s₁, l) :: earlier) s₂ := by
  induction h with
  | refl => exact absurd step.length_le (by simp)
  | @step past s₀ l₀ s' before taken ih =>
      rcases List.suffix_cons_iff.mp step with same | older
      · cases same
        exact ⟨s', taken, .inl ⟨rfl, rfl⟩⟩
      · obtain ⟨s₂, moved, visited⟩ := ih older
        refine ⟨s₂, moved, .inr ?_⟩
        rcases visited with ⟨rfl, rfl⟩ | ⟨l₁, within⟩
        · exact ⟨l₀, List.suffix_refl _⟩
        · exact ⟨l₁, within.trans (List.suffix_cons _ _)⟩

/-- A thread keeps its task and its family to the end of the run. -/
theorem persists (h : Run M init past s) {s₁ : Config M} {l : Label M} (member : (s₁, l) ∈ past)
    {i : Nat} {th : Thread M} (at_i : s₁.threads[i]? = some th) :
    ∃ th', s.threads[i]? = some th' ∧ th'.task = th.task ∧ th'.root = th.root := by
  induction h with
  | refl => simp at member
  | step before taken ih =>
      rcases List.mem_cons.mp member with here | earlier
      · cases here
        exact taken.persists at_i
      · obtain ⟨th₁, at_i₁, task₁, root₁⟩ := ih earlier
        obtain ⟨th₂, at_i₂, task₂, root₂⟩ := taken.persists at_i₁
        exact ⟨th₂, at_i₂, task₂.trans task₁, root₂.trans root₁⟩

/-- Each step of a run leads to a configuration the run visits. -/
theorem after (h : Run M init past s) {s₁ : Config M} {l : Label M} (member : (s₁, l) ∈ past) :
    ∃ s₂, Step M s₁ l s₂ ∧ Visits past s s₂ := by
  induction h with
  | refl => simp at member
  | @step past s l' s' before taken ih =>
      rcases List.mem_cons.mp member with same | older
      · obtain ⟨rfl, rfl⟩ := Prod.mk.inj same
        exact ⟨s', taken, .inl rfl⟩
      · obtain ⟨s₂, moved, visited⟩ := ih older
        refine ⟨s₂, moved, .inr ?_⟩
        rcases visited with rfl | ⟨l₂, within⟩
        · exact ⟨l', by simp⟩
        · exact ⟨l₂, by simp [within]⟩

end Run

/-! ## The rule for proof outlines -/

section Outlined

variable (O : Outline M.sig) (entry : M.Task → O.Ghost) (post : O.Ghost → M.Out → Prop)

/-- Every thread follows the outline from the auxiliary state it has reached. -/
def Outlined (past : History M) (s : Config M) : Prop :=
  ∀ (i : Nat) (th : Thread M) (p : Prog M.sig M.Out), s.threads[i]? = some th →
    th.prog = some p →
    p.Keeps O post (ghost O (entry th.task) i past)

variable {O entry post} {init : Config M} {past : History M} {s s' : Config M} {l : Label M}

/-- What the outline grants about the command that is just being answered. -/
theorem Outlined.ok {t : Int} (outlined : Outlined O entry post past s)
    (h : Step M s (.exec i t c r) s') : ∃ th, s.threads[i]? = some th ∧ th.At c ∧
      O.ok (ghost O (entry th.task) i past) c := by
  cases h with
  | exec at_i next => exact ⟨_, at_i, ⟨_, next⟩, (Prog.keeps_op.mp (outlined i _ _ at_i next)).1⟩

theorem Outlined.step (outlined : Outlined O entry post past s) (before : Run M init past s)
    (h : Step M s l s')
    (answers : ∀ i t c r th, l = .exec i t c r → s.threads[i]? = some th →
      O.may (ghost O (entry th.task) i past) c r)
    (called : ∀ task, l = .start task → (M.body task).Keeps O post (entry task))
    (spawned : ∀ i t c r th, l = .exec i t c r → s.threads[i]? = some th →
      O.ok (ghost O (entry th.task) i past) c →
      ∀ task ∈ M.spawned c, (M.body task).Keeps O post (entry task)) :
    Outlined O entry post ((s, l) :: past) s' := by
  intro j th' p at_j prog
  cases h.fate at_j with
  | same at_j foreign =>
      rw [ghost_foreign foreign]
      exact outlined j th' p at_j prog
  | moved was_j next moved =>
      subst moved
      obtain rfl := Option.some.inj prog
      rw [ghost_own]
      exact (Prog.keeps_op.mp (outlined j _ _ was_j next)).2 _ (answers _ _ _ _ _ rfl was_j)
  | @turned th p₁ p₂ left was_j next moved =>
      subst moved
      obtain rfl := Option.some.inj prog
      rw [ghost_foreign (by simp [Label.Foreign])]
      have both := Prog.keeps_choice.mp (outlined j _ _ was_j next)
      cases left with
      | true => exact both.1
      | false => exact both.2
  | dropped _ moved => subst moved; simp at prog
  | called new moved =>
      subst moved
      obtain rfl := Option.some.inj prog
      rw [ghost_foreign (by simp [Label.Foreign]), before.ghost_unstarted (by omega)]
      exact called _ rfl
  | @spawned i th task c t r new at_i inside member moved =>
      subst moved
      obtain rfl := Option.some.inj prog
      rw [ghost_foreign (by rintro _ _ _ same; cases same; omega), before.ghost_unstarted new]
      obtain ⟨_, at_i', _, allowed⟩ := outlined.ok h
      obtain rfl := Option.some.inj (at_i.symm.trans at_i')
      exact spawned _ _ _ _ _ rfl at_i allowed _ member

/-- An invariant of the runs of a machine, proved with an outline for its threads:
    each step may use what the outline grants in the configuration it starts from. -/
theorem Run.outline {T : M.Task → Prop} (I : History M → Config M → Prop)
    (bodies : ∀ task, T task → (M.body task).Keeps O post (entry task))
    (descendants : ∀ g c, O.ok g c → ∀ task ∈ M.spawned c, T task)
    (Good : History M → Config M → Label M → Prop) {w : M.World} (base : I [] (.idle w))
    (preserved : ∀ past s l s', Run M (.idle w) past s → Outlined O entry post past s →
      I past s → Good past s l → Step M s l s' →
      (∀ i t c r th, l = .exec i t c r → s.threads[i]? = some th →
        O.may (ghost O (entry th.task) i past) c r) ∧ I ((s, l) :: past) s')
    (h : Run M (.idle w) past s)
    (good : ∀ s l earlier, (s, l) :: earlier <:+ past → Good earlier s l)
    (calls : ∀ s₀ task, (s₀, .start task) ∈ past → T task) :
    Outlined O entry post past s ∧ I past s := by
  induction h with
  | refl => exact ⟨by intro i th p at_i; simp [Config.idle] at at_i, base⟩
  | @step past s l s' before taken ih =>
      obtain ⟨outlined, held⟩ := ih
        (fun s₀ l₀ earlier suffix => good s₀ l₀ earlier (suffix.trans (List.suffix_cons _ _)))
        (fun s₀ task he => calls s₀ task (by simp [he]))
      obtain ⟨answers, kept⟩ := preserved past s l s' before outlined held
        (good s l past (List.suffix_refl _)) taken
      refine ⟨outlined.step before taken answers ?_ ?_, kept⟩
      · rintro task rfl
        exact bodies task (calls s task (by simp))
      · rintro i t c r th rfl at_i allowed task member
        exact bodies task (descendants _ _ allowed task member)

end Outlined

/-- What all bodies are confined to is all that a run ever issues. -/
theorem Run.issued {N : M.sig.Cmd → Prop} {T : M.Task → Prop} {w : M.World} {past : History M}
    {s : Config M} (bodies : ∀ task, T task → (M.body task).Only N)
    (descendants : ∀ c, N c → ∀ task ∈ M.spawned c, T task)
    (h : Run M (.idle w) past s) (calls : ∀ s₀ task, (s₀, .start task) ∈ past → T task)
    {s₂ : Config M} {i : Nat} {t : Int} {c : M.sig.Cmd} {r : M.sig.Ans c}
    (taken : Step M s (.exec i t c r) s₂) : N c := by
  let confined : Outline M.sig := ⟨Unit, fun _ c => N c, fun _ _ _ => True, fun _ _ _ => ()⟩
  have outlined : Outlined confined (fun _ => ()) (confined.any M.Out) past s := by
    refine (Run.outline (O := confined) (fun _ _ => True)
      (fun task member => (bodies task member).keeps (fun c allowed => ⟨allowed, fun _ => rfl⟩)
        fun _ => trivial) (fun _ => descendants) (fun _ _ _ => True) trivial ?_ h
      (fun _ _ _ _ => trivial) calls).1
    exact fun _ _ _ _ _ _ _ _ _ => ⟨fun _ _ _ _ _ _ _ => trivial, trivial⟩
  obtain ⟨_, _, _, allowed⟩ := outlined.ok taken
  exact allowed

end Async
