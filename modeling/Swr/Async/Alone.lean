import Swr.Async.Sequential
import Swr.Async.Shuffle

/-! # A program on its own, with any answers

`Prog.run` is one program whose answers are settled by a function. Here they are
settled by a relation: nobody else interferes, but a command may succeed or fail, and
joined programs take turns as they like.

Joined programs that work on parts of the state of their own do what each of them does
on its part alone.
-/

namespace Async

variable {S : Sig} {σ τ α β : Type}

namespace Prog

/-- From `s` the program may return `value` and leave `s'`. -/
inductive Runs (does : (c : S.Cmd) → σ → S.Ans c → σ → Prop) : Prog S α → σ → α → σ → Prop where
  | ret : Runs does (.ret value) s value s
  | op {rest : S.Ans c → Prog S α} :
      does c s r s₁ → Runs does (rest r) s₁ value s' → Runs does (.op c rest) s value s'
  | left : Runs does p s value s' → Runs does (.choice p q) s value s'
  | right : Runs does q s value s' → Runs does (.choice p q) s value s'

variable {does : (c : S.Cmd) → σ → S.Ans c → σ → Prop} {s s' : σ}

@[simp] theorem runs_ret {value value' : α} :
    (Prog.ret (S := S) value).Runs does s value' s' ↔ value' = value ∧ s' = s := by
  constructor
  · rintro ⟨⟩
    exact ⟨rfl, rfl⟩
  · rintro ⟨rfl, rfl⟩
    exact .ret

@[simp] theorem runs_op {c : S.Cmd} {rest : S.Ans c → Prog S α} {value : α} :
    (Prog.op c rest).Runs does s value s' ↔ ∃ r s₁, does c s r s₁ ∧
    (rest r).Runs does s₁ value s' := by
  constructor
  · rintro ⟨⟩
    exact ⟨_, _, ‹_›, ‹_›⟩
  · rintro ⟨r, s₁, done, onward⟩
    exact .op done onward

theorem runs_choice {left right : Prog S α} {value : α} :
    (Prog.choice left right).Runs does s value s' ↔ left.Runs does s value s' ∨
    right.Runs does s value s' := by
  constructor
  · intro runs
    cases runs with
    | left onward => exact .inl onward
    | right onward => exact .inr onward
  · rintro (onward | onward)
    · exact .left onward
    · exact .right onward

/-- A sequence runs its first part and then the second one. -/
theorem runs_bind {p : Prog S α} {next : α → Prog S β} {value : β} :
    (p >>= next).Runs does s value s' ↔
      ∃ mid s₁, p.Runs does s mid s₁ ∧ (next mid).Runs does s₁ value s' := by
  induction p generalizing s with
  | ret mid =>
      simp only [ret_bind, runs_ret]
      constructor
      · exact fun runs => ⟨mid, s, ⟨rfl, rfl⟩, runs⟩
      · rintro ⟨_, _, ⟨rfl, rfl⟩, runs⟩
        exact runs
  | op c rest ih =>
      simp only [op_bind, runs_op, ih]
      constructor
      · rintro ⟨r, s₁, done, mid, s₂, begun, ended⟩
        exact ⟨mid, s₂, ⟨r, s₁, done, begun⟩, ended⟩
      · rintro ⟨mid, s₂, ⟨r, s₁, done, begun⟩, ended⟩
        exact ⟨r, s₁, done, mid, s₂, begun, ended⟩
  | choice left right ihl ihr =>
      simp only [choice_bind, runs_choice, ihl, ihr]
      constructor
      · rintro (⟨mid, s₁, begun, ended⟩ | ⟨mid, s₁, begun, ended⟩)
        · exact ⟨mid, s₁, .inl begun, ended⟩
        · exact ⟨mid, s₁, .inr begun, ended⟩
      · rintro ⟨mid, s₁, begun | begun, ended⟩
        · exact .inl ⟨mid, s₁, begun, ended⟩
        · exact .inr ⟨mid, s₁, begun, ended⟩

/-- What every command of a program keeps, its runs keep. -/
theorem Runs.keeps {N : S.Cmd → Prop} {I : σ → Prop}
    (kept : ∀ c s r s', N c → does c s r s' → I s → I s') {p : Prog S α} {value : α}
    (uses : p.Only N) (runs : p.Runs does s value s') (held : I s) : I s' := by
  induction runs with
  | ret => exact held
  | op done _ ih => exact ih (uses.2 _) (kept _ _ _ _ uses.1 done held)
  | left _ ih => exact ih uses.1 held
  | right _ ih => exact ih uses.2 held

theorem Runs.mono {does' : (c : S.Cmd) → σ → S.Ans c → σ → Prop}
    (implies : ∀ c s r s', does c s r s' → does' c s r s') {p : Prog S α} {value : α}
    (runs : p.Runs does s value s') : p.Runs does' s value s' := by
  induction runs with
  | ret => exact .ret
  | op done _ ih => exact .op (implies _ _ _ _ done) ih
  | left _ ih => exact .left ih
  | right _ ih => exact .right ih

/-- Settled answers that the relation allows give one of the runs. -/
theorem Runs.of_run {answer : (c : S.Cmd) → σ → S.Ans c × σ}
    (sound : ∀ c s, does c s (answer c s).1 (answer c s).2) (p : Prog S α) (coins : List Bool) :
    p.Runs does s (p.run answer s coins).1 (p.run answer s coins).2.1 := by
  induction p generalizing s coins with
  | ret => exact .ret
  | op c rest ih => exact .op (sound c s) (ih _ coins)
  | choice left right ihl ihr =>
      simp only [run]
      split
      · exact .left (ihl _)
      · exact .right (ihr _)

end Prog

/-! ## Runs as logs -/

/-- Answered one after the other as the log says, the commands lead from `s` to `s'`. -/
inductive Plays (does : (c : S.Cmd) → σ → S.Ans c → σ → Prop) :
    List (Σ c, S.Ans c) → σ → σ → Prop where
  | nil : Plays does [] s s
  | cons : does c s r s₁ → Plays does later s₁ s' → Plays does (⟨c, r⟩ :: later) s s'

variable {does : (c : S.Cmd) → σ → S.Ans c → σ → Prop} {s s' : σ} {log : List (Σ c, S.Ans c)}

theorem plays_nil : Plays does [] s s' ↔ s' = s := by
  constructor
  · rintro ⟨⟩
    rfl
  · rintro rfl
    exact .nil

theorem plays_cons {c : S.Cmd} {r : S.Ans c} {later : List (Σ c, S.Ans c)} :
    Plays does (⟨c, r⟩ :: later) s s' ↔ ∃ s₁, does c s r s₁ ∧ Plays does later s₁ s' := by
  constructor
  · rintro ⟨⟩
    exact ⟨_, ‹_›, ‹_›⟩
  · rintro ⟨_, done, onward⟩
    exact .cons done onward

theorem plays_single {c : S.Cmd} {r : S.Ans c} : Plays does [⟨c, r⟩] s s' ↔ does c s r s' := by
  simp only [plays_cons, plays_nil]
  exact ⟨fun ⟨_, done, same⟩ => same ▸ done, fun done => ⟨_, done, rfl⟩⟩

theorem plays_append {first second : List (Σ c, S.Ans c)} :
    Plays does (first ++ second) s s' ↔ ∃ mid, Plays does first s mid ∧
    Plays does second mid s' := by
  induction first generalizing s with
  | nil =>
      simp only [List.nil_append, plays_nil]
      exact ⟨fun plays => ⟨s, rfl, plays⟩, fun ⟨_, same, plays⟩ => same ▸ plays⟩
  | cons e first ih =>
      obtain ⟨c, r⟩ := e
      simp only [List.cons_append, plays_cons, ih]
      constructor
      · rintro ⟨s₁, done, mid, begun, ended⟩
        exact ⟨mid, ⟨s₁, done, begun⟩, ended⟩
      · rintro ⟨mid, ⟨s₁, done, begun⟩, ended⟩
        exact ⟨s₁, done, mid, begun, ended⟩

theorem Prog.runs_iff_yields {p : Prog S α} {value : α} :
    p.Runs does s value s' ↔ ∃ log, p.Yields log value ∧ Plays does log s s' := by
  constructor
  · intro runs
    induction runs with
    | ret => exact ⟨[], .ret, .nil⟩
    | op done _ ih =>
        obtain ⟨log, yields, plays⟩ := ih
        exact ⟨_, .op yields, .cons done plays⟩
    | left _ ih =>
        obtain ⟨log, yields, plays⟩ := ih
        exact ⟨log, .left yields, plays⟩
    | right _ ih =>
        obtain ⟨log, yields, plays⟩ := ih
        exact ⟨log, .right yields, plays⟩
  · rintro ⟨log, yields, plays⟩
    induction yields generalizing s with
    | ret => cases plays; exact .ret
    | op _ ih =>
        cases plays with
        | cons done onward => exact .op done (ih onward)
    | left _ ih => exact .left (ih plays)
    | right _ ih => exact .right (ih plays)

/-! ## Parts of the state -/

/-- The state falls into parts, and every command works on one of them. -/
structure Parts (does : (c : S.Cmd) → σ → S.Ans c → σ → Prop) (κ τ : Type) where
  part : κ → σ → τ
  owner : S.Cmd → κ
  frame : ∀ {c s r s' k}, does c s r s' → k ≠ owner c → part k s' = part k s

namespace Parts

variable {κ : Type} {P : Parts does κ τ}

/-- What a command does to its part. -/
def act (P : Parts does κ τ) (c : S.Cmd) (v : τ) (r : S.Ans c) (v' : τ) : Prop :=
  ∃ s s', does c s r s' ∧ P.part (P.owner c) s = v ∧ P.part (P.owner c) s' = v'

/-- No other part is touched. -/
theorem untouched {k : κ} (plays : Plays does log s s') (others : ∀ e ∈ log, P.owner e.1 ≠ k) :
    P.part k s' = P.part k s := by
  induction plays with
  | nil => rfl
  | cons done _ ih =>
      obtain ⟨here, later⟩ := List.forall_mem_cons.mp others
      rw [ih later, P.frame done (Ne.symm here)]

variable [DecidableEq κ]

/-- What is left of a log when only one part is looked at. -/
def restrict (P : Parts does κ τ) (k : κ) (log : List (Σ c, S.Ans c)) : List (Σ c, S.Ans c) :=
  log.filter fun e => P.owner e.1 = k

/-- A part sees the commands that work on it. -/
theorem plays_restrict (plays : Plays does log s s') (k : κ) :
    Plays P.act (P.restrict k log) (P.part k s) (P.part k s') := by
  induction plays with
  | nil => exact .nil
  | @cons c s r s₁ later s' done _ ih =>
      by_cases mine : P.owner c = k
      · rw [restrict, List.filter_cons_of_pos (by simp [mine])]
        exact .cons ⟨s, s₁, done, by rw [mine], by rw [mine]⟩ ih
      · rw [restrict, List.filter_cons_of_neg (by simp [mine]), ← P.frame done (Ne.symm mine)]
        exact ih

theorem restrict_own {k : κ} (own : ∀ e ∈ log, P.owner e.1 = k) : P.restrict k log = log :=
  List.filter_eq_self.mpr fun e member => by simpa using own e member

theorem restrict_other {k : κ} (others : ∀ e ∈ log, P.owner e.1 ≠ k) : P.restrict k log = [] :=
  List.filter_eq_nil_iff.mpr fun e member => by simpa using others e member

/-- Each of the joined programs yields its result for its share of the log. -/
theorem yields_joinAll {ξ : Type} {f : ξ → Prog S α} {k : ξ → κ} {xs : List ξ} {values : List α}
    (own : ∀ x ∈ xs, (f x).Only fun c => P.owner c = k x) (distinct : (xs.map k).Nodup)
    (yields : (Prog.joinAll (xs.map f)).Yields log values) :
    List.Forall₂ (fun x value => (f x).Yields (P.restrict (k x) log) value) xs values ∧
      ∀ e ∈ log, P.owner e.1 ∈ xs.map k := by
  induction xs generalizing log values with
  | nil =>
      obtain ⟨rfl, rfl⟩ := Prog.yields_ret.mp yields
      exact ⟨.nil, nofun⟩
  | cons x xs ih =>
      obtain ⟨part, ⟨value, rest⟩, _, rfl, both, ended⟩ := Prog.yields_bind.mp yields
      obtain ⟨rfl, rfl⟩ := Prog.yields_ret.mp ended
      obtain ⟨first, second, shuffle, yieldsFirst, yieldsRest⟩ := Prog.yields_par.mp both
      obtain ⟨apart, distinct'⟩ := List.nodup_cons.mp distinct
      obtain ⟨here, later⟩ := List.forall_mem_cons.mp own
      obtain ⟨each, owners⟩ := ih later distinct' yieldsRest
      have mine : ∀ e ∈ first, P.owner e.1 = k x := here.yields yieldsFirst
      have others : ∀ e ∈ second, P.owner e.1 ≠ k x :=
        fun e member same => apart (same ▸ owners e member)
      rw [List.append_nil]
      have shareFirst : P.restrict (k x) part = first := by
        have share := shuffle.filter fun e => P.owner e.1 = k x
        rw [← restrict, ← restrict, ← restrict, restrict_own mine, restrict_other others] at share
        exact share.eq_left
      have shareRest {y : ξ} (apart' : k y ≠ k x) :
          P.restrict (k y) part = P.restrict (k y) second := by
        have share := shuffle.filter fun e => P.owner e.1 = k y
        have foreign : ∀ e ∈ first, P.owner e.1 ≠ k y :=
          fun e member => mine e member ▸ Ne.symm apart'
        rw [← restrict, ← restrict, ← restrict, restrict_other foreign] at share
        exact share.eq_right
      have rest_apart : ∀ y ∈ xs, k y ≠ k x :=
        fun y member same => apart (same ▸ List.mem_map_of_mem (f := k) member)
      refine ⟨.cons (shareFirst ▸ yieldsFirst) ?_, fun e member => ?_⟩
      · refine ((List.forall₂_and_left xs rest).mpr ⟨rest_apart, each⟩).imp ?_
        rintro y value' ⟨apart', share⟩
        rw [shareRest apart']
        exact share
      · rcases shuffle.mem_iff.mp member with inFirst | inSecond
        · exact mine e inFirst ▸ List.mem_cons_self ..
        · exact List.mem_cons_of_mem _ (owners e inSecond)

end Parts

end Async
