import Swr.Async.Outline

/-! # One program on its own

With nobody else running, a command can be answered by a function. The scheduler's
decisions inside a program are read from a list of coins, so a statement about all
coins is a statement about every order in which joined programs take turns.
-/

namespace Async

namespace Prog

variable {S : Sig} {σ α β : Type}

/-- Toss the next coin. Past the end of the list the scheduler goes right. -/
def toss : List Bool → Bool × List Bool
  | [] => (false, [])
  | coin :: coins => (coin, coins)

/-- Answer every command by `answer` until the program returns. -/
def run (answer : (c : S.Cmd) → σ → S.Ans c × σ) : Prog S α → σ → List Bool → α × σ × List Bool
  | .ret value, s, coins => (value, s, coins)
  | .op c rest, s, coins => (rest (answer c s).1).run answer (answer c s).2 coins
  | .choice left right, s, coins =>
      if (toss coins).1 then left.run answer s (toss coins).2 else right.run answer s (toss coins).2

variable {answer : (c : S.Cmd) → σ → S.Ans c × σ}

@[simp] theorem run_ret (value : α) (s : σ) (coins : List Bool) :
    (Prog.ret (S := S) value).run answer s coins = (value, s, coins) := rfl

@[simp] theorem run_op (c : S.Cmd) (rest : S.Ans c → Prog S α) (s : σ) (coins : List Bool) :
    (Prog.op c rest).run answer s coins
      = (rest (answer c s).1).run answer (answer c s).2 coins := rfl

theorem run_bind {p : Prog S α} {next : α → Prog S β} (s : σ) (coins : List Bool) :
    (p >>= next).run answer s coins =
      (next (p.run answer s coins).1).run answer (p.run answer s coins).2.1
      (p.run answer s coins).2.2 := by
  induction p generalizing s coins with
  | ret => rfl
  | op c rest ih => exact ih _ _ coins
  | choice left right ihl ihr =>
      simp only [choice_bind, run]
      split
      · exact ihl _ _
      · exact ihr _ _

/-- The outline whose auxiliary state is the state itself. -/
def sequential (answer : (c : S.Cmd) → σ → S.Ans c × σ) (ok : σ → S.Cmd → Prop) : Outline S where
  Ghost := σ
  ok := ok
  may s c r := r = (answer c s).1
  next s c _ := (answer c s).2

/-- What is proved with the sequential outline holds of the run. -/
theorem Follows.run {ok : σ → S.Cmd → Prop} {rely : σ → σ → Prop} {post : σ → α → Prop}
    (refl : ∀ s, rely s s) {p : Prog S α} {s : σ}
    (h : p.Follows (sequential answer ok) rely post s) (coins : List Bool) :
    post (p.run answer s coins).2.1 (p.run answer s coins).1 := by
  induction p generalizing s coins with
  | ret value => exact h s (refl s)
  | op c rest ih => exact ih _ ((h s (refl s)).2 _ rfl) coins
  | choice left right ihl ihr =>
      simp only [Prog.run]
      split
      · exact ihl h.1 _
      · exact ihr h.2 _

/-- The program on its own ends in the postcondition. -/
abbrev Ends (answer : (c : S.Cmd) → σ → S.Ans c × σ) (post : σ → α → Prop) (p : Prog S α)
    (s : σ) : Prop :=
  p.Keeps (sequential answer (fun _ _ => True)) post s

section Ends

variable {post : σ → α → Prop} {p : Prog S α} {s : σ}

theorem ends_ret {value : α} : (Prog.ret (S := S) value).Ends answer post s ↔ post s value :=
  keeps_ret

theorem ends_op {c : S.Cmd} {rest : S.Ans c → Prog S α} : (Prog.op c rest).Ends answer post s ↔
    (rest (answer c s).1).Ends answer post (answer c s).2 := by
  simp [Ends, sequential]

/-- What is proved with other programs around holds of the program on its own. -/
theorem Follows.ends {ok : σ → S.Cmd → Prop} {rely : σ → σ → Prop} (refl : ∀ s, rely s s)
    (h : p.Follows (sequential answer ok) rely post s) : p.Ends answer post s := by
  induction p generalizing s with
  | ret value => exact keeps_ret.mpr (h s (refl s))
  | op c rest ih => exact ends_op.mpr (ih _ ((h s (refl s)).2 _ rfl))
  | choice left right ihl ihr => exact ⟨ihl h.1, ihr h.2⟩

theorem Ends.mono {post' : σ → α → Prop} (h : p.Ends answer post s)
    (implies : ∀ s value, post s value → post' s value) : p.Ends answer post' s :=
  Keeps.mono h implies

theorem Ends.bind {next : α → Prog S β} {post : σ → β → Prop}
    (h : p.Ends answer (fun s value => (next value).Ends answer post s) s) :
    (p >>= next).Ends answer post s :=
  Keeps.bind h

theorem Ends.run (h : p.Ends answer post s) (coins : List Bool) :
    post (p.run answer s coins).2.1 (p.run answer s coins).1 :=
  Follows.run (fun _ => rfl) h coins

end Ends

/-- Commands that are answered alike in related states, and keep them related, give
    runs that do the same. -/
theorem run_related {τ : Type} (answer : (c : S.Cmd) → σ → S.Ans c × σ)
    (answer' : (c : S.Cmd) → τ → S.Ans c × τ) {N : S.Cmd → Prop}
    {R : σ → τ → Prop} (alike : ∀ c s s', N c → R s s' →
      (answer c s).1 = (answer' c s').1 ∧ R (answer c s).2 (answer' c s').2)
    {p : Prog S α} (uses : p.Only N) {s : σ} {s' : τ} (related : R s s') (coins : List Bool) :
    (p.run answer s coins).1 = (p.run answer' s' coins).1 ∧
      R (p.run answer s coins).2.1 (p.run answer' s' coins).2.1 ∧
      (p.run answer s coins).2.2 = (p.run answer' s' coins).2.2 := by
  induction p generalizing s s' coins with
  | ret value => exact ⟨rfl, related, rfl⟩
  | op c rest ih =>
      obtain ⟨same, later⟩ := alike c s s' uses.1 related
      simp only [run_op, ← same]
      exact ih _ (uses.2 _) later coins
  | choice left right ihl ihr =>
      simp only [run]
      split
      · exact ihl uses.1 related _
      · exact ihr uses.2 related _

/-- What every command of a program keeps, the run keeps. -/
theorem run_keeps (answer : (c : S.Cmd) → σ → S.Ans c × σ) {N : S.Cmd → Prop} {I : σ → Prop}
    (kept : ∀ c s, N c → I s → I (answer c s).2)
    {p : Prog S α} (uses : p.Only N) {s : σ} (held : I s) (coins : List Bool) :
    I (p.run answer s coins).2.1 := by
  induction p generalizing s coins with
  | ret value => exact held
  | op c rest ih => exact ih _ (uses.2 _) (kept c s uses.1 held) coins
  | choice left right ihl ihr =>
      simp only [run]
      split
      · exact ihl uses.1 held _
      · exact ihr uses.2 held _

end Prog

end Async
