/-! # Programs that stop at each command

A `Prog` is one sequential piece of asynchronous code, cut at the points where it
touches anything outside itself. Each `op` asks for one atomic command and goes on
with the answer, so the answers are where other code can come in between.
`choice` is a decision that belongs to the scheduler and not to the code: it is
what joining several programs leaves open.
-/

namespace Async

/-- The commands a program may issue and the type of answer each one gets. -/
structure Sig where
  Cmd : Type
  Ans : Cmd → Type

inductive Prog (S : Sig) (α : Type) : Type where
  | ret (value : α)
  | op (c : S.Cmd) (rest : S.Ans c → Prog S α)
  | choice (left right : Prog S α)

namespace Prog

variable {S : Sig} {α β γ : Type}

def bind (p : Prog S α) (next : α → Prog S β) : Prog S β :=
  match p with
  | .ret value => next value
  | .op c rest => .op c (fun r => (rest r).bind next)
  | .choice left right => .choice (left.bind next) (right.bind next)

instance : Monad (Prog S) where
  pure := .ret
  bind := bind

@[simp] theorem pure_eq (value : α) : (pure value : Prog S α) = .ret value := rfl

@[simp] theorem ret_bind (value : α) (next : α → Prog S β) :
    ((.ret value : Prog S α) >>= next) = next value := rfl

@[simp] theorem op_bind (c : S.Cmd) (rest : S.Ans c → Prog S α) (next : α → Prog S β) :
    (Prog.op c rest >>= next) = .op c (fun r => rest r >>= next) := rfl

@[simp] theorem choice_bind (left right : Prog S α) (next : α → Prog S β) :
    (Prog.choice left right >>= next) = .choice (left >>= next) (right >>= next) := rfl

theorem bind_ret (p : Prog S α) : (p >>= .ret) = p := by
  induction p with
  | ret => rfl
  | op c rest ih => exact congrArg (Prog.op c) (funext ih)
  | choice left right ihl ihr => simp only [choice_bind, ihl, ihr]

theorem bind_assoc (p : Prog S α) (f : α → Prog S β) (g : β → Prog S γ) :
    (p >>= f >>= g) = (p >>= fun value => f value >>= g) := by
  induction p with
  | ret => rfl
  | op c rest ih => exact congrArg (Prog.op c) (funext ih)
  | choice left right ihl ihr => simp only [choice_bind, ihl, ihr]

instance : LawfulMonad (Prog S) :=
  LawfulMonad.mk' (Prog S) bind_ret (fun _ _ => rfl) bind_assoc

/-! ## Joining programs -/

/-- `.op c rest` beside another program that has not moved yet: the scheduler lets
    one of the two take its next command. `left` is what remains to be joined
    once the command of the first program was answered. -/
def beside (c : S.Cmd) (left : S.Ans c → Prog S β → Prog S γ) (last : β → Prog S γ) :
    Prog S β → Prog S γ
  | .ret value => last value
  | .op d rest => .choice (.op c (fun r => left r (.op d rest)))
      (.op d (fun r => beside c left last (rest r)))
  | .choice q₁ q₂ => .choice (beside c left last q₁) (beside c left last q₂)

/-- Two programs run together, in every interleaving of their commands. -/
def par : Prog S α → Prog S β → Prog S (α × β)
  | .ret value, q => do return (value, ← q)
  | .op c rest, q => beside c (fun r => par (rest r))
      (fun value => .op c (fun r => do return (← rest r, value))) q
  | .choice p₁ p₂, q => .choice (par p₁ q) (par p₂ q)

/-- All programs of a list run together; the results keep the order of the list. -/
def joinAll : List (Prog S α) → Prog S (List α)
  | [] => .ret []
  | p :: ps => do
      let (value, values) ← par p (joinAll ps)
      return value :: values

/-! ## The commands a program issues -/

/-- Every command on every path satisfies `N`, whatever the answers are. -/
def Only (N : S.Cmd → Prop) : Prog S α → Prop
  | .ret _ => True
  | .op c rest => N c ∧ ∀ r, (rest r).Only N
  | .choice left right => left.Only N ∧ right.Only N

variable {N N' : S.Cmd → Prop}

theorem Only.bind {p : Prog S α} {next : α → Prog S β}
    (first : p.Only N) (rest : ∀ value, (next value).Only N) : (p >>= next).Only N := by
  induction p with
  | ret value => exact rest value
  | op c k ih => exact ⟨first.1, fun r => ih r (first.2 r)⟩
  | choice left right ihl ihr => exact ⟨ihl first.1, ihr first.2⟩

theorem Only.mono {p : Prog S α} (uses : p.Only N) (implies : ∀ c, N c → N' c) : p.Only N' := by
  induction p with
  | ret => trivial
  | op c k ih => exact ⟨implies c uses.1, fun r => ih r (uses.2 r)⟩
  | choice left right ihl ihr => exact ⟨ihl uses.1, ihr uses.2⟩

private theorem Only.beside {c : S.Cmd} {left : S.Ans c → Prog S β → Prog S γ}
    {last : β → Prog S γ} {q : Prog S β} (allowed : N c)
    (onLeft : ∀ r q, q.Only N → (left r q).Only N) (onLast : ∀ value, (last value).Only N)
    (uses : q.Only N) : (beside c left last q).Only N := by
  induction q with
  | ret value => exact onLast value
  | op d rest ih =>
      exact ⟨⟨allowed, fun r => onLeft r _ uses⟩, uses.1, fun r => ih r (uses.2 r)⟩
  | choice q₁ q₂ ih₁ ih₂ => exact ⟨ih₁ uses.1, ih₂ uses.2⟩

theorem Only.par {p : Prog S α} {q : Prog S β} (first : p.Only N) (second : q.Only N) :
    (par p q).Only N := by
  induction p generalizing q with
  | ret value => exact second.bind (fun _ => trivial)
  | op c rest ih =>
      exact Only.beside first.1 (fun r q hq => ih r (first.2 r) hq)
        (fun value => ⟨first.1, fun r => (first.2 r).bind (fun _ => trivial)⟩) second
  | choice p₁ p₂ ih₁ ih₂ => exact ⟨ih₁ first.1 second, ih₂ first.2 second⟩

theorem Only.joinAll {ps : List (Prog S α)} (all : ∀ p ∈ ps, p.Only N) :
    (joinAll ps).Only N := by
  induction ps with
  | nil => trivial
  | cons p ps ih =>
      exact ((all p (by simp)).par (ih (fun q hq => all q (by simp [hq])))).bind
        (fun _ => trivial)

end Prog

end Async
