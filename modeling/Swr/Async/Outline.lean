import Mathlib.Data.List.Forall2
import Swr.Async.Program

/-! # Proof outlines

An outline runs an auxiliary state beside a program. `ok` says which commands the
program may issue in an auxiliary state, `may` which answers have to be expected
there and `next` how the auxiliary state follows the answer. `Prog.Follows` is the
triple: from the auxiliary state every path of the program issues allowed commands
only and ends in the postcondition.

`rely` is what other programs may do to the auxiliary state in between. A state of
one thread's own belongs to `rely := Eq`; joined programs that share the state
rely on more, and `Follows.par` is the rule for them.
-/

namespace Async

structure Outline (S : Sig) where
  Ghost : Type
  ok : Ghost → S.Cmd → Prop
  may : Ghost → (c : S.Cmd) → S.Ans c → Prop
  next : Ghost → (c : S.Cmd) → S.Ans c → Ghost

/-- No condition on the result. -/
abbrev Outline.any {S : Sig} (O : Outline S) (α : Type) : O.Ghost → α → Prop := fun _ _ => True

namespace Prog

variable {S : Sig} {α β γ : Type} {O : Outline S} {rely : O.Ghost → O.Ghost → Prop}

def Follows (O : Outline S) (rely : O.Ghost → O.Ghost → Prop) (post : O.Ghost → α → Prop) :
    Prog S α → O.Ghost → Prop
  | .ret value, g => ∀ g', rely g g' → post g' value
  | .op c rest, g => ∀ g', rely g g' →
      O.ok g' c ∧ ∀ r, O.may g' c r → (rest r).Follows O rely post (O.next g' c r)
  | .choice left right, g => left.Follows O rely post g ∧ right.Follows O rely post g

/-- A thread that owns its auxiliary state. -/
def Keeps (O : Outline S) (post : O.Ghost → α → Prop) (p : Prog S α) (g : O.Ghost) : Prop :=
  p.Follows O Eq post g

@[simp] theorem keeps_ret {post : O.Ghost → α → Prop} {value : α} {g : O.Ghost} :
    Keeps O post (.ret value) g ↔ post g value :=
  ⟨fun h => h g rfl, by rintro h _ rfl; exact h⟩

@[simp] theorem keeps_op {post : O.Ghost → α → Prop} {c : S.Cmd} {rest : S.Ans c → Prog S α}
    {g : O.Ghost} : Keeps O post (.op c rest) g ↔
      O.ok g c ∧ ∀ r, O.may g c r → Keeps O post (rest r) (O.next g c r) :=
  ⟨fun h => h g rfl, by rintro h _ rfl; exact h⟩

@[simp] theorem keeps_choice {post : O.Ghost → α → Prop} {left right : Prog S α} {g : O.Ghost} :
    Keeps O post (.choice left right) g ↔ Keeps O post left g ∧ Keeps O post right g := Iff.rfl

theorem Follows.mono {post post' : O.Ghost → α → Prop} {p : Prog S α} {g : O.Ghost}
    (h : p.Follows O rely post g) (implies : ∀ g value, post g value → post' g value) :
    p.Follows O rely post' g := by
  induction p generalizing g with
  | ret value => exact fun g' r => implies _ _ (h g' r)
  | op c rest ih =>
      intro g' r
      obtain ⟨allowed, onward⟩ := h g' r
      exact ⟨allowed, fun r' m => ih r' (onward r' m)⟩
  | choice left right ihl ihr => exact ⟨ihl h.1, ihr h.2⟩

theorem Follows.bind {post : O.Ghost → β → Prop} {p : Prog S α} {next : α → Prog S β}
    {g : O.Ghost} (refl : ∀ g, rely g g)
    (h : p.Follows O rely (fun g value => (next value).Follows O rely post g) g) :
    (p >>= next).Follows O rely post g := by
  induction p generalizing g with
  | ret value => exact h g (refl g)
  | op c rest ih =>
      intro g' r
      obtain ⟨allowed, onward⟩ := h g' r
      exact ⟨allowed, fun r' m => ih r' (onward r' m)⟩
  | choice left right ihl ihr => exact ⟨ihl h.1, ihr h.2⟩

theorem Keeps.mono {post post' : O.Ghost → α → Prop} {p : Prog S α} {g : O.Ghost}
    (h : Keeps O post p g) (implies : ∀ g value, post g value → post' g value) :
    Keeps O post' p g :=
  Follows.mono h implies

/-- The rule of sequencing for a thread that owns its auxiliary state. -/
theorem Keeps.bind {post : O.Ghost → β → Prop} {p : Prog S α} {next : α → Prog S β}
    {g : O.Ghost} (h : Keeps O (fun g value => Keeps O post (next value) g) p g) :
    Keeps O post (p >>= next) g :=
  Follows.bind (fun _ => rfl) h

/-- Commands that neither ask for anything nor move the auxiliary state can be
    stepped over in one go. -/
theorem Only.keeps {N : S.Cmd → Prop} {post : O.Ghost → α → Prop} {p : Prog S α} {g : O.Ghost}
    (uses : p.Only N) (neutral : ∀ c, N c → O.ok g c ∧ ∀ r, O.next g c r = g)
    (done : ∀ value, post g value) : Keeps O post p g := by
  induction p with
  | ret value => simpa using done value
  | op c rest ih =>
      obtain ⟨allowed, same⟩ := neutral c uses.1
      simp only [keeps_op]
      refine ⟨allowed, fun r _ => ?_⟩
      rw [same r]
      exact ih r (uses.2 r)
  | choice left right ihl ihr => exact ⟨ihl uses.1, ihr uses.2⟩

/-! ## What a program was answered -/

/-- `p.Yields log value`: answered as `log` says, the program issues just these
    commands and returns `value`. -/
inductive Yields : Prog S α → List (Σ c, S.Ans c) → α → Prop where
  | ret : Yields (.ret value) [] value
  | op {rest : S.Ans c → Prog S α} :
      Yields (rest r) log value → Yields (.op c rest) (⟨c, r⟩ :: log) value
  | left : Yields p log value → Yields (.choice p q) log value
  | right : Yields q log value → Yields (.choice p q) log value

/-- An auxiliary state that records the answers ends with a record that yields what
    the program returns. `state` is the auxiliary state of a record. -/
theorem Only.keeps_log {N : S.Cmd → Prop} {post : O.Ghost → α → Prop} {p : Prog S α}
    (uses : p.Only N) (state : List (Σ c, S.Ans c) → O.Ghost)
    (records : ∀ log c, N c →
      O.ok (state log) c ∧ ∀ r, O.next (state log) c r = state (log ++ [⟨c, r⟩]))
    (done : ∀ log value, p.Yields log value → post (state log) value) :
    Keeps O post p (state []) := by
  suffices onward : ∀ q : Prog S α, q.Only N → ∀ before,
      (∀ log value, q.Yields log value → post (state (before ++ log)) value) →
      Keeps O post q (state before) from onward p uses [] done
  intro q
  induction q with
  | ret value => exact fun _ before done => keeps_ret.mpr (by simpa using done [] value .ret)
  | op c rest ih =>
      intro uses before done
      obtain ⟨allowed, moves⟩ := records before c uses.1
      refine keeps_op.mpr ⟨allowed, fun r _ => ?_⟩
      rw [moves r]
      exact ih r (uses.2 r) _ fun log value yields => by simpa using done _ value (.op yields)
  | choice left right ihl ihr =>
      exact fun uses before done =>
        ⟨ihl uses.1 before fun log value yields => done log value (.left yields),
        ihr uses.2 before fun log value yields => done log value (.right yields)⟩

/-! ## Joined programs -/

theorem Follows.weaken {post : O.Ghost → α → Prop} {p : Prog S α} {g g' : O.Ghost}
    (trans : ∀ a b c, rely a b → rely b c → rely a c)
    (h : p.Follows O rely post g) (later : rely g g') : p.Follows O rely post g' := by
  induction p with
  | ret value => exact fun g'' r => h g'' (trans _ _ _ later r)
  | op c rest ih => exact fun g'' r => h g'' (trans _ _ _ later r)
  | choice left right ihl ihr => exact ⟨ihl h.1, ihr h.2⟩

section Join

variable (refl : ∀ g, rely g g) (trans : ∀ a b c, rely a b → rely b c → rely a c)
  (guarantee : ∀ g c r, O.ok g c → O.may g c r → rely g (O.next g c r))

include refl trans guarantee

private theorem Follows.beside {post : O.Ghost → γ → Prop} {Q : O.Ghost → β → Prop}
    {c : S.Cmd} {left : S.Ans c → Prog S β → Prog S γ} {last : β → Prog S γ}
    {q : Prog S β} {g : O.Ghost}
    (first : ∀ g', rely g g' → O.ok g' c ∧ ∀ r, O.may g' c r → ∀ q : Prog S β,
      q.Follows O rely Q (O.next g' c r) → (left r q).Follows O rely post (O.next g' c r))
    (onLast : ∀ g', rely g g' → ∀ value, (∀ g'', rely g' g'' → Q g'' value) →
      (last value).Follows O rely post g')
    (second : q.Follows O rely Q g) : (Prog.beside c left last q).Follows O rely post g := by
  induction q generalizing g with
  | ret value => exact onLast g (refl g) value second
  | op d rest ih =>
      refine ⟨fun g' r => ?_, fun g' r => ?_⟩
      · obtain ⟨allowed, onward⟩ := first g' r
        refine ⟨allowed, fun a m => onward a m _ ?_⟩
        exact Follows.weaken trans second (trans _ _ _ r (guarantee _ _ _ allowed m))
      · obtain ⟨allowed, onward⟩ := second g' r
        refine ⟨allowed, fun a m => ?_⟩
        have later : rely g (O.next g' d a) := trans _ _ _ r (guarantee _ _ _ allowed m)
        exact ih a (fun g'' r' => first g'' (trans _ _ _ later r'))
          (fun g'' r' => onLast g'' (trans _ _ _ later r')) (onward a m)
  | choice q₁ q₂ ih₁ ih₂ => exact ⟨ih₁ first onLast second.1, ih₂ first onLast second.2⟩

omit refl in
/-- A program that tolerates what others do ends later than it began, and its
    postcondition outlives everything they do afterwards. -/
theorem Follows.later {P : O.Ghost → α → Prop} {p : Prog S α} {start g : O.Ghost}
    (since : rely start g) (h : p.Follows O rely P g) :
    p.Follows O rely (fun g' value => rely start g' ∧ ∀ g'', rely g' g'' → P g'' value) g := by
  induction p generalizing g with
  | ret value =>
      exact fun g' r => ⟨trans _ _ _ since r, fun g'' r' => h g'' (trans _ _ _ r r')⟩
  | op c rest ih =>
      intro g' r
      obtain ⟨allowed, onward⟩ := h g' r
      refine ⟨allowed, fun a m => ih a ?_ (onward a m)⟩
      exact trans _ _ _ since (trans _ _ _ r (guarantee _ _ _ allowed m))
  | choice left right ihl ihr => exact ⟨ihl since h.1, ihr since h.2⟩

/-- Two programs that tolerate each other keep both postconditions, whatever order
    the scheduler picks. -/
theorem Follows.par {P : O.Ghost → α → Prop} {Q : O.Ghost → β → Prop}
    {p : Prog S α} {q : Prog S β} {g : O.Ghost}
    (first : p.Follows O rely P g) (second : q.Follows O rely Q g) :
    (par p q).Follows O rely (fun g both => P g both.1 ∧ Q g both.2) g := by
  induction p generalizing q g with
  | ret value =>
      refine Follows.bind refl
        ((Follows.later trans guarantee (refl g) second).mono ?_)
      rintro g₁ other ⟨since, outlives⟩ g₂ r
      exact ⟨first g₂ (trans _ _ _ since r), outlives g₂ r⟩
  | op c rest ih =>
      refine Follows.beside refl trans guarantee ?_ ?_ second
      · intro g' r
        obtain ⟨allowed, onward⟩ := first g' r
        exact ⟨allowed, fun a m q hq => ih a (onward a m) hq⟩
      · intro g' r other outlives g₁ r₁
        obtain ⟨allowed, onward⟩ := first g₁ (trans _ _ _ r r₁)
        refine ⟨allowed, fun a m => Follows.bind refl
          ((Follows.later trans guarantee (refl _) (onward a m)).mono ?_)⟩
        rintro g₂ value ⟨since, keeps⟩ g₃ r₃
        refine ⟨keeps g₃ r₃, outlives g₃ ?_⟩
        have moved : rely g₁ (O.next g₁ c a) := guarantee _ _ _ allowed m
        exact trans _ _ _ r₁ (trans _ _ _ moved (trans _ _ _ since r₃))
  | choice p₁ p₂ ih₁ ih₂ => exact ⟨ih₁ first.1 second, ih₂ first.2 second⟩

omit trans guarantee in
/-- What tolerates others holds of a thread on its own. -/
theorem Follows.alone {post : O.Ghost → α → Prop} {p : Prog S α} {g : O.Ghost}
    (h : p.Follows O rely post g) : p.Keeps O post g := by
  induction p generalizing g with
  | ret value => exact keeps_ret.mpr (h g (refl g))
  | op c rest ih =>
      obtain ⟨allowed, onward⟩ := h g (refl g)
      exact keeps_op.mpr ⟨allowed, fun r m => ih r (onward r m)⟩
  | choice left right ihl ihr => exact ⟨ihl h.1, ihr h.2⟩

/-- The rule for a joined list: each program brings its own postcondition. -/
theorem Follows.joinAll {ι : Type} {f : ι → Prog S α} {P : ι → O.Ghost → α → Prop} {xs : List ι}
    {g : O.Ghost} (each : ∀ x ∈ xs, (f x).Follows O rely (P x) g) :
    (joinAll (xs.map f)).Follows O rely
      (fun g values => List.Forall₂ (fun x value => P x g value) xs values) g := by
  induction xs with
  | nil => exact fun _ _ => .nil
  | cons x xs ih =>
      refine Follows.bind refl ((Follows.par refl trans guarantee (each x (by simp))
        (ih fun y hy => each y (by simp [hy]))).later trans guarantee (refl g) |>.mono ?_)
      rintro g' ⟨value, values⟩ ⟨_, outlives⟩ g'' r
      obtain ⟨head, tail⟩ := outlives g'' r
      exact .cons head tail

end Join

end Prog

end Async
