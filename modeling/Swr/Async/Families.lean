import Swr.Async.Machine

/-! # Families that have come to rest

A family whose threads can only issue harmless commands from some configuration on
stays harmless for the rest of the run, if harmless commands start no threads.
-/

namespace Async

/-- Auxiliary states that a program does not leave any more bound what it may issue. -/
theorem Prog.Keeps.only {S : Sig} {α : Type} {O : Outline S} {post : O.Ghost → α → Prop}
    {P : O.Ghost → Prop} {N : S.Cmd → Prop} {g : O.Ghost} {p : Prog S α} (h : p.Keeps O post g)
    (closed : ∀ g c r, P g → O.ok g c → O.may g c r ∧ P (O.next g c r))
    (bounds : ∀ g c, P g → O.ok g c → N c) (here : P g) : p.Only N := by
  induction p generalizing g with
  | ret => trivial
  | op c rest ih =>
      obtain ⟨allowed, onward⟩ := keeps_op.mp h
      refine ⟨bounds g c here allowed, fun r => ?_⟩
      obtain ⟨expected, there⟩ := closed g c r here allowed
      exact ih r (onward r expected) there
  | choice left right ihl ihr => exact ⟨ihl h.1 here, ihr h.2 here⟩

variable {M : System} {N : M.sig.Cmd → Prop} {R : Nat → Prop} {s s' : Config M} {l : Label M}

/-- What is left of every thread in the families `R` issues `N` commands only. -/
structure AtRest (N : M.sig.Cmd → Prop) (R : Nat → Prop) (s : Config M) : Prop where
  started : ∀ root, R root → root < s.threads.length
  only : ∀ (j : Nat) (th : Thread M) (p : Prog M.sig M.Out), s.threads[j]? = some th → R th.root →
    th.prog = some p → p.Only N

theorem AtRest.step (rest : AtRest N R s) (silent : ∀ c, N c → M.spawned c = [])
    (taken : Step M s l s') : AtRest N R s' where
  started root member := Nat.lt_of_lt_of_le (rest.started root member) taken.length_le
  only := by
    intro j th' p at_j member prog
    cases taken.fate at_j with
    | same was_j => exact rest.only j th' p was_j member prog
    | moved was_j next moved =>
        subst moved
        obtain rfl := Option.some.inj prog
        exact (rest.only j _ _ was_j member next).2 _
    | @turned th p₁ p₂ left was_j next moved =>
        subst moved
        obtain rfl := Option.some.inj prog
        have both := rest.only j _ _ was_j member next
        cases left with
        | true => exact both.1
        | false => exact both.2
    | dropped _ moved => subst moved; cases prog
    | called new moved =>
        subst moved
        have small := rest.started _ member
        simp only [Thread.spawn] at small
        omega
    | @spawned i th c task t r _ was_i _ started moved =>
        subst moved
        cases taken with
        | exec at_i next =>
            obtain rfl := Option.some.inj (was_i.symm.trans at_i)
            have harmless := (rest.only i th _ at_i member next).1
            rw [silent c harmless] at started
            cases started

/-- What a thread of these families does is harmless. -/
theorem AtRest.harmless {i : Nat} {t : Int} {c : M.sig.Cmd} {r : M.sig.Ans c} {th : Thread M}
    (rest : AtRest N R s) (taken : Step M s (.exec i t c r) s') (at_i : s.threads[i]? = some th)
    (member : R th.root) : N c := by
  cases taken with
  | exec was_i next =>
      obtain rfl := Option.some.inj (at_i.symm.trans was_i)
      exact (rest.only i th _ at_i member next).1

end Async
