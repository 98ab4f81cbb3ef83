import Swr.Async.Trace

/-! # Joined traces

What joined programs were answered is a shuffle of what each of them was answered.
-/

namespace Async

/-- The elements of both lists, each in its own order. -/
inductive Shuffle {α : Type} : List α → List α → List α → Prop where
  | nil : Shuffle [] [] []
  | left : Shuffle as bs cs → Shuffle (a :: as) bs (a :: cs)
  | right : Shuffle as bs cs → Shuffle as (b :: bs) (b :: cs)

namespace Shuffle

variable {α β : Type} {as bs cs : List α}

theorem only_left : ∀ as : List α, Shuffle as [] as
  | [] => .nil
  | _ :: as => .left (only_left as)

theorem only_right : ∀ bs : List α, Shuffle [] bs bs
  | [] => .nil
  | _ :: bs => .right (only_right bs)

theorem eq_left (shuffle : Shuffle as [] cs) : cs = as := by
  generalize none : ([] : List α) = bs at shuffle
  induction shuffle with
  | nil => rfl
  | left _ ih => rw [ih none]
  | right => cases none

theorem eq_right (shuffle : Shuffle [] bs cs) : cs = bs := by
  generalize none : ([] : List α) = as at shuffle
  induction shuffle with
  | nil => rfl
  | left => cases none
  | right _ ih => rw [ih none]

/-- What comes first in both lists can come first. -/
theorem append_left (first : List α) (shuffle : Shuffle as bs cs) :
    Shuffle (first ++ as) bs (first ++ cs) := by
  induction first with
  | nil => exact shuffle
  | cons a first ih => exact .left ih

theorem append_right (first : List α) (shuffle : Shuffle as bs cs) :
    Shuffle as (first ++ bs) (first ++ cs) := by
  induction first with
  | nil => exact shuffle
  | cons b first ih => exact .right ih

theorem map (f : α → β) (shuffle : Shuffle as bs cs) :
    Shuffle (as.map f) (bs.map f) (cs.map f) := by
  induction shuffle with
  | nil => exact .nil
  | left _ ih => exact .left ih
  | right _ ih => exact .right ih

theorem mem_iff (shuffle : Shuffle as bs cs) {c : α} : c ∈ cs ↔ c ∈ as ∨ c ∈ bs := by
  induction shuffle with
  | nil => simp
  | left _ ih => simp only [List.mem_cons, ih, or_assoc]
  | right _ ih => simp only [List.mem_cons, ih, or_left_comm]

theorem filter (p : α → Bool) (shuffle : Shuffle as bs cs) :
    Shuffle (as.filter p) (bs.filter p) (cs.filter p) := by
  induction shuffle with
  | nil => exact .nil
  | @left as bs cs a _ ih =>
      cases kept : p a with
      | true => simpa only [List.filter_cons_of_pos kept] using .left ih
      | false => simpa only [List.filter_cons_of_neg (Bool.not_eq_true _ ▸ kept)] using ih
  | @right as bs cs b _ ih =>
      cases kept : p b with
      | true => simpa only [List.filter_cons_of_pos kept] using .right ih
      | false => simpa only [List.filter_cons_of_neg (Bool.not_eq_true _ ▸ kept)] using ih

/-- A shuffle of images is the image of a shuffle. -/
theorem of_map {f : α → β} {as' bs' : List β} (shuffle : Shuffle as' bs' (cs.map f)) :
    ∃ as bs, as' = as.map f ∧ bs' = bs.map f ∧ Shuffle as bs cs := by
  generalize image : cs.map f = cs' at shuffle
  induction shuffle generalizing cs with
  | nil =>
      obtain rfl := List.map_eq_nil_iff.mp image
      exact ⟨[], [], rfl, rfl, .nil⟩
  | left _ ih =>
      obtain ⟨c, cs, rfl, rfl, rfl⟩ := List.map_eq_cons_iff.mp image
      obtain ⟨as, bs, rfl, rfl, shuffle⟩ := ih rfl
      exact ⟨c :: as, bs, rfl, rfl, .left shuffle⟩
  | right _ ih =>
      obtain ⟨c, cs, rfl, rfl, rfl⟩ := List.map_eq_cons_iff.mp image
      obtain ⟨as, bs, rfl, rfl, shuffle⟩ := ih rfl
      exact ⟨as, c :: bs, rfl, rfl, .right shuffle⟩

end Shuffle

namespace Prog

variable {S : Sig} {α β : Type} {log : List (Σ c, S.Ans c)}

/-- The two programs yield their results for logs that shuffle to `log`. -/
def YieldsBoth (p : Prog S α) (q : Prog S β) (log : List (Σ c, S.Ans c)) (both : α × β) : Prop :=
  ∃ first second, Shuffle first second log ∧ p.Yields first both.1 ∧ q.Yields second both.2

private theorem yields_beside {c : S.Cmd} {rest : S.Ans c → Prog S α} {q : Prog S β} {both : α × β}
    (onLeft : ∀ r (q : Prog S β) log, (par (rest r) q).Yields log both ↔
      YieldsBoth (rest r) q log both) :
    (beside c (fun r => par (rest r)) (fun value => .op c (fun r => do return (← rest r, value)))
      q).Yields log both ↔ YieldsBoth (.op c rest) q log both := by
  obtain ⟨a, b⟩ := both
  induction q generalizing log with
  | ret value =>
      simp only [beside, yields_op, yields_bind, pure_eq, yields_ret, YieldsBoth]
      constructor
      · rintro ⟨r, _, rfl, first, a', _, rfl, yields, rfl, same⟩
        obtain ⟨rfl, rfl⟩ := Prod.mk.inj same
        exact ⟨_, [], .only_left _, ⟨r, first, by simp, yields⟩, rfl, rfl⟩
      · rintro ⟨_, _, shuffle, ⟨r, first, rfl, yields⟩, rfl, rfl⟩
        exact ⟨r, first, shuffle.eq_left, first, a, [], by simp, yields, rfl, rfl⟩
  | op d k ih =>
      simp only [beside, yields_choice, yields_op, onLeft, ih]
      constructor
      · rintro (⟨r, _, rfl, first, second, shuffle, yields, yields'⟩ |
          ⟨r, _, rfl, first, second, shuffle, yields, yields'⟩)
        · exact ⟨_, second, .left shuffle, .op yields, yields'⟩
        · exact ⟨first, _, .right shuffle, yields, .op yields'⟩
      · rintro ⟨first, second, shuffle, yields, yields'⟩
        obtain ⟨r, first, rfl, onward⟩ := yields_op.mp yields
        obtain ⟨r', second, rfl, onward'⟩ := yields_op.mp yields'
        cases shuffle with
        | left shuffle => exact .inl ⟨r, _, rfl, first, _, shuffle, onward, yields'⟩
        | right shuffle => exact .inr ⟨r', _, rfl, _, second, shuffle, yields, onward'⟩
  | choice q₁ q₂ ih₁ ih₂ =>
      simp only [beside, yields_choice, ih₁, ih₂, YieldsBoth]
      constructor
      · rintro (⟨first, second, shuffle, yields, yields'⟩ |
          ⟨first, second, shuffle, yields, yields'⟩)
        · exact ⟨first, second, shuffle, yields, .inl yields'⟩
        · exact ⟨first, second, shuffle, yields, .inr yields'⟩
      · rintro ⟨first, second, shuffle, yields, yields' | yields'⟩
        · exact .inl ⟨first, second, shuffle, yields, yields'⟩
        · exact .inr ⟨first, second, shuffle, yields, yields'⟩

/-- Joined programs yield what both of them yield, for any shuffle. -/
theorem yields_par {p : Prog S α} {q : Prog S β} {both : α × β} :
    (par p q).Yields log both ↔ YieldsBoth p q log both := by
  induction p generalizing q log with
  | ret value =>
      obtain ⟨a, b⟩ := both
      simp only [par, yields_bind, pure_eq, yields_ret, YieldsBoth]
      constructor
      · rintro ⟨first, b', _, rfl, yields, rfl, same⟩
        obtain ⟨rfl, rfl⟩ := Prod.mk.inj same
        exact ⟨[], first, by simpa using .only_right first, ⟨rfl, rfl⟩, yields⟩
      · rintro ⟨_, second, shuffle, ⟨rfl, rfl⟩, yields⟩
        exact ⟨second, b, [], by simpa using shuffle.eq_right, yields, rfl, rfl⟩
  | op c rest ih => exact yields_beside fun r q log => ih r
  | choice p₁ p₂ ih₁ ih₂ =>
      simp only [par, yields_choice, ih₁, ih₂, YieldsBoth]
      constructor
      · rintro (⟨first, second, shuffle, yields, yields'⟩ |
          ⟨first, second, shuffle, yields, yields'⟩)
        · exact ⟨first, second, shuffle, .inl yields, yields'⟩
        · exact ⟨first, second, shuffle, .inr yields, yields'⟩
      · rintro ⟨first, second, shuffle, yields | yields, yields'⟩
        · exact .inl ⟨first, second, shuffle, yields, yields'⟩
        · exact .inr ⟨first, second, shuffle, yields, yields'⟩

end Prog

end Async
