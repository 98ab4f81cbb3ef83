import Swr.Async.Shuffle

/-! # Joins of joins

Programs that are joined, with one result made of all their results. A join among the
joined programs can be opened: nobody can tell it from one join of all of them.
-/

namespace Async

namespace Shuffle

variable {α : Type} {as bs cs ab abc : List α}

/-- What was shuffled first can be shuffled last. -/
theorem assoc (outer : Shuffle ab cs abc) (inner : Shuffle as bs ab) :
    ∃ bc, Shuffle bs cs bc ∧ Shuffle as bc abc := by
  induction outer generalizing as bs with
  | nil =>
      cases inner
      exact ⟨[], .nil, .nil⟩
  | left _ ih =>
      cases inner with
      | left inner =>
          obtain ⟨bc, last, first⟩ := ih inner
          exact ⟨bc, last, .left first⟩
      | right inner =>
          obtain ⟨bc, last, first⟩ := ih inner
          exact ⟨_, .left last, .right first⟩
  | right _ ih =>
      obtain ⟨bc, last, first⟩ := ih inner
      exact ⟨_, .right last, .right first⟩

theorem symm (shuffle : Shuffle as bs cs) : Shuffle bs as cs := by
  induction shuffle with
  | nil => exact .nil
  | left _ ih => exact .right ih
  | right _ ih => exact .left ih

/-- The same the other way round. -/
theorem assoc_right {bc : List α} (outer : Shuffle as bc abc) (inner : Shuffle bs cs bc) :
    ∃ ab, Shuffle as bs ab ∧ Shuffle ab cs abc := by
  obtain ⟨ab, first, last⟩ := outer.symm.assoc inner.symm
  exact ⟨ab, first.symm, last.symm⟩

end Shuffle

namespace Prog

variable {S : Sig} {α β : Type} {log : List (Σ c, S.Ans c)}

/-- The programs yield the same for the same answers. -/
def Alike (p q : Prog S α) : Prop := ∀ log value, p.Yields log value ↔ q.Yields log value

namespace Alike

variable {p q r : Prog S α}

theorem refl (p : Prog S α) : Alike p p := fun _ _ => Iff.rfl

theorem trans (first : Alike p q) (second : Alike q r) : Alike p r :=
  fun log value => (first log value).trans (second log value)

theorem bind {next next' : α → Prog S β} (first : Alike p q)
    (onward : ∀ value, Alike (next value) (next' value)) : Alike (p >>= next) (q >>= next') := by
  intro log value
  simp only [yields_bind, first _ _, onward _ _ _]

end Alike

theorem par_ret (p : Prog S α) (other : β) :
    par p (.ret other) = p >>= fun value => .ret (value, other) := by
  induction p with
  | ret => rfl
  | op => rfl
  | choice left right ihl ihr => exact congrArg₂ Prog.choice ihl ihr

theorem joinAll_one (p : Prog S α) : joinAll [p] = p >>= fun value => .ret [value] := by
  simp only [joinAll, par_ret, bind_assoc, ret_bind, pure_eq]

/-- Joined programs that have all returned have returned together. -/
theorem joinAll_returned (values : List α) : joinAll (S := S) (values.map .ret) = .ret values := by
  induction values with
  | nil => rfl
  | cons value values ih =>
      simp only [List.map_cons, joinAll, ih]
      rfl

theorem yields_joinAll_cons {p : Prog S α} {ps : List (Prog S α)} {values : List α} :
    (joinAll (p :: ps)).Yields log values ↔ ∃ first second value rest, Shuffle first second log ∧
      p.Yields first value ∧ (joinAll ps).Yields second rest ∧ values = value :: rest := by
  simp only [joinAll, yields_bind, yields_par, pure_eq, yields_ret]
  constructor
  · rintro ⟨joined, ⟨value, rest⟩, _, rfl, ⟨first, second, shuffle, mine, others⟩, rfl, rfl⟩
    rw [List.append_nil]
    exact ⟨first, second, value, rest, shuffle, mine, others, rfl⟩
  · rintro ⟨first, second, value, rest, shuffle, mine, others, rfl⟩
    exact ⟨log, (value, rest), [], by simp, ⟨first, second, shuffle, mine, others⟩, rfl, rfl⟩

/-- Run together, and make one result of all. -/
def gather (fold : List α → α) (ps : List (Prog S α)) : Prog S α := do
  let values ← joinAll ps
  return fold values

/-- The results are put together two by two. -/
structure Folds (fold : List α → α) (both : α → α → α) : Prop where
  single : ∀ value, fold [value] = value
  append : ∀ values more, fold (values ++ more) = both (fold values) (fold more)

section Gather

variable {fold : List α → α} {both : α → α → α} {ps qs ps' qs' : List (Prog S α)}
  {p p' : Prog S α} {value : α}

theorem yields_gather : (gather fold ps).Yields log value ↔
    ∃ values, (joinAll ps).Yields log values ∧ value = fold values := yields_map

theorem yields_joinAll_append {values : List α} : (joinAll (ps ++ qs)).Yields log values ↔
    ∃ first second mine others, Shuffle first second log ∧ (joinAll ps).Yields first mine ∧
      (joinAll qs).Yields second others ∧ values = mine ++ others := by
  induction ps generalizing log values with
  | nil =>
      constructor
      · intro joined
        exact ⟨[], log, [], values, .only_right log, yields_ret.mpr ⟨rfl, rfl⟩, joined, rfl⟩
      · rintro ⟨_, second, _, others, shuffle, none, joined, rfl⟩
        obtain ⟨rfl, rfl⟩ := yields_ret.mp none
        rw [shuffle.eq_right]
        exact joined
  | cons p ps ih =>
      simp only [List.cons_append, yields_joinAll_cons, ih]
      constructor
      · rintro ⟨a, _, value, _, outer, mine, ⟨b, c, values, more, inner, joined, others, rfl⟩, rfl⟩
        obtain ⟨ab, first, last⟩ := outer.assoc_right inner
        exact ⟨ab, c, value :: values, more, last,
          ⟨a, b, value, values, first, mine, joined, rfl⟩, others, rfl⟩
      · rintro ⟨ab, c, _, more, last, ⟨a, b, value, values, first, mine, joined, rfl⟩, others, rfl⟩
        obtain ⟨bc, inner, outer⟩ := last.assoc first
        exact ⟨a, bc, value, values ++ more, outer, mine,
          ⟨b, c, values, more, inner, joined, others, rfl⟩, rfl⟩

/-- What two joined lists yield together. -/
theorem yields_gather_append (folds : Folds fold both) : (gather fold (ps ++ qs)).Yields log value ↔
    ∃ first second mine others, Shuffle first second log ∧ (gather fold ps).Yields first mine ∧
      (gather fold qs).Yields second others ∧ value = both mine others := by
  simp only [yields_gather, yields_joinAll_append]
  constructor
  · rintro ⟨_, ⟨first, second, values, more, shuffle, mine, others, rfl⟩, rfl⟩
    exact ⟨first, second, _, _, shuffle, ⟨values, mine, rfl⟩, ⟨more, others, rfl⟩,
      folds.append values more⟩
  · rintro ⟨first, second, _, _, shuffle, ⟨values, mine, rfl⟩, ⟨more, others, rfl⟩, rfl⟩
    exact ⟨values ++ more, ⟨first, second, values, more, shuffle, mine, others, rfl⟩,
      (folds.append values more).symm⟩

/-- Joined lists can be replaced one by one. -/
theorem gather_append_congr (folds : Folds fold both)
    (first : Alike (gather fold ps) (gather fold ps'))
    (second : Alike (gather fold qs) (gather fold qs')) :
    Alike (gather fold (ps ++ qs)) (gather fold (ps' ++ qs')) := by
  intro log value
  simp only [yields_gather_append folds, first _ _, second _ _]

theorem gather_one (folds : Folds fold both) (p : Prog S α) : gather fold [p] = p := by
  simp only [gather, joinAll_one, bind_assoc, ret_bind, pure_eq, folds.single]
  exact bind_ret p

/-- A join at the head of a join can be opened. -/
theorem gather_open (folds : Folds fold both) (opened : Alike p (gather fold ps))
    (others : Alike (gather fold qs) (gather fold qs')) :
    Alike (gather fold (p :: qs)) (gather fold (ps ++ qs')) := by
  have first : Alike (gather fold [p]) (gather fold ps) := by
    rw [gather_one folds]
    exact opened
  exact gather_append_congr folds first others

end Gather

end Prog

end Async
