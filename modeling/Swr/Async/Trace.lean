import Swr.Async.Machine

/-! # Traces

What a thread was answered, in order and with the times. A thread that has returned
was answered something its program yields its result for, so a statement about the
results of all runs comes down to one about the program.
-/

namespace Async

namespace Prog

variable {S : Sig} {α β : Type} {log : List (Σ c, S.Ans c)}

@[simp] theorem yields_ret {value value' : α} :
    (Prog.ret (S := S) value).Yields log value' ↔ log = [] ∧ value' = value := by
  constructor
  · rintro ⟨⟩
    exact ⟨rfl, rfl⟩
  · rintro ⟨rfl, rfl⟩
    exact .ret

@[simp] theorem yields_op {c : S.Cmd} {rest : S.Ans c → Prog S α} {value : α} :
    (Prog.op c rest).Yields log value ↔ ∃ r later, log = ⟨c, r⟩ :: later ∧
    (rest r).Yields later value := by
  constructor
  · rintro ⟨⟩
    exact ⟨_, _, rfl, ‹_›⟩
  · rintro ⟨r, later, rfl, onward⟩
    exact .op onward

theorem yields_choice {left right : Prog S α} {value : α} :
    (Prog.choice left right).Yields log value ↔ left.Yields log value ∨ right.Yields log value := by
  constructor
  · intro yields
    cases yields with
    | left onward => exact .inl onward
    | right onward => exact .inr onward
  · rintro (onward | onward)
    · exact .left onward
    · exact .right onward

/-- What a sequence yields is split where its first part ends. -/
theorem yields_bind {p : Prog S α} {next : α → Prog S β} {value : β} :
    (p >>= next).Yields log value ↔
      ∃ first mid second, log = first ++ second ∧ p.Yields first mid ∧
      (next mid).Yields second value := by
  induction p generalizing log with
  | ret mid =>
      simp only [ret_bind, yields_ret]
      constructor
      · intro yields
        exact ⟨[], mid, log, rfl, ⟨rfl, rfl⟩, yields⟩
      · rintro ⟨_, _, second, rfl, ⟨rfl, rfl⟩, yields⟩
        exact yields
  | op c rest ih =>
      simp only [op_bind, yields_op, ih]
      constructor
      · rintro ⟨r, _, rfl, first, mid, second, rfl, begun, ended⟩
        exact ⟨⟨c, r⟩ :: first, mid, second, rfl, ⟨r, first, rfl, begun⟩, ended⟩
      · rintro ⟨_, mid, second, rfl, ⟨r, first, rfl, begun⟩, ended⟩
        exact ⟨r, first ++ second, rfl, first, mid, second, rfl, begun, ended⟩
  | choice left right ihl ihr =>
      simp only [choice_bind, yields_choice, ihl, ihr]
      constructor
      · rintro (⟨first, mid, second, rfl, begun, ended⟩ | ⟨first, mid, second, rfl, begun, ended⟩)
        · exact ⟨first, mid, second, rfl, .inl begun, ended⟩
        · exact ⟨first, mid, second, rfl, .inr begun, ended⟩
      · rintro ⟨first, mid, second, rfl, begun | begun, ended⟩
        · exact .inl ⟨first, mid, second, rfl, begun, ended⟩
        · exact .inr ⟨first, mid, second, rfl, begun, ended⟩

theorem yields_map {p : Prog S α} {f : α → β} {out : β} :
    (p >>= fun value => .ret (f value)).Yields log out ↔ ∃ value, p.Yields log value ∧
    out = f value := by
  simp only [yields_bind, yields_ret]
  constructor
  · rintro ⟨first, value, _, rfl, yields, rfl, rfl⟩
    rw [List.append_nil]
    exact ⟨value, yields, rfl⟩
  · rintro ⟨value, yields, rfl⟩
    exact ⟨log, value, [], by rw [List.append_nil], yields, rfl, rfl⟩

/-! ## Programs on their way -/

/-- Answered as `log` says, the program has become `q`. -/
inductive Leads : Prog S α → List (Σ c, S.Ans c) → Prog S α → Prop where
  | refl : Leads p [] p
  | op {rest : S.Ans c → Prog S α} : Leads (rest r) later q → Leads (.op c rest) (⟨c, r⟩ :: later) q
  | left : Leads p later q → Leads (.choice p p') later q
  | right : Leads p' later q → Leads (.choice p p') later q

/-- Answered as `log` says, the program issues `c` next. -/
inductive Reaches : Prog S α → List (Σ c, S.Ans c) → S.Cmd → Prop where
  | here {rest : S.Ans c → Prog S α} : Reaches (.op c rest) [] c
  | op {rest : S.Ans d → Prog S α} :
      Reaches (rest r) later c → Reaches (.op d rest) (⟨d, r⟩ :: later) c
  | left : Reaches p later c → Reaches (.choice p q) later c
  | right : Reaches q later c → Reaches (.choice p q) later c

theorem Leads.answered {p : Prog S α} {c : S.Cmd} {rest : S.Ans c → Prog S α}
    (leads : p.Leads log (.op c rest)) (r : S.Ans c) : p.Leads (log ++ [⟨c, r⟩]) (rest r) := by
  generalize moves : Prog.op c rest = q at leads
  induction leads with
  | refl => subst moves; exact .op .refl
  | op _ ih => exact .op (ih moves)
  | left _ ih => exact .left (ih moves)
  | right _ ih => exact .right (ih moves)

theorem Leads.turned {p q₁ q₂ : Prog S α} (leads : p.Leads log (.choice q₁ q₂)) (left : Bool) :
    p.Leads log (if left then q₁ else q₂) := by
  generalize moves : Prog.choice q₁ q₂ = q at leads
  induction leads with
  | refl =>
      subst moves
      cases left with
      | true => exact .left .refl
      | false => exact .right .refl
  | op _ ih => exact .op (ih moves)
  | left _ ih => exact .left (ih moves)
  | right _ ih => exact .right (ih moves)

theorem Leads.yields {p : Prog S α} {value : α} (leads : p.Leads log (.ret value)) :
    p.Yields log value := by
  generalize ends : Prog.ret value = q at leads
  induction leads with
  | refl => subst ends; exact .ret
  | op _ ih => exact .op (ih ends)
  | left _ ih => exact .left (ih ends)
  | right _ ih => exact .right (ih ends)

theorem Leads.reaches {p : Prog S α} {c : S.Cmd} {rest : S.Ans c → Prog S α}
    (leads : p.Leads log (.op c rest)) : p.Reaches log c := by
  generalize next : Prog.op c rest = q at leads
  induction leads with
  | refl => subst next; exact .here
  | op _ ih => exact .op (ih next)
  | left _ ih => exact .left (ih next)
  | right _ ih => exact .right (ih next)

@[simp] theorem not_reaches_ret {value : α} {c : S.Cmd} :
    ¬ (Prog.ret (S := S) value).Reaches log c := nofun

theorem reaches_op {d : S.Cmd} {rest : S.Ans d → Prog S α} {c : S.Cmd} :
    (Prog.op d rest).Reaches log c ↔
      (log = [] ∧ c = d) ∨ ∃ r later, log = ⟨d, r⟩ :: later ∧ (rest r).Reaches later c := by
  constructor
  · rintro ⟨⟩
    · exact .inl ⟨rfl, rfl⟩
    · exact .inr ⟨_, _, rfl, ‹_›⟩
  · rintro (⟨rfl, rfl⟩ | ⟨r, later, rfl, onward⟩)
    · exact .here
    · exact .op onward

/-- A command of a sequence is one of its first part, or one of its second part. -/
theorem Reaches.of_bind {p : Prog S α} {next : α → Prog S β} {c : S.Cmd}
    (reaches : (p >>= next).Reaches log c) : p.Reaches log c ∨
      ∃ first mid second, log = first ++ second ∧ p.Yields first mid ∧
      (next mid).Reaches second c := by
  induction p generalizing log with
  | ret mid => exact .inr ⟨[], mid, log, rfl, .ret, reaches⟩
  | op d rest ih =>
      rcases reaches_op.mp reaches with ⟨rfl, rfl⟩ | ⟨r, later, rfl, onward⟩
      · exact .inl .here
      · rcases ih r onward with within | ⟨first, mid, second, rfl, begun, after⟩
        · exact .inl (.op within)
        · exact .inr ⟨⟨d, r⟩ :: first, mid, second, rfl, .op begun, after⟩
  | choice left right ihl ihr =>
      cases reaches with
      | left onward =>
          rcases ihl onward with within | ⟨first, mid, second, rfl, begun, after⟩
          · exact .inl (.left within)
          · exact .inr ⟨first, mid, second, rfl, .left begun, after⟩
      | right onward =>
          rcases ihr onward with within | ⟨first, mid, second, rfl, begun, after⟩
          · exact .inl (.right within)
          · exact .inr ⟨first, mid, second, rfl, .right begun, after⟩

/-! ## Confined programs -/

/-- Only what the program may issue is in what it was answered. -/
theorem Only.yields {N : S.Cmd → Prop} {p : Prog S α} {value : α} (uses : p.Only N)
    (yields : p.Yields log value) : ∀ e ∈ log, N e.1 := by
  induction yields with
  | ret => simp
  | op _ ih => exact List.forall_mem_cons.mpr ⟨uses.1, ih (uses.2 _)⟩
  | left _ ih => exact ih uses.1
  | right _ ih => exact ih uses.2

theorem Only.reaches {N : S.Cmd → Prop} {p : Prog S α} {c : S.Cmd} (uses : p.Only N)
    (reaches : p.Reaches log c) : N c := by
  induction reaches with
  | here => exact uses.1
  | op _ ih => exact ih (uses.2 _)
  | left _ ih => exact ih uses.1
  | right _ ih => exact ih uses.2

/-- No decision inside the program is left to the scheduler. -/
def Straight : Prog S α → Prop
  | .ret _ => True
  | .op _ rest => ∀ r, (rest r).Straight
  | .choice _ _ => False

theorem Straight.bind {p : Prog S α} {next : α → Prog S β} (first : p.Straight)
    (rest : ∀ value, (next value).Straight) : (p >>= next).Straight := by
  induction p with
  | ret value => exact rest value
  | op c k ih => exact fun r => ih r (first r)
  | choice => exact first.elim

/-- Where a straight program ends, and with what, is settled by the answers. -/
theorem Straight.yields_unique {p : Prog S α} (straight : p.Straight)
    {first second : List (Σ c, S.Ans c)} {value value' : α} {rest rest' : List (Σ c, S.Ans c)}
    (yields : p.Yields first value) (yields' : p.Yields second value')
    (same : first ++ rest = second ++ rest') : first = second ∧ value = value' ∧ rest = rest' := by
  induction p generalizing first second with
  | ret mid =>
      obtain ⟨rfl, rfl⟩ := yields_ret.mp yields
      obtain ⟨rfl, rfl⟩ := yields_ret.mp yields'
      exact ⟨rfl, rfl, same⟩
  | op c k ih =>
      obtain ⟨r, first, rfl, onward⟩ := yields_op.mp yields
      obtain ⟨r', second, rfl, onward'⟩ := yields_op.mp yields'
      obtain ⟨here, later⟩ := List.cons.inj same
      cases here
      obtain ⟨rfl, rfl, rfl⟩ := ih r (straight r) onward onward' later
      exact ⟨rfl, rfl, rfl⟩
  | choice => exact straight.elim

end Prog

variable {M : System}

/-- What thread `i` was answered, earliest first. -/
def trace (i : Nat) : History M → List (Int × Σ c, M.sig.Ans c)
  | [] => []
  | (_, .exec j t c r) :: past => if j = i then trace i past ++ [(t, ⟨c, r⟩)] else trace i past
  | (_, .start _) :: past | (_, .turn _ _) :: past | (_, .drop _) :: past => trace i past

/-- The replies without the times. -/
def replies (i : Nat) (past : History M) : List (Σ c, M.sig.Ans c) := (trace i past).map Prod.snd

variable {init : Config M} {past : History M} {s : Config M} {l : Label M} {i j : Nat}

@[simp] theorem trace_foreign (foreign : l.Foreign i) :
    trace i ((s, l) :: past) = trace i past := by
  cases l with
  | exec j t c r =>
      have other : j ≠ i := by rintro rfl; exact foreign t c r rfl
      simp [trace, other]
  | start | turn | drop => rfl

@[simp] theorem trace_own {t : Int} {c : M.sig.Cmd} {r : M.sig.Ans c} :
    trace i ((s, .exec i t c r) :: past) = trace i past ++ [(t, ⟨c, r⟩)] := by
  simp [trace]

theorem replies_own {t : Int} {c : M.sig.Cmd} {r : M.sig.Ans c} :
    replies i ((s, .exec i t c r) :: past) = replies i past ++ [⟨c, r⟩] := by
  simp [replies]

theorem replies_foreign (foreign : l.Foreign i) : replies i ((s, l) :: past) = replies i past := by
  simp [replies, foreign]

theorem replies_prefix : replies i past <+: replies i ((s, l) :: past) := by
  rcases l.foreign_or i with foreign | ⟨t, c, r, rfl⟩
  · simp only [replies_foreign foreign, List.prefix_refl]
  · rw [replies_own]
    exact List.prefix_append _ _

/-- What was answered earlier is still what was answered first. -/
theorem replies_suffix {past earlier : History M} {i : Nat} (within : earlier <:+ past) :
    replies i earlier <+: replies i past := by
  induction past with
  | nil =>
      obtain rfl := List.suffix_nil.mp within
      exact List.prefix_rfl
  | cons e past ih =>
      rcases List.suffix_cons_iff.mp within with rfl | older
      · exact List.prefix_rfl
      · exact (ih older).trans replies_prefix

/-- A reply was given before, or by the last step. -/
theorem mem_replies_cons {e : Σ c, M.sig.Ans c} :
    e ∈ replies i ((s, l) :: past) ↔ e ∈ replies i past ∨ ∃ t, l = .exec i t e.1 e.2 := by
  rcases l.foreign_or i with foreign | ⟨t, c, r, rfl⟩
  · rw [replies_foreign foreign]
    constructor
    · exact .inl
    · rintro (earlier | ⟨t, same⟩)
      · exact earlier
      · exact absurd same (foreign t e.1 e.2)
  · rw [replies_own, List.mem_append, List.mem_singleton]
    refine or_congr_right ?_
    constructor
    · rintro rfl
      exact ⟨t, rfl⟩
    · rintro ⟨_, ⟨⟩⟩
      rfl

/-- Each entry of a trace is a step, and what comes before it was answered before. -/
theorem step_of_trace {before after : List (Int × Σ c, M.sig.Ans c)} {t : Int} {c : M.sig.Cmd}
    {r : M.sig.Ans c} (split : trace i past = before ++ (t, ⟨c, r⟩) :: after) :
    ∃ s earlier, (s, .exec i t c r) :: earlier <:+ past ∧ trace i earlier = before := by
  induction past generalizing after with
  | nil => exact absurd (congrArg List.length split) (by simp [trace])
  | cons e past ih =>
      obtain ⟨s, l⟩ := e
      rcases l.foreign_or i with foreign | ⟨t', c', r', rfl⟩
      · rw [trace_foreign foreign] at split
        obtain ⟨s₁, earlier, step, same⟩ := ih split
        exact ⟨s₁, earlier, step.trans (List.suffix_cons _ _), same⟩
      · rw [trace_own] at split
        rcases List.eq_nil_or_concat after with rfl | ⟨after, last, rfl⟩
        · obtain ⟨rfl, same⟩ := List.append_inj' split rfl
          cases same
          exact ⟨s, past, List.suffix_refl _, rfl⟩
        · rw [List.concat_eq_append, ← List.cons_append, ← List.append_assoc] at split
          obtain ⟨s₁, earlier, step, same⟩ := ih (List.append_inj' split rfl).1
          exact ⟨s₁, earlier, step.trans (List.suffix_cons _ _), same⟩

/-- The last reply so far was the one to the last command. -/
theorem step_of_replies {before : List (Σ c, M.sig.Ans c)} {c : M.sig.Cmd} {r : M.sig.Ans c}
    (last : replies i past = before ++ [⟨c, r⟩]) :
    ∃ s t earlier, (s, .exec i t c r) :: earlier <:+ past ∧ replies i earlier = before := by
  obtain ⟨timed, ending, split, rfl, single⟩ := List.map_eq_append_iff.mp last
  obtain ⟨⟨t, e⟩, _, rfl, rfl, none⟩ := List.map_eq_cons_iff.mp single
  obtain ⟨s, earlier, step, rfl⟩ := step_of_trace split
  exact ⟨s, t, earlier, step, rfl⟩

theorem step_of_mem_trace {t : Int} {c : M.sig.Cmd} {r : M.sig.Ans c}
    (member : (t, ⟨c, r⟩) ∈ trace i past) :
    ∃ s earlier, (s, .exec i t c r) :: earlier <:+ past := by
  obtain ⟨before, after, split⟩ := List.append_of_mem member
  obtain ⟨s, earlier, step, _⟩ := step_of_trace split
  exact ⟨s, earlier, step⟩

/-- What had happened when thread `i` last issued a command that `p` is true of. -/
def lastIssue (p : M.sig.Cmd → Bool) (i : Nat) : History M → Option (History M)
  | [] => none
  | (_, .exec j _ c _) :: past => if j = i ∧ p c then some past else lastIssue p i past
  | (_, .start _) :: past | (_, .turn _ _) :: past | (_, .drop _) :: past => lastIssue p i past

theorem lastIssue_foreign {p : M.sig.Cmd → Bool} (foreign : l.Foreign i) :
    lastIssue p i ((s, l) :: past) = lastIssue p i past := by
  cases l with
  | exec j t c r =>
      have other : j ≠ i := by rintro rfl; exact foreign t c r rfl
      simp [lastIssue, other]
  | start | turn | drop => rfl

/-- The last command of its kind is found where the replies show it. -/
theorem lastIssue_of_replies {p : M.sig.Cmd → Bool} {before after : List (Σ c, M.sig.Ans c)}
    {c : M.sig.Cmd} {r : M.sig.Ans c} (split : replies i past = before ++ ⟨c, r⟩ :: after)
    (meets : p c = true) (last : ∀ e ∈ after, p e.1 = false) :
    ∃ s t earlier, lastIssue p i past = some earlier ∧ (s, .exec i t c r) :: earlier <:+ past ∧
      replies i earlier = before := by
  induction past generalizing after with
  | nil => exact absurd (congrArg List.length split) (by simp [replies, trace])
  | cons e past ih =>
      obtain ⟨s, l⟩ := e
      rcases l.foreign_or i with foreign | ⟨t, c', r', rfl⟩
      · rw [replies_foreign foreign] at split
        obtain ⟨s₁, t, earlier, found, step, same⟩ := ih split last
        exact ⟨s₁, t, earlier, (lastIssue_foreign foreign).trans found,
          step.trans (List.suffix_cons _ _), same⟩
      · rw [replies_own] at split
        rcases List.eq_nil_or_concat after with rfl | ⟨after, latest, rfl⟩
        · obtain ⟨rfl, same⟩ := List.append_inj' split rfl
          cases same
          exact ⟨s, t, past, by simp [lastIssue, meets], List.suffix_refl _, rfl⟩
        · rw [List.concat_eq_append] at split last
          rw [← List.cons_append, ← List.append_assoc] at split
          obtain ⟨split', ends⟩ := List.append_inj' split rfl
          cases ends
          obtain ⟨s₁, t₁, earlier, found, step, same⟩ :=
            ih split' fun e member => last e (by simp [member])
          have other : p c' = false := last _ (List.mem_append_right _ (List.mem_singleton_self _))
          exact ⟨s₁, t₁, earlier, by simp [lastIssue, other, found],
            step.trans (List.suffix_cons _ _), same⟩

theorem lastIssue_eq_none {p : M.sig.Cmd → Bool} (never : ∀ e ∈ replies i past, p e.1 = false) :
    lastIssue p i past = none := by
  induction past with
  | nil => rfl
  | cons e past ih =>
      obtain ⟨s, l⟩ := e
      rcases l.foreign_or i with foreign | ⟨t, c, r, rfl⟩
      · rw [replies_foreign foreign] at never
        exact (lastIssue_foreign foreign).trans (ih never)
      · rw [replies_own] at never
        have here : p c = false := never _ (List.mem_append_right _ (List.mem_singleton_self _))
        simp [lastIssue, here, ih fun e member => never e (List.mem_append_left _ member)]

theorem mem_trace {s₁ : Config M} {t : Int} {c : M.sig.Cmd} {r : M.sig.Ans c}
    (member : (s₁, .exec i t c r) ∈ past) : (t, ⟨c, r⟩) ∈ trace i past := by
  induction past with
  | nil => simp at member
  | cons e past ih =>
      rcases List.mem_cons.mp member with rfl | earlier
      · simp
      · obtain ⟨s, l⟩ := e
        rcases l.foreign_or i with foreign | ⟨t', c', r', rfl⟩
        · rw [trace_foreign foreign]
          exact ih earlier
        · rw [trace_own]
          exact List.mem_append_left _ (ih earlier)

/-- With a clock that does not go back the times of a trace are in order. -/
theorem Clocked.trace_sorted (clocked : Clocked past) (i : Nat) :
    (trace i past).Pairwise (fun a b => a.1 ≤ b.1) := by
  induction past with
  | nil => exact .nil
  | cons e past ih =>
      obtain ⟨s, l⟩ := e
      obtain ⟨latest, before⟩ := List.pairwise_cons.mp clocked
      rcases l.foreign_or i with foreign | ⟨t, c, r, rfl⟩
      · rw [trace_foreign foreign]
        exact ih before
      · rw [trace_own]
        refine List.pairwise_append.mpr ⟨ih before, List.pairwise_singleton _ _, ?_⟩
        rintro ⟨t', c', r'⟩ member _ (_ | ⟨_, ⟨⟩⟩)
        obtain ⟨s₁, earlier, step⟩ := step_of_mem_trace member
        exact latest (s₁, _) (step.subset (List.mem_cons_self ..)) t rfl t' rfl

/-- The thread that has started thread `j`, and what had happened until then. -/
def starter (j : Nat) : History M → Option (Nat × History M)
  | [] => none
  | (s, .exec i _ c _) :: past =>
      if s.threads.length ≤ j ∧ j < s.threads.length + (M.spawned c).length then some (i, past)
      else starter j past
  | (_, .start _) :: past | (_, .turn _ _) :: past | (_, .drop _) :: past => starter j past

theorem starter_old {j : Nat} (inside : j < s.threads.length) :
    starter j ((s, l) :: past) = starter j past := by
  cases l with
  | exec => simp [starter, Nat.not_le.mpr inside]
  | start | turn | drop => rfl

namespace Run

/-- Only a dropped thread is dropped. -/
theorem not_dropped {w : M.World} (run : Run M (.idle w) past s)
    (kept : ∀ e ∈ past, e.2.dropping = none) {th : Thread M} (at_i : s.threads[i]? = some th) :
    ¬ th.Dropped := by
  induction run generalizing th with
  | refl => simp [Config.idle] at at_i
  | step before taken ih =>
      have earlier := fun e member => kept e (List.mem_cons_of_mem _ member)
      cases taken.fate at_i with
      | same was_i => exact ih earlier was_i
      | moved _ _ moved | turned _ _ moved | called _ moved | spawned _ _ _ _ moved =>
          subst moved
          intro gone
          cases gone
      | dropped => cases kept _ (List.mem_cons_self ..)

theorem trace_unstarted (run : Run M init past s) (unstarted : s.threads.length ≤ i) :
    trace i past = [] := by
  induction run with
  | refl => rfl
  | step before taken ih =>
      have small := Nat.le_trans taken.length_le unstarted
      rw [trace_foreign, ih small]
      rintro t c r rfl
      have inside := exec_lt (before.step taken) (List.mem_cons_self ..)
      omega

/-- A thread's program is what its trace has made of its code. -/
theorem traced {w : M.World} (run : Run M (.idle w) past s) {th : Thread M} {p : Prog M.sig M.Out}
    (at_i : s.threads[i]? = some th) (here : th.prog = some p) :
    (M.body th.task).Leads (replies i past) p := by
  induction run generalizing i th p with
  | refl => simp [Config.idle] at at_i
  | step before taken ih =>
      cases taken.fate at_i with
      | same was_i foreign =>
          rw [replies_foreign foreign]
          exact ih was_i here
      | moved was_i next moved =>
          subst moved
          obtain rfl := Option.some.inj here
          rw [replies_own]
          exact (ih was_i next).answered _
      | turned was_i next moved =>
          subst moved
          obtain rfl := Option.some.inj here
          rw [replies_foreign (by simp [Label.Foreign])]
          exact (ih was_i next).turned _
      | dropped _ moved => subst moved; cases here
      | called new moved =>
          subst moved
          obtain rfl := Option.some.inj here
          rw [replies_foreign (by simp [Label.Foreign]), replies, before.trace_unstarted (by omega)]
          exact .refl
      | spawned new _ inside _ moved =>
          subst moved
          obtain rfl := Option.some.inj here
          rw [replies_foreign (by rintro _ _ _ same; cases same; omega), replies,
            before.trace_unstarted new]
          exact .refl

/-- A thread that has returned was answered something its code returns that for. -/
theorem finished_yields {w : M.World} (run : Run M (.idle w) past s) {th : Thread M} {out : M.Out}
    (at_i : s.threads[i]? = some th) (finished : th.Finished out) :
    (M.body th.task).Yields (replies i past) out :=
  (run.traced at_i finished).yields

/-- A command of a thread is one its code issues after what the thread was answered. -/
theorem reached {w : M.World} (run : Run M (.idle w) past s) {t : Int} {c : M.sig.Cmd}
    {r : M.sig.Ans c} {s₁ : Config M} {earlier : History M}
    (step : (s₁, .exec i t c r) :: earlier <:+ past) :
    ∃ th, s₁.threads[i]? = some th ∧ (M.body th.task).Reaches (replies i earlier) c := by
  obtain ⟨before, s₂, taken⟩ := run.upTo step
  cases taken with
  | exec at_i next => exact ⟨_, at_i, (before.traced at_i next).reaches⟩

/-- The tasks of a run are those it is given and those their code starts. -/
theorem tasks {w : M.World} {T : M.Task → Prop}
    (closed : ∀ task log c, T task → (M.body task).Reaches log c → ∀ task' ∈ M.spawned c, T task')
    (run : Run M (.idle w) past s) (calls : ∀ s₀ task, (s₀, .start task) ∈ past → T task)
    {th : Thread M} (at_i : s.threads[i]? = some th) : T th.task := by
  induction run generalizing i th with
  | refl => simp [Config.idle] at at_i
  | step before taken ih =>
      have earlier := fun s₀ task member => calls s₀ task (List.mem_cons_of_mem _ member)
      cases taken.fate at_i with
      | same was_i => exact ih earlier was_i
      | moved was_i _ moved | turned was_i _ moved | dropped was_i moved =>
          have member := ih earlier was_i
          subst moved
          exact member
      | called _ moved =>
          subst moved
          exact calls _ _ (List.mem_cons_self ..)
      | spawned _ was_j _ member moved =>
          subst moved
          obtain ⟨_, at_j, reaches⟩ := (before.step taken).reached (List.suffix_refl _)
          obtain rfl := Option.some.inj (was_j.symm.trans at_j)
          exact closed _ _ _ (ih earlier was_j) reaches _ member

/-- A step of a run, as what its task does then. -/
theorem acts {w : M.World} {T : M.Task → Prop}
    {A : M.Task → List (Σ c, M.sig.Ans c) → M.sig.Cmd → Prop}
    (does : ∀ task log c, T task → (M.body task).Reaches log c → A task log c)
    (closed : ∀ task log c, T task → A task log c → ∀ task' ∈ M.spawned c, T task')
    (run : Run M (.idle w) past s) (calls : ∀ s₀ task, (s₀, .start task) ∈ past → T task) {t : Int}
    {c : M.sig.Cmd} {r : M.sig.Ans c} {s₁ : Config M} {earlier : History M}
    (step : (s₁, .exec i t c r) :: earlier <:+ past) :
    ∃ th, s₁.threads[i]? = some th ∧ T th.task ∧ A th.task (replies i earlier) c := by
  obtain ⟨th, at_i, reaches⟩ := run.reached step
  have mine : T th.task := (run.upTo step).1.tasks
    (fun task log c member reaches => closed task log c member (does task log c member reaches))
    (fun s₀ task member => calls s₀ task (step.subset (List.mem_cons_of_mem _ member))) at_i
  exact ⟨th, at_i, mine, does _ _ _ mine reaches⟩

/-- A thread was called from outside, or a command of its starter has started it. -/
theorem started {w : M.World} (run : Run M (.idle w) past s) {th : Thread M}
    (at_j : s.threads[j]? = some th) : (∃ s₀, (s₀, .start th.task) ∈ past) ∨
      ∃ s₀ i t c r earlier, starter j past = some (i, earlier) ∧
      (s₀, .exec i t c r) :: earlier <:+ past ∧
        th.task ∈ M.spawned c := by
  induction run generalizing th with
  | refl => simp [Config.idle] at at_j
  | @step past s l s' before taken ih =>
      rcases taken.origin at_j with ⟨th₀, was_j, same⟩ | ⟨new, rfl | ⟨i, t, c, r, rfl, member⟩⟩
      · rw [← same, starter_old (List.getElem?_eq_some_iff.mp was_j).1]
        rcases ih was_j with ⟨s₀, called⟩ | ⟨s₀, i, t, c, r, earlier, found, step, member⟩
        · exact .inl ⟨s₀, List.mem_cons_of_mem _ called⟩
        · exact .inr ⟨s₀, i, t, c, r, earlier, found, step.trans (List.suffix_cons _ _), member⟩
      · exact .inl ⟨s, List.mem_cons_self ..⟩
      · refine .inr ⟨s, i, t, c, r, past, ?_, List.suffix_refl _, member⟩
        cases taken with
        | exec =>
            have inside := (List.getElem?_eq_some_iff.mp at_j).1
            simp only [List.length_append, List.length_set, List.length_map] at inside
            simp [starter, new, inside]

/-- A thread was called from outside, or a command of another one has started it. -/
theorem born {w : M.World} (run : Run M (.idle w) past s) {th : Thread M}
    (at_i : s.threads[i]? = some th) : (∃ s₀, (s₀, .start th.task) ∈ past) ∨
      ∃ s₀ j t c r earlier, (s₀, .exec j t c r) :: earlier <:+ past ∧ th.task ∈ M.spawned c := by
  rcases run.started at_i with called | ⟨s₀, j, t, c, r, earlier, _, step, member⟩
  · exact .inl called
  · exact .inr ⟨s₀, j, t, c, r, earlier, step, member⟩

/-- A thread issues what its code issues. -/
theorem traced_only {w : M.World} (run : Run M (.idle w) past s) {N : M.Task → M.sig.Cmd → Prop}
    (uses : ∀ task, (M.body task).Only (N task)) {th : Thread M}
    (at_i : s.threads[i]? = some th) {t : Int} {c : M.sig.Cmd} {r : M.sig.Ans c}
    (member : (t, ⟨c, r⟩) ∈ trace i past) : N th.task c := by
  obtain ⟨s₁, earlier, step⟩ := step_of_mem_trace member
  obtain ⟨th₁, at_i₁, reaches⟩ := run.reached step
  obtain ⟨th', at_i', same, _⟩ := run.persists (step.subset (List.mem_cons_self ..)) at_i₁
  obtain rfl := Option.some.inj (at_i.symm.trans at_i')
  rw [same]
  exact (uses _).reaches reaches

end Run

end Async
