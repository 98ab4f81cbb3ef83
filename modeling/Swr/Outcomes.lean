import Swr.Async.Families
import Swr.StoreCode

/-! # Outcomes

What a step leaves under one key of a foreign store, when the store is a map with
atomic calls.
-/

namespace Swr

open Async

/-- The code of the store is elsewhere. -/
def Store.isForeign : Store → Bool
  | .ext .. => true
  | _ => false

theorem Store.isForeign_iff {store : Store} :
    store.isForeign = true ↔ ∃ id name mode, store = .ext id name mode := by
  cases store <;> simp [isForeign]

def twoTiers : List Store := [.ext 0 "first" .typed, .ext 1 "second" .typed]

variable {ι : Type} [SerdeJson ι] {id : Nat} {ns key : String}

/-- What the command leaves under the key, if it touches it. -/
def Cmd.outcome (id : Nat) (ns key : String) : Cmd ι → Option (Option (StoredEntry ι))
  | .extSet id' ns' key' entry =>
      if id' = id ∧ ns' = ns ∧ key' = key then some (some entry) else none
  | .extRemove id' ns' keys => if id' = id ∧ ns' = ns ∧ key ∈ keys then some none else none
  | _ => none

theorem World.setExt_ext (w : World ι) (store : Nat) (m : Contents ι) (id : Nat) :
    (w.setExt store m).ext id = if id = store then m else w.ext id := by
  by_cases same : id = store <;> simp [World.setExt, same]

theorem exec_outcome {i : Nat} {t : Int} {w w' : World ι} {c : Cmd ι} {r : c.Ans}
    (done : exec .atomicMap i t w c r w') :
    w'.ext id ns key = (c.outcome id ns key).getD (w.ext id ns key) := by
  cases c
  case extGet =>
    obtain ⟨_, ⟨_, rfl⟩, rfl⟩ := done
    simp [Cmd.outcome]
  case extSet store ns' key' entry =>
    obtain ⟨_, ⟨_, rfl⟩, rfl⟩ := done
    by_cases here : id = store
    · subst here
      rw [World.setExt_ext, if_pos rfl, Contents.put_apply]
      by_cases same : ns = ns' ∧ key = key'
      · simp [Cmd.outcome, same]
      · rw [if_neg same, Cmd.outcome, if_neg fun same' => same ⟨same'.2.1.symm, same'.2.2.symm⟩]
        rfl
    · rw [World.setExt_ext, if_neg here, Cmd.outcome, if_neg fun same => here same.1.symm]
      rfl
  case extRemove store ns' keys =>
    obtain ⟨_, ⟨_, rfl⟩, rfl⟩ := done
    by_cases here : id = store
    · subst here
      rw [World.setExt_ext, if_pos rfl, Contents.remove_apply]
      by_cases same : ns = ns' ∧ key ∈ keys
      · simp [Cmd.outcome, same]
      · rw [if_neg same, Cmd.outcome, if_neg fun same' => same ⟨same'.2.1.symm, same'.2.2⟩]
        rfl
    · rw [World.setExt_ext, if_neg here, Cmd.outcome, if_neg fun same => here same.1.symm]
      rfl
  case mapEvict => obtain ⟨_, _, rfl⟩ := done; rfl
  case redisSet | redisSetEx | redisDel =>
    rcases done with ⟨_, rfl⟩ | ⟨_, _, rfl | rfl⟩ <;> rfl
  case sleep | spawn | loadStart | loadEnd => obtain rfl := done; rfl
  case mapInsert | mapExpire | mapRemove | insertMarker | removeMarker | emit =>
    obtain rfl := done; rfl
  all_goals (obtain ⟨_, rfl⟩ := done; rfl)

variable [DecidableEq ι]

/-- What the step leaves under the key, if it touches it. -/
def outcome (id : Nat) (ns key : String) :
    Label (system (ι := ι) .atomicMap) → Option (Option (StoredEntry ι))
  | .exec _ _ c _ => c.outcome id ns key
  | .start _ | .turn .. | .drop _ => none

theorem step_outcome {s s' : Config (system (ι := ι) .atomicMap)} {l : Label (system .atomicMap)}
    (taken : Step (system .atomicMap) s l s') :
    s'.world.ext id ns key = (outcome id ns key l).getD (s.world.ext id ns key) := by
  cases taken with
  | start | turn | drop => rfl
  | exec _ _ done => exact exec_outcome done

/-! ## What stands -/

section Stands

variable {w : World ι} {past earlier later : History (system (ι := ι) .atomicMap)}
  {s s₁ : Config (system (ι := ι) .atomicMap)} {R : Nat → Prop}

/-- The command does not touch the key and starts nothing. -/
def Cmd.Inert (id : Nat) (ns key : String) (c : Cmd ι) : Prop :=
  c.outcome id ns key = none ∧ c.spawned = []

/-- If the step touches the key, it is a background write in one of the families. -/
def Belated (id : Nat) (ns key : String) (R : Nat → Prop)
    (s : Config (system (ι := ι) .atomicMap)) (l : Label (system (ι := ι) .atomicMap)) : Prop :=
  ∀ j t c r th, l = .exec j t c r → s.threads[j]? = some th → (c.outcome id ns key).isSome →
    th.task.isCall = false ∧ R th.root

theorem quiet_belated {l : Label (system (ι := ι) .atomicMap)}
    (quiet : outcome id ns key l = none) : Belated id ns key R s l := by
  intro j t c r th step _ acts
  rw [step] at quiet
  rw [show c.outcome id ns key = none from quiet] at acts
  cases acts

/-- A background write comes after an explicit operation on the key that came after its
    family had begun. -/
def Overtaken (id : Nat) (ns key : String)
    (Began : History (system (ι := ι) .atomicMap) → Nat → Prop)
    (past : History (system (ι := ι) .atomicMap)) : Prop :=
  ∃ s₁ k t c r th before, (s₁, .exec k t c r) :: before <:+ past ∧ s₁.threads[k]? = some th ∧
    th.task.isCall = false ∧ (c.outcome id ns key).isSome ∧
    ∃ s₂ j t₂ c₂ r₂ th₂ earlier, (s₂, .exec j t₂ c₂ r₂) :: earlier <:+ before ∧
      s₂.threads[j]? = some th₂ ∧ th₂.task.isCall = true ∧ (c₂.outcome id ns key).isSome ∧
      Began earlier th.root

/-- Families at rest do not change a key, so it keeps what it had. -/
theorem content_kept {left : Option (StoredEntry ι)}
    (run : Run (system .atomicMap) (.idle w) (later ++ past) s)
    (rest : ∀ s', Run (system .atomicMap) (.idle w) past s' →
      AtRest (Cmd.Inert id ns key) R s' ∧ s'.world.ext id ns key = left)
    (belated : ∀ e ∈ later, Belated id ns key R e.1 e.2) :
    AtRest (Cmd.Inert id ns key) R s ∧ s.world.ext id ns key = left := by
  induction later generalizing s with
  | nil => exact rest s run
  | cons e later ih =>
      cases run with
      | @step _ s₂ l s before taken =>
          obtain ⟨resting, content⟩ :=
            ih before fun e member => belated e (List.mem_cons_of_mem _ member)
          refine ⟨resting.step (fun c inert => inert.2) taken, ?_⟩
          rw [step_outcome taken]
          cases taken with
          | start | turn | drop => exact content
          | @exec _ j th c' _ t' r' _ at_j next done =>
              cases acts : c'.outcome id ns key with
              | none => rw [outcome, acts]; exact content
              | some left' =>
                  obtain ⟨_, member⟩ := belated _ (List.mem_cons_self ..) j t' c' r' th rfl at_j
                    (by rw [acts]; rfl)
                  rw [(resting.harmless (.exec at_j next done) at_j member).1] at acts
                  cases acts

/-- What a step leaves under a key is what every look-up finds, while only families at
    rest would write there. -/
theorem outcome_kept {i : Nat} {t : Int} {c : Cmd ι} {r : c.Ans} {left : Option (StoredEntry ι)}
    (run : Run (system .atomicMap) (.idle w) (later ++ (s₁, .exec i t c r) :: earlier) s)
    (acts : c.outcome id ns key = some left)
    (rest : ∀ s₂, Run (system .atomicMap) (.idle w) earlier s₁ →
      Step (system .atomicMap) s₁ (.exec i t c r) s₂ → AtRest (Cmd.Inert id ns key) R s₂)
    (belated : ∀ e ∈ later, Belated id ns key R e.1 e.2) :
    s.world.ext id ns key = left ∧ ∀ s₂ j t₂ (r₂ : Except CacheError (Option (StoredEntry ι))),
      (s₂, .exec j t₂ (.extGet id ns key) r₂) ∈ later → r₂ = .ok left := by
  have after : ∀ s', Run (system .atomicMap) (.idle w) ((s₁, .exec i t c r) :: earlier) s' →
      AtRest (Cmd.Inert id ns key) R s' ∧ s'.world.ext id ns key = left := by
    intro s' run'
    cases run' with
    | step before taken =>
        refine ⟨rest s' before taken, ?_⟩
        rw [step_outcome taken, outcome, acts]
        rfl
  refine ⟨(content_kept run after belated).2, fun s₂ j t₂ r₂ member => ?_⟩
  obtain ⟨since, between, rfl⟩ := List.append_of_mem member
  have part :
      (s₂, .exec j t₂ (.extGet id ns key) r₂) :: (between ++ (s₁, .exec i t c r) :: earlier) <:+
      (since ++ (s₂, .exec j t₂ (.extGet id ns key) r₂) :: between) ++
        (s₁, .exec i t c r) :: earlier :=
    ⟨since, by simp⟩
  obtain ⟨before, _, taken⟩ := run.upTo part
  have found := (content_kept before after fun e member => belated e (by simp [member])).2
  cases taken with
  | exec _ _ done =>
      obtain ⟨_, ⟨rfl, _⟩, _⟩ := done
      rw [found]

end Stands

end Swr
