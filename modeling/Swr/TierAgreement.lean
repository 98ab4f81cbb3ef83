import Swr.Markers
import Swr.Outcomes

/-! # Agreement of the tiers

Concurrent `set` and `remove` calls on one key of a tiered store over foreign stores
with atomic calls. Every call comes to every tier, in whatever order, and each tier is
left with the call that came last there.
-/

namespace Swr

open Async

variable {ι : Type} [SerdeJson ι] {tiers : List Store} {ns key : String}

/-- The task sets or removes the key in all tiers. -/
def Task.WritesTo (tiers : List Store) (ns key : String) : Task ι → Prop
  | .storeSet store ns' key' _ => store = .tiered tiers ∧ ns' = ns ∧ key' = key
  | .storeRemove store ns' keys => store = .tiered tiers ∧ ns' = ns ∧ key ∈ keys
  | _ => False

/-- What the call leaves in a tier of the given mode, unless its entry cannot be
    converted for the tier. -/
def Task.leaves (mode : StorageMode) : Task ι → Option (Option (StoredEntry ι))
  | .storeSet _ _ _ entry =>
      match entry.convertForMode mode with
      | .ok converted => some (some converted)
      | .error _ => none
  | .storeRemove .. => some none
  | _ => none

/-! ## The outline -/

/-- The tier that a command touches. -/
def Cmd.tier : Cmd ι → Option Nat
  | .extSet id .. | .extRemove id .. => some id
  | _ => none

theorem Cmd.tier_of_outcome {c : Cmd ι} {id : Nat} {left : Option (StoredEntry ι)}
    (acts : c.outcome id ns key = some left) : c.tier = some id := by
  cases c
  case extSet | extRemove =>
    simp only [Cmd.outcome] at acts
    split at acts
    · next here => rw [Cmd.tier, here.1]
    · cases acts
  all_goals cases acts

/-- A command that leaves in its tier what the call leaves there. -/
def callOk (tiers : List Store) (ns key : String) (task : Task ι) (c : Cmd ι) : Prop :=
  c.spawned = [] ∧ ∀ id, c.tier = some id → ∃ name mode left, .ext id name mode ∈ tiers ∧
    task.leaves mode = some left ∧ c.outcome id ns key = some left

/-- The auxiliary state of a call is the call and the tiers it has been to. -/
abbrev callOutline (ι : Type) [SerdeJson ι] (tiers : List Store) (ns key : String) :
    Outline (sig ι) where
  Ghost := Task ι × List Nat
  ok g := callOk tiers ns key g.1
  may _ _ _ := True
  next g c _ := (g.1, c.tier.toList ++ g.2)

/-- Another part of the call may have been to more tiers in between. -/
def Further (g g' : Task ι × List Nat) : Prop := g'.1 = g.1 ∧ g.2 ⊆ g'.2

/-- The call has been to every tier it leaves anything in. -/
def Everywhere (tiers : List Store) (g : Task ι × List Nat) : Prop :=
  ∀ id name mode, .ext id name mode ∈ tiers → (g.1.leaves mode).isSome → id ∈ g.2

theorem Further.refl (g : Task ι × List Nat) : Further g g := ⟨rfl, List.Subset.refl _⟩

theorem Further.trans (g g' g'' : Task ι × List Nat) (first : Further g g')
    (second : Further g' g'') : Further g g'' :=
  ⟨second.1.trans first.1, fun _ member => second.2 (first.2 member)⟩

/-- One part of a call, at its own tier. -/
theorem part_follows {id : Nat} {name : String} {mode : StorageMode} {g : Task ι × List Nat}
    {c : Cmd ι} (left : Option (StoredEntry ι)) (inTiers : .ext id name mode ∈ tiers)
    (leaves : g.1.leaves mode = some left) (outcome : c.outcome id ns key = some left)
    (tier : c.tier = some id) (silent : c.spawned = []) :
    (issue c).Follows (callOutline ι tiers ns key) Further (fun g' _ => id ∈ g'.2) g := by
  rintro g' ⟨same, _⟩
  refine ⟨⟨silent, fun id' tier' => ?_⟩, fun r _ g'' more => more.2 (by simp [tier])⟩
  obtain rfl := Option.some.inj (tier.symm.trans tier')
  exact ⟨name, mode, left, inTiers, by rw [same]; exact leaves, outcome⟩

theorem of_forall₂ {α β : Type} {R : α → β → Prop} {xs : List α} {ys : List β}
    (h : List.Forall₂ R xs ys) {x : α} (member : x ∈ xs) : ∃ y, R x y := by
  induction h with
  | nil => cases member
  | cons head _ ih =>
      rcases List.mem_cons.mp member with rfl | later
      · exact ⟨_, head⟩
      · exact ih later

/-- The parts of a call, joined, go everywhere. -/
theorem parts_everywhere {g : Task ι × List Nat} {part : Store → Code ι (Except CacheError Unit)}
    (foreign : tiers.all Store.isForeign = true)
    (each : ∀ id name mode, .ext id name mode ∈ tiers →
      (part (.ext id name mode)).Follows (callOutline ι tiers ns key) Further
        (fun g _ => (g.1.leaves mode).isSome → id ∈ g.2) g) :
    (Prog.joinAll (tiers.map part)).Keeps (callOutline ι tiers ns key)
      (fun g _ => Everywhere tiers g) g := by
  let arrived (tier : Store) (g : Task ι × List Nat) (_ : Except CacheError Unit) : Prop :=
    ∀ id name mode, tier = .ext id name mode → (g.1.leaves mode).isSome → id ∈ g.2
  have guarantee : ∀ (g : Task ι × List Nat) (c : Cmd ι) (r : c.Ans), callOk tiers ns key g.1 c →
      True → Further g (g.1, c.tier.toList ++ g.2) :=
    fun _ _ _ _ _ => ⟨rfl, List.subset_append_right _ _⟩
  have joined : (Prog.joinAll (tiers.map part)).Follows (callOutline ι tiers ns key) Further
      (fun g values => List.Forall₂ (fun tier value => arrived tier g value) tiers values) g :=
    Prog.Follows.joinAll Further.refl Further.trans guarantee fun tier inTiers => by
      obtain ⟨id, name, mode, rfl⟩ :=
        Store.isForeign_iff.mp (List.all_eq_true.mp foreign tier inTiers)
      refine (each id name mode inTiers).mono fun g value holds => ?_
      intro _ _ _ same
      cases same
      exact holds
  refine (Prog.Follows.alone Further.refl joined).mono fun g values all => ?_
  intro id name mode inTiers
  obtain ⟨_, here⟩ := of_forall₂ all inTiers
  exact here id name mode rfl

theorem setTier_follows {store : Store} {entry : StoredEntry ι} {id : Nat} {name : String}
    {mode : StorageMode} (inTiers : .ext id name mode ∈ tiers) :
    (TieredStore.setTier ns key entry ((Store.ext id name mode).dyn ι)).Follows
      (callOutline ι tiers ns key) Further (fun g _ => (g.1.leaves mode).isSome → id ∈ g.2)
      (.storeSet store ns key entry, []) := by
  have dyn : (Store.ext id name mode).dyn ι = ExtStore.dyn id name mode := by simp [Store.dyn]
  rw [dyn]
  simp only [TieredStore.setTier, ExtStore.dyn]
  split
  · next e fails =>
      rintro g ⟨same, _⟩ leaves
      rw [same] at leaves
      simp [Task.leaves, fails] at leaves
  · next converted made =>
      refine (part_follows (some converted) inTiers ?_ (by simp [Cmd.outcome]) rfl rfl).mono
        fun _ _ member _ => member
      simp [Task.leaves, made]

theorem removeTier_follows {store : Store} {keys : List String} {id : Nat} {name : String}
    {mode : StorageMode} (inTiers : .ext id name mode ∈ tiers) (member : key ∈ keys) :
    (((Store.ext id name mode).dyn ι).remove ns keys).Follows (callOutline ι tiers ns key) Further
      (fun g _ => (g.1.leaves mode).isSome → id ∈ g.2) (.storeRemove store ns keys, []) := by
  have dyn : (Store.ext id name mode).dyn ι = ExtStore.dyn id name mode := by simp [Store.dyn]
  rw [dyn]
  exact (part_follows none inTiers rfl (by simp [Cmd.outcome, member]) rfl rfl).mono
    fun _ _ member _ => member

theorem callOutline_body [DecidableEq ι] (foreign : tiers.all Store.isForeign = true)
    (task : Task ι) (writes : task.WritesTo tiers ns key) :
    task.body.Keeps (callOutline ι tiers ns key) (fun g _ => Everywhere tiers g) (task, []) := by
  have dyn : (Store.tiered tiers).dyn ι = TieredStore.dyn (Store.dynList ι tiers) := by
    simp [Store.dyn]
  cases task with
  | storeSet store ns' key' entry =>
      obtain ⟨rfl, rfl, rfl⟩ := writes
      simp only [Task.body, dyn, TieredStore.dyn, TieredStore.set,
        Store.dynList_eq_map, List.map_map]
      refine Prog.Keeps.bind (Prog.Keeps.bind ((parts_everywhere foreign
        fun id name mode inTiers => setTier_follows inTiers).mono fun g _ everywhere => ?_))
      exact Prog.keeps_ret.mpr (Prog.keeps_ret.mpr everywhere)
  | storeRemove store ns' keys =>
      obtain ⟨rfl, rfl, member⟩ := writes
      simp only [Task.body, dyn, TieredStore.dyn, TieredStore.remove, Store.dynList_eq_map,
        List.map_map]
      refine Prog.Keeps.bind (Prog.Keeps.bind ((parts_everywhere foreign
        fun id name mode inTiers => removeTier_follows inTiers member).mono
          fun g _ everywhere => ?_))
      exact Prog.keeps_ret.mpr (Prog.keeps_ret.mpr everywhere)
  | get | set | remove | swr | storeGet | cacheValue | revalidate | backfill | redisDel =>
      exact writes.elim

/-! ## Runs -/

section Runs

variable [DecidableEq ι] {w : World ι} {past : History (system (ι := ι) .atomicMap)}
  {s s' : Config (system (ι := ι) .atomicMap)} {l : Label (system (ι := ι) .atomicMap)}

/-- All calls set or remove the key in the tiers. -/
def Writers (tiers : List Store) (ns key : String)
    (l : Label (system (ι := ι) .atomicMap)) : Prop :=
  ∀ task : Task ι, task ∈ l.starting → task.WritesTo tiers ns key

/-- Thread `i` was the last to touch the key in the tier. -/
def LastOn (id : Nat) (ns key : String) (i : Nat)
    (past : History (system (ι := ι) .atomicMap)) : Prop :=
  ∃ later earlier s t c r, past = later ++ (s, .exec i t c r) :: earlier ∧
    (c.outcome id ns key).isSome ∧ ∀ e ∈ later, outcome id ns key e.2 = none

theorem run_calls (foreign : tiers.all Store.isForeign = true)
    (run : Run (system .atomicMap) (.idle w) past s)
    (calls : ∀ e ∈ past, Writers tiers ns key e.2) :
    Outlined (callOutline ι tiers ns key) (·, []) (fun g _ => Everywhere tiers g) past s := by
  refine (Run.outline (O := callOutline ι tiers ns key)
    (T := fun task : Task ι => task.WritesTo tiers ns key) (fun _ _ => True)
    (callOutline_body foreign) ?_ (fun _ _ _ => True) trivial ?_ run (fun _ _ _ _ => trivial) ?_).1
  · intro g c allowed task member
    rw [show (system (ι := ι) .atomicMap).spawned c = [] from allowed.1] at member
    cases member
  · exact fun _ _ _ _ _ _ _ _ _ => ⟨fun _ _ _ _ _ _ _ => trivial, trivial⟩
  · exact fun s₀ task member => calls _ member task rfl

/-- The call that thread `i` runs and the tiers it has been to. -/
def visited (tiers : List Store) (ns key : String) (i : Nat) (task : Task ι)
    (past : History (system (ι := ι) .atomicMap)) : Task ι × List Nat :=
  ghost (callOutline ι tiers ns key) (task, []) i past

theorem visited_exec {i j : Nat} {t : Int} {c : Cmd ι} {r : c.Ans} {task : Task ι} :
    visited tiers ns key i task ((s, .exec j t c r) :: past) =
      if j = i then
        ((visited tiers ns key i task past).1,
          c.tier.toList ++ (visited tiers ns key i task past).2)
      else visited tiers ns key i task past := rfl

theorem visited_task {i : Nat} {task : Task ι} : (visited tiers ns key i task past).1 = task := by
  induction past with
  | nil => rfl
  | cons e past ih =>
      obtain ⟨s, l⟩ := e
      cases l with
      | start | turn | drop => exact ih
      | exec j t c r =>
          rw [visited_exec]
          split <;> exact ih

theorem visited_step {i id : Nat} {task : Task ι}
    (member : id ∈ (visited tiers ns key i task past).2) :
    ∃ s t c r, (s, .exec i t c r) ∈ past ∧ c.tier = some id := by
  induction past with
  | nil => cases member
  | cons e past ih =>
      have older : id ∈ (visited tiers ns key i task past).2 →
          ∃ s t c r, (s, .exec i t c r) ∈ e :: past ∧ c.tier = some id := by
        intro member
        obtain ⟨s, t, c, r, inPast, tier⟩ := ih member
        exact ⟨s, t, c, r, List.mem_cons_of_mem _ inPast, tier⟩
      obtain ⟨s, l⟩ := e
      cases l with
      | start | turn | drop => exact older member
      | exec j t c r =>
          rw [visited_exec] at member
          split at member
          · next own =>
              subst own
              rcases List.mem_append.mp member with here | before
              · exact ⟨s, t, c, r, List.mem_cons_self .., by simpa using here⟩
              · exact older before
          · exact older member

theorem exec_allowed (foreign : tiers.all Store.isForeign = true)
    (run : Run (system .atomicMap) (.idle w) past s) (calls : ∀ e ∈ past, Writers tiers ns key e.2)
    {s₁ : Config (system (ι := ι) .atomicMap)} {i : Nat} {t : Int} {c : Cmd ι} {r : c.Ans}
    (member : (s₁, .exec i t c r) ∈ past) :
    ∃ th, s.threads[i]? = some th ∧ callOk tiers ns key th.task c := by
  obtain ⟨later, earlier, rfl⟩ := List.append_of_mem member
  obtain ⟨before, s₂, taken⟩ := run.upTo (List.suffix_append _ _)
  obtain ⟨th, at_i, _, allowed⟩ := (run_calls foreign before
    fun e member => calls e (List.mem_append_right _ (List.mem_cons_of_mem _ member))).ok taken
  obtain ⟨th', at_i', same, _⟩ := run.persists member at_i
  refine ⟨th', at_i', ?_⟩
  replace allowed : callOk tiers ns key (visited tiers ns key i th.task earlier).1 c := allowed
  rw [visited_task] at allowed
  rw [same]
  exact allowed

theorem last_exists {id : Nat} {i : Nat} {s₁ : Config (system (ι := ι) .atomicMap)}
    {t : Int} {c : Cmd ι} {r : c.Ans} (member : (s₁, .exec i t c r) ∈ past)
    (acts : (c.outcome id ns key).isSome) : ∃ j, LastOn id ns key j past := by
  induction past with
  | nil => cases member
  | cons e past ih =>
      obtain ⟨s, l⟩ := e
      cases here : outcome id ns key l with
      | some left =>
          cases l with
          | start | turn | drop => cases here
          | exec j t' c' r' =>
              exact ⟨j, [], past, s, t', c', r', rfl,
                by rw [show c'.outcome id ns key = _ from here]; rfl, fun _ none => by cases none⟩
      | none =>
          rcases List.mem_cons.mp member with same | earlier
          · cases same
            rw [show c.outcome id ns key = none from here] at acts
            cases acts
          · obtain ⟨j, later, before, s', t', c', r', rfl, acts', quiet⟩ := ih earlier
            exact ⟨j, (s, l) :: later, before, s', t', c', r', rfl, acts',
              List.forall_mem_cons.mpr ⟨here, quiet⟩⟩

/-- Once all calls have returned, each tier holds what the call that was last there
    leaves there, and if any of the calls leaves something there is such a call. -/
theorem tiers_hold_last (foreign : tiers.all Store.isForeign = true)
    (modes : ∀ id name mode name' mode', .ext id name mode ∈ tiers → .ext id name' mode' ∈ tiers →
      mode = mode')
    (run : Run (system .atomicMap) (.idle w) past s) (calls : ∀ e ∈ past, Writers tiers ns key e.2)
    (returned : ∀ th ∈ s.threads, ∃ out, th.Finished out)
    (id : Nat) (name : String) (mode : StorageMode) (inTiers : .ext id name mode ∈ tiers) :
    ((∃ th ∈ s.threads, (th.task.leaves mode).isSome) → ∃ i, LastOn id ns key i past) ∧
      ∀ i th, s.threads[i]? = some th → LastOn id ns key i past →
        th.task.leaves mode = some (s.world.ext id ns key) := by
  constructor
  · rintro ⟨th, member, leaves⟩
    obtain ⟨i, at_i⟩ := List.mem_iff_getElem?.mp member
    obtain ⟨out, finished⟩ := returned th member
    have everywhere : Everywhere tiers (visited tiers ns key i th.task past) :=
      Prog.keeps_ret.mp (run_calls foreign run calls i th _ at_i finished)
    obtain ⟨s₁, t, c, r, step, tier⟩ := visited_step
      (everywhere id name mode inTiers (by rw [visited_task]; exact leaves))
    obtain ⟨_, _, _, allowed⟩ := exec_allowed foreign run calls step
    obtain ⟨_, _, left, _, _, acts⟩ := allowed id tier
    exact last_exists step (by rw [acts]; rfl)
  · rintro i th at_i ⟨later, earlier, s₁, t, c, r, rfl, acts, quiet⟩
    obtain ⟨th', at_i', _, allowed⟩ := exec_allowed foreign run calls
      (List.mem_append_right _ (List.mem_cons_self ..))
    obtain rfl := Option.some.inj (at_i.symm.trans at_i')
    obtain ⟨left, acts⟩ := Option.isSome_iff_exists.mp acts
    obtain ⟨name', mode', left', inTiers', leaves, acts'⟩ := allowed id (Cmd.tier_of_outcome acts)
    obtain rfl := Option.some.inj (acts.symm.trans acts')
    obtain rfl := modes id name mode name' mode' inTiers inTiers'
    have content := (outcome_kept (R := fun _ => False) run acts
      (fun s₂ _ _ => ⟨fun _ none => none.elim, fun _ _ _ _ none => none.elim⟩)
      fun e member => quiet_belated (quiet e member)).1
    rw [content]
    exact leaves

/-- A `set` that a `remove` overtakes in the first tier only. -/
def crossing : List (Move (system (ι := Unit) .atomicMap) (Int × ((i : Unit) → Option (Val i)))) :=
  [.start (.storeSet (.tiered twoTiers) "ns" "k" (.fromTypedWithSerializer () true 10 20)),
    .start (.storeRemove (.tiered twoTiers) "ns" ["k"]), .turn 0 true, .go 0 (reading 0),
    .turn 1 true, .go 1 (reading 1), .go 1 (reading 1), .go 0 (reading 2)]

theorem writers_of_starts {tasks : List (Task ι)}
    (starts : past.filterMap (fun e => e.2.starting) = tasks)
    (all : ∀ task ∈ tasks, task.WritesTo tiers ns key) : ∀ e ∈ past, Writers tiers ns key e.2 := by
  intro e member task starting
  refine all task ?_
  rw [← starts]
  exact List.mem_filterMap.mpr ⟨e, member, starting⟩

/-- Both calls return, and each has the last word in one of the tiers. -/
theorem crossing_run : ∃ (past : History (system .atomicMap)) (s : Config (system .atomicMap)),
    Run (system .atomicMap) (.idle (.empty : World Unit)) past s ∧
    (∀ e ∈ past, Writers twoTiers "ns" "k" e.2) ∧ (∀ th ∈ s.threads, ∃ out, th.Finished out) ∧
    (∃ a b, s.threads = [a, b] ∧
      a.task = .storeSet (.tiered twoTiers) "ns" "k" (.fromTypedWithSerializer () true 10 20) ∧
      b.task = .storeRemove (.tiered twoTiers) "ns" ["k"]) ∧
    s.world.ext 0 "ns" "k" = none ∧
    s.world.ext 1 "ns" "k" = some (.fromTypedWithSerializer () true 10 20) := by
  obtain ⟨past, s, played, starts, a, b, threads, outs, tasks, contents⟩ : ∃ past s,
      driver.play (fun _ _ => True) crossing ([], .idle .empty) = some (past, s) ∧
      past.filterMap (fun e => e.2.starting) = [.storeRemove (.tiered twoTiers) "ns" ["k"],
        .storeSet (.tiered twoTiers) "ns" "k" (.fromTypedWithSerializer () true 10 20)] ∧
      ∃ a b, s.threads = [a, b] ∧ ((∃ out, a.Finished out) ∧ ∃ out, b.Finished out) ∧
        (a.task = .storeSet (.tiered twoTiers) "ns" "k" (.fromTypedWithSerializer () true 10 20) ∧
          b.task = .storeRemove (.tiered twoTiers) "ns" ["k"]) ∧
        s.world.ext 0 "ns" "k" = none ∧
        s.world.ext 1 "ns" "k" = some (.fromTypedWithSerializer () true 10 20) :=
    ⟨_, _, rfl, rfl, _, _, rfl, ⟨⟨_, rfl⟩, ⟨_, rfl⟩⟩, ⟨rfl, rfl⟩, rfl, rfl⟩
  refine ⟨past, s, (Driver.plays played).1, writers_of_starts starts ?_, ?_, ⟨a, b, threads, tasks⟩,
    contents⟩
  · intro task member
    simp only [List.mem_cons, List.not_mem_nil, or_false] at member
    rcases member with rfl | rfl
    · exact ⟨rfl, rfl, .head _⟩
    · exact ⟨rfl, rfl, rfl⟩
  · rw [threads]
    intro th member
    simp only [List.mem_cons, List.not_mem_nil, or_false] at member
    rcases member with rfl | rfl
    · exact outs.1
    · exact outs.2

theorem tiers_hold_last_crossing : ∃ (past : History (system .atomicMap))
    (s : Config (system .atomicMap)), Run (system .atomicMap) (.idle (.empty : World Unit)) past s ∧
    ((∃ i, LastOn 0 "ns" "k" i past) ∧ ∀ (i : Nat) (th : Thread (system .atomicMap)),
      s.threads[i]? = some th → LastOn 0 "ns" "k" i past → th.task.leaves .typed = some none) ∧
    ((∃ i, LastOn 1 "ns" "k" i past) ∧ ∀ (i : Nat) (th : Thread (system .atomicMap)),
      s.threads[i]? = some th → LastOn 1 "ns" "k" i past →
      th.task.leaves .typed = some (some (.fromTypedWithSerializer () true 10 20))) := by
  obtain ⟨past, s, run, calls, returned, ⟨a, b, threads, setting, removing⟩, first, second⟩ :=
    crossing_run
  have modes : ∀ id name mode name' mode', Store.ext id name mode ∈ twoTiers →
      .ext id name' mode' ∈ twoTiers → mode = mode' := by
    intro id name mode name' mode' member member'
    simp only [twoTiers, List.mem_cons, Store.ext.injEq, List.not_mem_nil,
      or_false] at member member'
    rcases member with ⟨_, _, rfl⟩ | ⟨_, _, rfl⟩ <;> rcases member' with ⟨_, _, rfl⟩ |
      ⟨_, _, rfl⟩ <;> rfl
  have leaves : ∃ th ∈ s.threads, (th.task.leaves .typed).isSome :=
    ⟨b, by simp [threads], by rw [removing]; rfl⟩
  have onFirst := tiers_hold_last rfl modes run calls returned 0 "first" .typed (.head _)
  have onSecond :=
    tiers_hold_last rfl modes run calls returned 1 "second" .typed (.tail _ (.head _))
  rw [first] at onFirst
  rw [second] at onSecond
  exact ⟨past, s, run, ⟨onFirst.1 leaves, onFirst.2⟩, ⟨onSecond.1 leaves, onSecond.2⟩⟩

/-- No single call accounts for both tiers. -/
theorem crossed_tiers : ¬ ∀ (past : History (system .atomicMap)) (s : Config (system .atomicMap)),
    Run (system .atomicMap) (.idle (.empty : World Unit)) past s →
    (∀ e ∈ past, Writers twoTiers "ns" "k" e.2) → (∀ th ∈ s.threads, ∃ out, th.Finished out) →
    ∃ th ∈ s.threads, ∀ id name mode, .ext id name mode ∈ twoTiers →
      th.task.leaves mode = some (s.world.ext id "ns" "k") := by
  intro agree
  obtain ⟨past, s, run, calls, returned, ⟨a, b, threads, setting, removing⟩, first, second⟩ :=
    crossing_run
  obtain ⟨th, member, holds⟩ := agree past s run calls returned
  have onFirst := holds 0 "first" .typed (.head _)
  have onSecond := holds 1 "second" .typed (.tail _ (.head _))
  rw [first] at onFirst
  rw [second] at onSecond
  rw [onFirst] at onSecond
  cases onSecond

end Runs

end Swr
