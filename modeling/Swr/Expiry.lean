import Swr.Markers

/-! # Expiry in the in-memory stores

`HashMapStore` without `evict_on_set` and `MokaStore` without eviction of its own. A
`get` that found an expired entry deletes by key, in a later step than the one it
looked the entry up in, so it may meet an entry that was put there in between.
-/

namespace Swr

open Async

variable {ι : Type} [SerdeJson ι] {map : MapId} {key : String}

/-- The store keeps its entries in a map and evicts none. -/
def Store.inMemory : Store → Bool
  | .hashMap _ none | .moka _ => true
  | _ => false

/-- The task is a call on such a store. -/
def Task.inMemory : Task ι → Bool
  | .storeGet store .. | .storeSet store .. | .storeRemove store .. => store.inMemory
  | _ => false

/-! ## What a step does to a key -/

/-- What the command leaves under the key of the map, if it touches it. -/
def Cmd.mapOutcome (map : MapId) (key : String) : Cmd ι → Option (Option (StoredEntry ι))
  | .mapInsert map' key' entry => if map' = map ∧ key' = key then some (some entry) else none
  | .mapExpire map' key' => if map' = map ∧ key' = key then some none else none
  | .mapRemove map' keys => if map' = map ∧ key ∈ keys then some none else none
  | _ => none

/-- The commands of calls on in-memory stores. -/
def Cmd.OfMaps : Cmd ι → Prop
  | .now | .mapRead .. | .mapGet .. | .mapInsert .. | .mapExpire .. | .mapRemove .. => True
  | _ => False

theorem exec_mapOutcome {X : ExtSemantics ι} {i : Nat} {t : Int} {w w' : World ι} {c : Cmd ι}
    {r : c.Ans} (ofMaps : c.OfMaps) (done : exec X i t w c r w') :
    (w'.maps map).lookup key = (c.mapOutcome map key).getD ((w.maps map).lookup key) := by
  cases c
  case mapInsert map' key' entry =>
    obtain rfl := done
    rw [World.setMap_maps]
    by_cases here : map = map'
    · subst here
      by_cases same : key' = key
      · subst same; simp [Cmd.mapOutcome]
      · simp [Cmd.mapOutcome, same, AList.lookup_insert_ne (Ne.symm same)]
    · simp [Cmd.mapOutcome, here, Ne.symm here]
  case mapExpire map' key' =>
    obtain rfl := done
    rw [World.setMap_maps]
    by_cases here : map = map'
    · subst here
      by_cases same : key' = key
      · subst same; simp [Cmd.mapOutcome]
      · simp [Cmd.mapOutcome, same, AList.lookup_erase_ne (Ne.symm same)]
    · simp [Cmd.mapOutcome, here, Ne.symm here]
  case mapRemove map' keys =>
    obtain rfl := done
    rw [World.setMap_maps]
    by_cases here : map = map'
    · subst here
      by_cases member : key ∈ keys <;> simp [Cmd.mapOutcome, HashMap.lookup_eraseAll, member]
    · simp [Cmd.mapOutcome, here, Ne.symm here]
  case now | mapRead | mapGet =>
    obtain ⟨_, rfl⟩ := done
    rfl
  all_goals exact ofMaps.elim

/-! ## The outline -/

/-- What a call last saw under the key and when it last read the clock. -/
structure Sight (ι : Type) [SerdeJson ι] where
  found : Option (StoredEntry ι)
  clock : Option Int

/-- Before a call has looked anywhere. -/
def Sight.blank : Sight ι := ⟨none, none⟩

/-- The last entry seen had expired by the last clock reading. -/
def Sight.Expired (sight : Sight ι) : Prop :=
  ∃ entry now, sight.found = some entry ∧ sight.clock = some now ∧ entry.staleUntil ≤ now

/-- A call deletes a key on sight of an expired entry only. -/
def sightOk (map : MapId) (key : String) (sight : Sight ι) (c : Cmd ι) : Prop :=
  c.OfMaps ∧ (c = .mapExpire map key → sight.Expired)

/-- The command looks the key up in the map. -/
def Cmd.looksUp (map : MapId) (key : String) : Cmd ι → Bool
  | .mapRead map' key' | .mapGet map' key' => map' = map ∧ key' = key
  | _ => false

def sightNext (map : MapId) (key : String) (sight : Sight ι) : (c : Cmd ι) → c.Ans → Sight ι
  | .mapRead map' key', r => ⟨if map' = map ∧ key' = key then r.1 else sight.found, some r.2⟩
  | .mapGet map' key', r => ⟨if map' = map ∧ key' = key then r else sight.found, sight.clock⟩
  | .now, r => ⟨sight.found, some r⟩
  | _, _ => sight

abbrev sightOutline (ι : Type) [SerdeJson ι] (map : MapId) (key : String) : Outline (sig ι) where
  Ghost := Sight ι
  ok := sightOk map key
  may _ _ _ := True
  next := sightNext map key

theorem sightOk_other {sight : Sight ι} {c : Cmd ι} (ofMaps : c.OfMaps)
    (other : ∀ map' key', c ≠ .mapExpire map' key') : sightOk map key sight c :=
  ⟨ofMaps, fun here => absurd here (other map key)⟩

theorem sightNext_found {sight : Sight ι} {c : Cmd ι} {r : c.Ans}
    (blind : c.looksUp map key = false) : (sightNext map key sight c r).found = sight.found := by
  cases c
  case mapRead map' key' | mapGet map' key' =>
    have other : ¬ (map' = map ∧ key' = key) := by simpa [Cmd.looksUp] using blind
    simp only [sightNext, if_neg other]
  all_goals rfl

theorem exec_found {X : ExtSemantics ι} {i : Nat} {t : Int} {w w' : World ι} {sight : Sight ι}
    {c : Cmd ι} {r : c.Ans} (looks : c.looksUp map key = true) (done : exec X i t w c r w') :
    (sightNext map key sight c r).found = (w.maps map).lookup key := by
  cases c
  case mapRead map' key' =>
    obtain ⟨rfl, rfl⟩ : map' = map ∧ key' = key := by simpa [Cmd.looksUp] using looks
    obtain ⟨rfl, _⟩ := done
    simp [sightNext]
  case mapGet map' key' =>
    obtain ⟨rfl, rfl⟩ : map' = map ∧ key' = key := by simpa [Cmd.looksUp] using looks
    obtain ⟨rfl, _⟩ := done
    simp [sightNext]
  all_goals cases looks

theorem exec_clock {X : ExtSemantics ι} {i : Nat} {t now : Int} {w w' : World ι}
    {sight : Sight ι} {c : Cmd ι} {r : c.Ans} (done : exec X i t w c r w')
    (clock : (sightNext map key sight c r).clock = some now) :
    now = t ∨ sight.clock = some now := by
  cases c
  case now | mapRead =>
    obtain ⟨rfl, _⟩ := done
    exact .inl (Option.some.inj clock).symm
  all_goals exact .inr clock

/-- The commands of `set` and `remove`. -/
def Cmd.OfUpdate : Cmd ι → Prop
  | .mapInsert .. | .mapRemove .. => True
  | _ => False

theorem Cmd.expire_of_outcome {c : Cmd ι} {left : Option (StoredEntry ι)}
    (acts : c.mapOutcome map key = some left) (other : ¬ c.OfUpdate) : c = .mapExpire map key := by
  cases c
  case mapInsert | mapRemove => exact absurd trivial other
  case mapExpire map' key' =>
    simp only [Cmd.mapOutcome] at acts
    split at acts
    · next here => rw [here.1, here.2]
    · cases acts
  all_goals cases acts

theorem sight_ofUpdate {sight : Sight ι} (c : Cmd ι) (updates : c.OfUpdate) :
    (sightOutline ι map key).ok sight c ∧ ∀ r, (sightOutline ι map key).next sight c r = sight := by
  cases c
  case mapInsert | mapRemove => exact ⟨sightOk_other trivial (by simp), fun _ => rfl⟩
  all_goals exact updates.elim

theorem sightOk_expire {sight : Sight ι} {map' : MapId} {key' : String} {entry : StoredEntry ι}
    {now : Int} (clock : sight.clock = some now) (expired : entry.staleUntil ≤ now)
    (found : map' = map ∧ key' = key → sight.found = some entry) :
    sightOk map key sight (.mapExpire map' key') := by
  refine ⟨trivial, fun here => ?_⟩
  cases here
  exact ⟨entry, now, found ⟨rfl, rfl⟩, clock, expired⟩

theorem HashMapStore.get_sight (id : Nat) (ns key' : String) (sight : Sight ι) :
    (get id ns key' : Code ι _).Keeps (sightOutline ι map key)
    ((sightOutline ι map key).any _) sight := by
  simp only [get, Ask.mapRead_bind, Prog.keeps_op]
  refine ⟨sightOk_other trivial (by simp), fun answer _ => ?_⟩
  obtain ⟨found, now⟩ := answer
  cases found with
  | none => exact Prog.keeps_ret.mpr trivial
  | some stored =>
      dsimp only
      split
      · next expired =>
          simp only [Ask.mapExpire_bind, Prog.keeps_op]
          refine ⟨sightOk_expire rfl (StoredEntry.isExpired_iff.mp expired) fun here => ?_,
            fun _ _ => Prog.keeps_ret.mpr trivial⟩
          exact if_pos here
      · exact Prog.keeps_ret.mpr trivial

theorem MokaStore.get_sight (id : Nat) (ns key' : String) (sight : Sight ι) :
    (get id ns key' : Code ι _).Keeps (sightOutline ι map key)
    ((sightOutline ι map key).any _) sight := by
  simp only [get, Ask.mapGet_bind, Prog.keeps_op]
  refine ⟨sightOk_other trivial (by simp), fun found _ => ?_⟩
  cases found with
  | none => exact Prog.keeps_ret.mpr trivial
  | some stored =>
      simp only [Ask.now_bind, Prog.keeps_op]
      refine ⟨sightOk_other trivial (by simp), fun now _ => ?_⟩
      split
      · next expired =>
          simp only [Ask.mapExpire_bind, Prog.keeps_op]
          refine ⟨sightOk_expire rfl (StoredEntry.isExpired_iff.mp expired) fun here => ?_,
            fun _ _ => Prog.keeps_ret.mpr trivial⟩
          exact if_pos here
      · exact Prog.keeps_ret.mpr trivial

theorem sightOutline_body [DecidableEq ι] (task : Task ι) (inMemory : task.inMemory = true) :
    task.body.Keeps (sightOutline ι map key) ((sightOutline ι map key).any _) .blank := by
  cases task with
  | storeGet store ns key' =>
      have looks : ((store.dyn ι).get ns key').Keeps (sightOutline ι map key)
          ((sightOutline ι map key).any _) Sight.blank := by
        cases store with
        | hashMap id evictOnSet => exact HashMapStore.get_sight id ns key' _
        | moka id => exact MokaStore.get_sight id ns key' _
        | redis | tiered | metrics | ext => cases inMemory
      exact Prog.Keeps.bind (looks.mono fun _ _ _ => Prog.keeps_ret.mpr trivial)
  | storeSet store ns key' entry =>
      have updates : ((store.dyn ι).set ns key' entry).Only Cmd.OfUpdate := by
        cases store with
        | hashMap id evictOnSet =>
            cases evictOnSet with
            | none => exact HashMapStore.set_only trivial fun _ configured => by cases configured
            | some => cases inMemory
        | moka id => exact MokaStore.set_only trivial
        | redis | tiered | metrics | ext => cases inMemory
      exact Prog.Keeps.bind (updates.keeps sight_ofUpdate fun _ => Prog.keeps_ret.mpr trivial)
  | storeRemove store ns keys =>
      have updates : ((store.dyn ι).remove ns keys).Only Cmd.OfUpdate := by
        cases store with
        | hashMap id evictOnSet => exact HashMapStore.remove_only trivial
        | moka id => exact MokaStore.remove_only fun _ _ => trivial
        | redis | tiered | metrics | ext => cases inMemory
      exact Prog.Keeps.bind (updates.keeps sight_ofUpdate fun _ => Prog.keeps_ret.mpr trivial)
  | get | set | remove | swr | cacheValue | revalidate | backfill | redisDel => cases inMemory

/-! ## Runs -/

section Runs

variable [DecidableEq ι] {X : ExtSemantics ι} {w : World ι} {past : History (system X)}
  {s s' : Config (system X)} {l : Label (system X)}

/-- All calls are on in-memory stores. -/
def InMemory (l : Label (system X)) : Prop :=
  ∀ task : Task ι, task ∈ l.starting → task.inMemory = true

instance (l : Label (system X)) : Decidable (InMemory l) :=
  inferInstanceAs (Decidable (∀ _ ∈ _, _))

/-- What the step leaves under the key of the map, if it touches it. -/
def mapOutcome (map : MapId) (key : String) : Label (system X) → Option (Option (StoredEntry ι))
  | .exec _ _ c _ => c.mapOutcome map key
  | .start _ | .turn .. | .drop _ => none

theorem step_mapOutcome (taken : Step (system X) s l s')
    (ofMaps : ∀ i t c r, l = .exec i t c r → c.OfMaps) :
    (s'.world.maps map).lookup key = (mapOutcome map key l).getD
    ((s.world.maps map).lookup key) := by
  cases taken with
  | start | turn | drop => rfl
  | exec _ _ done => exact exec_mapOutcome (ofMaps _ _ _ _ rfl) done

/-- A `set` or `remove` of the key takes effect. -/
def Replaces (map : MapId) (key : String) (l : Label (system X)) : Prop :=
  ∃ i t c r, l = .exec i t c r ∧ c.OfUpdate ∧ (c.mapOutcome map key).isSome

/-- The entry was put under the key and, while it was live, no other `set` and no
    `remove` of the key took effect. -/
def LivePut (map : MapId) (key : String) (entry : StoredEntry ι)
    (past : History (system X)) : Prop :=
  ∃ later s i t r earlier, past = later ++ (s, .exec i t (.mapInsert map key entry) r) :: earlier ∧
    ∀ e ∈ later, ¬ Replaces map key e.2 ∧ ∀ t ∈ e.2.time, t < entry.staleUntil

/-- What a `set` has put under the key since thread `i` looked there, if nothing has
    changed it again. -/
def setSince (map : MapId) (key : String) (i : Nat) : History (system X) → Option (StoredEntry ι)
  | [] => none
  | (_, .exec j _ c _) :: past =>
      match c.mapOutcome map key with
      | some left => left
      | none => if j = i ∧ c.looksUp map key then none else setSince map key i past
  | (_, .start _) :: past | (_, .turn _ _) :: past | (_, .drop _) :: past => setSince map key i past

/-- The thread and the time of a deletion that follows up on an expired entry. -/
def expires (map : MapId) (key : String) : Label (system X) → Option (Nat × Int)
  | .exec i t (.mapExpire map' key') _ => if map' = map ∧ key' = key then some (i, t) else none
  | _ => none

/-- If the step is the deletion of an expired entry, no `set` has put a live one under
    the key since the thread looked there. -/
def Unraced (map : MapId) (key : String) (past : History (system X))
    (l : Label (system X)) : Prop :=
  ∀ deletion ∈ expires map key l, ∀ entry ∈ setSince map key deletion.1 past,
    entry.staleUntil ≤ deletion.2

instance (past : History (system X)) (l : Label (system X)) : Decidable (Unraced map key past l) :=
  inferInstanceAs (Decidable (∀ _ ∈ _, _))

theorem expires_iff {i : Nat} {t : Int} :
    expires map key l = some (i, t) ↔ l = .exec i t (.mapExpire map key) () := by
  constructor
  · intro deletes
    cases l with
    | start | turn | drop => cases deletes
    | exec j t' c r =>
        cases c
        case mapExpire map' key' =>
          simp only [expires] at deletes
          split at deletes
          · next here =>
              obtain ⟨rfl, rfl⟩ := here
              cases deletes
              rfl
          · cases deletes
        all_goals cases deletes
  · rintro rfl
    simp [expires]

theorem kept_of_quiet (quiet : mapOutcome map key l = none) : ¬ Replaces map key l := by
  rintro ⟨i, t, c, r, rfl, _, acts⟩
  rw [show c.mapOutcome map key = none from quiet] at acts
  cases acts

theorem kept_of_expires {deletion : Nat × Int} (deletes : expires map key l = some deletion) :
    ¬ Replaces map key l := by
  rintro ⟨i, t, c, r, rfl, updates, _⟩
  cases expires_iff.mp deletes
  exact updates

/-- What thread `i` has seen under the key. -/
def sightAt (map : MapId) (key : String) (i : Nat) (past : History (system X)) : Sight ι :=
  ghost (sightOutline ι map key) Sight.blank i past

theorem sightAt_exec {i j : Nat} {t : Int} {c : Cmd ι} {r : c.Ans} :
    sightAt map key i ((s, .exec j t c r) :: past) =
      if j = i then sightNext map key (sightAt map key i past) c r else sightAt map key i past :=
      rfl

/-- What the threads have seen and what is in the map. -/
structure Seen (map : MapId) (key : String) (past : History (system X)) (s : Config (system X)) :
    Prop where
  put : ∀ i entry, setSince map key i past = some entry →
    (s.world.maps map).lookup key = some entry
  stored : ∀ i entry, (s.world.maps map).lookup key = some entry →
    setSince map key i past = some entry ∨ (sightAt map key i past).found = some entry
  clock : ∀ i now, (sightAt map key i past).clock = some now → ∃ e ∈ past, now ∈ e.2.time

theorem Seen.step (seen : Seen map key past s) (taken : Step (system X) s l s')
    (ofMaps : ∀ i t c r, l = .exec i t c r → c.OfMaps) : Seen map key ((s, l) :: past) s' := by
  cases taken with
  | start | turn | drop =>
      refine ⟨seen.put, seen.stored, fun i now clock => ?_⟩
      obtain ⟨e, member, time⟩ := seen.clock i now clock
      exact ⟨e, List.mem_cons_of_mem _ member, time⟩
  | @exec _ j th c rest t r w' at_j next done =>
      have content : (w'.maps map).lookup key = _ := exec_mapOutcome (ofMaps j t c r rfl) done
      refine ⟨fun i entry => ?_, fun i entry => ?_, fun i now clock => ?_⟩
      · rw [content, setSince]
        cases c.mapOutcome map key with
        | some left => exact id
        | none =>
            dsimp only
            split
            · exact nofun
            · exact seen.put i entry
      · rw [content, setSince, sightAt_exec]
        cases c.mapOutcome map key with
        | some left => exact .inl
        | none =>
            intro stored
            dsimp only
            split
            · next looked =>
                rw [if_pos looked.1, exec_found looked.2 done]
                exact .inr stored
            · next blind =>
                refine (seen.stored i entry stored).imp_right fun found => ?_
                split
                · next own =>
                    rw [sightNext_found (by simpa [own] using blind)]
                    exact found
                · exact found
      · have earlier : (sightAt map key i past).clock = some now →
            ∃ e ∈ (s, Label.exec j t c r) :: past, now ∈ e.2.time := by
          intro clock
          obtain ⟨e, member, time⟩ := seen.clock i now clock
          exact ⟨e, List.mem_cons_of_mem _ member, time⟩
        rw [sightAt_exec] at clock
        split at clock
        · rcases exec_clock done clock with rfl | before
          · exact ⟨_, List.mem_cons_self .., rfl⟩
          · exact earlier before
        · exact earlier clock

theorem seen_idle (empty : (w.maps map).lookup key = none) :
    Seen map key [] (.idle w : Config (system X)) where
  put _ _ none := by cases none
  stored _ entry stored := by
    rw [show (Config.idle w : Config (system X)).world = w from rfl, empty] at stored
    cases stored
  clock _ _ none := by cases none

theorem run_seen (empty : (w.maps map).lookup key = none) (run : Run (system X) (.idle w) past s)
    (calls : ∀ e ∈ past, InMemory e.2) :
    Outlined (sightOutline ι map key) (fun _ =>
      Sight.blank) ((sightOutline ι map key).any _) past s ∧ Seen map key past s := by
  refine Run.outline (O := sightOutline ι map key) (T := fun task : Task ι => task.inMemory = true)
    (Seen map key) (fun task inMemory => sightOutline_body task inMemory) ?_ (fun _ _ _ => True)
    (seen_idle empty) ?_ run (fun _ _ _ _ => trivial)
    (fun s₀ task member => calls _ member task rfl)
  · intro g c allowed task member
    obtain rfl := Cmd.mem_spawned.mp member
    exact allowed.1.elim
  · intro past s l s' before outlined seen _ taken
    refine ⟨fun _ _ _ _ _ _ _ => trivial, seen.step taken ?_⟩
    rintro i t c r rfl
    obtain ⟨_, _, _, allowed⟩ := outlined.ok taken
    exact allowed.1

theorem run_ofMaps (empty : (w.maps map).lookup key = none) (run : Run (system X) (.idle w) past s)
    (calls : ∀ e ∈ past, InMemory e.2) (taken : Step (system X) s l s') :
    ∀ i t c r, l = .exec i t c r → c.OfMaps := by
  rintro i t c r rfl
  obtain ⟨_, _, _, allowed⟩ := (run_seen empty run calls).1.ok taken
  exact allowed.1

/-- A deletion that no `set` has raced finds the key absent or its entry expired. -/
theorem unraced_dead (empty : (w.maps map).lookup key = none)
    (run : Run (system X) (.idle w) past s) (calls : ∀ e ∈ past, InMemory e.2) {i : Nat} {t : Int}
    {r : (Cmd.mapExpire (ι := ι) map key).Ans}
    (taken : Step (system X) s (.exec i t (.mapExpire map key) r) s')
    (clocked : Clocked ((s, .exec i t (.mapExpire map key) r) :: past))
    (unraced : Unraced map key past (.exec i t (.mapExpire map key) r)) {entry : StoredEntry ι}
    (stored : (s.world.maps map).lookup key = some entry) : entry.staleUntil ≤ t := by
  obtain ⟨outlined, seen⟩ := run_seen empty run calls
  rcases seen.stored i entry stored with put | found
  · exact unraced (i, t) (expires_iff.mpr rfl) entry put
  · obtain ⟨_, _, _, allowed⟩ := outlined.ok taken
    replace allowed : sightOk map key (sightAt map key i past) (.mapExpire map key) := allowed
    obtain ⟨entry', now, found', clock, expired⟩ := allowed.2 rfl
    obtain rfl := Option.some.inj (found.symm.trans found')
    obtain ⟨e, member, time⟩ := seen.clock i now clock
    have later : now ≤ t := (List.pairwise_cons.mp clocked).1 e member t rfl now time
    omega

/-- A `set` that is still to be seen in the map was a step, and nothing touched the key
    after it. -/
theorem setSince_put {i : Nat} {entry : StoredEntry ι}
    (put : setSince map key i past = some entry) : ∃ later s j t r earlier, past = later ++
    (s, .exec j t (.mapInsert map key entry) r) :: earlier ∧
      ∀ e ∈ later, mapOutcome map key e.2 = none := by
  induction past with
  | nil => cases put
  | cons e past ih =>
      obtain ⟨s, l⟩ := e
      have onward (quiet : mapOutcome map key l = none)
          (put : setSince map key i past = some entry) : ∃ later s' j t r earlier,
            (s, l) :: past = later ++ (s', .exec j t (.mapInsert map key entry) r) :: earlier ∧
            ∀ e ∈ later, mapOutcome map key e.2 = none := by
        obtain ⟨later, s', j, t, r, earlier, rfl, none⟩ := ih put
        exact ⟨(s, l) :: later, s', j, t, r, earlier, rfl, List.forall_mem_cons.mpr ⟨quiet, none⟩⟩
      cases l with
      | start | turn | drop => exact onward rfl put
      | exec j t c r =>
          rw [setSince] at put
          cases acts : c.mapOutcome map key with
          | none =>
              rw [acts] at put
              dsimp only at put
              split at put
              · cases put
              · exact onward acts put
          | some left =>
              rw [acts] at put
              obtain rfl : left = some entry := put
              cases c
              case mapInsert map' key' entry' =>
                simp only [Cmd.mapOutcome] at acts
                split at acts
                · next here =>
                    obtain ⟨rfl, rfl⟩ := here
                    obtain rfl := Option.some.inj (Option.some.inj acts)
                    exact ⟨[], s, j, t, r, past, rfl, fun _ none => by cases none⟩
                · cases acts
              case mapExpire | mapRemove =>
                simp only [Cmd.mapOutcome] at acts
                split at acts <;> cases acts
              all_goals cases acts

/-- A live entry stays while deletions meet no live entry. -/
theorem put_stays {later earlier : History (system X)} {s₁ : Config (system X)} {i : Nat} {t : Int}
    {entry : StoredEntry ι} {r : (Cmd.mapInsert map key entry).Ans}
    (empty : (w.maps map).lookup key = none)
    (run : Run (system X) (.idle w)
      (later ++ (s₁, .exec i t (.mapInsert map key entry) r) :: earlier) s)
    (calls : ∀ e ∈ later ++ (s₁, .exec i t (.mapInsert map key entry) r) :: earlier, InMemory e.2)
    (clocked : Clocked (later ++ (s₁, .exec i t (.mapInsert map key entry) r) :: earlier))
    (unraced : ∀ s₂ l part, (s₂, l) :: part <:+
      later ++ (s₁, .exec i t (.mapInsert map key entry) r) :: earlier → Unraced map key part l)
    (live : ∀ e ∈ later, ¬ Replaces map key e.2 ∧ ∀ t ∈ e.2.time, t < entry.staleUntil) :
    (s.world.maps map).lookup key = some entry := by
  induction later generalizing s with
  | nil =>
      cases run with
      | step before taken =>
          rw [step_mapOutcome taken (by rintro i t c r same; cases same; trivial)]
          simp [mapOutcome, Cmd.mapOutcome]
  | cons e later ih =>
      cases run with
      | @step _ s₂ l s before taken =>
          obtain ⟨kept, live⟩ := List.forall_mem_cons.mp live
          have within := fun e member => calls e (List.mem_cons_of_mem _ member)
          have stored := ih before within (List.pairwise_cons.mp clocked).2
            (fun s₃ l' part suffix => unraced s₃ l' part (suffix.trans (List.suffix_cons _ _))) live
          have ofMaps := run_ofMaps empty before within taken
          rw [step_mapOutcome taken ofMaps]
          cases acts : mapOutcome map key l with
          | none => exact stored
          | some left =>
              cases l with
              | start | turn | drop => cases acts
              | exec j t' c r' =>
                  obtain rfl := Cmd.expire_of_outcome acts fun updates =>
                    kept.1 ⟨j, t', c, r', rfl, updates,
                      by rw [show c.mapOutcome map key = _ from acts]; rfl⟩
                  have dead := unraced_dead empty before within taken clocked
                    (unraced _ _ _ (List.suffix_refl _)) stored
                  have early := kept.2 t' rfl
                  omega

/-- A live entry stays until it is replaced or removed, in exactly the runs in which no
    `get` deletes a live entry that was put after its look. A Moka cache is taken to evict
    nothing by itself. -/
theorem put_stays_iff (empty : (w.maps map).lookup key = none)
    (run : Run (system X) (.idle w) past s) (calls : ∀ e ∈ past, InMemory e.2)
    (clocked : Clocked past) :
    (∀ part s' entry, VisitsAt past s part s' → LivePut map key entry part →
      (s'.world.maps map).lookup key = some entry) ↔
    ∀ s₁ l earlier, (s₁, l) :: earlier <:+ past → Unraced map key earlier l := by
  constructor
  · rintro stays s₁ l earlier step ⟨i, t⟩ deletes entry put
    by_contra live
    obtain rfl := expires_iff.mp deletes
    obtain ⟨before, _⟩ := run.upTo step
    obtain ⟨s₂, taken, visited⟩ := run.next step
    obtain ⟨later, s₃, j, t₃, r₃, first, rfl, quiet⟩ := setSince_put put
    have since := List.pairwise_cons.mp (clocked.sublist step.sublist)
    have stored := stays _ s₂ entry visited ⟨(s₁, .exec i t (.mapExpire map key) ()) :: later, s₃,
      j, t₃, r₃, first, rfl, List.forall_mem_cons.mpr ⟨⟨?_, ?_⟩, fun e member =>
        ⟨?_, fun t' time => ?_⟩⟩⟩
    · rw [step_mapOutcome taken (by rintro i t c r same; cases same; trivial)] at stored
      simp [mapOutcome, Cmd.mapOutcome] at stored
    · exact kept_of_expires deletes
    · intro t' time
      obtain rfl := Option.some.inj time
      omega
    · exact kept_of_quiet (quiet e member)
    · have := since.1 e (List.mem_append_left _ member) t rfl t' time
      omega
  · rintro unraced part s' entry visited ⟨later, s₁, i, t, r, earlier, rfl, live⟩
    obtain ⟨before, within⟩ := run.visitsAt visited
    exact put_stays empty before (fun e member => calls e (within.subset member))
      (clocked.sublist within.sublist)
        (fun _ _ _ suffix => unraced _ _ _ (suffix.trans within)) live

/-- An entry that has expired, found by a `get`, and one that is put after it. -/
def expiredThenLive
    (between : List (Move (system (ι := Unit) .atomicMap) (Int × ((i : Unit) → Option (Val i))))) :
    List (Move (system (ι := Unit) .atomicMap) (Int × ((i : Unit) → Option (Val i)))) :=
  [.start (.storeSet (.hashMap 0 none) "ns" "k" (.fromTypedWithSerializer () true 10 20)),
    .start (.storeGet (.hashMap 0 none) "ns" "k"),
    .start (.storeSet (.hashMap 0 none) "ns" "k" (.fromTypedWithSerializer () false 50 60)),
    .go 0 (reading 0), .go 1 (reading 30)] ++ between

/-- The `get` deletes the expired entry, and then a live one is put. -/
theorem put_stays_iff_again :
    ∃ (past : History (system .atomicMap)) (s : Config (system .atomicMap)),
    Run (system .atomicMap) (.idle (.empty : World Unit)) past s ∧
    (∃ e ∈ past, (expires (.hashMap 0) "ns:k" e.2).isSome) ∧
    LivePut (.hashMap 0) "ns:k" (.fromTypedWithSerializer () false 50 60) past ∧
    ∀ part s' entry, VisitsAt past s part s' → LivePut (.hashMap 0) "ns:k" entry part →
      (s'.world.maps (.hashMap 0)).lookup "ns:k" = some entry := by
  obtain ⟨past, s, played, clocked, unraced, deletes, e₁, e₂, s₁, t, r, earlier, put, live⟩ :
    ∃ past s,
      driver.play (fun _ l => InMemory l) (expiredThenLive [.go 1 (reading 31), .go 2 (reading 40),
        .start (.storeGet (.hashMap 0 none) "ns" "k"), .go 3 (reading 50)])
        ([], .idle (.empty : World Unit)) = some (past, s) ∧
      Clocked past ∧ Throughout (fun earlier _ => Unraced (.hashMap 0) "ns:k" earlier) past ∧
      (∃ e ∈ past, (expires (.hashMap 0) "ns:k" e.2).isSome) ∧
      ∃ e₁ e₂ s₁ t r earlier,
        past = [e₁, e₂] ++ (s₁, .exec 2 t (.mapInsert (.hashMap 0) "ns:k"
          (.fromTypedWithSerializer () false 50 60)) r) :: earlier ∧
        ∀ e ∈ [e₁, e₂], mapOutcome (.hashMap 0) "ns:k" e.2 = none ∧ ∀ t ∈ e.2.time, t < 60 :=
    ⟨_, _, rfl, by decide, by decide, ⟨_, .tail _ (.tail _ (.tail _ (.head _))), rfl⟩,
      _, _, _, _, _, _, rfl,
      List.forall_mem_cons.mpr ⟨⟨rfl, by decide⟩, List.forall_mem_singleton.mpr ⟨rfl, by decide⟩⟩⟩
  obtain ⟨run, calls⟩ := Driver.plays played
  refine ⟨past, s, run, deletes, ?_,
    (put_stays_iff rfl run calls clocked).mpr (throughout_iff.mp unraced)⟩
  exact ⟨_, s₁, 2, t, r, earlier, put, fun e member =>
    ⟨kept_of_quiet (live e member).1, (live e member).2⟩⟩

/-- A `get` deletes a live entry that was put after it had looked. -/
theorem raced_deletion : ¬ ∀ (past : History (system .atomicMap)) (s : Config (system .atomicMap))
    (entry : StoredEntry Unit), Run (system .atomicMap) (.idle (.empty : World Unit)) past s →
    (∀ e ∈ past, InMemory e.2) → Clocked past → LivePut (.hashMap 0) "ns:k" entry past →
    (s.world.maps (.hashMap 0)).lookup "ns:k" = some entry := by
  intro stays
  obtain ⟨past, s, played, clocked, e₁, s₁, t, r, earlier, put, deletes, early, lost⟩ : ∃ past s,
      driver.play (fun _ l => InMemory l) (expiredThenLive [.go 2 (reading 40), .go 1 (reading 41)])
        ([], .idle (.empty : World Unit)) = some (past, s) ∧
      Clocked past ∧ ∃ e₁ s₁ t r earlier,
        past = [e₁] ++ (s₁, .exec 2 t (.mapInsert (.hashMap 0) "ns:k"
          (.fromTypedWithSerializer () false 50 60)) r) :: earlier ∧
        expires (.hashMap 0) "ns:k" e₁.2 = some (1, 41) ∧ (∀ t ∈ e₁.2.time, t < 60) ∧
        (s.world.maps (.hashMap 0)).lookup "ns:k" = none :=
    ⟨_, _, rfl, by decide, _, _, _, _, _, rfl, rfl, by decide, rfl⟩
  obtain ⟨run, calls⟩ := Driver.plays played
  have live : LivePut (.hashMap 0) "ns:k" (.fromTypedWithSerializer () false 50 60) past :=
    ⟨_, s₁, 2, t, r, earlier, put, List.forall_mem_singleton.mpr ⟨kept_of_expires deletes, early⟩⟩
  rw [stays past s _ run calls clocked live] at lost
  cases lost

end Runs

end Swr
