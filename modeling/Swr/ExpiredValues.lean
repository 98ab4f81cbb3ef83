import Swr.Course

/-! # Expired values

When an `swr` call returns the value of an entry that had expired as it was read. The
first look-up is safe: the call then goes to its origin. The look-up after a wait is
not, it is served whatever the store holds.
-/

namespace Swr

open Async

variable {ι : Type} [SerdeJson ι]

/-! ## Look-ups are straight -/

theorem straight_issue (c : Cmd ι) : (issue c).Straight := fun _ => trivial

namespace TieredStore

theorem getFrom_straight {tiers : List (DynStore ι)}
    (each : ∀ tier ∈ tiers, ∀ ns key, (tier.get ns key).Straight)
    (lower : List (DynStore ι)) (ns key : String) : (getFrom lower tiers ns key).Straight := by
  induction tiers generalizing lower with
  | nil => trivial
  | cons tier rest ih =>
      refine (each tier (by simp) ns key).bind fun result => ?_
      rcases result with e | _ | entry
      · trivial
      · exact ih (fun tier' member => each tier' (by simp [member])) _
      · dsimp only
        split
        · exact (straight_issue _).bind fun _ => trivial
        · trivial

end TieredStore

namespace Store

mutual
/-- Only `set` and `remove` of a `TieredStore` run anything side by side. -/
theorem get_straight : ∀ (store : Store) (ns key : String), ((store.dyn ι).get ns key).Straight
  | .hashMap _ _, _, _ => by
      refine (straight_issue _).bind fun (found, now) => ?_
      cases found with
      | none => trivial
      | some stored =>
          dsimp only
          split
          · exact (straight_issue _).bind fun _ => trivial
          · trivial
  | .moka _, _, _ => by
      refine (straight_issue _).bind fun found => ?_
      cases found with
      | none => trivial
      | some stored =>
          refine (straight_issue _).bind fun now => ?_
          split
          · exact (straight_issue _).bind fun _ => trivial
          · trivial
  | .redis _ _, _, _ => by
      refine (straight_issue _).bind fun result => ?_
      rcases result with e | _ | json
      · trivial
      · trivial
      · dsimp only
        split
        · trivial
        · refine (straight_issue _).bind fun now => ?_
          split
          · exact (straight_issue _).bind fun _ => trivial
          · trivial
  | .tiered tiers, ns, key => TieredStore.getFrom_straight (dynList_get_straight tiers) [] ns key
  | .metrics inner sink, ns, key => by
      refine (get_straight inner ns key).bind fun result => ?_
      rcases result with e | _ | entry
      · exact (straight_issue _).bind fun _ => trivial
      · exact (straight_issue _).bind fun _ => trivial
      · exact (straight_issue _).bind fun now => (straight_issue _).bind fun _ => trivial
  | .ext _ _ _, _, _ => straight_issue _

theorem dynList_get_straight : ∀ (stores : List Store), ∀ tier ∈ dynList ι stores, ∀ ns key,
    (tier.get ns key).Straight
  | [], _, member => by simp [dynList] at member
  | store :: stores, tier, member => by
      rcases List.mem_cons.mp member with rfl | later
      · exact get_straight store
      · exact dynList_get_straight stores tier later
end

end Store

/-- What a piece of code was answered, with the times. -/
abbrev TimedLog (ι : Type) [SerdeJson ι] := List (Int × Σ c : Cmd ι, c.Ans)

namespace SwrCache

variable [DecidableEq ι] {self : SwrCache ι} {ns key : String} {look look' rest rest' log : Log ι}
  {entry entry' : Entry (Val self.ty)}

theorem Finds.ofGet (finds : self.Finds ns key look entry) : ∀ e ∈ look, e.1.OfGet := by
  obtain ⟨stored, yields, _⟩ := finds
  exact (self.dyn_plain.read ns key).yields yields

theorem Misses.ofGet (misses : self.Misses ns key look) : ∀ e ∈ look, e.1.OfGet := by
  obtain ⟨result, yields, _⟩ := misses
  exact (self.dyn_plain.read ns key).yields yields

theorem Finds.unique (finds : self.Finds ns key look entry)
    (finds' : self.Finds ns key look' entry') (same : look ++ rest = look' ++ rest') :
    look = look' ∧ entry = entry' ∧ rest = rest' := by
  obtain ⟨stored, yields, decodes⟩ := finds
  obtain ⟨stored', yields', decodes'⟩ := finds'
  obtain ⟨rfl, found, rfl⟩ := (self.store.get_straight ns key).yields_unique yields yields' same
  cases found
  rw [decodes] at decodes'
  cases decodes'
  exact ⟨rfl, rfl, rfl⟩

theorem Finds.not_misses (finds : self.Finds ns key look entry)
    (misses : self.Misses ns key look') : look ++ rest ≠ look' ++ rest' := by
  intro same
  obtain ⟨stored, yields, decodes⟩ := finds
  obtain ⟨result, yields', undecodable⟩ := misses
  obtain ⟨_, found, _⟩ := (self.store.get_straight ns key).yields_unique yields yields' same
  exact undecodable stored entry found.symm decodes

/-! ## Which entry a call returns -/

/-- The call begins with a look-up that finds the entry, and reads the clock at `t`. -/
def ReadsFirst (self : SwrCache ι) (ns key : String) (log : TimedLog ι)
    (entry : Entry (Val self.ty)) (t : Int) (rest : TimedLog ι) : Prop :=
  ∃ look now, log = look ++ (t, ⟨.now, now⟩) :: rest ∧ self.Finds ns key (look.map Prod.snd) entry

/-- The call wakes up, looks at the store again and finds the entry; the last command of
    the look-up was answered at `t`. -/
def ReadsAgain (self : SwrCache ι) (ns key : String) (log : TimedLog ι)
    (entry : Entry (Val self.ty)) (t : Int) (rest : TimedLog ι) : Prop :=
  ∃ before woken look, log = before ++ (woken, ⟨.sleep 100, ()⟩) :: (look ++ rest) ∧
    self.Finds ns key (look.map Prod.snd) entry ∧
    ((woken, (⟨.sleep 100, ()⟩ : Σ c : Cmd ι, c.Ans)) :: look).getLast?.map Prod.fst = some t

/-- What the call returns is the value of the entry that it read at `t`: neither a second
    look nor the origin has given it that value since. -/
def Returns (self : SwrCache ι) (ns key : String) (log : TimedLog ι) (value : Option (Val self.ty))
    (entry : Entry (Val self.ty)) (t : Int) : Prop :=
  value = some entry.value ∧
    ∃ rest, (self.ReadsFirst ns key log entry t rest ∨ self.ReadsAgain ns key log entry t rest) ∧
      (∀ t', (t', ⟨.loadEnd self ns key, some entry.value⟩) ∉ rest) ∧
      ∀ entry' t' rest', self.ReadsAgain ns key rest entry' t' rest' → entry'.value ≠ entry.value

/-! ## Where a second look can be in a course -/

omit [DecidableEq ι] in
theorem own_notMem {c : Cmd ι} {r : c.Ans} (ofGet : ∀ e ∈ look, e.1.OfGet) (own : ¬ c.OfStore) :
    (⟨c, r⟩ : Σ c : Cmd ι, c.Ans) ∉ look := fun member => own (ofGet _ member).1

abbrev nap : Σ c : Cmd ι, c.Ans := ⟨.sleep 100, ()⟩

theorem Load.served {load : Log ι} (pre post : Log ι) {before : Log ι}
    {loaded : Option (Val self.ty)} (course : self.Load ns key load loaded) (clear : nap ∉ pre)
    (clear' : nap ∉ post) (finds : self.Finds ns key look entry)
    (same : pre ++ (load ++ post) = before ++ nap :: (look ++ rest)) :
    loaded = some entry.value ∧ rest = post ∧ ∀ r, ⟨.loadEnd self ns key, r⟩ ∉ load := by
  cases course with
  | @waited look₀ entry₀ finds₀ =>
      have calm : nap ∉ look₀ := own_notMem finds₀.ofGet id
      have split : (pre ++ [⟨.containsKey self.revalidating (buildCacheKey ns key), true⟩]) ++
          nap :: (look₀ ++ post) = before ++ nap :: (look ++ rest) := by simpa using same
      obtain ⟨_, _, later⟩ :=
        (List.append_cons_inj_of_notMem (by simp [clear]) (by simp [calm, clear'])).mp split
      obtain ⟨rfl, rfl, rfl⟩ := finds₀.unique finds later
      refine ⟨rfl, rfl, fun r member => ?_⟩
      have inLook :
          (⟨.loadEnd self ns key, r⟩ : Σ c : Cmd ι, c.Ans) ∈ look₀ := by simpa using member
      exact own_notMem finds₀.ofGet id inLook
  | @again look₀ loaded misses =>
      have calm : nap ∉ look₀ := own_notMem misses.ofGet id
      have split : (pre ++ [⟨.containsKey self.revalidating (buildCacheKey ns key), true⟩]) ++
          nap :: (look₀ ++ (self.markedLog ns key loaded ++ post)) =
          before ++ nap :: (look ++ rest) := by simpa using same
      obtain ⟨_, _, later⟩ := (List.append_cons_inj_of_notMem (by simp [clear])
        (by simp [calm, clear', markedLog])).mp split
      exact absurd later.symm (finds.not_misses misses)
  | free loaded =>
      have member : nap ∈ before ++ nap :: (look ++ rest) := by simp
      rw [← same] at member
      simp [clear, clear', markedLog] at member

theorem Course.served {before : Log ι} {value : Option (Val self.ty)}
    (course : self.Course ns key log value) (finds : self.Finds ns key look entry)
    (split : log = before ++ nap :: (look ++ rest)) :
    value = some entry.value ∧ (∃ later, rest = self.cachingLog ns key entry.value later) ∧
      ∀ r, ⟨.loadEnd self ns key, r⟩ ∉ log := by
  have caught : nap ∈ log := by simp [split]
  cases course with
  | fresh _ finds₀ | stale _ finds₀ =>
      rcases List.mem_append.mp caught with early | late
      · exact absurd early (own_notMem finds₀.ofGet id)
      · simp at late
  | @renewed look₀ _ load _ now later finds₀ _ loads =>
      have calm : nap ∉ look₀ := own_notMem finds₀.ofGet id
      have unasked₀ : ∀ r, ⟨.loadEnd self ns key, r⟩ ∉ look₀ := fun r => own_notMem finds₀.ofGet id
      obtain ⟨handed, rfl, unasked⟩ := loads.served (look₀ ++ [⟨.now, now⟩])
        (self.cachingLog ns key _ later) (by simp [calm]) (by simp [cachingLog]) finds
        (by simpa using split)
      cases handed
      exact ⟨rfl, ⟨later, rfl⟩, fun r => by simp [unasked, unasked₀, cachingLog]⟩
  | @fallback look₀ _ load now finds₀ _ loads =>
      have calm : nap ∉ look₀ := own_notMem finds₀.ofGet id
      obtain ⟨handed, _⟩ := loads.served (look₀ ++ [⟨.now, now⟩]) [] (by simp [calm])
        List.not_mem_nil finds (by simpa using split)
      cases handed
  | @loaded look₀ load _ later misses loads =>
      have calm : nap ∉ look₀ := own_notMem misses.ofGet id
      have unasked₀ : ∀ r, ⟨.loadEnd self ns key, r⟩ ∉ look₀ := fun r => own_notMem misses.ofGet id
      obtain ⟨handed, rfl, unasked⟩ := loads.served look₀ (self.cachingLog ns key _ later) calm
        (by simp [cachingLog]) finds split
      cases handed
      exact ⟨rfl, ⟨later, rfl⟩, fun r => by simp [unasked, unasked₀, cachingLog]⟩
  | @empty look₀ load misses loads =>
      have calm : nap ∉ look₀ := own_notMem misses.ofGet id
      obtain ⟨handed, _⟩ := loads.served look₀ [] calm List.not_mem_nil finds (by simpa using split)
      cases handed

theorem Course.first {now : Int} {value : Option (Val self.ty)}
    (course : self.Course ns key log value) (finds : self.Finds ns key look entry)
    (split : log = look ++ ⟨.now, now⟩ :: rest) :
    now < entry.staleUntil ∨ self.Load ns key rest none ∨
      ∃ load loaded later, value = some loaded ∧
      rest = load ++ self.cachingLog ns key loaded later ∧
        self.Load ns key load (some loaded) := by
  cases course with
  | fresh _ finds₀ current | stale _ finds₀ current =>
      obtain ⟨rfl, rfl, same⟩ := finds.unique finds₀ split.symm
      cases same
      exact .inl current
  | renewed _ _ finds₀ _ loads =>
      obtain ⟨rfl, rfl, same⟩ := finds.unique finds₀ split.symm
      cases same
      exact .inr (.inr ⟨_, _, _, rfl, rfl, loads⟩)
  | fallback _ finds₀ _ loads =>
      obtain ⟨rfl, rfl, same⟩ := finds.unique finds₀ split.symm
      cases same
      exact .inr (.inl loads)
  | loaded _ misses | empty misses => exact absurd split.symm (finds.not_misses misses)

end SwrCache

/-! ## Runs -/

section Runs

variable [DecidableEq ι] {X : ExtSemantics ι} {w : World ι} {past : History (system X)}
  {s : Config (system X)} {i : Nat} {th : Thread (system X)} {out : Out ι}
  {cache : SwrCache ι} {ns key : String}

theorem trace_now (run : Run (system X) (.idle w) past s) {t now : Int}
    (member : (t, ⟨.now, now⟩) ∈ trace i past) : now = t := by
  obtain ⟨s₁, earlier, step⟩ := step_of_mem_trace member
  obtain ⟨_, s₂, taken⟩ := run.upTo step
  cases taken with
  | exec _ _ done => exact done.1

/-- An `swr` call returns the value of an entry that had expired as it was read only
    after its own origin returned nothing, exactly if a second look at the store does
    not find an expired entry. -/
theorem expired_served_iff (run : Run (system X) (.idle w) past s) (at_i : s.threads[i]? = some th)
    (task : th.task = .swr cache ns key) (finished : th.Finished out) :
    ∃ value, out = .value cache.ty (.ok value) ∧
      ((∀ entry t, cache.Returns ns key (trace i past) value entry t → entry.staleUntil ≤ t →
        ∃ t', (t', ⟨.loadEnd cache ns key, none⟩) ∈ trace i past) ↔
      ∀ entry t rest, cache.ReadsAgain ns key (trace i past) entry t rest →
      t < entry.staleUntil) := by
  obtain ⟨value, returned, course⟩ := swr_course run at_i task finished
  refine ⟨value, returned, ?_, ?_⟩
  · intro honest entry t rest again
    by_contra expired
    obtain ⟨before, woken, look, split, finds, _⟩ := id again
    have splits : replies i past =
        before.map Prod.snd ++ SwrCache.nap :: (look.map Prod.snd ++ rest.map Prod.snd) := by
      simp [replies, split]
    obtain ⟨served, ⟨later, caches⟩, unasked⟩ := course.served finds splits
    have untold : ∀ t' r, (t', ⟨.loadEnd cache ns key, r⟩) ∉ trace i past := fun t' r member =>
      unasked r (List.mem_map_of_mem member)
    have within : ∀ e ∈ rest, e ∈ trace i past := fun e member => by simp [split, member]
    have returns : cache.Returns ns key (trace i past) value entry t := by
      refine ⟨served, rest, .inr again, fun t' member => untold t' _ (within _ member), ?_⟩
      rintro entry' t' rest' ⟨before', woken', look', split', _⟩
      have member :
          SwrCache.nap ∈ cache.cachingLog ns key entry.value later := by simp [← caches, split']
      simp [SwrCache.cachingLog] at member
    obtain ⟨t', refused⟩ := honest entry t returns (Int.not_lt.mp expired)
    exact untold t' none refused
  · rintro current entry t ⟨given, rest, first | again, unloaded, unserved⟩ expired
    · obtain ⟨look, now, split, finds⟩ := first
      obtain rfl : now = t := trace_now run (i := i) (by simp [split])
      have splits : replies i past = look.map Prod.snd ++ ⟨.now, now⟩ :: rest.map Prod.snd := by
        simp [replies, split]
      have within : ∀ e ∈ rest, e ∈ trace i past := fun e member => by simp [split, member]
      rcases course.first finds splits with fresh | refused |
        ⟨load, loaded, later, handed, caches, loads⟩
      · exact absurd expired (Int.not_le.mpr fresh)
      · obtain ⟨⟨t', e⟩, member, rfl⟩ := List.mem_map.mp refused.declined.2
        exact ⟨t', within _ member⟩
      · -- The call returned what the load handed back, and that is not the first entry's value.
        have unasked : ∀ v, v = entry.value → ⟨.loadEnd cache ns key, some v⟩ ∉ load := by
          rintro _ rfl member
          have inRest : ⟨.loadEnd cache ns key, some entry.value⟩ ∈
              rest.map Prod.snd := by simp [caches, member]
          obtain ⟨⟨t', e⟩, member, rfl⟩ := List.mem_map.mp inRest
          exact unloaded t' member
        have same : loaded = entry.value := Option.some.inj (handed.symm.trans given)
        cases loads with
        | @waited second entry' finds' =>
            simp only [List.cons_append, List.map_eq_cons_iff, List.map_eq_append_iff] at caches
            obtain ⟨e₁, _, rfl, same₁, ⟨woken, _⟩, _, rfl, rfl, look', caching, rfl, rfl, same₂⟩ :=
              caches
            exact absurd same (unserved entry' _ caching ⟨[e₁], woken, look', rfl, finds', rfl⟩)
        | again | free => exact absurd (by simp [SwrCache.markedLog]) (unasked loaded same)
    · have before := current entry t rest again
      omega

omit [DecidableEq ι] in
/-- The expired entry is the last thing a call has to fall back on. -/
theorem expired_served_fallback :
    ∃ (past : History (system .atomicMap)) (s : Config (system .atomicMap)),
    Run (system .atomicMap) (.idle expiredWorld) past s ∧
    soleCache.Returns "ns" "k" (trace 0 past) (some true) ⟨true, 10, 20⟩ 100 ∧
    ∃ t', (t', ⟨.loadEnd soleCache "ns" "k", none⟩) ∈ trace 0 past := by
  obtain ⟨past, s, played, th, at_0, task, finished, answered⟩ : ∃ past s,
      driver.play (fun _ _ => True)
        [.start (.swr soleCache "ns" "k"), .go 0 (declining 100), .go 0 (declining 100),
          .go 0 (declining 100), .go 0 (declining 100), .go 0 (declining 100),
          .go 0 (declining 100), .go 0 (declining 100)] ([], .idle expiredWorld) = some (past, s) ∧
      ∃ th, s.threads[0]? = some th ∧ th.task = .swr soleCache "ns" "k" ∧
        th.Finished (.value () (.ok (some true))) ∧
        trace 0 past =
          (100, ⟨.extGet 0 "ns" "k", .ok (some (.fromTypedWithSerializer () true 10 20))⟩) ::
          (100, ⟨.now, 100⟩) :: (100, ⟨.containsKey 0 "ns:k", false⟩) ::
          (soleCache.markedLog "ns" "k" none).map (Prod.mk 100) :=
          ⟨_, _, rfl, _, rfl, rfl, rfl, rfl⟩
  obtain ⟨run, _⟩ := Driver.plays played
  have awake : ∀ e ∈ trace 0 past, e.2 ≠ SwrCache.nap := by
    rw [answered]
    simp [SwrCache.markedLog]
  obtain ⟨value, same, honest⟩ := expired_served_iff run at_0 task finished
  cases same
  have honest := honest.mpr ?_
  · have returns : soleCache.Returns "ns" "k" (trace 0 past) (some true) ⟨true, 10, 20⟩ 100 := by
      rw [answered]
      refine ⟨rfl, _, .inl ⟨[_], 100, rfl, _, .op .ret, rfl⟩, by simp [SwrCache.markedLog], ?_⟩
      rintro entry t rest ⟨before, woken, look, split, _⟩
      refine absurd rfl (awake (woken, SwrCache.nap) ?_)
      rw [answered, split]
      simp
    exact ⟨past, s, run, returns, honest _ _ returns (by decide)⟩
  · rintro entry t rest ⟨before, woken, look, split, _⟩
    exact absurd rfl (awake (woken, SwrCache.nap) (by simp [split]))

omit [DecidableEq ι] in
/-- A call that waits for a slow load is served the expired entry, and goes to no origin. -/
theorem served_unasked : ¬ ∀ (past : History (system .atomicMap)) (s : Config (system .atomicMap)),
    Run (system .atomicMap) (.idle expiredWorld) past s →
    ∀ (i : Nat) (th : Thread (system .atomicMap)) (cache : SwrCache Unit) (ns key : String)
      (value : Option (Val cache.ty)), s.threads[i]? = some th → th.task = .swr cache ns key →
      th.Finished (.value cache.ty (.ok value)) →
      ∀ entry t, cache.Returns ns key (trace i past) value entry t → entry.staleUntil ≤ t →
        ∃ t', (t', ⟨.loadEnd cache ns key, none⟩) ∈ trace i past := by
  intro honest
  obtain ⟨past, s, played, th, at_1, task, finished, answered⟩ : ∃ past s,
      driver.play (fun _ _ => True)
        [.start (.swr soleCache "ns" "k"), .start (.swr soleCache "ns" "k"),
          .go 0 (reading 100), .go 0 (reading 100), .go 0 (reading 100), .go 0 (reading 100),
          .go 0 (reading 100), .go 1 (reading 100), .go 1 (reading 100), .go 1 (reading 100),
          .go 1 (reading 100), .go 1 (reading 200), .go 1 (reading 200), .go 1 (reading 200)]
        ([], .idle expiredWorld) = some (past, s) ∧
      ∃ th, s.threads[1]? = some th ∧ th.task = .swr soleCache "ns" "k" ∧
        th.Finished (.value () (.ok (some true))) ∧
        trace 1 past =
          [(100, ⟨.extGet 0 "ns" "k", .ok (some (.fromTypedWithSerializer () true 10 20))⟩),
          (100, ⟨.now, 100⟩), (100, ⟨.containsKey 0 "ns:k", true⟩), (100, SwrCache.nap),
          (200, ⟨.extGet 0 "ns" "k", .ok (some (.fromTypedWithSerializer () true 10 20))⟩)] ++
          (soleCache.cachingLog "ns" "k" true 200).map (Prod.mk 200) :=
          ⟨_, _, rfl, _, rfl, rfl, rfl, rfl⟩
  obtain ⟨run, _⟩ := Driver.plays played
  have returns : soleCache.Returns "ns" "k" (trace 1 past) (some true) ⟨true, 10, 20⟩ 200 := by
    rw [answered]
    refine ⟨rfl, _, .inr ⟨[_, _, _], 100, [_], rfl, ⟨_, .op .ret, rfl⟩, rfl⟩,
      by simp [SwrCache.cachingLog], ?_⟩
    rintro entry t rest ⟨before, woken, look, split, _⟩
    have member :
        (woken, SwrCache.nap) ∈ (soleCache.cachingLog "ns" "k" true 200).map (Prod.mk 200) := by
      rw [split]
      simp
    simp [SwrCache.cachingLog] at member
  obtain ⟨t', refused⟩ :=
    honest past s run 1 th soleCache "ns" "k" _ at_1 task finished _ _ returns (by decide)
  rw [answered] at refused
  simp [SwrCache.cachingLog] at refused

end Runs

end Swr
