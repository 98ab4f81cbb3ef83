import Swr.Async.Trace
import Swr.Provenance

/-! # The course of an swr call

All that an `swr` call can be answered, and what it returns then. Whatever its store
answers, the call ends well, and it ends empty-handed only after an origin of its own
returned nothing.
-/

namespace Swr

open Async

variable {ι : Type} [SerdeJson ι]

namespace SwrCache

variable {self : SwrCache ι} {ns key : String} {log : Log ι}

def markedLog (self : SwrCache ι) (ns key : String) (result : Option (Val self.ty)) : Log ι :=
  [⟨.insertMarker self.revalidating (buildCacheKey ns key), ()⟩, ⟨.loadStart self ns key, ()⟩,
    ⟨.loadEnd self ns key, result⟩, ⟨.removeMarker self.revalidating (buildCacheKey ns key), ()⟩]

def cachingLog (self : SwrCache ι) (ns key : String) (value : Val self.ty) (now : Int) : Log ι :=
  [⟨.now, now⟩,
    ⟨.spawn (.cacheValue self ns key value (addMs now self.freshMs) (addMs now self.staleMs)), ()⟩]

theorem markedLoad_yields {result : Except String (Option (Val self.ty))}
    (yields : (self.markedLoad ns key).Yields log result) :
    ∃ loaded, log = self.markedLog ns key loaded ∧ result = .ok loaded := by
  simp only [markedLoad, unmark, Ask.insertMarker_bind, Ask.loadStart_bind, Ask.loadEnd_bind,
    Ask.removeMarker_bind, Prog.yields_op, Prog.pure_eq, Prog.yields_ret] at yields
  obtain ⟨_, _, rfl, _, _, rfl, loaded, _, rfl, _, _, rfl, rfl, rfl⟩ := yields
  exact ⟨loaded, rfl, rfl⟩

theorem cacheValue_yields {value : Val self.ty}
    (yields : (self.cacheValue ns key value).Yields log ()) :
    ∃ now, log = self.cachingLog ns key value now := by
  simp only [cacheValue, Ask.now_bind, Ask.spawn, issue, Prog.yields_op, Prog.yields_ret] at yields
  obtain ⟨now, _, rfl, _, _, rfl, rfl, _⟩ := yields
  exact ⟨now, rfl⟩

variable [DecidableEq ι]

/-- A look-up that is answered like this finds the entry. -/
def Finds (self : SwrCache ι) (ns key : String) (look : Log ι)
    (entry : Entry (Val self.ty)) : Prop :=
  ∃ stored, (self.dyn.get ns key).Yields look (.ok (some stored)) ∧
    stored.intoTyped self.ty = .ok entry

def Misses (self : SwrCache ι) (ns key : String) (look : Log ι) : Prop :=
  ∃ result, (self.dyn.get ns key).Yields look result ∧
    ∀ stored entry, result = .ok (some stored) → stored.intoTyped self.ty ≠ .ok entry

theorem Misses.failed {e : CacheError} (yields : (self.dyn.get ns key).Yields look (.error e)) :
    self.Misses ns key look :=
  ⟨_, yields, nofun⟩

theorem Misses.absent (yields : (self.dyn.get ns key).Yields look (.ok none)) :
    self.Misses ns key look :=
  ⟨_, yields, nofun⟩

theorem Misses.undecodable {stored : StoredEntry ι} {e : CacheError}
    (yields : (self.dyn.get ns key).Yields look (.ok (some stored)))
    (fails : stored.intoTyped self.ty = .error e) : self.Misses ns key look := by
  refine ⟨_, yields, ?_⟩
  rintro _ _ ⟨⟩ decodes
  rw [fails] at decodes
  cases decodes

/-- How a deduplicated load goes, and what it hands back. -/
inductive Load (self : SwrCache ι) (ns key : String) : Log ι → Option (Val self.ty) → Prop where
  | waited : self.Finds ns key look entry →
      Load self ns key (⟨.containsKey self.revalidating (buildCacheKey ns key), true⟩ ::
        ⟨.sleep 100, ()⟩ :: look) (some entry.value)
  | again (loaded : Option (Val self.ty)) : self.Misses ns key look →
      Load self ns key (⟨.containsKey self.revalidating (buildCacheKey ns key), true⟩ ::
        ⟨.sleep 100, ()⟩ :: (look ++ self.markedLog ns key loaded)) loaded
  | free (loaded : Option (Val self.ty)) :
      Load self ns key (⟨.containsKey self.revalidating (buildCacheKey ns key), false⟩ ::
        self.markedLog ns key loaded) loaded

theorem deduplicatedLoadFromOrigin_yields {result : Except String (Option (Val self.ty))}
    (yields : (self.deduplicatedLoadFromOrigin ns key).Yields log result) :
    ∃ loaded, result = .ok loaded ∧ self.Load ns key log loaded := by
  simp only [deduplicatedLoadFromOrigin, Ask.containsKey_bind, Prog.yields_op] at yields
  obtain ⟨loading, _, rfl, onward⟩ := yields
  cases loading with
  | false =>
      obtain ⟨loaded, rfl, rfl⟩ := markedLoad_yields onward
      exact ⟨loaded, rfl, .free loaded⟩
  | true =>
      simp only [if_true, Ask.sleep_bind, Prog.yields_op] at onward
      obtain ⟨_, _, rfl, onward⟩ := onward
      obtain ⟨look, found, rest, rfl, looks, onward⟩ := Prog.yields_bind.mp onward
      have missed : self.Misses ns key look → (self.markedLoad ns key).Yields rest result →
          ∃ loaded, result = .ok loaded ∧ self.Load ns key (⟨.containsKey self.revalidating
            (buildCacheKey ns key), true⟩ :: ⟨.sleep 100, ()⟩ :: (look ++ rest)) loaded := by
        intro misses onward
        obtain ⟨loaded, rfl, rfl⟩ := markedLoad_yields onward
        exact ⟨loaded, rfl, .again loaded misses⟩
      rcases found with e | _ | stored
      · exact missed (.failed looks) onward
      · exact missed (.absent looks) onward
      · dsimp only at onward
        split at onward
        · next entry decodes =>
            obtain ⟨rfl, rfl⟩ := Prog.yields_ret.mp onward
            rw [List.append_nil]
            exact ⟨_, rfl, .waited ⟨stored, looks, decodes⟩⟩
        · next fails => exact missed (.undecodable looks fails) onward

theorem Load.declined (load : self.Load ns key log none) :
    ⟨.loadStart self ns key, ()⟩ ∈ log ∧ ⟨.loadEnd self ns key, none⟩ ∈ log := by
  cases load with
  | again _ misses => simp [markedLog]
  | free => simp [markedLog]

theorem Load.handed {value : Val self.ty} (load : self.Load ns key log (some value)) :
    (∃ before look entry, log = before ++ look ∧ self.Finds ns key look entry ∧
      entry.value = value) ∨ ⟨.loadEnd self ns key, some value⟩ ∈ log := by
  cases load with
  | @waited look entry finds => exact .inl ⟨[_, _], look, entry, rfl, finds, rfl⟩
  | again _ misses => exact .inr (by simp [markedLog])
  | free => exact .inr (by simp [markedLog])

/-- How an `swr` call goes, and the value it returns. -/
inductive Course (self : SwrCache ι) (ns key : String) : Log ι → Option (Val self.ty) → Prop where
  | fresh (now : Int) : self.Finds ns key look entry → now < entry.staleUntil →
      Course self ns key (look ++ [⟨.now, now⟩]) (some entry.value)
  | stale (now : Int) : self.Finds ns key look entry → now < entry.staleUntil →
      Course self ns key (look ++ [⟨.now, now⟩, ⟨.spawn (.revalidate self ns key), ()⟩])
        (some entry.value)
  | renewed (now later : Int) : self.Finds ns key look entry → entry.staleUntil ≤ now →
      self.Load ns key load (some value) →
      Course self ns key (look ++ ⟨.now, now⟩ :: (load ++ self.cachingLog ns key value later))
        (some value)
  | fallback (now : Int) : self.Finds ns key look entry → entry.staleUntil ≤ now →
      self.Load ns key load none →
      Course self ns key (look ++ ⟨.now, now⟩ :: load) (some entry.value)
  | loaded (later : Int) : self.Misses ns key look → self.Load ns key load (some value) →
      Course self ns key (look ++ (load ++ self.cachingLog ns key value later)) (some value)
  | empty : self.Misses ns key look → self.Load ns key load none →
      Course self ns key (look ++ load) none

theorem getInternal_yields {result : Except CacheError (GetResult (Val self.ty))}
    (yields : (self.getInternal ns key).Yields log result) :
    (self.Misses ns key log ∧ ((∃ e, result = .error e) ∨ result = .ok ⟨none, false, false⟩)) ∨
    ∃ look entry now, self.Finds ns key look entry ∧ log = look ++ [⟨.now, now⟩] ∧
      ((entry.staleUntil ≤ now ∧ result = .ok ⟨some entry.value, true, true⟩) ∨
        (now < entry.staleUntil ∧ ∃ stale, (stale = true → entry.freshUntil ≤ now) ∧
          result = .ok ⟨some entry.value, stale, false⟩)) := by
  obtain ⟨look, found, rest, rfl, looks, onward⟩ := Prog.yields_bind.mp yields
  rcases found with e | _ | stored
  · obtain ⟨rfl, rfl⟩ := Prog.yields_ret.mp onward
    rw [List.append_nil]
    exact .inl ⟨.failed looks, .inl ⟨e, rfl⟩⟩
  · obtain ⟨rfl, rfl⟩ := Prog.yields_ret.mp onward
    rw [List.append_nil]
    exact .inl ⟨.absent looks, .inr rfl⟩
  · dsimp only at onward
    split at onward
    · next e fails =>
        obtain ⟨rfl, rfl⟩ := Prog.yields_ret.mp onward
        rw [List.append_nil]
        exact .inl ⟨.undecodable looks fails, .inl ⟨e, rfl⟩⟩
    · next entry decodes =>
        simp only [Ask.now_bind, Prog.yields_op] at onward
        obtain ⟨now, _, rfl, onward⟩ := onward
        refine .inr ⟨look, entry, now, ⟨stored, looks, decodes⟩, ?_⟩
        split at onward
        · next expired =>
            obtain ⟨rfl, rfl⟩ := Prog.yields_ret.mp onward
            exact ⟨rfl, .inl ⟨expired, rfl⟩⟩
        · next current =>
            have before : now < entry.staleUntil := Int.not_le.mp current
            split at onward
            · next stale =>
                obtain ⟨rfl, rfl⟩ := Prog.yields_ret.mp onward
                exact ⟨rfl, .inr ⟨before, true, fun _ => stale, rfl⟩⟩
            · obtain ⟨rfl, rfl⟩ := Prog.yields_ret.mp onward
              exact ⟨rfl, .inr ⟨before, false, by simp, rfl⟩⟩

theorem loadOrFail_yields {result : Except CacheError (Option (Val self.ty))}
    (yields : (self.loadOrFail ns key).Yields log result) :
    (∃ load value later, self.Load ns key load (some value) ∧
      log = load ++ self.cachingLog ns key value later ∧ result = .ok (some value)) ∨
    (self.Load ns key log none ∧ result = .ok none) := by
  obtain ⟨load, handed, rest, rfl, loads, onward⟩ := Prog.yields_bind.mp yields
  obtain ⟨loaded, rfl, course⟩ := deduplicatedLoadFromOrigin_yields loads
  cases loaded with
  | none =>
      obtain ⟨rfl, rfl⟩ := Prog.yields_ret.mp onward
      rw [List.append_nil]
      exact .inr ⟨course, rfl⟩
  | some value =>
      obtain ⟨caching, _, rest, rfl, caches, onward⟩ := Prog.yields_bind.mp onward
      obtain ⟨rfl, rfl⟩ := Prog.yields_ret.mp onward
      obtain ⟨later, rfl⟩ := cacheValue_yields caches
      rw [List.append_nil]
      exact .inl ⟨load, value, later, course, rfl, rfl⟩

/-- Every `swr` call takes one of the courses, and none of them ends in an error. -/
theorem swr_yields {result : Except CacheError (Option (Val self.ty))}
    (yields : (self.swr ns key).Yields log result) :
    ∃ value, result = .ok value ∧ self.Course ns key log value := by
  obtain ⟨first, found, rest, rfl, looks, onward⟩ := Prog.yields_bind.mp yields
  have missed : self.Misses ns key first → (self.loadOrFail ns key).Yields rest result →
      ∃ value, result = .ok value ∧ self.Course ns key (first ++ rest) value := by
    intro misses onward
    rcases loadOrFail_yields onward with ⟨load, value, later, course, rfl, rfl⟩ | ⟨course, rfl⟩
    · exact ⟨_, rfl, .loaded later misses course⟩
    · exact ⟨_, rfl, .empty misses course⟩
  rcases getInternal_yields looks with ⟨misses, ⟨e, rfl⟩ | rfl⟩ |
    ⟨look, entry, now, finds, rfl, ⟨expired, rfl⟩ | ⟨current, stale, _, rfl⟩⟩
  · exact missed misses onward
  · exact missed misses onward
  · obtain ⟨load, handed, rest, rfl, loads, onward⟩ := Prog.yields_bind.mp onward
    obtain ⟨loaded, rfl, course⟩ := deduplicatedLoadFromOrigin_yields loads
    cases loaded with
    | none =>
        obtain ⟨rfl, rfl⟩ := Prog.yields_ret.mp onward
        refine ⟨_, rfl, ?_⟩
        simpa using Course.fallback now finds expired course
    | some value =>
        obtain ⟨caching, _, rest, rfl, caches, onward⟩ := Prog.yields_bind.mp onward
        obtain ⟨rfl, rfl⟩ := Prog.yields_ret.mp onward
        obtain ⟨later, rfl⟩ := cacheValue_yields caches
        refine ⟨_, rfl, ?_⟩
        simpa using Course.renewed now later finds expired course
  · cases stale with
    | true =>
        simp only [spawnRevalidation, Ask.spawn_bind, Prog.yields_op, Prog.pure_eq,
          Prog.yields_ret] at onward
        obtain ⟨_, _, rfl, rfl, rfl⟩ := onward
        refine ⟨_, rfl, ?_⟩
        simpa using Course.stale now finds current
    | false =>
        obtain ⟨rfl, rfl⟩ := Prog.yields_ret.mp onward
        refine ⟨_, rfl, ?_⟩
        simpa using Course.fresh now finds current

theorem Course.declined (course : self.Course ns key log none) :
    (∃ look rest, log = look ++ rest ∧ self.Misses ns key look) ∧
      ⟨.loadStart self ns key, ()⟩ ∈ log ∧ ⟨.loadEnd self ns key, none⟩ ∈ log := by
  cases course with
  | empty misses load =>
      obtain ⟨asked, turnedDown⟩ := load.declined
      exact ⟨⟨_, _, rfl, misses⟩, List.mem_append_right _ asked, List.mem_append_right _ turnedDown⟩

/-- The value of a call is that of an entry its store returned to it, or its origin's. -/
theorem Course.sourced {value : Val self.ty} (course : self.Course ns key log (some value)) :
    (∃ before look after entry, log = before ++ look ++ after ∧ self.Finds ns key look entry ∧
      entry.value = value) ∨ ⟨.loadEnd self ns key, some value⟩ ∈ log := by
  cases course with
  | fresh _ finds | stale _ finds | fallback _ finds => exact .inl ⟨[], _, _, _, rfl, finds, rfl⟩
  | @renewed look _ load _ now later _ _ loads =>
      rcases loads.handed with ⟨before, second, entry, rfl, finds, same⟩ | loaded
      · exact .inl ⟨look ++ ⟨.now, now⟩ :: before, second,
          self.cachingLog ns key value later, entry, by simp, finds, same⟩
      · exact .inr (by simp [loaded])
  | @loaded look load _ later _ loads =>
      rcases loads.handed with ⟨before, second, entry, rfl, finds, same⟩ | loaded
      · exact .inl ⟨look ++ before, second, self.cachingLog ns key value later, entry,
          by simp, finds, same⟩
      · exact .inr (by simp [loaded])

end SwrCache

section Runs

variable [DecidableEq ι] {X : ExtSemantics ι} {w : World ι} {past : History (system X)}
  {s : Config (system X)} {i : Nat} {th : Thread (system X)} {out : Out ι}
  {cache : SwrCache ι} {ns key : String}

theorem swr_course (run : Run (system X) (.idle w) past s) (at_i : s.threads[i]? = some th)
    (task : th.task = .swr cache ns key) (finished : th.Finished out) :
    ∃ value, out = .value cache.ty (.ok value) ∧ cache.Course ns key (replies i past) value := by
  have yields := run.finished_yields at_i finished
  rw [task] at yields
  obtain ⟨log, result, rest, split, calls, ends⟩ := Prog.yields_bind.mp yields
  obtain ⟨rfl, rfl⟩ := Prog.yields_ret.mp ends
  rw [List.append_nil] at split
  obtain ⟨value, rfl, course⟩ := SwrCache.swr_yields calls
  exact ⟨value, rfl, split ▸ course⟩

/-- Whatever the stores, the markers and the other tasks do, an `swr` call does not
    fail. It returns nothing only after a miss and a refusal of its own origin, and
    what it returns was read by the call itself or loaded by its own origin. -/
theorem swr_ends_well (run : Run (system X) (.idle w) past s) (at_i : s.threads[i]? = some th)
    (task : th.task = .swr cache ns key) (finished : th.Finished out) :
    ∃ value, out = .value cache.ty (.ok value) ∧
      (value = none → (∃ look rest, replies i past = look ++ rest ∧ cache.Misses ns key look) ∧
        ⟨.loadStart cache ns key, ()⟩ ∈ replies i past ∧
        ⟨.loadEnd cache ns key, none⟩ ∈ replies i past) ∧
      ∀ v, value = some v →
        (∃ before look after entry, replies i past = before ++ look ++ after ∧
          cache.Finds ns key look entry ∧ entry.value = v) ∨
        ⟨.loadEnd cache ns key, some v⟩ ∈ replies i past := by
  obtain ⟨value, same, course⟩ := swr_course run at_i task finished
  refine ⟨value, same, ?_, ?_⟩
  · rintro rfl
    exact course.declined
  · rintro v rfl
    exact course.sourced

def declining (t : Int) : Int × ((i : Unit) → Option (Val i)) := (t, fun _ => none)

theorem swr_ends_well_declined :
    ∃ (past : History (system .atomicMap)) (s : Config (system .atomicMap)),
    Run (system .atomicMap) (.idle (.empty : World Unit)) past s ∧
    (∃ look rest, replies 0 past = look ++ rest ∧ soleCache.Misses "ns" "k" look) ∧
    ⟨.loadEnd soleCache "ns" "k", none⟩ ∈ replies 0 past := by
  obtain ⟨past, s, played, th, at_0, task, finished⟩ : ∃ past s,
      driver.play (fun _ _ => True)
        [.start (.swr soleCache "ns" "k"), .go 0 (declining 0), .go 0 (declining 0),
          .go 0 (declining 0), .go 0 (declining 0), .go 0 (declining 0), .go 0 (declining 0)]
        ([], .idle .empty) = some (past, s) ∧
      ∃ th, s.threads[0]? = some th ∧ th.task = .swr soleCache "ns" "k" ∧
        th.Finished (.value () (.ok none)) := ⟨_, _, rfl, _, rfl, rfl, rfl⟩
  obtain ⟨run, _⟩ := Driver.plays played
  obtain ⟨value, same, declined, _⟩ := swr_ends_well run at_0 task finished
  cases same
  obtain ⟨missed, _, refused⟩ := declined rfl
  exact ⟨past, s, run, missed, refused⟩

end Runs

end Swr
