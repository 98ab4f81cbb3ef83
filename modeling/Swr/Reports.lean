import Swr.Async.Rest
import Swr.OneLeaf

/-! # What writes report

A `set` or a `remove` goes to every leaf of a tree of stores, whatever becomes of it at the
others. It returns an error if a server has refused, and then the error says what that
server said. Errors come in the order of the leaves.
-/

namespace Swr

open Async

/-! ## Requests -/

/-- What all leaves of a tree are asked for. -/
inductive Request where
  | set (ns key : String)
  | remove (ns : String) (keys : List String)

namespace Request

def cacheKeys : Request → List String
  | .set ns key => [buildCacheKey ns key]
  | .remove ns keys => keys.map (buildCacheKey ns)

variable {ι : Type} [SerdeJson ι]

/-- The command does at the place what is asked for there. -/
def touches (home : Home) (cacheKey : String) : Request → Cmd ι → Bool
  | .set .., c => c.writesAt home cacheKey
  | .remove .., c => c.takesAt home cacheKey

/-- The error that a store makes of what a server has answered. -/
def failure : Request → (c : Cmd ι) → c.Ans → Option CacheError
  | .set _ key, .redisSet .., .error message =>
      some (.operation "redis" key ("SET failed: " ++ message))
  | .set _ key, .redisSetEx .., .error message =>
      some (.operation "redis" key ("SETEX failed: " ++ message))
  | .remove .., .redisDel _ cacheKeys, .error message =>
      some (.operation "redis" (",".intercalate cacheKeys) ("DEL failed: " ++ message))
  | _, _, _ => none

end Request

variable {ι : Type} [SerdeJson ι]

/-- The place was asked for everything, and has not refused. -/
def Obeyed (request : Request) (log : Log ι) (home : Home) : Prop :=
  ∀ cacheKey ∈ request.cacheKeys, ∃ e ∈ log, request.touches home cacheKey e.1 = true ∧
    request.failure e.1 e.2 = none

/-- What is returned for places in this order: success, or the error of one of them after
    all before it have obeyed. -/
inductive Reported (request : Request) (log : Log ι) :
    List Home → Except CacheError Unit → Prop where
  | obeyed : (∀ home ∈ homes, Obeyed request log home) →
      (∀ e ∈ log, request.failure e.1 e.2 = none) → Reported request log homes (.ok ())
  | refused : (∀ home ∈ before, Obeyed request log home) → reply ∈ log → reply.1.home = some home →
      request.failure reply.1 reply.2 = some e →
      Reported request log (before ++ home :: after) (.error e)

/-- All places were asked, and the result says what they answered. -/
structure Handled (request : Request) (log : Log ι) (homes : List Home)
    (result : Except CacheError Unit) : Prop where
  asked : ∀ home ∈ homes, ∀ cacheKey ∈ request.cacheKeys, ∃ e ∈ log,
    request.touches home cacheKey e.1 = true
  reported : Reported request log homes result

section Handled

variable {request : Request} {log log' first second : Log ι}
  {homes homes' : List Home} {home : Home} {result mine others : Except CacheError Unit}

theorem Obeyed.mono (obeyed : Obeyed request log home) (more : log ⊆ log') :
    Obeyed request log' home := by
  intro cacheKey member
  obtain ⟨e, shown, answered⟩ := obeyed cacheKey member
  exact ⟨e, more shown, answered⟩

/-- Of places that were asked and of which none has refused. -/
theorem handled_calm (asked : ∀ home ∈ homes, ∀ cacheKey ∈ request.cacheKeys, ∃ e ∈ log,
    request.touches home cacheKey e.1 = true) (calm : ∀ e ∈ log, request.failure e.1 e.2 = none) :
    Handled request log homes (.ok ()) := by
  refine ⟨asked, .obeyed (fun home here cacheKey member => ?_) calm⟩
  obtain ⟨e, shown, touches⟩ := asked home here cacheKey member
  exact ⟨e, shown, touches, calm e shown⟩

/-- Of one place that has refused. -/
theorem handled_refused {e : CacheError} {reply : Σ c : Cmd ι, c.Ans} (member : reply ∈ log)
    (touches : ∀ cacheKey ∈ request.cacheKeys, request.touches home cacheKey reply.1 = true)
    (here : reply.1.home = some home) (refused : request.failure reply.1 reply.2 = some e) :
    Handled request log [home] (.error e) where
  asked home' among cacheKey inside := by
    obtain rfl := List.mem_singleton.mp among
    exact ⟨reply, member, touches cacheKey inside⟩
  reported := show Reported request log ([] ++ [home]) (.error e) from
    .refused (List.forall_mem_nil _) member here refused

/-- What else was answered does not matter. -/
theorem Handled.within (handled : Handled request log homes result) (more : log ⊆ log')
    (quiet : ∀ e ∈ log', e ∈ log ∨ request.failure e.1 e.2 = none) :
    Handled request log' homes result where
  asked home among cacheKey inside := by
    obtain ⟨e, shown, touches⟩ := handled.asked home among cacheKey inside
    exact ⟨e, more shown, touches⟩
  reported := by
    cases handled.reported with
    | obeyed obeyed calm =>
        refine .obeyed (fun home here => (obeyed home here).mono more) fun e member => ?_
        rcases quiet e member with before | none
        · exact calm e before
        · exact none
    | refused obeyed member here refused =>
        exact .refused (fun home here => (obeyed home here).mono more) (more member) here refused

/-- Two groups of places that were asked at the same time. -/
theorem Handled.both (shuffle : Shuffle first second log) (left : Handled request first homes mine)
    (right : Handled request second homes' others) :
    Handled request log (homes ++ homes') (mine >>= fun _ => others) where
  asked home among cacheKey inside := by
    rcases List.mem_append.mp among with here | there
    · obtain ⟨e, shown, touches⟩ := left.asked home here cacheKey inside
      exact ⟨e, shuffle.mem_iff.mpr (.inl shown), touches⟩
    · obtain ⟨e, shown, touches⟩ := right.asked home there cacheKey inside
      exact ⟨e, shuffle.mem_iff.mpr (.inr shown), touches⟩
  reported := by
    have fromLeft : first ⊆ log := fun _ shown => shuffle.mem_iff.mpr (.inl shown)
    have fromRight : second ⊆ log := fun _ shown => shuffle.mem_iff.mpr (.inr shown)
    cases left.reported with
    | @refused before reply home e after obeyed member here refused =>
        rw [List.append_assoc, List.cons_append]
        exact .refused (fun home here => (obeyed home here).mono fromLeft)
          (fromLeft member) here refused
    | obeyed obeyed calm =>
        have allLeft : ∀ home ∈ homes, Obeyed request log home :=
          fun home here => (obeyed home here).mono fromLeft
        cases right.reported with
        | obeyed obeyed' calm' =>
            refine .obeyed (fun home among => ?_) fun e member => ?_
            · rcases List.mem_append.mp among with here | there
              · exact allLeft home here
              · exact (obeyed' home there).mono fromRight
            · rcases shuffle.mem_iff.mp member with here | there
              · exact calm e here
              · exact calm' e there
        | @refused before reply home e after obeyed' member here refused =>
            rw [← List.append_assoc]
            refine .refused (fun home among => ?_) (fromRight member) here refused
            rcases List.mem_append.mp among with here | there
            · exact allLeft home here
            · exact (obeyed' home there).mono fromRight

/-- A program beside joined ones. -/
theorem handled_joined {p : Code ι (Except CacheError Unit)}
    {ps : List (Code ι (Except CacheError Unit))}
    (left : ∀ {log result}, p.Yields log result → Handled request log homes result)
    (right : ∀ {log result}, (Prog.gather TieredStore.firstError ps).Yields log result →
      Handled request log homes' result)
    (yields : (Prog.gather TieredStore.firstError (p :: ps)).Yields log result) :
    Handled request log (homes ++ homes') result := by
  have opened : (Prog.gather TieredStore.firstError ([p] ++ ps)).Yields log result := yields
  obtain ⟨first, second, mine, others, shuffle, here, there, rfl⟩ :=
    (Prog.yields_gather_append TieredStore.firstError_folds).mp opened
  rw [Prog.gather_one TieredStore.firstError_folds] at here
  exact (left here).both shuffle (right there)

theorem handled_none
    (yields : (Prog.gather (S := sig ι) TieredStore.firstError []).Yields log result) :
    Handled request log [] result := by
  obtain ⟨_, joined, rfl⟩ := Prog.yields_gather.mp yields
  obtain ⟨rfl, rfl⟩ := Prog.yields_ret.mp joined
  exact handled_calm (List.forall_mem_nil _) (List.forall_mem_nil _)

end Handled

/-! ## Trees -/

/-- Writes to the store are writes to all its places. An entry to be set has to say
    something, in a form that suits the store. -/
structure DynStore.Handles (homes : List Home) (store : DynStore ι) : Prop where
  sets : ∀ {ty : ι} {e : Entry (Val ty)} {ns key entry log result}, Encodes e entry →
    entry.Suits store.storageMode → (store.set ns key entry).Yields log result →
    Handled (.set ns key) log homes result
  removes : ∀ {ns keys log result}, (store.remove ns keys).Yields log result →
    Handled (.remove ns keys) log homes result

theorem HashMapStore.handles (id : Nat) (evictOnSet : Option EvictOnSetConfig) :
    (dyn id evictOnSet : DynStore ι).Handles [.map (.hashMap id)] where
  sets {_ _ ns key entry log result} _ _ yields := by
    have calm : (set id evictOnSet ns key entry : Code ι _).Only
        fun c => ∀ r, (Request.set ns key).failure c r = none :=
      set_only (fun _ => rfl) fun _ _ => ⟨fun _ => rfl, fun _ => rfl⟩
    have quiet := calm.yields yields
    simp only [dyn, set, Ask.mapInsert_bind, Prog.yields_op] at yields
    obtain ⟨_, _, rfl, onward⟩ := yields
    obtain ⟨_, _, _, _, _, ends⟩ := Prog.yields_bind.mp onward
    obtain ⟨_, rfl⟩ := Prog.yields_ret.mp ends
    refine handled_calm ?_ fun e member => quiet e member _
    simp [Request.cacheKeys, Request.touches, Cmd.writesAt]
  removes yields := by
    simp only [dyn, remove, Ask.mapRemove_bind, Prog.yields_op] at yields
    obtain ⟨_, _, rfl, onward⟩ := yields
    obtain ⟨rfl, rfl⟩ := Prog.yields_ret.mp onward
    refine handled_calm ?_ ?_
    · intro home here cacheKey member
      obtain rfl := List.mem_singleton.mp here
      exact ⟨_, List.mem_cons_self ..,
        by simpa [Request.cacheKeys, Request.touches, Cmd.takesAt] using member⟩
    · simp [Request.failure]

theorem MokaStore.remove_handled {id : Nat} {ns : String} {keys : List String} {log : Log ι}
    {result : Except CacheError Unit} (yields : (remove id ns keys).Yields log result) :
    Handled (.remove ns keys) log [.map (.moka id)] result := by
  suffices told : result = .ok () ∧ log = keys.map fun key =>
      ⟨.mapRemove (.moka id) [buildCacheKey ns key], ()⟩ by
    obtain ⟨rfl, rfl⟩ := told
    refine handled_calm ?_ fun e member => ?_
    · intro home here cacheKey member
      obtain rfl := List.mem_singleton.mp here
      obtain ⟨key, inside, rfl⟩ := List.mem_map.mp member
      exact ⟨_, List.mem_map_of_mem inside, by simp [Request.touches, Cmd.takesAt]⟩
    · obtain ⟨key, _, rfl⟩ := List.mem_map.mp member
      rfl
  induction keys generalizing log with
  | nil =>
      obtain ⟨rfl, rfl⟩ := Prog.yields_ret.mp yields
      exact ⟨rfl, rfl⟩
  | cons key keys ih =>
      simp only [remove, Ask.mapRemove_bind, Prog.yields_op] at yields
      obtain ⟨_, _, rfl, onward⟩ := yields
      obtain ⟨rfl, rfl⟩ := ih onward
      exact ⟨rfl, rfl⟩

theorem MokaStore.handles (id : Nat) : (dyn id : DynStore ι).Handles [.map (.moka id)] where
  sets _ _ yields := by
    simp only [dyn, set, Ask.mapInsert_bind, Prog.yields_op] at yields
    obtain ⟨_, _, rfl, onward⟩ := yields
    obtain ⟨rfl, rfl⟩ := Prog.yields_ret.mp onward
    refine handled_calm ?_ ?_
    · simp [Request.cacheKeys, Request.touches, Cmd.writesAt]
    · simp [Request.failure]
  removes yields := remove_handled yields

theorem RedisStore.handles (server : Nat) (disableExpiration : Bool) :
    (dyn server disableExpiration : DynStore ι).Handles [.server server] where
  sets {_ _ ns key entry log result} _ suits yields := by
    cases entry with
    | typed => cases suits
    | serialized json freshUntil staleUntil =>
        cases disableExpiration with
        | true =>
            simp only [dyn, set, if_true, Ask.redisSet_bind, Prog.yields_op] at yields
            obtain ⟨done, _, rfl, onward⟩ := yields
            cases done with
            | error message =>
                obtain ⟨rfl, rfl⟩ := Prog.yields_ret.mp onward
                refine handled_refused (List.mem_cons_self ..) ?_ rfl rfl
                simp [Request.cacheKeys, Request.touches, Cmd.writesAt]
            | ok =>
                obtain ⟨rfl, rfl⟩ := Prog.yields_ret.mp onward
                refine handled_calm ?_ ?_
                · simp [Request.cacheKeys, Request.touches, Cmd.writesAt]
                · simp [Request.failure]
        | false =>
            simp only [dyn, set, Bool.false_eq_true, if_false, Ask.now_bind, Ask.redisSetEx_bind,
              Prog.yields_op] at yields
            obtain ⟨now, _, rfl, done, _, rfl, onward⟩ := yields
            cases done with
            | error message =>
                obtain ⟨rfl, rfl⟩ := Prog.yields_ret.mp onward
                refine handled_refused (List.mem_cons_of_mem _ (List.mem_cons_self ..)) ?_ rfl rfl
                simp [Request.cacheKeys, Request.touches, Cmd.writesAt]
            | ok =>
                obtain ⟨rfl, rfl⟩ := Prog.yields_ret.mp onward
                refine handled_calm ?_ ?_
                · simp [Request.cacheKeys, Request.touches, Cmd.writesAt]
                · simp [Request.failure]
  removes {ns keys log result} yields := by
    simp only [dyn, remove] at yields
    split at yields
    · next empty =>
        obtain rfl := List.isEmpty_iff.mp empty
        obtain ⟨rfl, rfl⟩ := Prog.yields_ret.mp yields
        exact handled_calm (fun _ _ => List.forall_mem_nil _) (List.forall_mem_nil _)
    · simp only [Ask.redisDel_bind, Prog.yields_op] at yields
      obtain ⟨done, _, rfl, onward⟩ := yields
      have touches :
          ∀ cacheKey ∈ (Request.remove ns keys).cacheKeys,
            (Request.remove ns keys).touches (.server server) cacheKey
              (.redisDel server (keys.map (buildCacheKey ns)) : Cmd ι) = true := by
        intro cacheKey member
        simpa [Request.cacheKeys, Request.touches, Cmd.takesAt] using member
      cases done with
      | error message =>
          obtain ⟨rfl, rfl⟩ := Prog.yields_ret.mp onward
          exact handled_refused (List.mem_cons_self ..) touches rfl rfl
      | ok =>
          obtain ⟨rfl, rfl⟩ := Prog.yields_ret.mp onward
          refine handled_calm ?_ ?_
          · intro home here cacheKey member
            obtain rfl := List.mem_singleton.mp here
            exact ⟨_, List.mem_cons_self .., touches cacheKey member⟩
          · simp [Request.failure]

theorem MetricsStore.handles {inner : DynStore ι} {homes : List Home}
    (handles : inner.Handles homes) (sink : Nat) : (dyn inner sink).Handles homes := by
  have told {request : Request} {log : Log ι} {metric : CacheMetric}
    {result : Except CacheError Unit}
      (handled : Handled request log homes result) :
      Handled request (log ++ [⟨.emit sink metric, ()⟩]) homes result := by
    refine handled.within (List.subset_append_left _ _) fun e member => ?_
    rcases List.mem_append.mp member with before | last
    · exact .inl before
    · obtain rfl := List.mem_singleton.mp last
      cases request <;> exact .inr rfl
  constructor
  case sets =>
    intro ty e ns key entry log result encodes suits yields
    obtain ⟨first, within, rfl⟩ := yields_of_emit yields
    exact told (handles.sets encodes suits within)
  case removes =>
    intro ns keys log result yields
    obtain ⟨first, within, rfl⟩ := yields_of_emit yields
    exact told (handles.removes within)

/-- An entry that says something can be converted. -/
theorem Encodes.converts [LawfulSerdeJson ι] {ty : ι} {e : Entry (Val ty)} {entry : StoredEntry ι}
    (encodes : Encodes e entry) (mode : StorageMode) :
    ∃ converted, entry.convertForMode mode = .ok converted := by
  cases mode with
  | typed => exact ⟨entry, Encodes.toTyped entry⟩
  | serialized =>
      obtain ⟨json, _, done⟩ := encodes.toSerialized
      exact ⟨_, done⟩

theorem TieredStore.setTier_handled [LawfulSerdeJson ι] {tier : DynStore ι} {homes : List Home}
    (handles : tier.Handles homes) {ty : ι} {e : Entry (Val ty)} {ns key : String}
    {entry : StoredEntry ι} {log : Log ι} {result : Except CacheError Unit}
    (encodes : Encodes e entry) (yields : (setTier ns key entry tier).Yields log result) :
    Handled (.set ns key) log homes result := by
  obtain ⟨converted, done⟩ := encodes.converts tier.storageMode
  simp only [setTier, done] at yields
  exact handles.sets (encodes_converts encodes done) (convertForMode_suits done) yields

namespace Store

mutual
theorem handles [LawfulSerdeJson ι] :
    ∀ store : Store, store.closed = true → (store.dyn ι).Handles store.homes
  | .hashMap id evictOnSet, _ => HashMapStore.handles id evictOnSet
  | .moka id, _ => MokaStore.handles id
  | .redis server disableExpiration, _ => RedisStore.handles server disableExpiration
  | .metrics inner sink, inside => MetricsStore.handles (handles inner inside) sink
  | .tiered tiers, inside => ⟨fun encodes _ yields => setAll_handled tiers inside encodes yields,
      fun yields => removeAll_handled tiers inside yields⟩
  | .ext .., inside => by cases inside

/-- All tiers that are set together. -/
theorem setAll_handled [LawfulSerdeJson ι] : ∀ stores : List Store, allClosed stores = true →
    ∀ {ty : ι} {e : Entry (Val ty)} {ns key entry} {log : Log ι} {result}, Encodes e entry →
    (Prog.gather TieredStore.firstError
      ((dynList ι stores).map (TieredStore.setTier ns key entry))).Yields log result →
    Handled (.set ns key) log (homesOf stores) result
  | [], _, _, _, _, _, _, _, _, _, yields => handled_none yields
  | store :: stores, inside, _, _, _, _, _, _, _, encodes, yields => by
      obtain ⟨here, others⟩ := Bool.and_eq_true_iff.mp inside
      exact handled_joined (TieredStore.setTier_handled (handles store here) encodes)
        (setAll_handled stores others encodes) yields

theorem removeAll_handled [LawfulSerdeJson ι] : ∀ stores : List Store, allClosed stores = true →
    ∀ {ns keys} {log : Log ι} {result},
    (Prog.gather TieredStore.firstError ((dynList ι stores).map fun tier =>
      tier.remove ns keys)).Yields log result →
    Handled (.remove ns keys) log (homesOf stores) result
  | [], _, _, _, _, _, yields => handled_none yields
  | store :: stores, inside, _, _, _, _, yields => by
      obtain ⟨here, others⟩ := Bool.and_eq_true_iff.mp inside
      exact handled_joined (handles store here).removes (removeAll_handled stores others) yields
end

end Store

/-! ## Caches -/

/-- An origin has returned a value. -/
def Cmd.gains : (c : Cmd ι) → c.Ans → Bool
  | .loadEnd .., some _ => true
  | _, _ => false

/-- No origin has returned a value. -/
def Gainless (log : Log ι) : Prop := ∀ e ∈ log, e.1.gains e.2 = false

@[simp] theorem gainless_nil : Gainless ([] : Log ι) := List.forall_mem_nil _

@[simp] theorem gainless_cons {e : Σ c : Cmd ι, c.Ans} {log : Log ι} :
    Gainless (e :: log) ↔ e.1.gains e.2 = false ∧ Gainless log := List.forall_mem_cons

@[simp] theorem gainless_append {first second : Log ι} :
    Gainless (first ++ second) ↔ Gainless first ∧ Gainless second := List.forall_mem_append

/-- The one value that was gained is where it is. -/
theorem gained_once {pre post before after : Log ι} {x y : Σ c : Cmd ι, c.Ans}
    (same : pre ++ x :: post = before ++ y :: after) (early : Gainless pre) (late : Gainless post)
    (gains : y.1.gains y.2 = true) : y = x ∧ after = post := by
  have absent {log : Log ι} (gainless : Gainless log) : y ∉ log := fun member => by
    have none := gainless y member
    rw [gains] at none
    cases none
  rcases List.append_eq_append_iff.mp same with ⟨between, rfl, split⟩ | ⟨between, rfl, split⟩
  · cases between with
    | nil =>
        obtain ⟨rfl, rfl⟩ := List.cons.inj split
        exact ⟨rfl, rfl⟩
    | cons _ between =>
        obtain ⟨rfl, rfl⟩ := List.cons.inj split
        exact absurd (by simp) (absent late)
  · cases between with
    | nil =>
        obtain ⟨rfl, rfl⟩ := List.cons.inj split
        exact ⟨rfl, rfl⟩
    | cons _ between =>
        obtain ⟨rfl, rfl⟩ := List.cons.inj split
        exact absurd (by simp) (absent early)

theorem Cmd.OfStore.gains {c : Cmd ι} (ofStore : c.OfStore) (r : c.Ans) : c.gains r = false := by
  cases c <;> first | rfl | exact ofStore.elim

theorem gainless_ofStore {log : Log ι} (ofStore : ∀ e ∈ log, e.1.OfStore) : Gainless log :=
  fun e member => Cmd.OfStore.gains (ofStore e member) e.2

namespace SwrCache

variable {self : SwrCache ι} {ns key : String} {log : Log ι} {result : Except CacheError Unit}

/-- Every leaf was told to keep the entry. -/
def Delivers (self : SwrCache ι) (ns key : String) (log : Log ι)
    (entry : Entry (Val self.ty)) : Prop :=
  ∀ home ∈ self.store.homes, ∃ e ∈ log, e.1.writesAt home (buildCacheKey ns key) = true ∧
    e.1.Puts (Encodes entry) (buildCacheKey ns key)

theorem Delivers.mono {log' : Log ι} {entry : Entry (Val self.ty)}
    (delivers : self.Delivers ns key log entry) (more : log ⊆ log') :
    self.Delivers ns key log' entry := by
  intro home member
  obtain ⟨e, shown, writes⟩ := delivers home member
  exact ⟨e, more shown, writes⟩

variable [LawfulSerdeJson ι]

/-- What the cache makes of an entry goes to all leaves. -/
theorem hands_delivered (closed : self.store.closed = true) {entry : Entry (Val self.ty)}
    {stored : StoredEntry ι}
    (made : storedEntry self.ty self.dyn.storageMode entry.value entry.freshUntil entry.staleUntil =
      .ok stored)
    (yields : (self.dyn.set ns key stored).Yields log result) :
    self.Delivers ns key log entry ∧ Handled (.set ns key) log self.store.homes result := by
  have encodes : Encodes entry stored := storedEntry_encodes made
  have handled := (self.store.handles closed).sets encodes (storedEntry_suits made) yields
  have puts := (Store.putsOnly encodes_converts self.store ns key stored encodes).yields yields
  refine ⟨fun home member => ?_, handled⟩
  obtain ⟨e, shown, writes⟩ := handled.asked home member _ (List.mem_cons_self ..)
  exact ⟨e, shown, writes, puts e shown⟩

theorem set_delivers (closed : self.store.closed = true) {value : Val self.ty}
    {opts : Option SetOptions} (yields : (SwrCache.set self ns key value opts).Yields log result) :
    ∃ now rest, log = ⟨.now, now⟩ :: rest ∧
      self.Delivers ns key rest ⟨value, addMs now ((opts.map SetOptions.freshMs).getD self.freshMs),
        addMs now ((opts.map SetOptions.staleMs).getD self.staleMs)⟩ ∧
      Handled (.set ns key) rest self.store.homes result := by
  simp only [SwrCache.set, Ask.now_bind, Prog.yields_op] at yields
  obtain ⟨now, rest, rfl, onward⟩ := yields
  obtain ⟨stored, made, _⟩ :=
    Encodes.of_storedEntry (e := (⟨value, _, _⟩ : Entry (Val self.ty))) self.dyn.storageMode
  rw [made] at onward
  exact ⟨now, rest, rfl, hands_delivered closed made onward⟩

theorem cacheValueTask_delivers (closed : self.store.closed = true) {value : Val self.ty}
    {freshUntil staleUntil : Int}
    (yields : (self.cacheValueTask ns key value freshUntil staleUntil).Yields log ()) :
    self.Delivers ns key log ⟨value, freshUntil, staleUntil⟩ := by
  obtain ⟨stored, made, _⟩ :=
    Encodes.of_storedEntry (e := (⟨value, freshUntil, staleUntil⟩ : Entry (Val self.ty)))
    self.dyn.storageMode
  simp only [cacheValueTask, made] at yields
  obtain ⟨first, _, second, rfl, sets, _⟩ := Prog.yields_bind.mp yields
  exact (hands_delivered closed made sets).1.mono (List.subset_append_left _ _)

/-- A renewal gets nothing from its origin, or all leaves are told what it gets. -/
theorem revalidateTask_delivers (yields : (self.revalidateTask ns key).Yields log ()) :
    Gainless log ∨ ∃ value now rest, log = self.renewalLog ns key value now ++ rest ∧
    Gainless rest ∧ (self.store.closed = true →
      self.Delivers ns key rest ⟨value, addMs now self.freshMs, addMs now self.staleMs⟩) := by
  simp only [revalidateTask, Ask.containsKey_bind, Prog.yields_op] at yields
  obtain ⟨running, _, rfl, onward⟩ := yields
  cases running with
  | true =>
      obtain ⟨rfl, _⟩ := Prog.yields_ret.mp onward
      exact .inl (by simp [Cmd.gains])
  | false =>
      simp only [Bool.false_eq_true, if_false, Ask.insertMarker_bind, Ask.loadStart_bind,
        Ask.loadEnd_bind, Prog.yields_op] at onward
      obtain ⟨_, _, rfl, _, _, rfl, answer, _, rfl, onward⟩ := onward
      cases answer with
      | none =>
          simp only [unmark, Ask.removeMarker, issue, Prog.yields_op, Prog.yields_ret] at onward
          obtain ⟨_, _, rfl, rfl, _⟩ := onward
          exact .inl (by simp [Cmd.gains])
      | some value =>
          simp only [Ask.now_bind, Prog.yields_op] at onward
          obtain ⟨now, _, rfl, onward⟩ := onward
          obtain ⟨stored, made, _⟩ := Encodes.of_storedEntry self.dyn.storageMode
            (e := (⟨value, addMs now self.freshMs, addMs now self.staleMs⟩ : Entry (Val self.ty)))
          simp only [made] at onward
          obtain ⟨second, _, last, rfl, sets, onward⟩ := Prog.yields_bind.mp onward
          simp only [unmark, Ask.removeMarker, issue, Prog.yields_op, Prog.yields_ret] at onward
          obtain ⟨_, _, rfl, rfl, _⟩ := onward
          have plain : self.dyn.Plain := self.store.plain
          refine .inr ⟨value, now, _, rfl, ?_, fun closed =>
            (hands_delivered closed made sets).1.mono (List.subset_append_left _ _)⟩
          simp [gainless_ofStore ((plain.set ns key stored).yields sets), Cmd.gains]

section Loads

variable [DecidableEq ι] {handed : Option (Val self.ty)}

omit [LawfulSerdeJson ι]

omit [DecidableEq ι] in
theorem look_gainless {look : Log ι} {found : Except CacheError (Option (StoredEntry ι))}
    (looks : (self.dyn.get ns key).Yields look found) : Gainless look := by
  have plain : self.dyn.Plain := self.store.plain
  exact gainless_ofStore ((plain.get ns key).yields looks)

theorem Finds.gainless {look : Log ι} {entry : Entry (Val self.ty)}
    (finds : self.Finds ns key look entry) : Gainless look := by
  obtain ⟨_, looks, _⟩ := finds
  exact look_gainless looks

theorem Misses.gainless {look : Log ι} (misses : self.Misses ns key look) : Gainless look := by
  obtain ⟨_, looks, _⟩ := misses
  exact look_gainless looks

/-- A load gains what it hands back, or nothing. -/
theorem Load.gains (load : self.Load ns key log handed) :
    Gainless log ∨ ∃ value before, handed = some value ∧
    log = before ++ [⟨.loadEnd self ns key, some value⟩,
      ⟨.removeMarker self.revalidating (buildCacheKey ns key), ()⟩] ∧ Gainless before := by
  cases load with
  | waited finds => exact .inl (by simp [Cmd.gains, finds.gainless])
  | @again look _ misses =>
      cases handed with
      | none => exact .inl (by simp [Cmd.gains, markedLog, misses.gainless])
      | some value =>
          refine .inr ⟨value, ⟨.containsKey self.revalidating (buildCacheKey ns key), true⟩ ::
            ⟨.sleep 100, ()⟩ :: (look ++ [⟨.insertMarker self.revalidating (buildCacheKey ns key),
              ()⟩, ⟨.loadStart self ns key, ()⟩]),
            rfl, by simp [markedLog], ?_⟩
          simp [Cmd.gains, misses.gainless]
  | free =>
      cases handed with
      | none => exact .inl (by simp [Cmd.gains, markedLog])
      | some value =>
          exact .inr ⟨value, [⟨.containsKey self.revalidating (buildCacheKey ns key), false⟩,
            ⟨.insertMarker self.revalidating (buildCacheKey ns key), ()⟩,
            ⟨.loadStart self ns key, ()⟩], rfl, rfl, by simp [Cmd.gains]⟩

/-- What a call gains it hands over to be cached, as its last act. -/
theorem Course.gains {found : Option (Val self.ty)} (course : self.Course ns key log found) :
    Gainless log ∨ ∃ value now before, log = before ++ ⟨.loadEnd self ns key, some value⟩ ::
      ⟨.removeMarker self.revalidating (buildCacheKey ns key), ()⟩ ::
      self.cachingLog ns key value now ∧ Gainless before := by
  cases course with
  | fresh _ finds | stale _ finds => exact .inl (by simp [Cmd.gains, finds.gainless])
  | @renewed look _ load value now later finds _ loads =>
      rcases loads.gains with none | ⟨_, before, same, rfl, early⟩
      · exact .inl (by simp [Cmd.gains, finds.gainless, none, cachingLog])
      · cases same
        exact .inr ⟨value, later, look ++ ⟨.now, now⟩ :: before, by simp,
          by simp [Cmd.gains, finds.gainless, early]⟩
  | fallback _ finds _ loads =>
      rcases loads.gains with none | ⟨_, _, absent, _⟩
      · exact .inl (by simp [Cmd.gains, finds.gainless, none])
      · cases absent
  | @loaded look load value later misses loads =>
      rcases loads.gains with none | ⟨_, before, same, rfl, early⟩
      · exact .inl (by simp [Cmd.gains, misses.gainless, none, cachingLog])
      · cases same
        exact .inr ⟨value, later, look ++ before, by simp, by simp [misses.gainless, early]⟩
  | empty misses loads =>
      rcases loads.gains with none | ⟨_, _, absent, _⟩
      · exact .inl (by simp [misses.gainless, none])
      · cases absent

end Loads

end SwrCache

section Runs

variable [DecidableEq ι] [LawfulSerdeJson ι] {X : ExtSemantics ι} {w : World ι}
  {past : History (system X)} {s : Config (system X)} {i : Nat}
  {th : Thread (system X)} {out : Out ι}

/-- A `set` that has returned has told all leaves to keep one and the same entry, and a
    removal has told all leaves to drop the keys, whatever the others answered. Either fails
    only where a server has refused it, in the words of the first leaf that was refused.
    Otherwise all of them have obeyed. -/
theorem writes_reported (run : Run (system X) (.idle w) past s) (at_i : s.threads[i]? = some th)
    (finished : th.Finished out) :
    (∀ cache ns key value opts, th.task = .set cache ns key value opts → cache.store.closed = true →
      ∃ now rest result, out = .done result ∧ replies i past = ⟨.now, now⟩ :: rest ∧
        cache.Delivers ns key rest
          ⟨value, addMs now ((opts.map SetOptions.freshMs).getD cache.freshMs),
          addMs now ((opts.map SetOptions.staleMs).getD cache.staleMs)⟩ ∧
        Reported (.set ns key) rest cache.store.homes result) ∧
    (∀ cache ns key, th.task = .remove cache ns key → cache.store.closed = true →
      ∃ result, out = .done result ∧
      Handled (.remove ns [key]) (replies i past) cache.store.homes result) ∧
    ∀ store ns keys, th.task = .storeRemove store ns keys → store.closed = true →
      ∃ result, out = .done result ∧
      Handled (.remove ns keys) (replies i past) store.homes result := by
  have yields := run.finished_yields at_i finished
  refine ⟨fun cache ns key value opts task closed => ?_, fun cache ns key task closed => ?_,
    fun store ns keys task closed => ?_⟩
  all_goals
    rw [task] at yields
    obtain ⟨result, calls, rfl⟩ := Prog.yields_map.mp yields
  · obtain ⟨now, rest, begins, delivers, handled⟩ := SwrCache.set_delivers closed calls
    exact ⟨now, rest, result, rfl, begins, delivers, handled.reported⟩
  · exact ⟨result, rfl, (cache.store.handles closed).removes calls⟩
  · exact ⟨result, rfl, (store.handles closed).removes calls⟩

/-- As `driver`, but servers refuse what they are told to keep. -/
def refusing : Driver (system (ExtSemantics.atomicMap : ExtSemantics Unit))
    (Int × ((i : Unit) → Option (Val i))) where
  time input := input.1
  answer input i w
    | .redisSet .. => (.error "refused", w)
    | c => perform (.calm input.1 input.2) i input.1 w c
  sound input i w c := by
    have calm := perform_exec_atomicMap input.1 input.2 i input.1 w c
    cases c
    case redisSet => exact .inr ⟨_, rfl, .inl rfl⟩
    all_goals exact calm

/-- A server before a map. -/
def frontedCache : SwrCache Unit := .new () (.tiered [.redis 0 true, .moka 0]) 10 20 0

attribute [local semireducible] Json.valueKey Json.freshKey Json.staleKey Json.closing

/-- The server refuses, and the map is written all the same. -/
theorem writes_reported_refused :
    ∃ (past : History (system .atomicMap)) (s : Config (system .atomicMap)),
    Run (system .atomicMap) (.idle (.empty : World Unit)) past s ∧
    (∃ th, s.threads[0]? = some th ∧ th.task = .set frontedCache "ns" "k" true none ∧
      th.Finished (.done (.error (.operation "redis" "k" "SET failed: refused")))) ∧
    ∃ now rest, replies 0 past = ⟨.now, now⟩ :: rest ∧
      frontedCache.Delivers "ns" "k" rest ⟨true, addMs now 10, addMs now 20⟩ ∧
      Reported (.set "ns" "k") rest [.server 0, .map (.moka 0)]
        (.error (.operation "redis" "k" "SET failed: refused")) := by
  obtain ⟨past, s, played, th, at_0, task, finished⟩ : ∃ past s,
      refusing.play (fun _ _ => True) [.start (.set frontedCache "ns" "k" true none),
        .go 0 (reading 0), .turn 0 true, .go 0 (reading 0), .go 0 (reading 0)] ([],
        .idle .empty) = some (past, s) ∧
      ∃ th, s.threads[0]? = some th ∧ th.task = .set frontedCache "ns" "k" true none ∧
        th.Finished (.done (.error (.operation "redis" "k" "SET failed: refused"))) :=
    ⟨_, _, rfl, _, rfl, rfl, rfl⟩
  obtain ⟨run, _⟩ := Driver.plays played
  obtain ⟨now, rest, result, same, begins, delivers, reported⟩ :=
    (writes_reported run at_0 finished).1 frontedCache "ns" "k" true none task rfl
  cases same
  exact ⟨past, s, run, ⟨th, at_0, task, finished⟩, now, rest, begins, delivers, reported⟩

/-- Once everything has returned, all that origins have returned has been delivered: every
    leaf was told to keep the value, by the call itself or by a task that it has left behind,
    with stamps that were counted from a clock reading after the load. -/
theorem loads_delivered (run : Run (system X) (.idle w) past s)
    (returned : ∀ (i : Nat) (th : Thread (system X)), s.threads[i]? = some th →
      ∃ out, th.Finished out)
    (at_i : s.threads[i]? = some th) {cache : SwrCache ι} {ns key : String} {value : Val cache.ty}
    (closed : cache.store.closed = true) {before after : Log ι}
    (loaded : replies i past = before ++ ⟨.loadEnd cache ns key, some value⟩ :: after) :
    ∃ now j heir, ⟨.now, now⟩ ∈ after ∧ s.threads[j]? = some heir ∧ heir.root = th.root ∧
      cache.Delivers ns key (replies j past) ⟨value, addMs now cache.freshMs,
        addMs now cache.staleMs⟩ := by
  obtain ⟨out, finished⟩ := returned i th at_i
  have yields := run.finished_yields at_i finished
  have gainful : ¬ Gainless (replies i past) := by
    rw [loaded]
    simp [Cmd.gains]
  have gains :
      (⟨.loadEnd cache ns key, some value⟩ : Σ c : Cmd ι, c.Ans).1.gains (some value) = true := rfl
  cases task : th.task with
  | swr self ns' key' =>
      obtain ⟨found, _, course⟩ := swr_course run at_i task finished
      rcases course.gains with none | ⟨value', now, pre, split, early⟩
      · exact absurd none gainful
      · obtain ⟨same, rfl⟩ := gained_once (split.symm.trans loaded) early
          (by simp [Cmd.gains, SwrCache.cachingLog]) gains
        cases same
        -- the call has left a task behind that writes the value
        have handed :
            ⟨.spawn (.cacheValue cache ns key value (addMs now cache.freshMs)
              (addMs now cache.staleMs)), ()⟩
            ∈ replies i past := by simp [split, SwrCache.cachingLog]
        obtain ⟨⟨t, _⟩, inTrace, rfl⟩ := List.mem_map.mp handed
        obtain ⟨s₁, earlier, step⟩ := step_of_mem_trace inTrace
        obtain ⟨j, heir, at_j, task', root⟩ :=
          run.heir (step.subset (List.mem_cons_self ..)) at_i (List.mem_singleton_self _)
        obtain ⟨out', finished'⟩ := returned j heir at_j
        have yields' := run.finished_yields at_j finished'
        rw [task'] at yields'
        obtain ⟨_, caches, _⟩ := Prog.yields_map.mp yields'
        exact ⟨now, j, heir, by simp [SwrCache.cachingLog], at_j, root,
          SwrCache.cacheValueTask_delivers closed caches⟩
  | revalidate self ns' key' =>
      rw [task] at yields
      obtain ⟨_, renews, _⟩ := Prog.yields_map.mp yields
      rcases SwrCache.revalidateTask_delivers renews with none |
        ⟨value', now, rest, split, late, delivers⟩
      · exact absurd none gainful
      · have parts :
            replies i past = [⟨.containsKey self.revalidating (buildCacheKey ns' key'), false⟩,
            ⟨.insertMarker self.revalidating (buildCacheKey ns' key'), ()⟩,
            ⟨.loadStart self ns' key', ()⟩] ++ ⟨.loadEnd self ns' key', some value'⟩ :: ⟨.now,
            now⟩ :: rest := split
        obtain ⟨same, rfl⟩ := gained_once (parts.symm.trans loaded) (by simp [Cmd.gains])
          (by simp [Cmd.gains, late]) gains
        cases same
        refine ⟨now, i, th, List.mem_cons_self .., at_i, rfl,
          (delivers closed).mono fun e member => ?_⟩
        simp [parts, member]
  | get | set | remove | storeGet | storeSet | storeRemove | cacheValue | backfill | redisDel =>
      have plain : th.task.body.Only Cmd.OfStore :=
        Task.body_ofStore (by rw [task]; exact fun _ _ => id)
      exact absurd (gainless_ofStore (plain.yields yields)) gainful

/-- A miss: the call has returned what it has loaded, and its task has written it. -/
theorem loads_delivered_missed :
    ∃ (past : History (system .atomicMap)) (s : Config (system .atomicMap)),
    Run (system .atomicMap) (.idle (.empty : World Unit)) past s ∧
    (∀ (i : Nat) (th : Thread (system .atomicMap)), s.threads[i]? = some th →
      ∃ out, th.Finished out) ∧
    ∃ before after th, replies 0 past = before ++
    ⟨.loadEnd writerCache "ns" "k", some true⟩ :: after ∧
      s.threads[0]? = some th ∧ ∃ now j heir, ⟨.now, now⟩ ∈ after ∧ s.threads[j]? = some heir ∧
      heir.root = th.root ∧
        writerCache.Delivers "ns" "k" (replies j past) ⟨true, addMs now 10, addMs now 20⟩ := by
  obtain ⟨past, s, played, th, other, threads, ⟨out, ended⟩, ⟨out', ended'⟩, before, after,
    loaded⟩ : ∃ past s,
      driver.play (fun _ _ => True) [.start (.swr writerCache "ns" "k"), .go 0 (reading 0),
        .go 0 (reading 0), .go 0 (reading 0), .go 0 (reading 0), .go 0 (reading 3),
        .go 0 (reading 3), .go 0 (reading 4), .go 0 (reading 4), .go 1 (reading 9)] ([],
        .idle .empty) = some (past, s) ∧
      ∃ th other, s.threads = [th, other] ∧ (∃ out, th.Finished out) ∧ (∃ out, other.Finished out) ∧
      ∃ before after, replies 0 past = before ++
      ⟨.loadEnd writerCache "ns" "k", some true⟩ :: after :=
    ⟨_, _, rfl, _, _, rfl, ⟨_, rfl⟩, ⟨_, rfl⟩, [_, _, _, _], _, rfl⟩
  obtain ⟨run, _⟩ := Driver.plays played
  have returned : ∀ (i : Nat) (th : Thread (system .atomicMap)), s.threads[i]? = some th →
      ∃ out, th.Finished out := by
    intro i th₀ at_i
    have among := List.mem_of_getElem? at_i
    simp only [threads, List.mem_cons, List.not_mem_nil, or_false] at among
    rcases among with rfl | rfl
    · exact ⟨out, ended⟩
    · exact ⟨out', ended'⟩
  have at_0 : s.threads[0]? = some th := by simp [threads]
  exact ⟨past, s, run, returned, before, after, th, loaded, at_0,
    loads_delivered run returned at_0 rfl loaded⟩

end Runs

end Swr
