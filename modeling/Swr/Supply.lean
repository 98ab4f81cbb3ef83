import Swr.ExpiredValues
import Swr.PlainGet
import Swr.Work

/-! # Where values come from

Any number of caches, of any value types, over any trees of stores of the repository that
share whatever they like. If each composite key is used at one type, then what a call
returns was supplied for its own composite key, by a `set` or by an origin, and no entry
is ever found that does not decode.
-/

namespace Swr

open Async

variable {ι : Type} [SerdeJson ι] [DecidableEq ι]

/-! ## What a call hands over -/

/-- Only `swr` starts the tasks that write what was loaded. -/
theorem handsOver_swr {task : Task ι} {log : Log ι} {c : Cmd ι} (reaches : task.body.Reaches log c)
    (handsOver : c.handsOver = true) : ∃ cache ns key, task = .swr cache ns key := by
  have bound := (Rates.body_costs ⟨0, 0, 1, 1⟩ task).reaches reaches
  have pays : 1 ≤ (Rates.price ⟨0, 0, 1, 1⟩ c : Nat) := by
    have rate : c.handsOver.toNat = Rates.cost ⟨0, 0, 1, 1⟩ c := congrFun handsOver_rate c
    rw [handsOver] at rate
    simp only [Rates.price, ← rate, Bool.toNat_true]
    omega
  cases task with
  | swr cache ns key => exact ⟨cache, ns, key, rfl⟩
  | get | set | remove | storeGet | storeSet | storeRemove | cacheValue | revalidate |
      backfill | redisDel =>
      simp only [Rates.budget] at bound
      omega

namespace SwrCache

variable {self : SwrCache ι} {ns key : String} {log : Log ι} {value : Val self.ty}
  {freshUntil staleUntil : Int}

/-- The value was found in the store or came from the origin. -/
def Offered (self : SwrCache ι) (ns key : String) (log : Log ι) (value : Val self.ty) : Prop :=
  (∃ before look after entry, log = before ++ look ++ after ∧ self.Finds ns key look entry ∧
    entry.value = value) ∨ ⟨.loadEnd self ns key, some value⟩ ∈ log

omit [DecidableEq ι] in
/-- Free programs hand nothing over. -/
theorem not_handed {α : Type} {p : Code ι α} (free : p.Costs (Rates.price ⟨0, 0, 1, 1⟩) 0) :
    ¬ p.Reaches log (.spawn (.cacheValue self ns key value freshUntil staleUntil)) := by
  intro reaches
  have bound := free.reaches reaches
  simp only [Rates.price, Rates.cost] at bound
  omega

/-- A load of the call has handed the value back, and then the clock was read. -/
def Handed (self : SwrCache ι) (ns key : String) (log : Log ι) (value : Val self.ty)
    (now : Int) : Prop :=
  ∃ first load, log = first ++ load ++ [⟨.now, now⟩] ∧ self.Load ns key load (some value)

theorem Handed.after {now : Int} (handed : self.Handed ns key log value now) (look : Log ι) :
    self.Handed ns key (look ++ log) value now := by
  obtain ⟨first, load, rfl, loads⟩ := handed
  exact ⟨look ++ first, load, by simp, loads⟩

omit [DecidableEq ι] in
/-- What is cached in the background is the value that was given. -/
theorem cacheValue_hands {given : Val self.ty} {α : Type} {result : α}
    (reaches : (do self.cacheValue ns key given; return result : Code ι α).Reaches log
      (.spawn (.cacheValue self ns key value freshUntil staleUntil))) : given = value ∧
    ∃ now, log = [⟨.now, now⟩] ∧ freshUntil = addMs now self.freshMs ∧
    staleUntil = addMs now self.staleMs := by
  simp only [cacheValue, Ask.now_bind, Ask.spawn, issue, Prog.op_bind, Prog.ret_bind, Prog.pure_eq,
    Prog.reaches_op, Prog.not_reaches_ret] at reaches
  rcases reaches with ⟨_, other⟩ | ⟨now, _, rfl, ⟨rfl, same⟩ | ⟨_, _, _, none⟩⟩
  · cases other
  · cases same
    exact ⟨rfl, now, rfl, rfl, rfl⟩
  · exact none.elim

/-- What a load has handed back is handed on. -/
theorem load_hands {α : Type} {result : α} {given : Val self.ty} {load rest : Log ι}
    (loads : (self.deduplicatedLoadFromOrigin ns key).Yields load (.ok (some given)))
    (reaches : (do self.cacheValue ns key given; return result : Code ι α).Reaches rest
      (.spawn (.cacheValue self ns key value freshUntil staleUntil))) :
    ∃ now, self.Handed ns key (load ++ rest) value now ∧ freshUntil = addMs now self.freshMs ∧
      staleUntil = addMs now self.staleMs := by
  obtain ⟨rfl, now, rfl, stamps⟩ := cacheValue_hands reaches
  obtain ⟨_, same, course⟩ := deduplicatedLoadFromOrigin_yields loads
  cases same
  exact ⟨now, ⟨[], load, rfl, course⟩, stamps⟩

theorem loadOrFail_hands
    (reaches : (self.loadOrFail ns key).Reaches log
      (.spawn (.cacheValue self ns key value freshUntil staleUntil))) :
    ∃ now, self.Handed ns key log value now ∧ freshUntil = addMs now self.freshMs ∧
      staleUntil = addMs now self.staleMs := by
  rcases reaches.of_bind with within | ⟨load, result, rest, rfl, loads, onward⟩
  · exact absurd within (not_handed Rates.deduplicatedLoadFromOrigin_costs)
  · rcases result with e | _ | given
    · cases onward
    · cases onward
    · exact load_hands loads onward

/-- What is handed over to be cached is what a load of the same call has handed back. -/
theorem swr_hands
    (reaches : (self.swr ns key).Reaches log
      (.spawn (.cacheValue self ns key value freshUntil staleUntil))) :
    ∃ now, self.Handed ns key log value now ∧ freshUntil = addMs now self.freshMs ∧
      staleUntil = addMs now self.staleMs := by
  have afterwards : ∀ look rest : Log ι, (∃ now, self.Handed ns key rest value now ∧
      freshUntil = addMs now self.freshMs ∧ staleUntil = addMs now self.staleMs) →
      ∃ now, self.Handed ns key (look ++ rest) value now ∧ freshUntil = addMs now self.freshMs ∧
        staleUntil = addMs now self.staleMs :=
    fun look rest ⟨now, handed, stamps⟩ => ⟨now, handed.after look, stamps⟩
  rcases reaches.of_bind with within | ⟨look, result, rest, rfl, _, onward⟩
  · exact absurd within (not_handed Rates.getInternal_costs)
  · split at onward
    · simp only [spawnRevalidation, Ask.spawn_bind, Prog.reaches_op, Prog.pure_eq,
        Prog.not_reaches_ret] at onward
      rcases onward with ⟨_, other⟩ | ⟨_, _, _, none⟩
      · cases other
      · exact none.elim
    · rcases onward.of_bind with within | ⟨load, result, rest, rfl, loads, onward⟩
      · exact absurd within (not_handed Rates.deduplicatedLoadFromOrigin_costs)
      · rcases result with e | _ | given
        · cases onward
        · cases onward
        · exact afterwards look _ (load_hands loads onward)
    · cases onward
    · exact afterwards look _ (loadOrFail_hands onward)
    · exact afterwards look _ (loadOrFail_hands onward)
    · exact afterwards look _ (loadOrFail_hands onward)

end SwrCache

/-! ## What a look-up answers -/

/-- Why a look-up fails: a server has refused to answer, or has shown a text that cannot be
    read. -/
inductive Blamed (past : Log ι) (ns key : String) : CacheError → Prop where
  | refused : ⟨.redisGet server (buildCacheKey ns key), .error message⟩ ∈ past →
      Blamed past ns key (.operation "redis" key ("GET failed: " ++ message))
  | garbled : ⟨.redisGet server (buildCacheKey ns key), .ok (some json)⟩ ∈ past →
      SerdeJson.metadataFromStr ι json = .error message →
      Blamed past ns key (.operation "redis" key ("Metadata parse failed: " ++ message))

omit [DecidableEq ι] in
theorem Blamed.mono {log log' : Log ι} {ns key : String} {e : CacheError}
    (blamed : Blamed log ns key e) (more : log ⊆ log') : Blamed log' ns key e := by
  cases blamed with
  | refused shown => exact .refused (more shown)
  | garbled shown unread => exact .garbled (more shown) unread

/-- A `get` fails for no other reason. -/
def DynStore.Blames (store : DynStore ι) : Prop :=
  ∀ {ns key log e}, (store.get ns key).Yields log (.error e) → Blamed log ns key e

section Blames

omit [DecidableEq ι]

theorem HashMapStore.blames (id : Nat) (evictOnSet : Option EvictOnSetConfig) :
    (dyn id evictOnSet : DynStore ι).Blames := by
  intro ns key log e yields
  simp only [dyn, get, Ask.mapRead_bind, Prog.yields_op] at yields
  obtain ⟨⟨found, now⟩, later, rfl, onward⟩ := yields
  cases found with
  | none => cases onward
  | some stored =>
      dsimp only at onward
      split at onward
      · simp only [Ask.mapExpire_bind, Prog.yields_op, Prog.pure_eq, Prog.yields_ret] at onward
        obtain ⟨_, _, _, _, same⟩ := onward
        cases same
      · cases onward

theorem MokaStore.blames (id : Nat) : (dyn id : DynStore ι).Blames := by
  intro ns key log e yields
  simp only [dyn, get, Ask.mapGet_bind, Prog.yields_op] at yields
  obtain ⟨found, later, rfl, onward⟩ := yields
  cases found with
  | none => cases onward
  | some stored =>
      simp only [Ask.now_bind, Prog.yields_op] at onward
      obtain ⟨now, later, rfl, onward⟩ := onward
      split at onward
      · simp only [Ask.mapExpire_bind, Prog.yields_op, Prog.pure_eq, Prog.yields_ret] at onward
        obtain ⟨_, _, _, _, same⟩ := onward
        cases same
      · cases onward

theorem RedisStore.blames (server : Nat) (disableExpiration : Bool) :
    (dyn server disableExpiration : DynStore ι).Blames := by
  intro ns key log e yields
  simp only [dyn, get, Ask.redisGet_bind, Prog.yields_op] at yields
  obtain ⟨result, later, rfl, onward⟩ := yields
  rcases result with message | _ | json
  · cases onward
    exact .refused (List.mem_cons_self ..)
  · cases onward
  · dsimp only at onward
    split at onward
    · next message unread =>
        cases onward
        exact .garbled (List.mem_cons_self ..) unread
    · simp only [Ask.now_bind, Prog.yields_op] at onward
      obtain ⟨now, later, rfl, onward⟩ := onward
      split at onward
      · simp only [Ask.spawn_bind, Prog.yields_op, Prog.pure_eq, Prog.yields_ret] at onward
        obtain ⟨_, _, _, _, same⟩ := onward
        cases same
      · cases onward

theorem MetricsStore.blames {inner : DynStore ι} (blames : inner.Blames) (sink : Nat) :
    (dyn inner sink).Blames := by
  intro ns key log e yields
  obtain ⟨first, result, second, rfl, within, onward⟩ := Prog.yields_bind.mp yields
  rcases result with e' | _ | entry
  · simp only [Prog.ret_bind, Prog.pure_eq, Ask.emit_bind, Prog.yields_op,
      Prog.yields_ret] at onward
    obtain ⟨_, _, _, _, same⟩ := onward
    cases same
    exact (blames within).mono (List.subset_append_left _ _)
  · simp only [Prog.ret_bind, Prog.pure_eq, Ask.emit_bind, Prog.yields_op,
      Prog.yields_ret] at onward
    obtain ⟨_, _, _, _, same⟩ := onward
    cases same
  · simp only [Ask.now_bind, Prog.ret_bind, Prog.pure_eq, Ask.emit_bind, Prog.yields_op,
      Prog.yields_ret] at onward
    obtain ⟨_, _, _, _, _, _, _, same⟩ := onward
    cases same

theorem TieredStore.getFrom_blames {tiers : List (DynStore ι)} (each : ∀ tier ∈ tiers, tier.Blames)
    {lower : List (DynStore ι)} {ns key : String} {log : Log ι} {e : CacheError}
    (yields : (getFrom lower tiers ns key).Yields log (.error e)) : Blamed log ns key e := by
  induction tiers generalizing lower log with
  | nil => cases yields
  | cons tier rest ih =>
      obtain ⟨blames, others⟩ := List.forall_mem_cons.mp each
      obtain ⟨first, result, second, rfl, within, onward⟩ := Prog.yields_bind.mp yields
      rcases result with e' | _ | entry
      · cases onward
        exact (blames within).mono (List.subset_append_left _ _)
      · exact (ih others onward).mono (List.subset_append_right _ _)
      · dsimp only at onward
        split at onward
        · simp only [Ask.spawn_bind, Prog.yields_op, Prog.pure_eq, Prog.yields_ret] at onward
          obtain ⟨_, _, _, _, same⟩ := onward
          cases same
        · cases onward

namespace Store

mutual
theorem closed_blames : ∀ store : Store, store.closed = true → (store.dyn ι).Blames
  | .hashMap id evictOnSet, _ => HashMapStore.blames id evictOnSet
  | .moka id, _ => MokaStore.blames id
  | .redis server disableExpiration, _ => RedisStore.blames server disableExpiration
  | .tiered tiers, inside => TieredStore.getFrom_blames (allClosed_blames tiers inside)
  | .metrics inner sink, inside => MetricsStore.blames (closed_blames inner inside) sink
  | .ext .., inside => by cases inside

theorem allClosed_blames : ∀ stores : List Store, Store.allClosed stores = true →
    ∀ tier ∈ dynList ι stores, tier.Blames
  | [], _, _, member => by simp [dynList] at member
  | store :: stores, inside, tier, member => by
      obtain ⟨here, others⟩ := Bool.and_eq_true_iff.mp inside
      rcases List.mem_cons.mp member with rfl | later
      · exact closed_blames store here
      · exact allClosed_blames stores others tier later
end

end Store

end Blames

/-- What a look-up for the key can issue after it was answered `past`. -/
inductive Cmd.Reads (ns key : String) (past : Log ι) : Cmd ι → Prop where
  | refills : Sighted past (buildCacheKey ns key) stored →
      Reads ns key past (.spawn (.backfill lower ns key stored))
  | clears : Reads ns key past (.spawn (.redisDel server cacheKey))
  | looks : c.isWrite = false → c.spawned = [] → Reads ns key past c

omit [DecidableEq ι] in
theorem reads_ofGet {store : DynStore ι} (shows : store.Shows) (plain : store.Plain)
    {ns key : String} {log : Log ι} {c : Cmd ι} (reaches : (store.get ns key).Reaches log c) :
    c.Reads ns key log := by
  obtain ⟨ofStore, reads⟩ := (plain.read ns key).reaches reaches
  cases c
  case spawn task =>
    cases task
    case backfill =>
      obtain ⟨rfl, rfl, sighted⟩ := shows.refills reaches
      exact .refills sighted
    case redisDel => exact .clears
    all_goals exact ofStore.elim
  all_goals exact .looks reads rfl

omit [DecidableEq ι] in
/-- What a look-up of the cache issues. -/
theorem looksUp_reads {cache : SwrCache ι} {ns key : String} (closed : cache.store.closed = true) :
    cache.LooksUp ns key (fun past next => next.Reads ns key past) where
  reads reaches := reads_ofGet (cache.store.closed_shows closed) cache.dyn_plain reaches
  after before _ _ reads := by
    cases reads with
    | refills sighted => exact .refills (sighted.mono (List.subset_append_right _ _))
    | clears => exact .clears
    | looks reads quiet => exact .looks reads quiet

/-! ## Runs -/

section Runs

variable {X : ExtSemantics ι}

/-- A `set` was called with the value for the composite key, or an origin has returned it. -/
inductive Supplied (past : History (system X)) (cacheKey : String) : (Σ ty : ι, Val ty) → Prop where
  | set {cache : SwrCache ι} {value : Val cache.ty} :
      (s₀, .start (.set cache ns key value opts)) ∈ past → buildCacheKey ns key = cacheKey →
      Supplied past cacheKey ⟨cache.ty, value⟩
  | loaded {cache : SwrCache ι} {value : Val cache.ty} :
      ⟨.loadEnd cache ns key, some value⟩ ∈ replies i past → buildCacheKey ns key = cacheKey →
      Supplied past cacheKey ⟨cache.ty, value⟩

/-- The task of the thread has read the clock. -/
def ReadClock (past : History (system X)) (i : Nat) (task : Task ι) (now : Int) : Prop :=
  ∃ s₁ th, (s₁, .exec i now .now now) ∈ past ∧ s₁.threads[i]? = some th ∧ th.task = task

/-- When an entry was made, and for how long. -/
structure Stamp where
  now : Int
  freshMs : Int
  staleMs : Int

def Stamp.mark {V : Type} (stamp : Stamp) (value : V) : Entry V :=
  ⟨value, addMs stamp.now stamp.freshMs, addMs stamp.now stamp.staleMs⟩

/-- The task of the thread has issued the command after it was answered `log`. -/
def Did (past : History (system X)) (i : Nat) (task : Task ι) (log : Log ι) (c : Cmd ι) : Prop :=
  ∃ s₁ t r earlier th, (s₁, .exec i t c r) :: earlier <:+ past ∧ s₁.threads[i]? = some th ∧
    th.task = task ∧ replies i earlier = log

/-- The command writes the entry under the composite key. -/
def Cmd.Inserts {ty : ι} (entry : Entry (Val ty)) (cacheKey : String) (c : Cmd ι) : Prop :=
  c.isWrite = true ∧ c.Puts (Encodes entry) cacheKey

/-- An entry of the value was made for the composite key, with stamps counted from a clock
    reading of its maker: a `set` has written the value that it was given, a revalidation
    what the origin had returned to it, or an `swr` has handed over to be written what the
    origin had returned to it or what it had found when it had waited, in an entry that
    was made so itself. -/
inductive Issued (past : History (system X)) (cacheKey : String) :
    Stamp → (Σ ty : ι, Val ty) → Prop where
  | set {cache : SwrCache ι} {value : Val cache.ty} : buildCacheKey ns key = cacheKey →
      (s₀, .start (.set cache ns key value opts)) ∈ past →
      ReadClock past i (.set cache ns key value opts) now →
      Did past i (.set cache ns key value opts) (⟨.now, now⟩ :: later) c →
      c.Inserts (Stamp.mark ⟨now, (opts.map SetOptions.freshMs).getD cache.freshMs,
        (opts.map SetOptions.staleMs).getD cache.staleMs⟩ value) cacheKey →
      Issued past cacheKey ⟨now, (opts.map SetOptions.freshMs).getD cache.freshMs,
        (opts.map SetOptions.staleMs).getD cache.staleMs⟩ ⟨cache.ty, value⟩
  | renewed {cache : SwrCache ι} {value : Val cache.ty} : buildCacheKey ns key = cacheKey →
      ReadClock past i (.revalidate cache ns key) now →
      Did past i (.revalidate cache ns key) (cache.renewalLog ns key value now ++ later) c →
      c.Inserts (Stamp.mark ⟨now, cache.freshMs, cache.staleMs⟩ value) cacheKey →
      Issued past cacheKey ⟨now, cache.freshMs, cache.staleMs⟩ ⟨cache.ty, value⟩
  | loaded {cache : SwrCache ι} {value : Val cache.ty} : buildCacheKey ns key = cacheKey →
      ReadClock past i (.swr cache ns key) now →
      Did past i (.swr cache ns key) (first ++ cache.markedLog ns key (some value) ++ [⟨.now, now⟩])
        (.spawn (.cacheValue cache ns key value (addMs now cache.freshMs)
          (addMs now cache.staleMs))) →
      Issued past cacheKey ⟨now, cache.freshMs, cache.staleMs⟩ ⟨cache.ty, value⟩
  | found {cache : SwrCache ι} {entry : Entry (Val cache.ty)} : buildCacheKey ns key = cacheKey →
      ReadClock past i (.swr cache ns key) now →
      Did past i (.swr cache ns key) (first ++ ⟨.containsKey cache.revalidating cacheKey, true⟩ ::
          ⟨.sleep 100, ()⟩ :: look ++ [⟨.now, now⟩])
        (.spawn (.cacheValue cache ns key entry.value (addMs now cache.freshMs)
          (addMs now cache.staleMs))) →
      cache.Finds ns key look entry → Issued past cacheKey stamp ⟨cache.ty, entry.value⟩ →
      stamp.mark entry.value = entry →
      Issued past cacheKey ⟨now, cache.freshMs, cache.staleMs⟩ ⟨cache.ty, entry.value⟩

variable {typing : String → ι} {past : History (system X)} {s s' : Config (system X)}
  {l : Label (system X)} {i : Nat} {ns key cacheKey : String} {cache : SwrCache ι}
  {stored : StoredEntry ι}

/-- All clock readings of the log are those of the task. -/
def OwnClock (past : History (system X)) (i : Nat) (task : Task ι) (log : Log ι) : Prop :=
  ∀ now, ⟨.now, now⟩ ∈ log → ReadClock past i task now

theorem ReadClock.later {task : Task ι} {now : Int} (read : ReadClock past i task now) :
    ReadClock ((s, l) :: past) i task now := by
  obtain ⟨s₁, th, member, at_i, same⟩ := read
  exact ⟨s₁, th, List.mem_cons_of_mem _ member, at_i, same⟩

theorem ownClock {w : World ι} (run : Run (system X) (.idle w) past s) {th : Thread (system X)}
    (at_i : s.threads[i]? = some th) : OwnClock past i th.task (replies i past) := by
  intro now member
  obtain ⟨⟨t, _⟩, inTrace, rfl⟩ := List.mem_map.mp member
  obtain rfl := trace_now run inTrace
  obtain ⟨s₁, earlier, step⟩ := step_of_mem_trace inTrace
  obtain ⟨_, _, taken⟩ := run.upTo step
  cases taken with
  | exec was_i _ _ =>
      obtain ⟨th', at_i', same, _⟩ := run.persists (step.subset (List.mem_cons_self ..)) was_i
      obtain rfl := Option.some.inj (at_i'.symm.trans at_i)
      exact ⟨s₁, _, step.subset (List.mem_cons_self ..), was_i, same.symm⟩

theorem Did.later {task : Task ι} {log : Log ι} {c : Cmd ι} (did : Did past i task log c) :
    Did ((s, l) :: past) i task log c := by
  obtain ⟨s₁, t, r, earlier, th, step, of_i⟩ := did
  exact ⟨s₁, t, r, earlier, th, step.trans (List.suffix_cons _ _), of_i⟩

theorem Did.told {task : Task ι} {log : Log ι} {c : Cmd ι} (did : Did past i task log c) :
    log <+: replies i past := by
  obtain ⟨_, _, _, _, _, step, _, _, rfl⟩ := did
  exact replies_suffix ((List.suffix_cons _ _).trans step)

theorem Issued.later {stamp : Stamp} {value : Σ ty : ι, Val ty}
    (issued : Issued past cacheKey stamp value) : Issued ((s, l) :: past) cacheKey stamp value := by
  induction issued with
  | set same called read did inserts =>
      exact .set same (List.mem_cons_of_mem _ called) read.later did.later inserts
  | renewed same read did inserts => exact .renewed same read.later did.later inserts
  | loaded same read did => exact .loaded same read.later did.later
  | found same read did finds _ marks ih => exact .found same read.later did.later finds ih marks

theorem Issued.supplied {stamp : Stamp} {value : Σ ty : ι, Val ty}
    (issued : Issued past cacheKey stamp value) : Supplied past cacheKey value := by
  induction issued with
  | set same called => exact .set called same
  | renewed same _ did => exact .loaded (did.told.subset (by simp [SwrCache.renewalLog])) same
  | loaded same _ did => exact .loaded (did.told.subset (by simp [SwrCache.markedLog])) same
  | found _ _ _ _ _ _ ih => exact ih

/-- The stored entry says what was issued, at the type of its composite key. -/
def Attested (typing : String → ι) (past : History (system X)) (cacheKey : String)
    (stored : StoredEntry ι) : Prop :=
  ∃ (value : Val (typing cacheKey)) (stamp : Stamp), Encodes (stamp.mark value) stored ∧
    Issued past cacheKey stamp ⟨typing cacheKey, value⟩

theorem Attested.later (attested : Attested typing past cacheKey stored) :
    Attested typing ((s, l) :: past) cacheKey stored := by
  obtain ⟨value, stamp, encodes, issued⟩ := attested
  exact ⟨value, stamp, encodes, issued.later⟩

theorem attested_of_encodes {ty : ι} (typed : ty = typing cacheKey) {value : Val ty} {stamp : Stamp}
    (encodes : Encodes (stamp.mark value) stored)
    (issued : Issued past cacheKey stamp ⟨ty, value⟩) : Attested typing past cacheKey stored := by
  subst typed
  exact ⟨value, stamp, encodes, issued⟩

theorem attested_converts : Converts (Attested typing past cacheKey) := by
  rintro entry converted target ⟨value, stamp, encodes, issued⟩ done
  exact ⟨value, stamp, encodes_converts encodes done, issued⟩

/-- A cache of the type of the composite key can decode the entry. -/
theorem Attested.decodes [LawfulSerdeJson ι]
    (attested : Attested typing past cacheKey stored) {ty : ι} (typed : ty = typing cacheKey) :
    ∃ (value : Val ty) (stamp : Stamp),
      stored.intoTyped ty = .ok (stamp.mark value) ∧ Issued past cacheKey stamp ⟨ty, value⟩ := by
  subst typed
  obtain ⟨value, stamp, encodes, issued⟩ := attested
  exact ⟨value, stamp, encodes.intoTyped, issued⟩

omit [DecidableEq ι] in
/-- What is put with the property is known, if the property makes it so. -/
theorem Cmd.Puts.implies {P : StoredEntry ι → Prop}
    {known : String → StoredEntry ι → Prop} {c : Cmd ι} (puts : c.Puts P cacheKey)
    (implies : c.isWrite = true → ∀ stored, P stored → known cacheKey stored) :
    c.Places known := by
  cases c
  case mapInsert =>
    obtain ⟨rfl, holds⟩ := puts
    exact implies rfl _ holds
  case redisSet =>
    obtain ⟨rfl, _, _, holds⟩ := puts
    exact ⟨_, _, implies rfl _ holds⟩
  case redisSetEx =>
    obtain ⟨rfl, _, _, now, holds, ttl⟩ := puts
    exact ⟨_, _, now, implies rfl _ holds, ttl⟩
  all_goals trivial

/-- The task reads at the type of its composite key, and writes what was issued. -/
def Task.Honest (typing : String → ι) (past : History (system X)) : Task ι → Prop
  | .get cache ns key | .swr cache ns key | .revalidate cache ns key =>
      cache.store.closed = true ∧ cache.ty = typing (buildCacheKey ns key)
  | .set cache ns key value opts =>
      cache.store.closed = true ∧ cache.ty = typing (buildCacheKey ns key) ∧
      ∃ s₀, (s₀, .start (.set cache ns key value opts)) ∈ past
  | .cacheValue cache ns key value freshUntil staleUntil =>
      cache.store.closed = true ∧ cache.ty = typing (buildCacheKey ns key) ∧
        ∃ stamp, stamp.mark value = ⟨value, freshUntil, staleUntil⟩ ∧
          Issued past (buildCacheKey ns key) stamp ⟨cache.ty, value⟩
  | .backfill _ ns key stored => Attested typing past (buildCacheKey ns key) stored
  | .storeGet store _ _ => store.closed = true
  | .remove .. | .storeRemove .. | .redisDel .. => True
  | .storeSet .. => False

theorem Task.Honest.later {task : Task ι} (honest : task.Honest typing past) :
    task.Honest typing ((s, l) :: past) := by
  cases task with
  | set =>
      obtain ⟨closed, typed, s₀, called⟩ := honest
      exact ⟨closed, typed, s₀, List.mem_cons_of_mem _ called⟩
  | cacheValue =>
      obtain ⟨closed, typed, stamp, marks, issued⟩ := honest
      exact ⟨closed, typed, stamp, marks, issued.later⟩
  | backfill => exact Attested.later honest
  | get | swr | revalidate | storeGet | remove | storeRemove | redisDel | storeSet => exact honest

/-- A call on caches over trees of the repository that use each composite key at one type,
    a look-up in such a tree, or a removal. -/
def Task.Typed (typing : String → ι) : Task ι → Prop
  | .get cache ns key | .set cache ns key _ _ | .swr cache ns key =>
      cache.store.closed = true ∧ cache.ty = typing (buildCacheKey ns key)
  | .storeGet store _ _ => store.closed = true
  | .remove .. | .storeRemove .. => True
  | .storeSet .. | .cacheValue .. | .revalidate .. | .backfill .. | .redisDel .. => False

/-- Only such calls are made. -/
def TypedCalls (typing : String → ι) (l : Label (system X)) : Prop :=
  ∀ task ∈ l.starting, task.Typed typing

theorem Task.Typed.honest {task : Task ι} (typed : task.Typed typing) :
    task.Honest typing ((s, .start task) :: past) := by
  cases task with
  | set => exact ⟨typed.1, typed.2, _, List.mem_cons_self ..⟩
  | get | swr | storeGet => exact typed
  | remove | storeRemove => trivial
  | storeSet | cacheValue | revalidate | backfill | redisDel => exact typed.elim

section Bodies

variable [LawfulSerdeJson ι] {log : Log ι} {c : Cmd ι}

/-- What the task was told is said by entries. -/
abbrev AllTold (typing : String → ι) (past : History (system X)) (log : Log ι) : Prop :=
  ∀ e ∈ log, Told (Attested typing past) e.1 e.2

theorem Sighted.attested (told : AllTold typing past log) (sighted : Sighted log cacheKey stored) :
    Attested typing past cacheKey stored := by
  cases sighted with
  | hashMap shown => exact told _ shown _ rfl
  | moka shown => exact told _ shown _ rfl
  | redis shown stamps =>
      obtain ⟨_, _, value, stamp, encodes, issued⟩ := told _ shown _ rfl
      cases encodes with
      | serialized written =>
          obtain ⟨json, written', _, stamps'⟩ :=
            LawfulSerdeJson.roundTrip (typing cacheKey) (stamp.mark value)
          obtain rfl := Except.ok.inj (written.symm.trans written')
          obtain rfl := Except.ok.inj (stamps.symm.trans stamps')
          exact ⟨value, stamp, .serialized written, issued⟩

/-- What a cache finds was issued as it is. -/
theorem SwrCache.Finds.issued (closed : cache.store.closed = true)
    (typed : cache.ty = typing (buildCacheKey ns key)) (told : AllTold typing past log)
    {entry : Entry (Val cache.ty)} (finds : cache.Finds ns key log entry) :
    ∃ stamp, stamp.mark entry.value = entry ∧
    Issued past (buildCacheKey ns key) stamp ⟨cache.ty, entry.value⟩ := by
  obtain ⟨stored, looks, decodes⟩ := finds
  have attested : Attested typing past (buildCacheKey ns key) stored :=
    Sighted.attested told ((cache.store.closed_shows closed).finds looks)
  obtain ⟨value, stamp, decodes', issued⟩ := attested.decodes typed
  obtain rfl := Except.ok.inj (decodes.symm.trans decodes')
  exact ⟨stamp, rfl, issued⟩

/-- What is offered to a call was supplied. -/
theorem SwrCache.Offered.supplied (closed : cache.store.closed = true)
    (typed : cache.ty = typing (buildCacheKey ns key)) (told : AllTold typing past (replies i past))
    {value : Val cache.ty} (offered : cache.Offered ns key (replies i past) value) :
    Supplied past (buildCacheKey ns key) ⟨cache.ty, value⟩ := by
  rcases offered with ⟨before, look, after, entry, split, finds, rfl⟩ | loaded
  · obtain ⟨_, _, issued⟩ :=
      finds.issued closed typed fun e member => told e (by simp [split, member])
    exact issued.supplied
  · exact .loaded loaded rfl

/-- What is handed over by a call is issued by it. -/
theorem SwrCache.Handed.issued (closed : cache.store.closed = true)
    (typed : cache.ty = typing (buildCacheKey ns key)) (told : AllTold typing past log)
    {value : Val cache.ty} {now : Int} (handed : cache.Handed ns key log value now)
    (clock : OwnClock past i (.swr cache ns key) log) (did : Did past i (.swr cache ns key) log
      (.spawn (.cacheValue cache ns key value (addMs now cache.freshMs)
        (addMs now cache.staleMs)))) :
    Issued past (buildCacheKey ns key) ⟨now, cache.freshMs, cache.staleMs⟩ ⟨cache.ty, value⟩ := by
  obtain ⟨first, load, rfl, loads⟩ := handed
  have read := clock now (by simp)
  cases loads with
  | @waited look entry finds =>
      obtain ⟨stamp, marks, issued⟩ :=
        finds.issued closed typed fun e member => told e (by simp [member])
      exact .found rfl read did finds issued marks
  | @again look _ misses =>
      rw [← List.cons_append, ← List.cons_append, ← List.append_assoc] at did
      exact .loaded rfl read did
  | free =>
      rw [List.append_cons first] at did
      exact .loaded rfl read did

omit [LawfulSerdeJson ι] in
/-- What a task writes of what it hands to the store was issued as it is. -/
theorem Task.Honest.hands {task : Task ι} (honest : task.Honest typing past) {first : Log ι}
    {entry : Entry (Val cache.ty)} (hands : task.Hands cache ns key first entry)
    (begins : first <+: log) (clock : OwnClock past i task log) (did : Did past i task log c)
    (inserts : c.Inserts entry (buildCacheKey ns key)) :
    cache.ty = typing (buildCacheKey ns key) ∧ ∃ stamp, stamp.mark entry.value = entry ∧
      Issued past (buildCacheKey ns key) stamp ⟨cache.ty, entry.value⟩ := by
  have read := fun now member => clock now (begins.subset member)
  obtain ⟨later, rfl⟩ := begins
  cases hands with
  | set now =>
      obtain ⟨_, typed, s₀, called⟩ := honest
      exact ⟨typed, ⟨now, _, _⟩, rfl, .set rfl called (read now (by simp)) did inserts⟩
  | cacheValue => exact honest.2
  | revalidate now =>
      exact ⟨honest.2, ⟨now, _, _⟩, rfl,
        Issued.renewed rfl (read now (by simp [SwrCache.renewalLog])) did inserts⟩

theorem Cmd.Reads.honest (told : AllTold typing past log) (reads : c.Reads ns key log) :
    c.Places (Attested typing past) ∧ ∀ task ∈ c.spawned, task.Honest typing past := by
  cases reads with
  | refills sighted =>
      refine ⟨trivial, fun task member => ?_⟩
      cases Cmd.mem_spawned.mp member
      exact sighted.attested told
  | clears =>
      refine ⟨trivial, fun task member => ?_⟩
      cases Cmd.mem_spawned.mp member
      trivial
  | looks reads quiet =>
      refine ⟨?_, Cmd.all_spawned quiet⟩
      cases c
      case mapInsert | redisSet | redisSetEx => cases reads
      all_goals trivial

/-- An honest task for a key puts what was issued, and starts honest tasks. -/
theorem Task.IsFor.honest {task : Task ι} (isFor : task.IsFor cache ns key)
    (closed : cache.store.closed = true) (typed : cache.ty = typing (buildCacheKey ns key))
    (honest : task.Honest typing past) (reaches : task.body.Reaches log c)
    (told : AllTold typing past log) (clock : OwnClock past i task log)
    (did : Did past i task log c) :
    c.Places (Attested typing past) ∧ ∀ task ∈ c.spawned, task.Honest typing past := by
  rcases isFor.reaches (looksUp_reads closed) reaches with
    (reads | ⟨own, -⟩) | ⟨first, entry, stored, second, hands, made, split, writes⟩ | ⟨_, removes⟩
  · exact reads.honest told
  · cases c
    case spawn task' =>
      refine ⟨trivial, fun started member => ?_⟩
      obtain rfl := Cmd.spawn.inj (Cmd.mem_spawned.mp member)
      rcases own with rfl | ⟨value, freshUntil, staleUntil, rfl⟩
      · exact ⟨closed, typed⟩
      · obtain ⟨_, _, _, rfl⟩ := handsOver_swr reaches rfl
        obtain ⟨rfl, rfl, rfl⟩ := isFor
        rcases reaches.of_bind with within | ⟨_, _, _, _, _, onward⟩
        · obtain ⟨now, handed, rfl, rfl⟩ := SwrCache.swr_hands within
          exact ⟨closed, typed, ⟨now, _, _⟩, rfl, handed.issued closed typed told clock did⟩
        · cases onward
    all_goals first | exact own.elim | exact ⟨trivial, Cmd.all_spawned rfl⟩
  · have puts :=
      (Store.putsOnly encodes_converts cache.store ns key stored (storedEntry_encodes made)).reaches
        writes
    refine ⟨puts.implies fun isWrite => ?_, Cmd.all_spawned puts.spawned⟩
    have begins : first <+: log := split ▸ List.prefix_append _ _
    obtain ⟨typed, stamp, marks, issued⟩ := honest.hands hands begins clock did ⟨isWrite, puts⟩
    rw [← marks]
    exact fun _ encodes => attested_of_encodes typed encodes issued
  · have takes := (cache.store.remove_takes ns [key]).reaches removes
    cases c <;> first | exact takes.elim | exact ⟨trivial, Cmd.all_spawned rfl⟩

omit [LawfulSerdeJson ι] in
theorem Cmd.Takes.quiet {keys : List String} (takes : c.Takes ns keys) :
    c.Places (Attested typing past) ∧ ∀ task ∈ c.spawned, task.Honest typing past := by
  cases c <;> first | exact takes.elim | exact ⟨trivial, Cmd.all_spawned rfl⟩

/-- The same of every honest task. -/
theorem Task.Honest.acts {task : Task ι} (honest : task.Honest typing past)
    (reaches : task.body.Reaches log c) (told : AllTold typing past log)
    (clock : OwnClock past i task log) (did : Did past i task log c) :
    c.Places (Attested typing past) ∧ ∀ task ∈ c.spawned, task.Honest typing past := by
  cases task with
  | get _ ns key | swr _ ns key | revalidate _ ns key =>
      exact Task.IsFor.honest (by exact ⟨rfl, rfl, rfl⟩) honest.1 honest.2 honest reaches
        told clock did
  | set _ ns key | cacheValue _ ns key =>
      exact Task.IsFor.honest (by exact ⟨rfl, rfl, rfl⟩) honest.1 honest.2.1 honest reaches
        told clock did
  | remove cache ns key =>
      rcases reaches.of_bind with within | ⟨_, _, _, _, _, onward⟩
      · exact ((cache.store.remove_takes ns [key]).reaches within).quiet
      · cases onward
  | storeGet store ns key =>
      rcases reaches.of_bind with within | ⟨_, _, _, _, _, onward⟩
      · exact (reads_ofGet (store.closed_shows honest) store.plain within).honest told
      · cases onward
  | storeRemove store ns keys =>
      rcases reaches.of_bind with within | ⟨_, _, _, _, _, onward⟩
      · exact ((store.remove_takes ns keys).reaches within).quiet
      · cases onward
  | backfill lower ns key entry =>
      rcases reaches.of_bind with within | ⟨_, _, _, _, _, onward⟩
      · have puts := (TieredStore.backfill_puts attested_converts lower honest).reaches within
        exact ⟨puts.implies fun _ _ attested => attested, Cmd.all_spawned puts.spawned⟩
      · cases onward
  | redisDel server cacheKey =>
      have only : (Task.redisDel server cacheKey : Task ι).body.Only
          (fun c : Cmd ι => c = .redisDel server [cacheKey]) :=
        Prog.Only.bind (Prog.Only.bind (only_issue rfl) fun _ => trivial) fun _ => trivial
      obtain rfl := only.reaches reaches
      exact ⟨trivial, Cmd.all_spawned rfl⟩
  | storeSet => exact honest.elim

end Bodies

/-- All that is stored or was read is attested, and every task is honest. -/
structure Traceable (typing : String → ι) (past : History (system X))
    (s : Config (system X)) : Prop where
  holds : s.world.Holds (Attested typing past)
  told : ∀ i, AllTold typing past (replies i past)
  tasks : ∀ (i : Nat) (th : Thread (system X)), s.threads[i]? = some th → th.task.Honest typing past

variable [LawfulSerdeJson ι]

theorem run_traceable (run : Run (system X) (.idle .empty) past s)
    (calls : ∀ e ∈ past, TypedCalls typing e.2) : Traceable typing past s := by
  induction run with
  | refl =>
      refine ⟨holds_empty, fun _ _ member => ?_, ?_⟩
      · cases member
      · intro i th at_i
        simp [Config.idle] at at_i
  | @step past s l s' before taken ih =>
      obtain ⟨holds, told, tasks⟩ := ih fun e member => calls e (List.mem_cons_of_mem _ member)
      have acts : ∀ i t c r, l = .exec i t c r → c.Places (Attested typing ((s, l) :: past)) ∧
          ∀ task ∈ c.spawned, task.Honest typing ((s, l) :: past) := by
        rintro i t c r rfl
        obtain ⟨th, at_i, reaches⟩ := (before.step taken).reached (List.suffix_refl _)
        have known : AllTold typing ((s, .exec i t c r) :: past) (replies i past) :=
          fun e member => (told i e member).mono fun _ _ => Attested.later
        have clock :=
          fun now member => (ownClock before at_i now member).later (s := s) (l := .exec i t c r)
        exact (tasks i th at_i).later.acts reaches known clock
          ⟨s, t, r, past, th, List.suffix_refl _, at_i, rfl, rfl⟩
      have holds := holds.mono fun _ _ => Attested.later (l := l) (s := s)
      refine ⟨holds_step holds taken fun i t c r moved =>
        (acts i t c r moved).1, told_step holds ?_ taken, ?_⟩
      · exact fun i e member => (told i e member).mono fun _ _ => Attested.later
      · intro i th at_i
        rcases taken.origin at_i with ⟨th₀, was_i, same⟩ |
          ⟨_, started | ⟨j, t, c, r, moved, member⟩⟩
        · rw [← same]
          exact (tasks i th₀ was_i).later
        · subst started
          exact (calls _ (List.mem_cons_self ..) th.task rfl).honest
        · exact (acts j t c r moved).2 _ member

omit [LawfulSerdeJson ι] in
/-- What a `get` returns is what the store has answered, decoded. -/
theorem SwrCache.get_yields {log : Log ι} {result : Except CacheError (Option (Val cache.ty))}
    (yields : (SwrCache.get cache ns key).Yields log result) :
    (∃ e, (cache.dyn.get ns key).Yields log (.error e) ∧ result = .error e) ∨ result = .ok none ∨
    ∃ look stored, look ⊆ log ∧ (cache.dyn.get ns key).Yields look (.ok (some stored)) ∧
      ∀ entry, stored.intoTyped cache.ty = .ok entry → result = .ok (some entry.value) := by
  simp only [SwrCache.get, SwrCache.getInternal, bind_assoc] at yields
  obtain ⟨look, answer, rest, rfl, looks, onward⟩ := Prog.yields_bind.mp yields
  rcases answer with e | _ | stored
  · obtain ⟨rfl, rfl⟩ := Prog.yields_ret.mp onward
    rw [List.append_nil]
    exact .inl ⟨e, looks, rfl⟩
  · obtain ⟨_, rfl⟩ := Prog.yields_ret.mp onward
    exact .inr (.inl rfl)
  · refine .inr (.inr ⟨look, stored, List.subset_append_left _ _, looks, fun entry decodes => ?_⟩)
    simp only [decodes, Ask.now_bind, Prog.op_bind, Prog.yields_op] at onward
    obtain ⟨now, _, rfl, onward⟩ := onward
    split at onward
    · exact (Prog.yields_ret.mp onward).2
    · split at onward <;> exact (Prog.yields_ret.mp onward).2

/-- What a `get` is answered about. -/
theorem SwrCache.get_supplied (closed : cache.store.closed = true)
    (typed : cache.ty = typing (buildCacheKey ns key)) (told : AllTold typing past (replies i past))
    {result : Except CacheError (Option (Val cache.ty))}
    (yields : (SwrCache.get cache ns key).Yields (replies i past) result) :
    (∀ value, result = .ok (some value) → Supplied past (buildCacheKey ns key) ⟨cache.ty, value⟩) ∧
    ∀ e, result = .error e → ∃ server message, e =
      .operation "redis" key ("GET failed: " ++ message) ∧
      ⟨.redisGet server (buildCacheKey ns key), .error message⟩ ∈ replies i past := by
  rcases SwrCache.get_yields yields with ⟨e, looks, rfl⟩ | rfl |
    ⟨look, stored, within, looks, decoded⟩
  · refine ⟨fun value other => (by cases other), fun e' same => ?_⟩
    obtain rfl := Except.error.inj same
    cases cache.store.closed_blames closed looks with
    | refused shown => exact ⟨_, _, rfl, shown⟩
    | garbled shown unread =>
        -- the text was written for an entry, and shows its stamps
        obtain ⟨_, _, _, _, encodes, _⟩ := told _ shown _ rfl
        have read := StoredEntry.Genuine.metadata ⟨_, _, encodes⟩
        rw [read] at unread
        cases unread
  · exact ⟨fun value other => (by cases other), fun e other => (by cases other)⟩
  · have sighted := (cache.store.closed_shows closed).finds looks
    obtain ⟨value, stamp, decodes, issued⟩ :=
      (sighted.attested fun e member => told e (within member)).decodes typed
    obtain rfl := decoded _ decodes
    refine ⟨fun value' same => ?_, fun e other => (by cases other)⟩
    obtain rfl := Option.some.inj (Except.ok.inj same)
    exact issued.supplied

/-- Caches of any types over trees of stores of the repository, which they may share. If
    each composite key is used at one type, then no entry is ever found that is of another
    type or cannot be read. What a call returns was supplied for its composite key, and a
    `get` fails only after a Redis server has refused to answer it. -/
theorem values_supplied (run : Run (system X) (.idle .empty) past s)
    (calls : ∀ e ∈ past, TypedCalls typing e.2) {th : Thread (system X)} {out : Out ι}
    (at_i : s.threads[i]? = some th) (finished : th.Finished out) :
    (∀ cache ns key, th.task = .get cache ns key → ∃ result, out = .value cache.ty result ∧
      (∀ value, result = .ok (some value) →
        Supplied past (buildCacheKey ns key) ⟨cache.ty, value⟩) ∧
      ∀ e, result = .error e → ∃ server message, e =
        .operation "redis" key ("GET failed: " ++ message) ∧
        ⟨.redisGet server (buildCacheKey ns key), .error message⟩ ∈ replies i past) ∧
    ∀ cache ns key, th.task = .swr cache ns key → ∃ found, out = .value cache.ty (.ok found) ∧
      ∀ value ∈ found, Supplied past (buildCacheKey ns key) ⟨cache.ty, value⟩ := by
  obtain ⟨_, told, tasks⟩ := run_traceable run calls
  have honest := tasks i th at_i
  constructor
  · intro cache ns key task
    have yields := run.finished_yields at_i finished
    rw [task] at honest yields
    obtain ⟨result, calls, rfl⟩ := Prog.yields_map.mp yields
    exact ⟨result, rfl, SwrCache.get_supplied honest.1 honest.2 (told i) calls⟩
  · intro cache ns key task
    obtain ⟨found, rfl, course⟩ := swr_course run at_i task finished
    rw [task] at honest
    refine ⟨found, rfl, fun value same => ?_⟩
    obtain rfl := Option.mem_def.mp same
    exact SwrCache.Offered.supplied honest.1 honest.2 (told i) course.sourced

end Runs

def writerCache : SwrCache Unit := .new () (.tiered [.moka 0]) 10 20 0

/-- Another cache, with another tree over the same map. -/
def readerCache : SwrCache Unit := .new () (.metrics (.moka 0) 0) 5 5 1

/-- One cache reads from the map what the other one has set. -/
theorem values_supplied_neighbour :
    ∃ (past : History (system .atomicMap)) (s : Config (system .atomicMap)),
    Run (system .atomicMap) (.idle (.empty : World Unit)) past s ∧ (∃ th, s.threads[1]? = some th ∧
      th.task = .get readerCache "ns" "k" ∧ th.Finished (.value () (.ok (some true)))) ∧
    Supplied past "ns:k" ⟨(), true⟩ := by
  obtain ⟨past, s, played, called, th, at_1, task, finished⟩ : ∃ past s,
      driver.play (fun _ _ => True) [.start (.set writerCache "ns" "k" true none),
        .go 0 (reading 0), .go 0 (reading 0), .start (.get readerCache "ns" "k"), .go 1 (reading 7),
        .go 1 (reading 7), .go 1 (reading 7), .go 1 (reading 7), .go 1 (reading 7)]
        ([], .idle .empty) = some (past, s) ∧
      past.filterMap (fun e => e.2.starting) =
        [.get readerCache "ns" "k", .set writerCache "ns" "k" true none] ∧
      ∃ th, s.threads[1]? = some th ∧ th.task = .get readerCache "ns" "k" ∧
        th.Finished (.value () (.ok (some true))) :=
    ⟨_, _, rfl, rfl, _, rfl, rfl, rfl⟩
  obtain ⟨run, _⟩ := Driver.plays played
  have calls : ∀ e ∈ past, TypedCalls (fun _ => ()) e.2 := by
    intro e member task starts
    have among : task ∈ past.filterMap (fun e => e.2.starting) :=
      List.mem_filterMap.mpr ⟨e, member, starts⟩
    rw [called] at among
    simp only [List.mem_cons, List.not_mem_nil, or_false] at among
    rcases among with rfl | rfl
    · exact ⟨rfl, rfl⟩
    · exact ⟨rfl, rfl⟩
  obtain ⟨result, same, supplied, _⟩ :=
    (values_supplied run calls at_1 finished).1 readerCache "ns" "k" task
  cases same
  exact ⟨past, s, run, ⟨th, at_1, task, finished⟩, supplied true rfl⟩

end Swr
