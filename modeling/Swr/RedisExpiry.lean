import Swr.Async.Trace
import Swr.Async.Turns
import Swr.Markers

/-! # Expiry on a Redis server

A `RedisStore` that expires its entries, used by one client that makes one call after
the other. The deletion of an expired entry is a task of its own, so it may come long
after the `get` that found the entry, and after a `set` of the same key.
-/

namespace Swr

open Async

variable {ι : Type} [SerdeJson ι] {server : Nat} {key : String}

/-- The store expires its entries on the server. -/
def Store.expiresOn (server : Nat) : Store → Bool
  | .redis server' disableExpiration => server' = server && !disableExpiration
  | _ => false

theorem Store.expiresOn_iff {store : Store} :
    store.expiresOn server = true ↔ store = .redis server false := by
  cases store <;> simp [Store.expiresOn]

namespace Task

def expiresOn (server : Nat) : Task ι → Bool
  | .storeGet store .. | .storeSet store .. | .storeRemove store .. => store.expiresOn server
  | _ => false

def serverKeys : Task ι → List String
  | .storeGet _ ns key | .storeSet _ ns key _ => [buildCacheKey ns key]
  | .storeRemove _ ns keys => keys.map (buildCacheKey ns)
  | .redisDel _ cacheKey => [cacheKey]
  | _ => []

/-- The task puts or deletes its keys. -/
def changes : Task ι → Bool
  | .storeSet .. | .storeRemove .. | .redisDel .. => true
  | _ => false

end Task

/-! ## The outline -/

/-- A task, the last answers it got and whether it has changed anything. -/
structure Errand (ι : Type) [SerdeJson ι] where
  task : Task ι
  read : Option (Option String)
  clock : Option Int
  changed : Bool

def Task.errand (task : Task ι) : Errand ι := ⟨task, none, none, false⟩

/-- The task has read an entry of its key that had expired by the last clock reading. -/
def Errand.SawExpired (errand : Errand ι) (key : String) : Prop :=
  errand.task.serverKeys = [key] ∧ errand.task.changes = false ∧ ∃ json metadata now,
    errand.read = some (some json) ∧ SerdeJson.metadataFromStr ι json = .ok metadata ∧
    errand.clock = some now ∧ metadata.staleUntil ≤ now

/-- What a task does on the server: a `get` reads its key and may have the key deleted
    later, the others change their keys once. -/
def errandOk (server : Nat) (errand : Errand ι) : Cmd ι → Prop
  | .now => True
  | .redisGet server' key => server' = server ∧ errand.task.serverKeys = [key]
  | .redisSetEx server' key json _ => errand.changed = false ∧ server' = server ∧
      ∃ store ns key' fresh stale, errand.task =
        .storeSet store ns key' (.serialized json fresh stale) ∧ key = buildCacheKey ns key'
  | .redisDel server' keys => errand.changed = false ∧ server' = server ∧
      errand.task.changes = true ∧ keys = errand.task.serverKeys
  | .spawn task => ∃ key, task = .redisDel server key ∧ errand.SawExpired key
  | _ => False

/-- The server answers when it is asked for a key. -/
def Cmd.answered : (c : Cmd ι) → c.Ans → Bool
  | .redisGet .., .error _ => false
  | _, _ => true

def errandNext (errand : Errand ι) : (c : Cmd ι) → c.Ans → Errand ι
  | .redisGet .., r => { errand with read := r.toOption }
  | .now, r => { errand with clock := some r }
  | .redisSetEx .., _ | .redisDel .., _ => { errand with changed := true }
  | _, _ => errand

abbrev errandOutline (ι : Type) [SerdeJson ι] (server : Nat) : Outline (sig ι) where
  Ghost := Errand ι
  ok := errandOk server
  may _ c r := c.answered r = true
  next := errandNext

/-- A `get` has read its key, and hands out an entry that has not expired. -/
def ErrandDone (errand : Errand ι) (out : Out ι) : Prop :=
  errand.task.changes = false → ∃ found, errand.read = some found ∧ ∀ json metadata,
    found = some json → SerdeJson.metadataFromStr ι json = .ok metadata →
    ∃ now, errand.clock = some now ∧ (now < metadata.staleUntil →
      out = .entry (.ok (some (.serialized json metadata.freshUntil metadata.staleUntil))))

theorem RedisStore.get_errand (ns key' : String) :
    (get server false ns key' : Code ι _).Keeps (errandOutline ι server)
      (fun errand result => ErrandDone errand (.entry result))
      (Task.storeGet (.redis server false) ns key').errand := by
  simp only [get, Ask.redisGet_bind, Prog.keeps_op]
  refine ⟨⟨rfl, rfl⟩, fun r answered => ?_⟩
  rcases r with e | found
  · cases answered
  cases found with
  | none => exact Prog.keeps_ret.mpr fun _ => ⟨none, rfl, fun _ _ none => by cases none⟩
  | some json =>
      dsimp only
      split
      · next e fails =>
          refine Prog.keeps_ret.mpr fun _ => ⟨some json, rfl, fun json' metadata same parsed => ?_⟩
          obtain rfl := Option.some.inj same
          rw [fails] at parsed
          cases parsed
      · next metadata parsed =>
          simp only [Ask.now_bind, Prog.keeps_op]
          refine ⟨trivial, fun now _ => ?_⟩
          have done (result : Except CacheError (Option (StoredEntry ι)))
              (good : now < metadata.staleUntil → result =
                .ok (some (.serialized json metadata.freshUntil metadata.staleUntil))) :
              ErrandDone ⟨.storeGet (.redis server false) ns key', some (some json),
                some now, false⟩ (.entry result) := by
            refine fun _ => ⟨some json, rfl, fun json' metadata' same parsed' => ⟨now, rfl, ?_⟩⟩
            obtain rfl := Option.some.inj same
            obtain rfl := Except.ok.inj (parsed.symm.trans parsed')
            exact fun early => congrArg Out.entry (good early)
          split
          · next expired =>
              simp only [Ask.spawn_bind, Prog.keeps_op]
              refine ⟨⟨_, rfl, rfl, rfl, json, metadata, now, rfl, parsed, rfl, expired.1⟩,
                fun _ _ => Prog.keeps_ret.mpr (done _ fun early => ?_)⟩
              exact absurd expired.1 (Int.not_le.mpr early)
          · exact Prog.keeps_ret.mpr (done _ fun _ => rfl)

theorem RedisStore.set_errand (ns key' : String) (entry : StoredEntry ι) :
    (set server false ns key' entry : Code ι _).Keeps (errandOutline ι server)
      (fun errand _ => errand.task.changes = true)
      (Task.storeSet (.redis server false) ns key' entry).errand := by
  cases entry with
  | typed => exact Prog.keeps_ret.mpr rfl
  | serialized json fresh stale =>
      simp only [set, Bool.false_eq_true, if_false, Ask.now_bind, Ask.redisSetEx_bind,
        Prog.keeps_op]
      refine ⟨trivial, fun now _ =>
        ⟨⟨rfl, rfl, _, ns, key', fresh, stale, rfl, rfl⟩, fun done _ => ?_⟩⟩
      cases done <;> exact Prog.keeps_ret.mpr rfl

theorem RedisStore.remove_errand (ns : String) (keys : List String) :
    (remove server ns keys : Code ι _).Keeps (errandOutline ι server)
      (fun errand _ => errand.task.changes = true)
      (Task.storeRemove (.redis server false) ns keys).errand := by
  simp only [remove]
  split
  · exact Prog.keeps_ret.mpr rfl
  · simp only [Ask.redisDel_bind, Prog.keeps_op]
    refine ⟨⟨rfl, rfl, rfl, rfl⟩, fun done _ => ?_⟩
    cases done <;> exact Prog.keeps_ret.mpr rfl

/-- The tasks of the client, with the deletions its calls leave behind. -/
def Task.ofClient (server : Nat) (task : Task ι) : Prop :=
  task.expiresOn server = true ∨ ∃ key, task = .redisDel server key

theorem errandOutline_body [DecidableEq ι] (task : Task ι) (ofClient : task.ofClient server) :
    task.body.Keeps (errandOutline ι server) ErrandDone task.errand := by
  have dyn : (Store.redis server false).dyn ι = RedisStore.dyn server false := by simp [Store.dyn]
  have changer {errand : Errand ι} {out : Out ι} (changes : errand.task.changes = true) :
      ErrandDone errand out := fun reads => by rw [changes] at reads; cases reads
  rcases ofClient with call | ⟨key', rfl⟩
  · cases task with
    | storeGet store ns key' =>
        obtain rfl := Store.expiresOn_iff.mp call
        simp only [Task.body, dyn]
        exact Prog.Keeps.bind ((RedisStore.get_errand ns key').mono fun _ _ done =>
          Prog.keeps_ret.mpr done)
    | storeSet store ns key' entry =>
        obtain rfl := Store.expiresOn_iff.mp call
        simp only [Task.body, dyn]
        exact Prog.Keeps.bind ((RedisStore.set_errand ns key' entry).mono fun _ _ changes =>
          Prog.keeps_ret.mpr (changer changes))
    | storeRemove store ns keys =>
        obtain rfl := Store.expiresOn_iff.mp call
        simp only [Task.body, dyn]
        exact Prog.Keeps.bind ((RedisStore.remove_errand ns keys).mono fun _ _ changes =>
          Prog.keeps_ret.mpr (changer changes))
    | get | set | remove | swr | cacheValue | revalidate | backfill | redisDel => cases call
  · simp only [Task.body, RedisStore.backgroundDel, Ask.redisDel_bind, Prog.op_bind, Prog.keeps_op]
    exact ⟨⟨rfl, rfl, rfl, rfl⟩, fun _ _ => Prog.keeps_ret.mpr (changer rfl)⟩

/-! ## What a step does to a key -/

/-- What the command leaves under the key of the server, if it takes effect there. -/
def Cmd.redisOutcome (t : Int) (server : Nat) (key : String) : Cmd ι → Option (Option RedisItem)
  | .redisSet server' key' json =>
      if server' = server ∧ key' = key then some (some ⟨json, none⟩) else none
  | .redisSetEx server' key' json ttl =>
      if server' = server ∧ key' = key then some (some ⟨json, some (t + ttl * 1000)⟩) else none
  | .redisDel server' keys => if server' = server ∧ key ∈ keys then some none else none
  | _ => none

theorem exec_untouched {X : ExtSemantics ι} {i : Nat} {t : Int} {w w' : World ι} {c : Cmd ι}
    {r : c.Ans} (untouched : c.redisOutcome t server key = none) (done : exec X i t w c r w') :
    w'.redis server key = w.redis server key := by
  cases c
  case redisSet | redisSetEx =>
    simp only [Cmd.redisOutcome, ite_eq_right_iff, reduceCtorEq, imp_false] at untouched
    rcases done with ⟨_, rfl⟩ | ⟨_, _, rfl | rfl⟩ <;> simp [World.setRedis_redis, untouched]
  case redisDel =>
    simp only [Cmd.redisOutcome, ite_eq_right_iff, reduceCtorEq, imp_false] at untouched
    rcases done with ⟨_, rfl⟩ | ⟨_, _, rfl | rfl⟩ <;> simp [World.delRedis_redis, untouched]
  case mapEvict => obtain ⟨_, _, rfl⟩ := done; rfl
  case extGet | extSet | extRemove => obtain ⟨_, _, rfl⟩ := done; rfl
  case now | rand | mapRead | mapGet | redisGet | containsKey => obtain ⟨_, rfl⟩ := done; rfl
  all_goals (obtain rfl := done; rfl)

/-- Nobody changes a key but tasks that use it, once each. -/
theorem errandOk_outcome {errand : Errand ι} {c : Cmd ι} {t : Int} {left : Option RedisItem}
    (allowed : errandOk server errand c) (acts : c.redisOutcome t server key = some left) :
    errand.changed = false ∧ errand.task.changes = true ∧ key ∈ errand.task.serverKeys ∧
      (errand.task.isCall = false → ∃ keys, c = .redisDel server keys ∧ key ∈ keys) := by
  cases c
  case redisSetEx server' key' json ttl =>
    obtain ⟨changed, rfl, store, ns, k, fresh, stale, task, rfl⟩ := allowed
    simp only [Cmd.redisOutcome] at acts
    split at acts
    · next here =>
        rw [task]
        exact ⟨changed, rfl, by simp [Task.serverKeys, here.2], nofun⟩
    · cases acts
  case redisDel server' keys =>
    obtain ⟨changed, rfl, changes, rfl⟩ := allowed
    simp only [Cmd.redisOutcome] at acts
    split at acts
    · next here => exact ⟨changed, changes, here.2, fun _ => ⟨_, rfl, here.2⟩⟩
    · cases acts
  case redisSet => exact allowed.elim
  all_goals cases acts

theorem Errand.SawExpired.isCall {errand : Errand ι} (saw : errand.SawExpired key) :
    errand.task.isCall = true := by
  obtain ⟨keys, reads, _⟩ := saw
  cases task : errand.task with
  | storeGet => rfl
  | storeSet | storeRemove | redisDel => rw [task] at reads; cases reads
  | get | set | remove | swr | cacheValue | revalidate | backfill => rw [task] at keys; cases keys

theorem exec_read {X : ExtSemantics ι} {j : Nat} {t : Int} {w w' : World ι} {errand : Errand ι}
    {c : Cmd ι} {r : c.Ans} {found : Option String} (allowed : errandOk server errand c)
    (done : exec X j t w c r w') (read : (errandNext errand c r).read = some found) :
    errand.read = some found ∨
      ∃ key, errand.task.serverKeys = [key] ∧ found = w.readRedis t server key := by
  cases c
  case redisGet server' key =>
    obtain ⟨rfl, keys⟩ := allowed
    obtain ⟨rfl | ⟨e, rfl⟩, _⟩ := done
    · exact .inr ⟨key, keys, (Option.some.inj read).symm⟩
    · cases read
  all_goals exact .inl read

theorem exec_told {X : ExtSemantics ι} {j : Nat} {t now : Int} {w w' : World ι} {errand : Errand ι}
    {c : Cmd ι} {r : c.Ans} (done : exec X j t w c r w')
    (clock : (errandNext errand c r).clock = some now) : errand.clock = some now ∨ now = t := by
  cases c
  case now =>
    obtain ⟨rfl, _⟩ := done
    exact .inr (Option.some.inj clock).symm
  all_goals exact .inl clock

/-! ## Runs -/

namespace RedisStore

section Runs

variable [DecidableEq ι] {X : ExtSemantics ι} {w : World ι}
  {past earlier later : History (system X)} {s s' s₁ : Config (system X)} {l : Label (system X)}

/-- Calls are made on the expiring store only, and one after the other. -/
def OneClient (server : Nat) (s : Config (system X)) (l : Label (system X)) : Prop :=
  (∀ task : Task ι, task ∈ l.starting → task.expiresOn server = true) ∧
    InTurn (fun task : Task ι => task.isCall = true) s l

instance (s : Config (system X)) (l : Label (system X)) : Decidable (OneClient server s l) :=
  inferInstanceAs (Decidable ((∀ _ ∈ _, _) ∧ ∀ _ ∈ _, _ → ∀ _ ∈ _, _ → _))

/-- No look-up fails. -/
def served : Label (system X) → Bool
  | .exec _ _ c r => c.answered r
  | .start _ | .turn .. | .drop _ => true

/-- What the step leaves under the key of the server, if it takes effect there. -/
def redisOutcome (server : Nat) (key : String) : Label (system X) → Option (Option RedisItem)
  | .exec _ t c _ => c.redisOutcome t server key
  | .start _ | .turn .. | .drop _ => none

/-- The server has the item at time `t` and its entry has not expired. -/
def good (ι : Type) [SerdeJson ι] (t : Int) (item : RedisItem) : Bool :=
  item.live t && match SerdeJson.metadataFromStr ι item.json with
    | .ok metadata => t < metadata.staleUntil
    | .error _ => false

/-- The thread and the time of a background deletion of the key. -/
def landing (server : Nat) (key : String) (s : Config (system X)) :
    Label (system X) → Option (Nat × Int)
  | .exec j t (.redisDel server' keys) _ =>
      if server' = server ∧ key ∈ keys ∧ (s.threads[j]?).any (fun th => !Task.isCall th.task) then
        some (j, t)
      else none
  | _ => none

/-- What a `set` has put under the key since thread `j` was started, if nothing has
    changed it again. -/
def putSince (server : Nat) (key : String) (j : Nat) : History (system X) → Option RedisItem
  | [] => none
  | (s, .exec _ t c _) :: past =>
      match c.redisOutcome t server key with
      | some left => if j < s.threads.length then left else none
      | none => putSince server key j past
  | (_, .start _) :: past | (_, .turn _ _) :: past | (_, .drop _) :: past =>
      putSince server key j past

/-- If the step is a background deletion of the key, no `set` has put a good entry there
    since the deletion was spawned. -/
def Unraced (server : Nat) (key : String) (past : History (system X)) (s : Config (system X))
    (l : Label (system X)) : Prop :=
  ∀ deletion ∈ landing server key s l, ∀ item ∈ putSince server key deletion.1 past,
    good ι deletion.2 item = false

instance (past : History (system X)) (s : Config (system X)) (l : Label (system X)) :
    Decidable (Unraced server key past s l) :=
  inferInstanceAs (Decidable (∀ _ ∈ _, ∀ _ ∈ _, _))

/-- The step is no other `set` or `remove` of the key, and comes before the item is
    dropped and its entry expires. -/
def Lasting (key : String) (item : RedisItem) (staleUntil : Int) (l : Label (system X)) : Prop :=
  (∀ task : Task ι, task ∈ l.starting → task.changes = true → key ∉ task.serverKeys) ∧
    ∀ t ∈ l.time, item.live t = true ∧ t < staleUntil

instance (item : RedisItem) (staleUntil : Int) (l : Label (system X)) :
    Decidable (Lasting key item staleUntil l) :=
  inferInstanceAs (Decidable ((∀ _ ∈ _, _ → ¬ _) ∧ ∀ _ ∈ _, _ ∧ _))

/-- How far thread `i` has got with its task. -/
def errandAt (server i : Nat) (task : Task ι) (past : History (system X)) : Errand ι :=
  ghost (errandOutline ι server) task.errand i past

theorem errandAt_exec {i j : Nat} {t : Int} {c : Cmd ι} {r : c.Ans} {task : Task ι} :
    errandAt server i task ((s, .exec j t c r) :: past) =
      if j = i then errandNext (errandAt server i task past) c r else errandAt server i task past :=
      rfl

theorem errandAt_task {i : Nat} {task : Task ι} : (errandAt server i task past).task = task := by
  induction past with
  | nil => rfl
  | cons e past ih =>
      obtain ⟨s, l⟩ := e
      cases l with
      | start | turn | drop => exact ih
      | exec j t c r =>
          rw [errandAt_exec]
          split
          · cases c <;> exact ih
          · exact ih

theorem errandAt_changed {i : Nat} {task : Task ι}
    (changed : (errandAt server i task past).changed = true) :
    (errandAt server i task ((s, l) :: past)).changed = true := by
  cases l with
  | start | turn | drop => exact changed
  | exec j t c r =>
      rw [errandAt_exec]
      split
      · cases c
        case redisSetEx | redisDel => rfl
        all_goals exact changed
      · exact changed

theorem errandAt_begins {j : Nat} {task : Task ι} (before : Run (system X) (.idle w) past s)
    (taken : Step (system X) s l s') (new : s.threads.length ≤ j) :
    errandAt server j task ((s, l) :: past) = task.errand := by
  rw [errandAt, ghost_foreign, before.ghost_unstarted new]
  rintro t c r rfl
  cases taken with
  | exec at_j =>
      have inside := (List.getElem?_eq_some_iff.mp at_j).1
      omega

theorem run_errands (run : Run (system X) (.idle w) past s)
    (client : ∀ e ∈ past, OneClient server e.1 e.2) (all : ∀ e ∈ past, served e.2 = true) :
    Outlined (errandOutline ι server) Task.errand ErrandDone past s := by
  refine (Run.outline (O := errandOutline ι server) (T := Task.ofClient server) (fun _ _ => True)
    errandOutline_body ?_ (fun _ _ l => served l = true) trivial ?_ run
    (fun s l _ suffix => all (s, l) (suffix.subset (List.mem_cons_self ..)))
    (fun s₀ task member => .inl ((client _ member).1 task rfl))).1
  · intro errand c allowed task member
    obtain rfl := Cmd.mem_spawned.mp member
    obtain ⟨key, rfl, _⟩ := allowed
    exact .inr ⟨key, rfl⟩
  · intro past s l s' _ _ _ answered _
    refine ⟨?_, trivial⟩
    rintro i t c r th rfl _
    exact answered

theorem exec_errand {j : Nat} {t : Int} {c : Cmd ι} {r : c.Ans}
    (run : Run (system X) (.idle w) past s) (client : ∀ e ∈ past, OneClient server e.1 e.2)
    (all : ∀ e ∈ past, served e.2 = true) (taken : Step (system X) s (.exec j t c r) s') :
    ∃ th, s.threads[j]? = some th ∧ ¬ th.Gone ∧
      errandOk server (errandAt server j th.task past) c := by
  obtain ⟨th, at_j, _, allowed⟩ := (run_errands run client all).ok taken
  exact ⟨th, at_j, taken.idle at_j, allowed⟩

theorem putSince_quiet {j : Nat} (quiet : ∀ e ∈ later, redisOutcome server key e.2 = none) :
    putSince server key j (later ++ past) = putSince server key j past := by
  induction later with
  | nil => rfl
  | cons e later ih =>
      obtain ⟨here, others⟩ := List.forall_mem_cons.mp quiet
      obtain ⟨s, l⟩ := e
      cases l with
      | start | turn | drop => exact ih others
      | exec i t c r =>
          rw [List.cons_append, putSince, show c.redisOutcome t server key = none from here]
          exact ih others

theorem redis_of_quiet (run : Run (system X) s past s')
    (quiet : ∀ e ∈ past, redisOutcome server key e.2 = none) :
    s'.world.redis server key = s.world.redis server key := by
  induction run with
  | refl => rfl
  | step before taken ih =>
      obtain ⟨here, others⟩ := List.forall_mem_cons.mp quiet
      rw [← ih others]
      cases taken with
      | start | turn | drop => rfl
      | exec _ _ done => exact exec_untouched here done

theorem calls_alone (run : Run (system X) (.idle w) past s)
    (client : ∀ e ∈ past, OneClient server e.1 e.2) (all : ∀ e ∈ past, served e.2 = true) :
    ∀ (i j : Nat) (th th' : Thread (system X)), s.threads[i]? = some th → s.threads[j]? = some th' →
      Task.isCall th.task = true → Task.isCall th'.task = true → ¬ th.Gone →
      ¬ th'.Gone → i = j := by
  refine run.one_at_a_time (K := fun task : Task ι => task.isCall = true)
    (fun e member => (client e member).2) fun s₁ i t c r member task spawned call => ?_
  obtain ⟨later, earlier, rfl⟩ := List.append_of_mem member
  obtain ⟨before, s₂, taken⟩ := run.upTo (List.suffix_append _ _)
  have within {e : Config (system X) × Label (system X)} (member : e ∈ earlier) :
      e ∈ later ++ (s₁, .exec i t c r) :: earlier := by simp [member]
  obtain ⟨_, _, _, allowed⟩ := exec_errand before (fun e member => client e (within member))
    (fun e member => all e (within member)) taken
  obtain rfl := Cmd.mem_spawned.mp spawned
  obtain ⟨key, rfl, _⟩ := allowed
  cases call

/-! ## What a `set` has put -/

/-- While nothing good is deleted and nobody replaces it, what thread `i` has put stays.
    `len` is the number of threads there were when it did. -/
structure Undisturbed (server : Nat) (key json : String) (staleUntil : Int) (i len : Nat)
    (later past : History (system X)) (s : Config (system X)) : Prop where
  grown : len ≤ s.threads.length
  quiet : ∀ e ∈ later, redisOutcome server key e.2 = none
  /-- What was started since leaves the key alone. -/
  late : ∀ j th, len ≤ j → s.threads[j]? = some th → th.task.changes = true →
    key ∉ th.task.serverKeys
  /-- The other calls from before are over. -/
  gone : ∀ j th, j < len → j ≠ i → s.threads[j]? = some th → th.task.isCall = true → th.Gone
  own : ∀ th, s.threads[i]? = some th → th.task.changes = true ∧ th.task.isCall = true ∧
    (errandAt server i th.task past).changed = true
  read : ∀ j th, len ≤ j → s.threads[j]? = some th → th.task.serverKeys = [key] →
    ∀ found, (errandAt server j th.task past).read = some found → found = some json
  clock : ∀ j th, len ≤ j → s.threads[j]? = some th →
    ∀ now, (errandAt server j th.task past).clock = some now → now < staleUntil

namespace Undisturbed

variable {json : String} {staleUntil : Int} {i len : Nat}

theorem no_deletion {k : Nat} {th : Thread (system X)}
    (undisturbed : Undisturbed server key json staleUntil i len later past s) {freshUntil : Int}
    (stamped : SerdeJson.metadataFromStr ι json = .ok ⟨freshUntil, staleUntil⟩)
    (at_k : s.threads[k]? = some th) (going : ¬ th.Gone) :
    ¬ (errandAt server k th.task past).SawExpired key := by
  intro saw
  have call := saw.isCall
  obtain ⟨keys, reads, json', metadata, now, read, parsed, clock, expired⟩ := saw
  rw [errandAt_task] at keys reads call
  by_cases old : k < len
  · by_cases same : k = i
    · subst same
      have changes := (undisturbed.own th at_k).1
      rw [reads] at changes
      cases changes
    · exact going (undisturbed.gone k th old same at_k call)
  · obtain rfl := Option.some.inj (undisturbed.read k th (by omega) at_k keys _ read)
    obtain rfl := Except.ok.inj (stamped.symm.trans parsed)
    have early := undisturbed.clock k th (by omega) at_k now clock
    exact absurd expired (Int.not_le.mpr early)

/-- No step takes effect on the key. -/
theorem step_quiet {item : RedisItem} {freshUntil : Int}
    (undisturbed : Undisturbed server key item.json staleUntil i len later past s)
    (stamped : SerdeJson.metadataFromStr ι item.json = .ok ⟨freshUntil, staleUntil⟩)
    (put : ∀ j, j < len → putSince server key j past = some item)
    (run : Run (system X) (.idle w) past s) (client : ∀ e ∈ past, OneClient server e.1 e.2)
    (all : ∀ e ∈ past, served e.2 = true) (taken : Step (system X) s l s')
    (unraced : Unraced server key past s l) (lasting : Lasting key item staleUntil l) :
    redisOutcome server key l = none := by
  cases acts : redisOutcome server key l with
  | none => rfl
  | some left =>
      exfalso
      cases l with
      | start | turn | drop => cases acts
      | exec j t c r =>
          obtain ⟨th, at_j, going, allowed⟩ := exec_errand run client all taken
          obtain ⟨unchanged, changes, uses, deletes⟩ := errandOk_outcome allowed acts
          rw [errandAt_task] at changes uses deletes
          by_cases old : j < len
          · cases call : th.task.isCall with
            | true =>
                by_cases same : j = i
                · subst same
                  rw [(undisturbed.own th at_j).2.2] at unchanged
                  cases unchanged
                · exact going (undisturbed.gone j th old same at_j call)
            | false =>
                obtain ⟨keys, rfl, member⟩ := deletes call
                have lands : landing server key s (.exec j t (.redisDel server keys) r) =
                    some (j, t) := by
                  simp [landing, member, at_j, call]
                have spent := unraced (j, t) lands item (put j old)
                obtain ⟨live, early⟩ := lasting.2 t rfl
                simp [good, live, stamped, early] at spent
          · exact undisturbed.late j th (by omega) at_j changes uses

theorem step (item : RedisItem) {freshUntil : Int} (inside : i < len)
    (undisturbed : Undisturbed server key item.json staleUntil i len later past s)
    (stamped : SerdeJson.metadataFromStr ι item.json = .ok ⟨freshUntil, staleUntil⟩)
    (put : ∀ j, j < len → putSince server key j past = some item)
    (content : s.world.redis server key = some item)
    (run : Run (system X) (.idle w) past s) (client : ∀ e ∈ past, OneClient server e.1 e.2)
    (all : ∀ e ∈ past, served e.2 = true) (taken : Step (system X) s l s')
    (unraced : Unraced server key past s l) (lasting : Lasting key item staleUntil l) :
    Undisturbed server key item.json staleUntil i len ((s, l) :: later) ((s, l) :: past) s' where
  grown := Nat.le_trans undisturbed.grown taken.length_le
  quiet := List.forall_mem_cons.mpr
    ⟨undisturbed.step_quiet stamped put run client all taken unraced lasting, undisturbed.quiet⟩
  late := by
    intro j th' late at_j changes uses
    rcases taken.origin at_j with ⟨th, was_j, same⟩ | ⟨_, rfl | ⟨k, t, c, r, rfl, member⟩⟩
    · exact undisturbed.late j th late was_j (same ▸ changes) (same ▸ uses)
    · exact lasting.1 _ rfl changes uses
    · obtain ⟨th, at_k, going, allowed⟩ := exec_errand run client all taken
      obtain rfl := Cmd.mem_spawned.mp member
      obtain ⟨key', task, saw⟩ := allowed
      obtain rfl : key = key' := by rw [task] at uses; simpa [Task.serverKeys] using uses
      exact undisturbed.no_deletion stamped at_k going saw
  gone := by
    intro j th' old other at_j call
    rcases taken.origin at_j with ⟨th, was_j, same⟩ | ⟨new, _⟩
    · by_contra going
      exact taken.running was_j at_j going (undisturbed.gone j th old other was_j (same ▸ call))
    · have grown := undisturbed.grown
      omega
  own := by
    intro th' at_i
    rcases taken.origin at_i with ⟨th, was_i, same⟩ | ⟨new, _⟩
    · obtain ⟨changes, call, changed⟩ := undisturbed.own th was_i
      rw [← same]
      exact ⟨changes, call, errandAt_changed changed⟩
    · have grown := undisturbed.grown
      omega
  read := by
    intro j th' late at_j keys found read
    rcases taken.origin at_j with ⟨th, was_j, same⟩ | ⟨new, _⟩
    · rw [← same] at keys read
      have before := undisturbed.read j th late was_j keys
      cases l with
      | start | turn | drop => exact before found read
      | exec k t c r =>
          rw [errandAt_exec] at read
          split at read
          · next own =>
              subst own
              obtain ⟨th₂, at_k, _, allowed⟩ := exec_errand run client all taken
              obtain rfl := Option.some.inj (was_j.symm.trans at_k)
              cases taken with
              | exec _ _ done =>
                  rcases exec_read allowed done read with earlier | ⟨key', keys', rfl⟩
                  · exact before found earlier
                  · rw [errandAt_task, keys] at keys'
                    obtain ⟨rfl, _⟩ := List.cons.inj keys'
                    simp [World.readRedis, content, (lasting.2 t rfl).1]
          · exact before found read
    · rw [errandAt_begins run taken new] at read
      cases read
  clock := by
    intro j th' late at_j now clock
    rcases taken.origin at_j with ⟨th, was_j, same⟩ | ⟨new, _⟩
    · rw [← same] at clock
      have before := undisturbed.clock j th late was_j
      cases l with
      | start | turn | drop => exact before now clock
      | exec k t c r =>
          rw [errandAt_exec] at clock
          split at clock
          · cases taken with
            | exec _ _ done =>
                rcases exec_told done clock with earlier | rfl
                · exact before now earlier
                · exact (lasting.2 now rfl).2
          · exact before now clock
    · rw [errandAt_begins run taken new] at clock
      cases clock

theorem begins {t : Int} {ttl : Nat} {r : (Cmd.redisSetEx (ι := ι) server key json ttl).Ans}
    (run : Run (system X) (.idle w) past s) (client : ∀ e ∈ past, OneClient server e.1 e.2)
    (all : ∀ e ∈ past, served e.2 = true)
    (taken : Step (system X) s (.exec i t (.redisSetEx server key json ttl) r) s') :
    Undisturbed server key json staleUntil i s.threads.length []
      ((s, .exec i t (.redisSetEx server key json ttl) r) :: past) s' := by
  obtain ⟨setter, at_i, going, changed, _, store, ns, key', fresh, stale, task, _⟩ :=
    exec_errand run client all taken
  rw [errandAt_task] at task
  have call : setter.task.isCall = true := by rw [task]; rfl
  have noNew {j : Nat} {th' : Thread (system X)} (late : s.threads.length ≤ j)
      (at_j : s'.threads[j]? = some th') : False := by
    rcases taken.origin at_j with ⟨th, was_j, _⟩ | ⟨_, same | ⟨_, _, _, _, same, member⟩⟩
    · have inside := (List.getElem?_eq_some_iff.mp was_j).1
      omega
    · cases same
    · cases same
      cases member
  refine ⟨taken.length_le, List.forall_mem_nil _, fun j th late at_j =>
    (noNew late at_j).elim, ?_, ?_, fun j th late at_j =>
      (noNew late at_j).elim, fun j th late at_j => (noNew late at_j).elim⟩
  · intro j th' old other at_j call'
    by_contra still
    rcases taken.origin at_j with ⟨th, was_j, same⟩ | ⟨new, _⟩
    · exact other (calls_alone run client all j i th setter was_j at_i (same ▸ call') call
        (taken.running was_j at_j still) going)
    · omega
  · intro th' at_i'
    rcases taken.origin at_i' with ⟨th, was_i, same⟩ | ⟨new, _⟩
    · obtain rfl := Option.some.inj (was_i.symm.trans at_i)
      rw [← same, errandAt_exec, if_pos rfl, task]
      exact ⟨rfl, rfl, rfl⟩
    · have inside := (List.getElem?_eq_some_iff.mp at_i).1
      omega

end Undisturbed

section Put

variable {i ttl : Nat} {t : Int} {json : String} {freshUntil staleUntil : Int}

/-- What the `set` has put is on the server while nothing else takes effect there. -/
theorem put_content (run : Run (system X) (.idle w) past s)
    (shape : past = later ++ (s₁, .exec i t (.redisSetEx server key json ttl) (.ok ())) :: earlier)
    (quiet : ∀ e ∈ later, redisOutcome server key e.2 = none) :
    s.world.redis server key = some ⟨json, some (t + ttl * 1000)⟩ := by
  subst shape
  obtain ⟨s', first, rest⟩ := run.cut
  rw [redis_of_quiet rest quiet]
  cases first with
  | step _ taken =>
      cases taken with
      | exec _ _ done =>
          rcases done with ⟨_, rfl⟩ | ⟨_, fails, _⟩
          · simp [World.setRedis_redis]
          · cases fails

theorem put_since
    (shape : past = later ++ (s₁, .exec i t (.redisSetEx server key json ttl) (.ok ())) :: earlier)
    (quiet : ∀ e ∈ later, redisOutcome server key e.2 = none) {j : Nat}
    (old : j < s₁.threads.length) :
    putSince server key j past = some ⟨json, some (t + ttl * 1000)⟩ := by
  rw [shape, putSince_quiet quiet]
  simp [putSince, Cmd.redisOutcome, old]

theorem undisturbed_run (run : Run (system X) (.idle w) past s)
    (client : ∀ e ∈ past, OneClient server e.1 e.2) (all : ∀ e ∈ past, served e.2 = true)
    (shape : past = later ++ (s₁, .exec i t (.redisSetEx server key json ttl) (.ok ())) :: earlier)
    (stamped : SerdeJson.metadataFromStr ι json = .ok ⟨freshUntil, staleUntil⟩)
    (unraced : ∀ s₂ l part, (s₂, l) :: part <:+ past → Unraced server key part s₂ l)
    (lasting : ∀ e ∈ later, Lasting key ⟨json, some (t + ttl * 1000)⟩ staleUntil e.2) :
    Undisturbed server key json staleUntil i s₁.threads.length later past s := by
  induction later generalizing past s with
  | nil =>
      subst shape
      cases run with
      | step before taken =>
          exact .begins before (fun e member => client e (List.mem_cons_of_mem _ member))
            (fun e member => all e (List.mem_cons_of_mem _ member)) taken
  | cons e later ih =>
      obtain ⟨s₂, l⟩ := e
      cases run with
      | refl => cases shape
      | @step past s l' s' before taken =>
          obtain ⟨same, before_shape⟩ := List.cons.inj shape
          cases same
          obtain ⟨here, others⟩ := List.forall_mem_cons.mp lasting
          have client' := fun e member => client e (List.mem_cons_of_mem _ member)
          have all' := fun e member => all e (List.mem_cons_of_mem _ member)
          have undisturbed := ih before client' all' before_shape
            (fun s₂ l part suffix => unraced s₂ l part (suffix.trans (List.suffix_cons _ _))) others
          have inside : i < s₁.threads.length := by
            subst before_shape
            obtain ⟨_, _, taken⟩ := before.upTo (List.suffix_append _ _)
            cases taken with
            | exec at_i => exact (List.getElem?_eq_some_iff.mp at_i).1
          exact undisturbed.step ⟨json, some (t + ttl * 1000)⟩ inside stamped
            (fun j old => put_since before_shape undisturbed.quiet old)
            (put_content before before_shape undisturbed.quiet)
            before client' all' taken (unraced _ _ _ (List.suffix_refl _)) here

/-- A `get` that is called after a `set` has put its entry hands out that entry. -/
theorem put_read_back {ns key : String} {server' : Nat} {key' json' : String}
    {setter reader : Thread (system X)} {j : Nat} {out : Out ι}
    (run : Run (system X) (.idle w) past s) (client : ∀ e ∈ past, OneClient server e.1 e.2)
    (all : ∀ e ∈ past, served e.2 = true)
    (shape : past = later ++ (s₁, .exec i t (.redisSetEx server' key' json' ttl) (.ok ())) ::
      earlier)
    (setting : s₁.threads[i]? = some setter)
    (set : setter.task = .storeSet (.redis server false) ns key
      (.serialized json freshUntil staleUntil))
    (stamped : SerdeJson.metadataFromStr ι json = .ok ⟨freshUntil, staleUntil⟩)
    (unraced : ∀ s₂ l part, (s₂, l) :: part <:+ past →
      Unraced server (buildCacheKey ns key) part s₂ l)
    (lasting : ∀ e ∈ later,
      Lasting (buildCacheKey ns key) ⟨json, some (t + ttl * 1000)⟩ staleUntil e.2)
    (since : s₁.threads.length ≤ j) (reading : s.threads[j]? = some reader)
    (get : reader.task = .storeGet (.redis server false) ns key) (finished : reader.Finished out) :
    out = .entry (.ok (some (.serialized json freshUntil staleUntil))) := by
  have part : (s₁, .exec i t (.redisSetEx server' key' json' ttl) (.ok ())) :: earlier <:+ past :=
    shape ▸ List.suffix_append _ _
  obtain ⟨before, _, taken⟩ := run.upTo part
  have within {e : Config (system X) × Label (system X)} (member : e ∈ earlier) : e ∈ past :=
    part.subset (List.mem_cons_of_mem _ member)
  obtain ⟨th, at_i, _, _, rfl, store, ns', k', fresh, stale, task, rfl⟩ := exec_errand before
    (fun e member => client e (within member)) (fun e member => all e (within member)) taken
  obtain rfl := Option.some.inj (setting.symm.trans at_i)
  rw [errandAt_task, set] at task
  cases task
  have undisturbed := undisturbed_run run client all shape stamped unraced lasting
  have done : ErrandDone (errandAt server' j reader.task past) out :=
    Prog.keeps_ret.mp (run_errands run client all j reader _ reading finished)
  obtain ⟨found, read, hands⟩ := done (by rw [errandAt_task, get]; rfl)
  obtain rfl := undisturbed.read j reader since reading (by rw [get]; rfl) found read
  obtain ⟨now, clock, returns⟩ := hands json _ rfl stamped
  exact returns (undisturbed.clock j reader since reading now clock)

omit [DecidableEq ι] in
theorem set_yields {ns key : String} {log : Log ι}
    (yields : (set server false ns key (.serialized json freshUntil staleUntil)).Yields
      log (.ok ())) :
    ∃ now, log = [⟨.now, now⟩] ++
      [⟨.redisSetEx server (buildCacheKey ns key) json (calculateTtlSeconds staleUntil now),
        .ok ()⟩] := by
  simp only [set, Bool.false_eq_true, if_false, Ask.now_bind, Ask.redisSetEx_bind,
    Prog.yields_op] at yields
  obtain ⟨now, _, rfl, done, _, rfl, onward⟩ := yields
  cases done with
  | error e => cases onward
  | ok =>
      cases onward
      exact ⟨now, rfl⟩

/-- What a `set` of the entry by thread `i` has put on the server, and what has happened since.
    The lifetime goes by the clock reading of the `set`. -/
def PutBy (server : Nat) (cacheKey json : String) (staleUntil : Int) (i : Nat)
    (past : History (system X)) (item : RedisItem) (s₁ : Config (system X))
    (later : History (system X)) : Prop :=
  ∃ (earlier : History (system X)) (t now : Int),
    past = later ++
    (s₁, .exec i t (.redisSetEx server cacheKey json (calculateTtlSeconds staleUntil now))
      (.ok ())) :: earlier ∧ replies i earlier = [⟨.now, now⟩] ∧
    item = ⟨json, some (t + calculateTtlSeconds staleUntil now * 1000)⟩

/-- A `set` that has returned `Ok` has put its entry, and a `get` that is called afterwards
    returns that entry, if no deletion from before the `set` comes in between. -/
theorem set_read_back {ns key : String} {s₂ : Config (system X)} {setter : Thread (system X)}
    (run : Run (system X) (.idle w) past s) (client : ∀ e ∈ past, OneClient server e.1 e.2)
    (all : ∀ e ∈ past, served e.2 = true) (visited : Visits past s s₂)
    (setting : s₂.threads[i]? = some setter)
    (set : setter.task = .storeSet (.redis server false) ns key
      (.serialized json freshUntil staleUntil))
    (returned : setter.Finished (.done (.ok ())))
    (stamped : SerdeJson.metadataFromStr ι json = .ok ⟨freshUntil, staleUntil⟩)
    (unraced : ∀ s₂ l part, (s₂, l) :: part <:+ past →
      Unraced server (buildCacheKey ns key) part s₂ l) :
    (∃ item s₁ later, PutBy server (buildCacheKey ns key) json staleUntil i past item s₁ later) ∧
    ∀ item s₁ later, PutBy server (buildCacheKey ns key) json staleUntil i past item s₁ later →
      (∀ e ∈ later, Lasting (buildCacheKey ns key) item staleUntil e.2) →
      ∀ (j : Nat) (reader : Thread (system X)) (out : Out ι), s₁.threads.length ≤ j →
      s.threads[j]? = some reader →
        reader.task = .storeGet (.redis server false) ns key → reader.Finished out →
        out = .entry (.ok (some (.serialized json freshUntil staleUntil))) := by
  constructor
  · obtain ⟨part, before, within⟩ := run.visits visited
    have yields := before.finished_yields setting returned
    rw [set] at yields
    obtain ⟨result, calls, same⟩ := Prog.yields_map.mp yields
    obtain rfl := Out.done.inj same
    obtain ⟨now, log⟩ := set_yields (by simpa [Store.dyn, dyn] using calls)
    obtain ⟨s₁, t, earlier, step, first⟩ := step_of_replies log
    obtain ⟨later, shape⟩ := step.trans within
    exact ⟨_, s₁, later, earlier, t, now, shape.symm, first, rfl⟩
  · rintro item s₁ later ⟨earlier, t, now, shape, _, rfl⟩ lasting j reader out since
      reading get finished
    have step : _ :: earlier <:+ past := shape ▸ List.suffix_append later _
    obtain ⟨_, _, taken⟩ := run.upTo step
    cases taken with
    | @exec _ _ th _ _ _ _ _ at_i =>
        -- the thread has the same task when it puts and when it has returned
        obtain ⟨last, at_s, task, _⟩ := run.persists (step.subset (List.mem_cons_self ..)) at_i
        have same : last.task = setter.task := by
          rcases visited with rfl | ⟨l, member⟩
          · rw [Option.some.inj (at_s.symm.trans setting)]
          · obtain ⟨last', at_s', task', _⟩ := run.persists member setting
            rw [Option.some.inj (at_s.symm.trans at_s'), task']
        exact put_read_back run client all shape at_i (task.symm.trans (same.trans set)) stamped
          unraced lasting since reading get finished

end Put

/-! ## Two schedules -/

attribute [local semireducible] Json.valueKey Json.freshKey Json.staleKey Json.closing

def rendered (value : Bool) (freshUntil staleUntil : Int) : StoredEntry Unit :=
  .serialized (String.ofList (Json.writeEntry ⟨value, freshUntil, staleUntil⟩))
    freshUntil staleUntil

/-- An entry that has expired before the server drops it, and a `get` that finds it and
    leaves a deletion behind, followed by more steps. -/
def afterExpired
    (more : List (Move (system (ι := Unit) .atomicMap) (Int × ((i : Unit) → Option (Val i))))) :
    List (Move (system (ι := Unit) .atomicMap) (Int × ((i : Unit) → Option (Val i)))) :=
  [.start (.storeSet (.redis 0 false) "ns" "k" (rendered true 10 20)), .go 0 (reading 0),
    .go 0 (reading 0), .start (.storeGet (.redis 0 false) "ns" "k"), .go 1 (reading 30),
    .go 1 (reading 30), .go 1 (reading 30)] ++ more

/-- The text of the second entry, and what is put on the server for it at 40. -/
def secondItem : RedisItem :=
  ⟨String.ofList (Json.writeEntry ⟨false, 50, 60⟩), some (40 + 1 * 1000)⟩

/-- The deletion comes before the next `set`. -/
theorem set_read_back_deleted :
    ∃ (past : History (system .atomicMap)) (s : Config (system .atomicMap)),
    Run (system .atomicMap) (.idle (.empty : World Unit)) past s ∧
    (∃ e ∈ past, (landing 0 "ns:k" e.1 e.2).isSome) ∧
    ∃ reader : Thread (system .atomicMap), s.threads[4]? = some reader ∧
      ∃ out, reader.Finished out ∧ out = .entry (.ok (some (rendered false 50 60))) := by
  obtain ⟨past, s, played, all, unraced, lands, setter, setting, set, returned, e₁, e₂, e₃, s₁,
    earlier, shape, clock,
      lasting, old, reader, reading, get, out, finished⟩ : ∃ past s,
      driver.play (OneClient 0) (afterExpired [.go 2 (reading 31),
        .start (.storeSet (.redis 0 false) "ns" "k" (rendered false 50 60)), .go 3 (reading 40),
        .go 3 (reading 40), .start (.storeGet (.redis 0 false) "ns" "k"), .go 4 (reading 50),
        .go 4 (reading 51)]) ([], .idle (.empty : World Unit)) = some (past, s) ∧
      (∀ e ∈ past, served e.2 = true) ∧ Throughout (Unraced 0 "ns:k") past ∧
      (∃ e ∈ past, (landing 0 "ns:k" e.1 e.2).isSome) ∧
      ∃ setter, s.threads[3]? = some setter ∧
        setter.task = .storeSet (.redis 0 false) "ns" "k" (rendered false 50 60) ∧
        setter.Finished (.done (.ok ())) ∧
      ∃ e₁ e₂ e₃ s₁ earlier,
        past = [e₁, e₂, e₃] ++ (s₁, .exec 3 40
          (.redisSetEx 0 "ns:k" (String.ofList (Json.writeEntry ⟨false, 50, 60⟩)) 1)
            (.ok ())) :: earlier ∧
        replies (M := system .atomicMap) 3 earlier = [⟨Cmd.now (ι := Unit), (40 : Int)⟩] ∧
        (∀ e ∈ [e₁, e₂, e₃], Lasting "ns:k" secondItem 60 e.2) ∧ s₁.threads.length ≤ 4 ∧
        ∃ reader, s.threads[4]? = some reader ∧ reader.task = .storeGet (.redis 0 false) "ns" "k" ∧
          ∃ out, reader.Finished out :=
    ⟨_, _, rfl, by decide, by decide,
      ⟨_, .tail _ (.tail _ (.tail _ (.tail _ (.tail _ (.tail _ (.head _)))))), rfl⟩,
      _, rfl, rfl, rfl, _, _, _, _, _, rfl, rfl, by decide, by decide, _, rfl, rfl, _, rfl⟩
  obtain ⟨run, client⟩ := Driver.plays played
  have stamped : SerdeJson.metadataFromStr Unit secondItem.json = .ok ⟨50, 60⟩ :=
    congrArg (Except.map _) (Json.fromStr_writeEntry ⟨false, 50, 60⟩)
  have put : PutBy 0 "ns:k" (String.ofList (Json.writeEntry ⟨false, 50, 60⟩)) 60 3 past secondItem
      s₁ [e₁, e₂, e₃] :=
    ⟨earlier, 40, 40, shape, clock, rfl⟩
  obtain ⟨_, kept⟩ :=
    set_read_back run client all (.inl rfl) setting set returned stamped (throughout_iff.mp unraced)
  exact ⟨past, s, run, lands, reader, reading, out, finished,
    kept secondItem s₁ _ put lasting 4 reader out old reading get finished⟩

/-- The deletion comes after the next `set` and takes the new entry away. -/
theorem deleted_after_set :
    ¬ ∀ (past later : History (system .atomicMap)) (s s₁ s₂ : Config (system .atomicMap))
    (i j : Nat) (item : RedisItem) (json : String) (freshUntil staleUntil : Int)
    (setter reader : Thread (system .atomicMap)) (out : Out Unit),
    Run (system .atomicMap) (.idle (.empty : World Unit)) past s →
    (∀ e ∈ past, OneClient 0 e.1 e.2) → (∀ e ∈ past, served e.2 = true) → Visits past s s₂ →
    s₂.threads[i]? = some setter →
    setter.task = .storeSet (.redis 0 false) "ns" "k" (.serialized json freshUntil staleUntil) →
    setter.Finished (.done (.ok ())) →
    SerdeJson.metadataFromStr Unit json = .ok ⟨freshUntil, staleUntil⟩ →
    PutBy 0 "ns:k" json staleUntil i past item s₁ later →
    (∀ e ∈ later, Lasting "ns:k" item staleUntil e.2) → s₁.threads.length ≤ j →
    s.threads[j]? = some reader → reader.task = .storeGet (.redis 0 false) "ns" "k" →
    reader.Finished out → out = .entry (.ok (some (.serialized json freshUntil staleUntil))) := by
  intro readBack
  obtain ⟨past, s, played, all, setter, setting, set, returned, e₁, e₂, e₃, s₁, earlier, shape,
    clock, lasting, old,
      reader, reading, get, finished⟩ : ∃ past s,
      driver.play (OneClient 0) (afterExpired [
        .start (.storeSet (.redis 0 false) "ns" "k" (rendered false 50 60)), .go 3 (reading 40),
        .go 3 (reading 40), .go 2 (reading 41), .start (.storeGet (.redis 0 false) "ns" "k"),
        .go 4 (reading 50)]) ([], .idle (.empty : World Unit)) = some (past, s) ∧
      (∀ e ∈ past, served e.2 = true) ∧
      ∃ setter, s.threads[3]? = some setter ∧
        setter.task = .storeSet (.redis 0 false) "ns" "k" (rendered false 50 60) ∧
        setter.Finished (.done (.ok ())) ∧
      ∃ e₁ e₂ e₃ s₁ earlier,
        past = [e₁, e₂, e₃] ++ (s₁, .exec 3 40
          (.redisSetEx 0 "ns:k" (String.ofList (Json.writeEntry ⟨false, 50, 60⟩)) 1)
            (.ok ())) :: earlier ∧
        replies (M := system .atomicMap) 3 earlier = [⟨Cmd.now (ι := Unit), (40 : Int)⟩] ∧
        (∀ e ∈ [e₁, e₂, e₃], Lasting "ns:k" secondItem 60 e.2) ∧ s₁.threads.length ≤ 4 ∧
        ∃ reader, s.threads[4]? = some reader ∧ reader.task = .storeGet (.redis 0 false) "ns" "k" ∧
          reader.Finished (.entry (.ok none)) :=
    ⟨_, _, rfl, by decide, _, rfl, rfl, rfl, _, _, _, _, _, rfl, rfl, by decide, by decide, _,
      rfl, rfl, rfl⟩
  obtain ⟨run, client⟩ := Driver.plays played
  have stamped : SerdeJson.metadataFromStr Unit secondItem.json = .ok ⟨50, 60⟩ :=
    congrArg (Except.map _) (Json.fromStr_writeEntry ⟨false, 50, 60⟩)
  have same := readBack past _ s s₁ s 3 4 secondItem _ 50 60 setter reader _ run client all
    (.inl rfl) setting set returned stamped ⟨earlier, 40, 40, shape, clock, rfl⟩ lasting old
      reading get finished
  cases same

end Runs

end RedisStore

end Swr
