import Swr.Markers

/-! # Where written values come from

Which values the tasks of an `swr` call write, over any tree of stores. The auxiliary
state of such a task is the value its origin has returned and, once it has waited
for another load, what it was answered since.
-/

namespace Swr

open Async

variable {ι : Type} [SerdeJson ι]

/-! ## Entries of a value -/

/-- The text is an entry of the value, with whatever stamps. -/
def Renders (value : Σ i : ι, Val i) (data : String) : Prop :=
  ∃ freshUntil staleUntil,
    SerdeJson.toString value.1 ⟨value.2, freshUntil, staleUntil⟩ = .ok data

/-- The entry holds the value, and so does its serialized form if it has one. -/
def StoredEntry.Carries (value : Σ i : ι, Val i) : StoredEntry ι → Prop
  | .typed held _ _ serializer =>
      held = value ∧ ∀ data, serializer = some (.ok data) → Renders value data
  | .serialized data _ _ => Renders value data

/-- The command writes an entry of the value. -/
def Cmd.Carries (value : Σ i : ι, Val i) : Cmd ι → Prop
  | .mapInsert _ _ entry | .extSet _ _ _ entry => entry.Carries value
  | .redisSet _ _ json | .redisSetEx _ _ json _ => Renders value json
  | _ => False

/-- A command of a store that writes no other value. -/
def Cmd.OfSet (value : Σ i : ι, Val i) (c : Cmd ι) : Prop :=
  c.OfStore ∧ (c.isWrite = true → c.Carries value)

theorem serialize_renders {i : ι} {v : Val i} {freshUntil staleUntil : Int} {data : String}
    (h : StoredEntry.serialize i ⟨v, freshUntil, staleUntil⟩ = .ok data) : Renders ⟨i, v⟩ data := by
  simp only [StoredEntry.serialize] at h
  split at h
  · next rendered => cases h; exact ⟨_, _, rendered⟩
  · cases h

theorem storedEntry_carries {i : ι} {mode : StorageMode} {v : Val i} {freshUntil staleUntil : Int}
    {stored : StoredEntry ι}
    (h : SwrCache.storedEntry i mode v freshUntil staleUntil = .ok stored) :
    stored.Carries ⟨i, v⟩ := by
  cases mode with
  | typed =>
      cases h
      exact ⟨rfl, fun data made => serialize_renders (Option.some.inj made)⟩
  | serialized =>
      simp only [SwrCache.storedEntry] at h
      split at h
      · next made => cases h; exact serialize_renders made
      · cases h

theorem StoredEntry.Carries.convert {value : Σ i : ι, Val i} {entry converted : StoredEntry ι}
    {target : StorageMode} (carries : entry.Carries value)
    (h : entry.convertForMode target = .ok converted) : converted.Carries value := by
  cases entry with
  | serialized => cases target <;> cases h <;> exact carries
  | typed held freshUntil staleUntil serializer =>
      cases target with
      | typed => cases h; exact carries
      | serialized =>
          rcases serializer with _ | e | data
          · cases h
          · cases h
          · cases h
            exact carries.2 data rfl

/-- Whatever tree of stores an entry is handed to, only its value is written. -/
def DynStore.SetsOnly (store : DynStore ι) : Prop :=
  ∀ value ns key entry, entry.Carries value → (store.set ns key entry).Only (Cmd.OfSet value)

theorem Store.setsOnly (store : Store) : (store.dyn ι).SetsOnly := by
  intro value ns key entry carries
  refine (Store.putsOnly (fun carries done => carries.convert done)
    store ns key entry carries).mono ?_
  intro c puts
  cases c
  case mapInsert => exact ⟨trivial, fun _ => puts.2⟩
  case extSet => exact ⟨trivial, fun _ => puts.2⟩
  case redisSet =>
    obtain ⟨_, _, _, renders⟩ := puts
    exact ⟨trivial, fun _ => renders⟩
  case redisSetEx =>
    obtain ⟨_, _, _, _, renders, _⟩ := puts
    exact ⟨trivial, fun _ => renders⟩
  case now | rand | mapEvict | emit => exact ⟨trivial, nofun⟩
  all_goals exact puts.elim

/-! ## The outline -/

/-- The `swr` call that a task belongs to. -/
def Task.ofSwr : Task ι → Option (SwrCache ι × String × String)
  | .swr cache ns key | .cacheValue cache ns key _ _ _ | .revalidate cache ns key =>
      some (cache, ns, key)
  | _ => none

/-- What the task was answered since it went to sleep. -/
def sleepNext (log : Option (List (Σ c : Cmd ι, c.Ans))) (c : Cmd ι) (r : c.Ans) :
    Option (List (Σ c : Cmd ι, c.Ans)) :=
  match c with
  | .sleep _ => some []
  | c => log.map (· ++ [⟨c, r⟩])

abbrev sleepLog (ι : Type) [SerdeJson ι] : Outline (sig ι) where
  Ghost := Option (List (Σ c : Cmd ι, c.Ans))
  ok _ _ := True
  may _ _ _ := True
  next := sleepNext

/-- What the origin has returned to the task. -/
def loadedNext (loaded : Option (Σ i : ι, Val i)) : (c : Cmd ι) → c.Ans → Option (Σ i : ι, Val i)
  | .loadEnd cache _ _, r => r.map (Sigma.mk cache.ty)
  | _, _ => loaded

/-- A `get` of the cache's store that is answered like this finds an entry that the
    cache can decode. -/
def Served [DecidableEq ι] (call : SwrCache ι × String × String)
    (log : List (Σ c : Cmd ι, c.Ans)) : Prop :=
  ∃ stored entry, (call.1.dyn.get call.2.1 call.2.2).Yields log (.ok (some stored)) ∧
    stored.intoTyped call.1.ty = .ok entry

structure Provenance (ι : Type) [SerdeJson ι] where
  call : SwrCache ι × String × String
  slept : Option (List (Σ c : Cmd ι, c.Ans))
  loaded : Option (Σ i : ι, Val i)

namespace Provenance

def ok (g : Provenance ι) : Cmd ι → Prop
  | .spawn (.cacheValue cache _ _ value _ _) => g.loaded = some ⟨cache.ty, value⟩
  | c => c.isWrite = true → ∃ value, g.loaded = some value ∧ c.Carries value

/-- A task that has waited is not answered once its second look at the store was
    served. -/
def may [DecidableEq ι] (g : Provenance ι) : Prop := ∀ log ∈ g.slept, ¬ Served g.call log

def next (g : Provenance ι) (c : Cmd ι) (r : c.Ans) : Provenance ι :=
  { g with slept := sleepNext g.slept c r, loaded := loadedNext g.loaded c r }

/-- Where the provenance of a task starts. -/
def entry : Task ι → Option (Provenance ι)
  | .swr cache ns key | .revalidate cache ns key => some ⟨(cache, ns, key), none, none⟩
  | .cacheValue cache ns key value _ _ => some ⟨(cache, ns, key), none, some ⟨cache.ty, value⟩⟩
  | _ => none

/-- The other tasks only have to keep away from the tasks of `swr`. -/
def othersOk : Cmd ι → Prop
  | .spawn task => task.OfStore
  | _ => True

def Outline.ok : Option (Provenance ι) → Cmd ι → Prop
  | none => othersOk
  | some g => g.ok

def Outline.may [DecidableEq ι] : Option (Provenance ι) → Prop
  | none => True
  | some g => g.may

def Outline.next : Option (Provenance ι) → (c : Cmd ι) → c.Ans → Option (Provenance ι)
  | none, _, _ => none
  | some g, c, r => some (g.next c r)

theorem entry_call {task : Task ι} {g : Provenance ι} (call : task.isCall = true)
    (state : entry task = some g) : g.loaded = none := by
  cases task <;> first | cases state; done | (cases state; first | rfl | cases call)

theorem loadedNext_cases {loaded : Option (Σ i : ι, Val i)} {c : Cmd ι} {r : c.Ans}
    {value : Σ i : ι, Val i} (h : loadedNext loaded c r = some value) :
    loaded = some value ∨ ∃ cache ns key v, (⟨c, r⟩ : Σ c : Cmd ι, c.Ans) =
      ⟨.loadEnd cache ns key, some v⟩ ∧ value = ⟨cache.ty, v⟩ := by
  cases c
  case loadEnd cache ns key =>
    cases r with
    | none => cases h
    | some v => exact .inr ⟨cache, ns, key, v, rfl, (Option.some.inj h).symm⟩
  all_goals exact .inl h

@[simp] theorem Outline.next_some (g : Provenance ι) (c : Cmd ι) (r : c.Ans) :
    Outline.next (some g) c r = some (g.next c r) := rfl

theorem sleepNext_ofStore {c : Cmd ι} (ofStore : c.OfStore)
    (log : Option (List (Σ c : Cmd ι, c.Ans))) (r : c.Ans) :
    sleepNext log c r = log.map (· ++ [⟨c, r⟩]) := by
  cases c <;> first | exact ofStore.elim | rfl

theorem loadedNext_ofStore {c : Cmd ι} (ofStore : c.OfStore) (loaded : Option (Σ i : ι, Val i))
    (r : c.Ans) : loadedNext loaded c r = loaded := by
  cases c <;> first | exact ofStore.elim | rfl

/-- What neither writes nor starts a task needs no provenance. -/
theorem ok_plain {g : Option (Provenance ι)} {c : Cmd ι} (reads : c.isWrite = false)
    (quiet : c.spawned = []) : Outline.ok g c := by
  cases c
  case spawn => cases quiet
  all_goals
    cases g with
    | none => trivial
    | some g => exact fun writes => absurd writes (by simp [reads])

theorem ok_ofGet {g : Provenance ι} {c : Cmd ι} (ofGet : c.OfGet) : g.ok c := by
  obtain ⟨ofStore, reads⟩ := ofGet
  cases c
  case spawn task =>
    cases task <;> first | exact ofStore.elim | exact nofun
  all_goals exact fun writes => absurd writes (by simp [reads])

theorem ok_ofSet {g : Provenance ι} {value : Σ i : ι, Val i} {c : Cmd ι} (ofSet : c.OfSet value)
    (loaded : g.loaded = some value) : g.ok c := by
  obtain ⟨ofStore, carries⟩ := ofSet
  cases c
  case spawn task =>
    cases task <;> first | exact ofStore.elim | exact nofun
  all_goals exact fun writes => ⟨value, loaded, carries writes⟩

end Provenance

variable [DecidableEq ι]

abbrev provenanceOutline (ι : Type) [SerdeJson ι] [DecidableEq ι] : Outline (sig ι) where
  Ghost := Option (Provenance ι)
  ok := Provenance.Outline.ok
  may g _ _ := Provenance.Outline.may g
  next := Provenance.Outline.next

namespace Provenance

variable {call : SwrCache ι × String × String} {α β : Type}

/-- The tasks that are not part of an `swr` call. -/
theorem others_keeps {p : Code ι α} (uses : p.Only Cmd.OfStore) :
    p.Keeps (provenanceOutline ι) ((provenanceOutline ι).any α) none := by
  refine uses.keeps (fun c ofStore => ⟨?_, fun _ => rfl⟩) fun _ => trivial
  cases c <;> first | exact ofStore | exact trivial

/-- Reading before any sleep. -/
theorem keeps_read {post : (provenanceOutline ι).Ghost → β → Prop} {p : Code ι α}
    {onward : α → Code ι β} {loaded : Option (Σ i : ι, Val i)} (uses : p.Only Cmd.OfGet)
    (rest : ∀ value, (onward value).Keeps (provenanceOutline ι) post (some ⟨call, none, loaded⟩)) :
    (p >>= onward).Keeps (provenanceOutline ι) post (some ⟨call, none, loaded⟩) := by
  refine Prog.Keeps.bind (uses.keeps (fun c ofGet => ⟨ok_ofGet ofGet, fun r => ?_⟩) rest)
  simp only [Outline.next_some, Provenance.next, sleepNext_ofStore ofGet.1,
    loadedNext_ofStore ofGet.1, Option.map_none]

/-- Writing the value that was loaded. -/
theorem keeps_write {post : (provenanceOutline ι).Ghost → β → Prop} {p : Code ι α}
    {onward : α → Code ι β} {value : Σ i : ι, Val i} (uses : p.Only (Cmd.OfSet value))
    (rest : ∀ result,
      (onward result).Keeps (provenanceOutline ι) post (some ⟨call, none, some value⟩)) :
    (p >>= onward).Keeps (provenanceOutline ι) post (some ⟨call, none, some value⟩) := by
  refine Prog.Keeps.bind (uses.keeps (fun c ofSet => ⟨ok_ofSet ofSet rfl, fun r => ?_⟩) rest)
  simp only [Outline.next_some, Provenance.next, sleepNext_ofStore ofSet.1,
    loadedNext_ofStore ofSet.1, Option.map_none]

end Provenance

namespace SwrCache

variable (self : SwrCache ι) (ns key : String)

/-- What a deduplicated load may hand back: a value that the origin returned, or the
    entry a second look at the store was served. -/
def Loaded (g : (provenanceOutline ι).Ghost)
    (result : Except String (Option (Val self.ty))) : Prop :=
  ∃ slept loaded, g = some ⟨(self, ns, key), slept, loaded⟩ ∧
    ((∃ log ∈ slept, Served (self, ns, key) log) ∨
      ∀ value, result = .ok (some value) → loaded = some ⟨self.ty, value⟩)

theorem markedLoad_loaded (slept : Option (List (Σ c : Cmd ι, c.Ans))) :
    (self.markedLoad ns key).Keeps (provenanceOutline ι) (self.Loaded ns key)
      (some ⟨(self, ns, key), slept, none⟩) := by
  simp only [markedLoad, unmark, Ask.insertMarker_bind, Ask.loadStart_bind, Ask.loadEnd_bind,
    Ask.removeMarker_bind, Prog.keeps_op]
  refine ⟨Provenance.ok_plain rfl rfl, fun _ _ =>
    ⟨Provenance.ok_plain rfl rfl, fun _ _ => ⟨Provenance.ok_plain rfl rfl,
    fun result _ => ⟨Provenance.ok_plain rfl rfl, fun _ _ => ?_⟩⟩⟩⟩
  refine Prog.keeps_ret.mpr ⟨_, _, rfl, .inr ?_⟩
  rintro value same
  cases same
  rfl

theorem deduplicatedLoadFromOrigin_loaded :
    (self.deduplicatedLoadFromOrigin ns key).Keeps (provenanceOutline ι) (self.Loaded ns key)
      (some ⟨(self, ns, key), none, none⟩) := by
  simp only [deduplicatedLoadFromOrigin, Ask.containsKey_bind, Prog.keeps_op]
  refine ⟨Provenance.ok_plain rfl rfl, fun loading _ => ?_⟩
  cases loading with
  | false => exact self.markedLoad_loaded ns key _
  | true =>
      simp only [if_true, Ask.sleep_bind, Prog.keeps_op]
      refine ⟨Provenance.ok_plain rfl rfl, fun _ _ => Prog.Keeps.bind ?_⟩
      let state (log : List (Σ c : Cmd ι, c.Ans)) : (provenanceOutline ι).Ghost :=
        some ⟨(self, ns, key), some log, none⟩
      refine (self.dyn_plain.read ns key).keeps_log state ?_ fun log result yields => ?_
      · refine fun log c ofGet => ⟨Provenance.ok_ofGet ofGet, fun r => ?_⟩
        simp only [state, Provenance.Outline.next_some, Provenance.next,
          Provenance.sleepNext_ofStore ofGet.1, Provenance.loadedNext_ofStore ofGet.1,
          Option.map_some]
      · rcases result with e | _ | stored
        · exact self.markedLoad_loaded ns key _
        · exact self.markedLoad_loaded ns key _
        · dsimp only
          split
          · next entry decodes =>
              exact Prog.keeps_ret.mpr ⟨_, _, rfl, .inl ⟨log, rfl, stored, entry, yields, decodes⟩⟩
          · exact self.markedLoad_loaded ns key _

/-- Caching what a deduplicated load handed back. -/
theorem cacheValue_provenance {g : (provenanceOutline ι).Ghost} {value : Val self.ty} {α : Type}
    {result : α} (loaded : self.Loaded ns key g (.ok (some value))) :
    (do self.cacheValue ns key value; return result : Code ι α).Keeps (provenanceOutline ι)
      ((provenanceOutline ι).any α) g := by
  obtain ⟨slept, loaded, rfl, served | fromOrigin⟩ := loaded
  · obtain ⟨log, since, served⟩ := served
    simp only [cacheValue, Ask.now_bind, Prog.op_bind, Prog.keeps_op]
    exact ⟨Provenance.ok_plain rfl rfl, fun _ unserved => absurd served (unserved log since)⟩
  · obtain rfl := fromOrigin value rfl
    simp only [cacheValue, Ask.now_bind, Prog.op_bind, Prog.keeps_op]
    refine ⟨Provenance.ok_plain rfl rfl, fun _ _ => ?_⟩
    simp only [Ask.spawn, issue, Prog.op_bind, Prog.keeps_op]
    exact ⟨rfl, fun _ _ => Prog.keeps_ret.mpr trivial⟩

theorem loadOrFail_provenance :
    (self.loadOrFail ns key).Keeps (provenanceOutline ι) ((provenanceOutline ι).any _)
      (some ⟨(self, ns, key), none, none⟩) := by
  refine Prog.Keeps.bind ((self.deduplicatedLoadFromOrigin_loaded ns key).mono ?_)
  rintro g (e | _ | value) loaded
  · exact Prog.keeps_ret.mpr trivial
  · exact Prog.keeps_ret.mpr trivial
  · exact self.cacheValue_provenance ns key loaded

theorem getInternal_reads : (self.getInternal ns key).Only Cmd.OfGet :=
  getInternal_only (self.dyn_plain.read ns key) (by trivial)

theorem swr_provenance :
    (self.swr ns key).Keeps (provenanceOutline ι) ((provenanceOutline ι).any _)
      (some ⟨(self, ns, key), none, none⟩) := by
  refine Provenance.keeps_read (self.getInternal_reads ns key) fun result => ?_
  split
  · simp only [spawnRevalidation, Ask.spawn_bind, Prog.keeps_op]
    exact ⟨nofun, fun _ _ => Prog.keeps_ret.mpr trivial⟩
  · refine Prog.Keeps.bind ((self.deduplicatedLoadFromOrigin_loaded ns key).mono ?_)
    rintro g (e | _ | fresh) loaded
    · exact Prog.keeps_ret.mpr trivial
    · exact Prog.keeps_ret.mpr trivial
    · exact self.cacheValue_provenance ns key loaded
  · exact Prog.keeps_ret.mpr trivial
  · exact self.loadOrFail_provenance ns key
  · exact self.loadOrFail_provenance ns key
  · exact self.loadOrFail_provenance ns key

theorem cacheValueTask_provenance (value : Val self.ty) (freshUntil staleUntil : Int) :
    (self.cacheValueTask ns key value freshUntil staleUntil).Keeps (provenanceOutline ι)
      (fun g _ => g = some ⟨(self, ns, key), none, some ⟨self.ty, value⟩⟩)
      (some ⟨(self, ns, key), none, some ⟨self.ty, value⟩⟩) := by
  simp only [cacheValueTask]
  split
  · exact Prog.keeps_ret.mpr rfl
  · next stored made =>
      exact Provenance.keeps_write
        (Store.setsOnly self.store _ ns key stored (storedEntry_carries made))
        fun _ => Prog.keeps_ret.mpr rfl

theorem revalidateTask_provenance :
    (self.revalidateTask ns key).Keeps (provenanceOutline ι) ((provenanceOutline ι).any _)
      (some ⟨(self, ns, key), none, none⟩) := by
  simp only [revalidateTask, Ask.containsKey_bind, Prog.keeps_op]
  refine ⟨Provenance.ok_plain rfl rfl, fun running _ => ?_⟩
  cases running with
  | true => exact Prog.keeps_ret.mpr trivial
  | false =>
      simp only [Bool.false_eq_true, if_false, Ask.insertMarker_bind, Ask.loadStart_bind,
        Ask.loadEnd_bind, Prog.keeps_op]
      refine ⟨Provenance.ok_plain rfl rfl, fun _ _ => ⟨Provenance.ok_plain rfl rfl, fun _ _ =>
        ⟨Provenance.ok_plain rfl rfl, fun value _ => ?_⟩⟩⟩
      have unmarks :
          ∀ loaded, (self.unmark ns key).Keeps (provenanceOutline ι) ((provenanceOutline ι).any _)
          (some ⟨(self, ns, key), none, loaded⟩) := by
        intro loaded
        simp only [unmark, Ask.removeMarker, issue, Prog.keeps_op]
        exact ⟨Provenance.ok_plain rfl rfl, fun _ _ => Prog.keeps_ret.mpr trivial⟩
      cases value with
      | none => exact unmarks _
      | some v =>
          simp only [Ask.now_bind, Prog.keeps_op]
          refine ⟨Provenance.ok_plain rfl rfl, fun now _ => ?_⟩
          split
          · exact unmarks _
          · next stored made =>
              exact Provenance.keeps_write
                (Store.setsOnly self.store _ ns key stored (storedEntry_carries made))
                fun _ => unmarks _

end SwrCache

theorem provenanceOutline_body (task : Task ι) :
    task.body.Keeps (provenanceOutline ι) ((provenanceOutline ι).any _)
      (Provenance.entry task) := by
  cases task with
  | swr cache ns key =>
      exact Prog.Keeps.bind ((cache.swr_provenance ns key).mono fun _ _ _ =>
        Prog.keeps_ret.mpr trivial)
  | cacheValue cache ns key value freshUntil staleUntil =>
      exact Prog.Keeps.bind
        ((cache.cacheValueTask_provenance ns key value freshUntil staleUntil).mono
        fun _ _ _ => Prog.keeps_ret.mpr trivial)
  | revalidate cache ns key =>
      exact Prog.Keeps.bind ((cache.revalidateTask_provenance ns key).mono
        fun _ _ _ => Prog.keeps_ret.mpr trivial)
  | get | set | remove | storeGet | storeSet | storeRemove | backfill | redisDel =>
      exact Provenance.others_keeps (Task.body_ofStore fun _ _ => id)

/-! ## Runs -/

section Runs

variable {X : ExtSemantics ι} {w : World ι} {past earlier : History (system X)}
  {s s' : Config (system X)} {l : Label (system X)}

/-- What thread `i` was answered since it went to sleep, if it ever did. -/
def sinceSleep (i : Nat) (past : History (system X)) : Option (List (Σ c : Cmd ι, c.Ans)) :=
  ghost (sleepLog ι) none i past

/-- The step is taken by a task that waited for another load and whose second look at
    the store was served. -/
def Misled (earlier : History (system X)) (s : Config (system X)) (l : Label (system X)) : Prop :=
  ∃ i t c r th call, l = .exec i t c r ∧ s.threads[i]? = some th ∧ th.task.ofSwr = some call ∧
    ∃ log ∈ sinceSleep i earlier, Served call log

/-- A task of the family has had the value from its origin. -/
def LoadedIn (past : History (system X)) (root : Nat) (value : Σ i : ι, Val i) : Prop :=
  ∃ s i t cache ns key v th, (s, .exec i t (.loadEnd cache ns key) (some v)) ∈ past ∧
    s.threads[i]? = some th ∧ th.root = root ∧ value = ⟨cache.ty, v⟩

theorem LoadedIn.mono {past' : History (system X)} {root : Nat} {value : Σ i : ι, Val i}
    (loaded : LoadedIn past root value) (subset : past ⊆ past') : LoadedIn past' root value := by
  obtain ⟨s, i, t, cache, ns, key, v, th, member, rest⟩ := loaded
  exact ⟨s, i, t, cache, ns, key, v, th, subset member, rest⟩

/-- The auxiliary state of a thread after a history. -/
def provenance (i : Nat) (task : Task ι) (past : History (system X)) : Option (Provenance ι) :=
  ghost (provenanceOutline ι) (Provenance.entry task) i past

theorem provenance_exec {i j : Nat} {t : Int} {c : Cmd ι} {r : c.Ans} {task : Task ι} :
    provenance i task ((s, .exec j t c r) :: past) =
      if j = i then Provenance.Outline.next (provenance i task past) c r
      else provenance i task past := rfl

theorem provenance_foreign {i : Nat} {task : Task ι} (foreign : l.Foreign i) :
    provenance i task ((s, l) :: past) = provenance i task past := ghost_foreign foreign

/-- The tasks of an `swr` call keep their call and record what `sinceSleep` says. -/
theorem provenance_ofSwr (past : History (system X)) (i : Nat) {task : Task ι}
    {call : SwrCache ι × String × String} (ofSwr : task.ofSwr = some call) :
    ∃ g, provenance i task past = some g ∧
      g.call = call ∧ g.slept = sinceSleep i past := by
  induction past with
  | nil =>
      cases task <;> first | cases ofSwr; done | (cases ofSwr; exact ⟨_, rfl, rfl, rfl⟩)
  | cons e past ih =>
      obtain ⟨g, state, same, slept⟩ := ih
      obtain ⟨s, l⟩ := e
      cases l with
      | start | turn | drop => exact ⟨g, state, same, slept⟩
      | exec j t c r =>
          rw [provenance_exec, state]
          simp only [sinceSleep, ghost] at slept ⊢
          split
          · exact ⟨_, rfl, same, by simp [Provenance.next, slept]⟩
          · exact ⟨g, rfl, same, slept⟩

theorem provenance_other {i : Nat} {task : Task ι} (other : Provenance.entry task = none) :
    provenance i task past = none := by
  induction past with
  | nil => exact other
  | cons e past ih =>
      obtain ⟨s, l⟩ := e
      cases l with
      | start | turn | drop => exact ih
      | exec j t c r =>
          rw [provenance_exec, ih]
          split <;> rfl

/-- What a task counts as loaded, its family has had from its origin. -/
def Sourced (past : History (system X)) (s : Config (system X)) : Prop :=
  ∀ i th g value, s.threads[i]? = some th → provenance i th.task past = some g →
    g.loaded = some value → LoadedIn past th.root value

theorem Sourced.step (sourced : Sourced past s) (run : Run (system X) (.idle w) past s)
    (outlined : Outlined (provenanceOutline ι) Provenance.entry
      ((provenanceOutline ι).any _) past s)
    (call : FromOutside l) (taken : Step (system X) s l s') :
    Sourced ((s, l) :: past) s' := by
  have later : past ⊆ (s, l) :: past := List.subset_cons_self ..
  intro i th' g value at_i state loaded
  cases taken.fate at_i with
  | same was_i foreign =>
      rw [provenance_foreign foreign] at state
      exact (sourced i th' g value was_i state loaded).mono later
  | @moved c th r t rest was_i next moved =>
      subst moved
      rw [provenance_exec, if_pos rfl] at state
      cases before : provenance i th.task past with
      | none => rw [before] at state; cases state
      | some g₀ =>
          rw [before] at state
          obtain rfl := Option.some.inj state
          rcases Provenance.loadedNext_cases loaded with older | ⟨cache, ns, key, v, same, rfl⟩
          · exact (sourced i th g₀ value was_i before older).mono later
          · cases same
            exact ⟨s, i, t, cache, ns, key, v, th, List.mem_cons_self .., was_i, rfl, rfl⟩
  | turned was_i _ moved =>
      subst moved
      exact (sourced i _ g value was_i state loaded).mono later
  | dropped was_i moved =>
      subst moved
      exact (sourced i _ g value was_i state loaded).mono later
  | @called task new moved =>
      subst moved
      rw [provenance_foreign (by simp [Label.Foreign]), provenance,
        run.ghost_unstarted (by omega)] at state
      rw [Provenance.entry_call (call task rfl) state] at loaded
      cases loaded
  | @spawned j th c task t r new was_j inside member moved =>
      subst moved
      rw [provenance_foreign (by rintro _ _ _ same; cases same; omega), provenance,
        run.ghost_unstarted new] at state
      obtain ⟨_, at_j, _, allowed⟩ := outlined.ok taken
      obtain rfl := Option.some.inj (was_j.symm.trans at_j)
      obtain rfl := Cmd.mem_spawned.mp member
      -- only `cache_value` starts a task that already has a value
      cases task <;> first | cases state; done | (cases state; first | cases loaded; done | skip)
      replace allowed : Provenance.Outline.ok (provenance j th.task past) _ := allowed
      cases before : provenance j th.task past with
      | none => rw [before] at allowed; exact allowed.elim
      | some g₀ =>
          rw [before] at allowed
          exact (sourced j th g₀ _ was_j before (allowed.trans loaded)).mono later

theorem answered (led : ¬ Misled past s l) (i : Nat) (t : Int) (c : Cmd ι) (r : c.Ans)
    (th : Thread (system X)) (step : l = .exec i t c r) (at_i : s.threads[i]? = some th) :
    Provenance.Outline.may (provenance i th.task past) := by
  cases state : provenance i th.task past with
  | none => trivial
  | some g =>
      intro log since served
      cases ofSwr : th.task.ofSwr with
      | none =>
          have other : provenance i th.task past = none := by
            refine provenance_other ?_
            cases task : th.task <;> first | rfl | (rw [task] at ofSwr; cases ofSwr)
          rw [other] at state
          cases state
      | some call =>
          obtain ⟨g', state', rfl, slept⟩ := provenance_ofSwr past i ofSwr
          obtain rfl := Option.some.inj (state.symm.trans state')
          exact led ⟨i, t, c, r, th, g.call, step, at_i, ofSwr, log, slept ▸ since, served⟩

/-- In a run without misled steps, whatever an `swr` call writes was returned by its
    own origin before. -/
theorem written_loaded (run : Run (system X) (.idle w) past s)
    (calls : ∀ e ∈ past, FromOutside e.2)
    (led : ∀ s l earlier, (s, l) :: earlier <:+ past → ¬ Misled earlier s l)
    {s₁ : Config (system X)} {i : Nat} {t : Int} {c : Cmd ι} {r : c.Ans} {th : Thread (system X)}
    {call : SwrCache ι × String × String}
    (step : (s₁, .exec i t c r) :: earlier <:+ past) (at_i : s₁.threads[i]? = some th)
    (ofSwr : th.task.ofSwr = some call) (writes : c.isWrite = true) :
    ∃ value, c.Carries value ∧ LoadedIn earlier th.root value := by
  obtain ⟨before, s₂, taken⟩ := run.upTo step
  obtain ⟨outlined, sourced⟩ := Run.outline (O := provenanceOutline ι) (T := fun _ => True) Sourced
    (fun task _ => provenanceOutline_body task) (fun _ _ _ _ _ => trivial)
    (fun earlier s l => ¬ Misled earlier s l ∧ FromOutside l)
    (by intro i th _ _ at_i; simp [Config.idle] at at_i)
    (fun past s l s' before outlined sourced good taken =>
      ⟨answered good.1, sourced.step before outlined good.2 taken⟩)
    before
    (fun s l earlier' part =>
      have whole := part.trans ((List.suffix_cons _ _).trans step)
      ⟨led s l earlier' whole, calls (s, l) (whole.subset (by simp))⟩)
    (fun _ _ _ => trivial)
  obtain ⟨_, at_i', _, allowed⟩ := outlined.ok taken
  obtain rfl := Option.some.inj (at_i.symm.trans at_i')
  obtain ⟨g, state, _, _⟩ := provenance_ofSwr earlier i ofSwr
  replace allowed : Provenance.Outline.ok (provenance i th.task earlier) c := allowed
  rw [state] at allowed
  have issued : ∃ value, g.loaded = some value ∧ c.Carries value := by
    cases c <;> first | exact allowed writes | cases writes
  obtain ⟨value, loaded, carries⟩ := issued
  exact ⟨value, carries, sourced i th g value at_i state loaded⟩

/-- The thread that a step sends to sleep. -/
def napping : Label (system X) → Option Nat
  | .exec i _ (.sleep _) _ => some i
  | _ => none

theorem sinceSleep_awake {i : Nat} (awake : ∀ e ∈ past, napping e.2 = none) :
    sinceSleep i past = none := by
  induction past with
  | nil => rfl
  | cons e past ih =>
      have before := ih fun e member => awake e (by simp [member])
      obtain ⟨s, l⟩ := e
      cases l with
      | start | turn | drop => exact before
      | exec j t c r =>
          simp only [sinceSleep, ghost] at before ⊢
          rw [before]
          split
          · have wakes := awake (s, .exec j t c r) (by simp)
            cases c <;> first | rfl | cases wakes
          · rfl

/-- What a miss loads is what its background task writes. -/
theorem written_loaded_miss :
    ∃ (past : History (system .atomicMap)) (s : Config (system .atomicMap)),
    Run (system .atomicMap) (.idle (.empty : World Unit)) past s ∧
    ∃ s₁ t c r earlier, past = (s₁, .exec 1 t c r) :: earlier ∧ c.isWrite = true ∧
      ∃ value, c.Carries value ∧ LoadedIn earlier 0 value := by
  obtain ⟨past, s, played, s₁, t, c, r, earlier, rfl, th, at_1, ofSwr, root, writes⟩ : ∃ past s,
      driver.play (fun _ l => napping l = none ∧ FromOutside l)
        [.start (.swr soleCache "ns" "k"), .go 0 (reading 0), .go 0 (reading 0), .go 0 (reading 0),
          .go 0 (reading 0), .go 0 (reading 0), .go 0 (reading 0), .go 0 (reading 0),
          .go 0 (reading 0), .go 1 (reading 0)] ([], .idle .empty) = some (past, s) ∧
      ∃ s₁ t c r earlier, past = (s₁, .exec 1 t c r) :: earlier ∧
        ∃ th, s₁.threads[1]? = some th ∧ th.task.ofSwr = some (soleCache, "ns", "k") ∧
          th.root = 0 ∧ c.isWrite = true :=
    ⟨_, _, rfl, _, _, _, _, _, rfl, _, rfl, rfl, rfl, rfl⟩
  obtain ⟨run, good⟩ := Driver.plays played
  refine ⟨_, s, run, s₁, t, c, r, earlier, rfl, writes, ?_⟩
  rw [← root]
  refine written_loaded run (fun e member => (good e member).2) ?_ (List.suffix_refl _) at_1 ofSwr
    writes
  rintro s l earlier' part ⟨i, _, _, _, _, _, _, _, _, log, since, _⟩
  rw [sinceSleep_awake fun e member =>
    (good e (part.subset (List.mem_cons_of_mem _ member))).1] at since
  cases since

/-- The thread that a step gets an answer from the origin. -/
def loading : Label (system X) → Option Nat
  | .exec i _ (.loadEnd ..) _ => some i
  | _ => none

/-- A store that hands out an expired entry. -/
def expiredWorld : World Unit :=
  World.empty.setExt 0 (Contents.put (fun _ _ => none) "ns" "k"
    (.fromTypedWithSerializer () true 10 20))

/-- A call that waits for a slow load takes the expired entry for the loaded value and
    writes it with new stamps, before any origin has answered. -/
theorem restamped_entry : ¬ ∀ (past : History (system .atomicMap)) (s : Config (system .atomicMap)),
    Run (system .atomicMap) (.idle expiredWorld) past s →
    (∀ e ∈ past, FromOutside e.2) →
    ∀ (s₁ : Config (system .atomicMap)) (i : Nat) (t : Int) (c : Cmd Unit) (r : c.Ans)
      (earlier : History (system .atomicMap)) (th : Thread (system .atomicMap))
      (call : SwrCache Unit × String × String),
      (s₁, .exec i t c r) :: earlier <:+ past → s₁.threads[i]? = some th →
      th.task.ofSwr = some call → c.isWrite = true →
      ∃ value, c.Carries value ∧ LoadedIn earlier th.root value := by
  intro sound
  obtain ⟨past, s, played, s₁, t, c, r, earlier, rfl, th, at_2, ofSwr, writes⟩ : ∃ past s,
      driver.play (fun _ l => loading l = none ∧ FromOutside l)
        [.start (.swr soleCache "ns" "k"), .start (.swr soleCache "ns" "k"),
          .go 0 (reading 100), .go 0 (reading 100), .go 0 (reading 100), .go 0 (reading 100),
          .go 0 (reading 100), .go 1 (reading 100), .go 1 (reading 100), .go 1 (reading 100),
          .go 1 (reading 100), .go 1 (reading 200), .go 1 (reading 200), .go 1 (reading 200),
          .go 2 (reading 200)] ([], .idle expiredWorld) = some (past, s) ∧
      ∃ s₁ t c r earlier, past = (s₁, .exec 2 t c r) :: earlier ∧
        ∃ th, s₁.threads[2]? = some th ∧ th.task.ofSwr = some (soleCache, "ns", "k") ∧
          c.isWrite = true :=
    ⟨_, _, rfl, _, _, _, _, _, rfl, _, rfl, rfl, rfl⟩
  obtain ⟨run, good⟩ := Driver.plays played
  obtain ⟨value, _, s₀, i, t₀, cache, ns, key, v, _, member, _⟩ :=
    sound _ s run (fun e member => (good e member).2) s₁ 2 t c r earlier th _ (List.suffix_refl _)
      at_2 ofSwr writes
  cases (good _ (List.mem_cons_of_mem _ member)).1

end Runs

end Swr
