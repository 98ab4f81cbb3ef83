import Swr.ExpiredValues
import Swr.Grounds

/-! # Loads and freshness

A value that an origin returned is cached with stamps read after the load, so it is
fresh for the whole window. What stands between that and one load per window is what
the other tasks do before it is written, and what they go by when they start a load.
-/

namespace Swr

open Async

variable {ι : Type} [SerdeJson ι]

/-! ## A store that keeps what it is given -/

/-- What was held is held, unless it has expired. -/
def Contents.Kept (t : Int) (m m' : Contents ι) : Prop :=
  ∀ ns key, m' ns key = m ns key ∨ m' ns key = none ∧ ∃ entry, m ns key = some entry ∧
    entry.isExpired t = true

/-- No call fails, and an entry goes only when another one is put in its place, when it
    is removed, or once it has expired. -/
structure ExtSemantics.Retentive (X : ExtSemantics ι) : Prop where
  get : X.get t m ns key r m' → (r = .ok (m ns key) ∨
    r = .ok none ∧ ∃ entry, m ns key = some entry ∧ entry.isExpired t = true) ∧ m.Kept t m'
  set : X.set t m ns key entry r m' → r = .ok () ∧ (m.put ns key entry).Kept t m'
  remove : X.remove t m ns keys r m' → r = .ok () ∧ (m.remove ns keys).Kept t m'

theorem ExtSemantics.atomicMap_retentive : (atomicMap : ExtSemantics ι).Retentive where
  get := by
    rintro t m ns key r m' ⟨rfl, rfl⟩
    exact ⟨.inl rfl, fun _ _ => .inl rfl⟩
  set := by
    rintro t m ns key entry r m' ⟨rfl, rfl⟩
    exact ⟨rfl, fun _ _ => .inl rfl⟩
  remove := by
    rintro t m ns keys r m' ⟨rfl, rfl⟩
    exact ⟨rfl, fun _ _ => .inl rfl⟩

/-- The command takes the entry of the key out of the store. -/
def Cmd.Clears (id : Nat) (ns key : String) : Cmd ι → Prop
  | .extRemove store ns' keys => store = id ∧ ns' = ns ∧ key ∈ keys
  | _ => False

/-- What a command that does not remove the key does to it. -/
theorem exec_retentive {X : ExtSemantics ι} (retentive : X.Retentive) {i : Nat} {t : Int}
    {w w' : World ι} {c : Cmd ι} {r : c.Ans} (done : exec X i t w c r w') {id : Nat}
    {ns key : String} (spared : ¬ c.Clears id ns key) :
    (∃ entry, c = .extSet id ns key entry ∧
      (w'.ext id ns key = some entry ∨ w'.ext id ns key = none ∧ entry.isExpired t = true)) ∨
    ((∀ entry, c ≠ .extSet id ns key entry) ∧ (w'.ext id ns key = w.ext id ns key ∨
      w'.ext id ns key = none ∧ ∃ entry, w.ext id ns key = some entry ∧
      entry.isExpired t = true)) := by
  have other : ∀ {store m}, store ≠ id → (w.setExt store m).ext id ns key = w.ext id ns key := by
    intro store m different
    simp [World.setExt, Ne.symm different]
  cases c
  case extGet store ns' key' =>
    obtain ⟨m, answered, rfl⟩ := done
    refine .inr ⟨by simp, ?_⟩
    by_cases here : store = id
    · subst here
      simpa [World.setExt] using (retentive.get answered).2 ns key
    · exact .inl (other here)
  case extSet store ns' key' entry =>
    obtain ⟨m, answered, rfl⟩ := done
    by_cases here : store = id
    · subst here
      have kept := (retentive.set answered).2 ns key
      simp only [Contents.put_apply] at kept
      by_cases same : ns = ns' ∧ key = key'
      · obtain ⟨rfl, rfl⟩ := same
        refine .inl ⟨entry, rfl, ?_⟩
        simpa [World.setExt] using kept
      · refine .inr ⟨?_, ?_⟩
        · rintro _ ⟨⟩
          exact same ⟨rfl, rfl⟩
        · simpa [World.setExt, same] using kept
    · refine .inr ⟨?_, .inl (other here)⟩
      rintro _ ⟨⟩
      exact here rfl
  case extRemove store ns' keys =>
    obtain ⟨m, answered, rfl⟩ := done
    refine .inr ⟨by simp, ?_⟩
    by_cases here : store = id
    · subst here
      have kept := (retentive.remove answered).2 ns key
      have stays : ¬ (ns = ns' ∧ key ∈ keys) := by
        rintro ⟨same, member⟩
        exact spared ⟨rfl, same.symm, member⟩
      simpa [World.setExt, Contents.remove_apply, stays] using kept
    · exact .inl (other here)
  case mapEvict => obtain ⟨_, _, rfl⟩ := done; exact .inr ⟨by simp, .inl rfl⟩
  case redisSet | redisSetEx | redisDel =>
    rcases done with ⟨_, rfl⟩ | ⟨_, _, rfl | rfl⟩ <;> exact .inr ⟨by simp, .inl rfl⟩
  case mapInsert | mapExpire | mapRemove | insertMarker | removeMarker | loadStart | loadEnd | emit
      | sleep | spawn =>
    obtain rfl := done
    exact .inr ⟨by simp, .inl rfl⟩
  case now | rand | mapRead | mapGet | redisGet | containsKey =>
    obtain ⟨_, rfl⟩ := done
    exact .inr ⟨by simp, .inl rfl⟩

/-! ## The tasks -/

/-- The task works for the cache, and neither sets nor removes the key by hand. -/
def Task.Spares (cache : SwrCache ι) (ns key : String) : Task ι → Prop
  | .get cache' _ _ | .swr cache' _ _ | .cacheValue cache' .. | .revalidate cache' _ _ =>
      cache' = cache
  | .set cache' ns' key' .. | .remove cache' ns' key' => cache' = cache ∧ ¬ (ns' = ns ∧ key' = key)
  | _ => False

section Tasks

variable [DecidableEq ι] {cache : SwrCache ι} {id : Nat} {name : String} {mode : StorageMode}
  {ns key : String} {task : Task ι} {log : Log ι}

omit [DecidableEq ι] in
theorem dyn_ext (atStore : cache.store = .ext id name mode) :
    cache.dyn = ExtStore.dyn id name mode := by
  rw [SwrCache.dyn, atStore, Store.dyn]

omit [DecidableEq ι] in
theorem storedEntry_stamps {i : ι} {value : Val i} {freshUntil staleUntil : Int}
    {stored : StoredEntry ι}
    (made : SwrCache.storedEntry i mode value freshUntil staleUntil = .ok stored) :
    stored.freshUntil = freshUntil ∧ stored.staleUntil = staleUntil := by
  cases mode with
  | typed => cases made; exact ⟨rfl, rfl⟩
  | serialized =>
      simp only [SwrCache.storedEntry] at made
      split at made
      · cases made; exact ⟨rfl, rfl⟩
      · cases made

/-- How the stamps of an entry that a task writes have come about. -/
def Task.Stamps (ns key : String) (log : Log ι) (entry : StoredEntry ι) : Task ι → Prop
  | .cacheValue _ ns' key' _ freshUntil staleUntil => ns' = ns ∧ key' = key ∧ log = [] ∧
      entry.freshUntil = freshUntil ∧ entry.staleUntil = staleUntil
  | .revalidate cache ns' key' => ns' = ns ∧ key' = key ∧
      cache.StampedNow log entry.freshUntil entry.staleUntil
  | _ => False

omit [DecidableEq ι] in
theorem extSet_reaches {stored : StoredEntry ι} {c : Cmd ι}
    (atStore : cache.store = .ext id name mode)
    (reaches : (cache.dyn.set ns key stored).Reaches log c) :
    log = [] ∧ c = .extSet id ns key stored := by
  rw [dyn_ext atStore] at reaches
  simp only [ExtStore.dyn, Ask.extSet, issue, Prog.reaches_op, Prog.not_reaches_ret] at reaches
  rcases reaches with here | ⟨_, _, _, none⟩
  · exact here
  · exact none.elim

omit [DecidableEq ι] in
theorem looksUp_ext (atStore : cache.store = .ext id name mode) :
    cache.LooksUp ns key (fun _ c => c = .extGet id ns key) where
  reads reaches := by
    rw [dyn_ext atStore] at reaches
    exact (only_issue rfl : (issue (.extGet id ns key)).Only (· = Cmd.extGet id ns key)).reaches
      reaches
  after _ _ _ same := same

/-- What a task that spares the key can do after it was answered `log`. -/
inductive Task.Does (cache : SwrCache ι) (id : Nat) (ns key : String) (task : Task ι)
    (log : Log ι) : Cmd ι → Prop where
  | issues (ns' key' : String) : cache.Issues ns' key' (fun _ c => c = .extGet id ns' key') log c →
      Does cache id ns key task log c
  | writes {e : Entry (Val cache.ty)} : task.Stamps ns' key' log entry → Encodes e entry →
      Does cache id ns key task log (.extSet id ns' key' entry)
  | setsOther : ¬ (ns' = ns ∧ key' = key) →
      Does cache id ns key task log (.extSet id ns' key' entry)
  | removesOther : ¬ (ns' = ns ∧ key' = key) →
      Does cache id ns key task log (.extRemove id ns' [key'])

omit [DecidableEq ι] in
theorem Task.Spares.isFor (spares : task.Spares cache ns key) :
    ∃ ns' key', task.IsFor cache ns' key' := by
  cases task with
  | get | swr | cacheValue | revalidate => exact ⟨_, _, spares, rfl, rfl⟩
  | set | remove => exact ⟨_, _, spares.1, rfl, rfl⟩
  | storeGet | storeSet | storeRemove | backfill | redisDel => exact spares.elim

theorem Task.Spares.does (atStore : cache.store = .ext id name mode)
    (spares : task.Spares cache ns key) {c : Cmd ι} (reaches : task.body.Reaches log c) :
    task.Does cache id ns key log c := by
  obtain ⟨ns', key', isFor⟩ := spares.isFor
  rcases isFor.reaches (looksUp_ext atStore) reaches with
    issued | ⟨first, entry, stored, second, hands, made, rfl, writes⟩ | ⟨rfl, removes⟩
  · exact .issues ns' key' issued
  · obtain ⟨rfl, rfl⟩ := extSet_reaches atStore writes
    obtain ⟨fresh, stale⟩ := storedEntry_stamps made
    cases hands with
    | set => exact .setsOther spares.2
    | cacheValue => exact .writes ⟨rfl, rfl, rfl, fresh, stale⟩ (storedEntry_encodes made)
    | revalidate now => exact .writes ⟨rfl, rfl, now, rfl, fresh, stale⟩ (storedEntry_encodes made)
  · rw [dyn_ext atStore] at removes
    simp only [ExtStore.dyn, Ask.extRemove, issue, Prog.reaches_op, Prog.not_reaches_ret] at removes
    rcases removes with ⟨_, rfl⟩ | ⟨_, _, _, none⟩
    · exact .removesOther spares.2
    · exact none.elim

omit [DecidableEq ι] in
theorem Task.Does.writesKey {entry : StoredEntry ι}
    (does : task.Does cache id ns key log (.extSet id ns key entry)) :
    task.Stamps ns key log entry ∧ ∃ e : Entry (Val cache.ty), Encodes e entry := by
  cases does with
  | issues _ _ issued =>
      rcases issued with read | ⟨own, _⟩
      · cases read
      · exact own.elim
  | writes stamps encodes => exact ⟨stamps, _, encodes⟩
  | setsOther other => exact absurd ⟨rfl, rfl⟩ other

omit [DecidableEq ι] in
theorem Task.Does.spawns {task' : Task ι} (does : task.Does cache id ns key log (.spawn task')) :
    (∃ ns' key', task' = .revalidate cache ns' key') ∨
      ∃ ns' key' value freshUntil staleUntil, task' =
        .cacheValue cache ns' key' value freshUntil staleUntil ∧
        cache.StampedNow log freshUntil staleUntil := by
  cases does with
  | issues ns' key' issued =>
      rcases issued with read | ⟨rfl | ⟨value, freshUntil, staleUntil, rfl⟩, stamped⟩
      · cases read
      · exact .inl ⟨ns', key', rfl⟩
      · exact .inr ⟨ns', key', value, freshUntil, staleUntil, rfl, stamped _ _ _ rfl⟩

omit [DecidableEq ι] in
theorem Task.Does.not_clears {c : Cmd ι} (does : task.Does cache id ns key log c) :
    ¬ c.Clears id ns key := by
  intro clears
  cases does with
  | issues ns' key' issued =>
      rcases issued with rfl | ⟨own, _⟩
      · exact clears
      · cases c <;> first | exact own | exact clears
  | writes | setsOther => exact clears
  | removesOther other =>
      obtain ⟨_, same, member⟩ := clears
      exact other ⟨same, (List.mem_singleton.mp member).symm⟩

omit [DecidableEq ι] in
theorem SwrCache.StampedNow.since {log : TimedLog ι} {before after : TimedLog ι} {t : Int}
    {r : Option (Val cache.ty)} {freshUntil staleUntil : Int}
    (stamped : cache.StampedNow (log.map Prod.snd) freshUntil staleUntil)
    (split : log = before ++ (t, ⟨.loadEnd cache ns key, r⟩) :: after) :
    ∃ t' now, (t', ⟨.now, now⟩) ∈ after ∧ freshUntil = addMs now cache.freshMs ∧
      staleUntil = addMs now cache.staleMs := by
  obtain ⟨now, last, fresh, stale⟩ := stamped
  rcases List.eq_nil_or_concat after with rfl | ⟨after, ⟨t', e⟩, rfl⟩
  · rw [split] at last
    simp at last
  · rw [split] at last
    simp only [List.concat_eq_append, List.map_append, List.map_cons, List.map_nil,
      ← List.cons_append, ← List.append_assoc, List.getLast?_concat, Option.some.injEq] at last
    subst last
    exact ⟨t', now, by simp, fresh, stale⟩

end Tasks

/-! ## Runs -/

section Runs

variable [DecidableEq ι] {X : ExtSemantics ι} {w : World ι} {past : History (system X)}
  {s : Config (system X)} {cache : SwrCache ι} {id : Nat} {name : String} {mode : StorageMode}
  {ns key : String}

/-- The value that task `i` loaded at `t` is written: since then it has written it, or it
    has handed it to a task of its own, and such a task has. -/
def Delivered (cache : SwrCache ι) (id : Nat) (ns key : String)
    (past : History (system X)) (i : Nat) (t : Int) : Prop :=
  ∃ before value after, trace i past = before ++ (t, ⟨.loadEnd cache ns key, some value⟩) :: after ∧
    ((∃ t' entry r, (t', ⟨.extSet id ns key entry, r⟩) ∈ after) ∨
      ∃ t' value' freshUntil staleUntil,
        (t', ⟨.spawn (.cacheValue cache ns key value' freshUntil staleUntil), ()⟩) ∈ after ∧
        ∃ s k τ entry r th, (s, .exec k τ (.extSet id ns key entry) r) ∈ past ∧
          s.threads[k]? = some th ∧ th.task = .cacheValue cache ns key value' freshUntil staleUntil)

/-- What had happened at the look at the store that thread `j` goes by: its own last one,
    or, if it has none, that of the thread which started it. -/
def grounds (id : Nat) (ns key : String) (j : Nat) (past : History (system X)) :
    Option (History (system X)) :=
  lastIssue (M := system X) (Cmd.asksFor id ns key) j past <|>
    (starter j past).bind fun starts =>
      lastIssue (M := system X) (Cmd.asksFor id ns key) starts.1 starts.2

/-- When a load of the key starts, the values that were loaded within the last window had
    been written before the look at the store that it goes by; a write does not shorten
    the freshness of the key; and the stamps fit `i64`. -/
structure Timely (cache : SwrCache ι) (id : Nat) (ns key : String) (earlier : History (system X))
    (s : Config (system X)) (l : Label (system X)) : Prop where
  settled : ∀ j t' r, l = .exec j t' (.loadStart cache ns key) r →
    ∀ before, grounds id ns key j earlier = some before →
    ∀ i t value, (t, ⟨.loadEnd cache ns key, some value⟩) ∈ trace i earlier →
    t' < t + cache.freshMs → Delivered cache id ns key before i t
  lasting : ∀ j t' entry r, l = .exec j t' (.extSet id ns key entry) r → ∀ replaced,
    s.world.ext id ns key = some replaced → replaced.freshUntil ≤ entry.freshUntil
  fits : ∀ t ∈ l.time, minI64 ≤ t + cache.freshMs ∧ t + cache.staleMs ≤ maxI64

/-- The calls are calls on the cache that spare the key. -/
def Sparing (cache : SwrCache ι) (ns key : String) (l : Label (system X)) : Prop :=
  ∀ task ∈ l.starting, task.isCall = true ∧ task.Spares cache ns key

omit [DecidableEq ι] in
theorem Task.Does.spares {task task' : Task ι} {log : Log ι} {c : Cmd ι}
    (does : task.Does cache id ns key log c) (member : task' ∈ c.spawned) :
    task'.Spares cache ns key := by
  obtain rfl := Cmd.mem_spawned.mp member
  rcases does.spawns with ⟨_, _, rfl⟩ | ⟨_, _, _, _, _, rfl, _⟩ <;> rfl

/-- A step of a run, as what its task does. -/
theorem does_step (atStore : cache.store = .ext id name mode)
    (run : Run (system X) (.idle w) past s) (calls : ∀ e ∈ past, Sparing cache ns key e.2) {i : Nat}
    {t : Int} {c : Cmd ι} {r : c.Ans} {s₁ : Config (system X)} {earlier : History (system X)}
    (step : (s₁, .exec i t c r) :: earlier <:+ past) :
    ∃ th, s₁.threads[i]? = some th ∧ th.task.Spares cache ns key ∧
      th.task.Does cache id ns key (replies i earlier) c :=
  run.acts (T := fun task : Task ι => task.Spares cache ns key)
    (fun _ _ _ spares reaches => spares.does atStore reaches)
    (fun _ _ _ _ does _ member => does.spares member)
      (fun _ task member => (calls _ member task rfl).2) step

/-- Where a stamp that a task writes, or hands over, comes from: a clock reading of the
    run, so nothing wraps around. -/
theorem stamped_reading (run : Run (system X) (.idle w) past s)
    (fits : ∀ e ∈ past, ∀ t ∈ e.2.time, minI64 ≤ t + cache.freshMs ∧ t + cache.staleMs ≤ maxI64)
    (ordered : cache.freshMs ≤ cache.staleMs) {i : Nat} {t now : Int}
    (read : (t, ⟨.now, now⟩) ∈ trace i past) :
    addMs now cache.freshMs = t + cache.freshMs ∧ addMs now cache.staleMs = t + cache.staleMs := by
  obtain rfl := trace_now run read
  obtain ⟨s₁, earlier, step⟩ := step_of_mem_trace read
  obtain ⟨low, high⟩ := fits _ (step.subset (List.mem_cons_self ..)) now rfl
  exact ⟨addMs_of_fits low (by omega), addMs_of_fits (by omega) high⟩

/-- An entry written for the key goes stale before it expires. -/
theorem written_ordered (atStore : cache.store = .ext id name mode)
    (ordered : cache.freshMs ≤ cache.staleMs) (run : Run (system X) (.idle w) past s)
    (calls : ∀ e ∈ past, Sparing cache ns key e.2)
    (fits : ∀ e ∈ past, ∀ t ∈ e.2.time, minI64 ≤ t + cache.freshMs ∧ t + cache.staleMs ≤ maxI64)
    {s₁ : Config (system X)} {k : Nat} {τ : Int} {entry : StoredEntry ι} {r}
    {earlier : History (system X)}
    (step : (s₁, .exec k τ (.extSet id ns key entry) r) :: earlier <:+ past) :
    entry.freshUntil ≤ entry.staleUntil := by
  have ofStamped : ∀ {i : Nat} {part : History (system X)}, part <:+ past →
      ∀ {freshUntil staleUntil : Int}, cache.StampedNow (replies i part) freshUntil staleUntil →
      freshUntil ≤ staleUntil := by
    rintro i part within _ _ ⟨now, last, rfl, rfl⟩
    obtain ⟨⟨t, e⟩, member, same⟩ := List.mem_map.mp (List.mem_of_getLast? last)
    subst same
    obtain ⟨s₂, earlier₂, step₂⟩ := step_of_mem_trace member
    have read := mem_trace ((step₂.trans within).subset (List.mem_cons_self ..))
    obtain ⟨fresh, stale⟩ := stamped_reading run fits ordered read
    omega
  obtain ⟨th, at_k, spares, does⟩ := does_step atStore run calls step
  obtain ⟨stamps, _⟩ := does.writesKey
  have within : earlier <:+ past := (List.suffix_cons _ _).trans step
  cases task : th.task <;> rw [task] at stamps <;> first | exact stamps.elim | skip
  case revalidate cache' ns' key' =>
    obtain ⟨_, _, stamped⟩ := stamps
    rw [task] at spares
    obtain rfl := spares
    exact ofStamped within stamped
  case cacheValue cache' ns' key' value freshUntil staleUntil =>
    obtain ⟨_, _, _, fresh, stale⟩ := stamps
    rw [fresh, stale]
    have calls₁ : ∀ e ∈ earlier, Sparing cache ns key e.2 :=
      fun e member => calls e (within.subset member)
    rcases (run.upTo step).1.born at_k with ⟨s₀, called⟩ | ⟨s₀, j, t, c, r', part, step₀, member⟩
    · have outside := (calls₁ _ called _ rfl).1
      rw [task] at outside
      cases outside
    · obtain rfl := Cmd.mem_spawned.mp member
      obtain ⟨_, _, _, does₀⟩ := does_step atStore (run.upTo step).1 calls₁ step₀
      rcases does₀.spawns with ⟨_, _, same⟩ | ⟨_, _, _, _, _, same, stamped⟩
      · rw [task] at same
        cases same
      · rw [task] at same
        cases same
        exact ofStamped (((List.suffix_cons _ _).trans step₀).trans within) stamped

theorem fits_of
    (timely : ∀ s l earlier, (s, l) :: earlier <:+ past → Timely cache id ns key earlier s l) :
    ∀ e ∈ past, ∀ t ∈ e.2.time, minI64 ≤ t + cache.freshMs ∧ t + cache.staleMs ≤ maxI64 := by
  intro e member
  obtain ⟨later, earlier, split⟩ := List.append_of_mem member
  exact (timely e.1 e.2 earlier ⟨later, split.symm⟩).fits

/-- The store has an entry for the key that is fresh at least until `due`, and that the
    cache can read. -/
def HeldFresh (cache : SwrCache ι) (id : Nat) (ns key : String) (due : Int) (w : World ι) : Prop :=
  ∃ (latest : StoredEntry ι) (e : Entry (Val cache.ty)), w.ext id ns key = some latest ∧
    Encodes e latest ∧ due ≤ latest.freshUntil ∧ latest.freshUntil ≤ latest.staleUntil

/-- The clock has shown the time. -/
def Passed (due : Int) (past : History (system X)) : Prop := ∃ e ∈ past, ∃ t ∈ e.2.time, due ≤ t

theorem Passed.later {due : Int} {l : Label (system X)} (passed : Passed due past) :
    Passed due ((s, l) :: past) := by
  obtain ⟨e, member, late⟩ := passed
  exact ⟨e, List.mem_cons_of_mem _ member, late⟩

/-- What is written for the key is held, unless it has expired. -/
theorem put_held (retentive : X.Retentive) (atStore : cache.store = .ext id name mode)
    (ordered : cache.freshMs ≤ cache.staleMs) {i : Nat} {t : Int} {entry : StoredEntry ι} {r}
    {s' : Config (system X)}
    (run : Run (system X) (.idle w) ((s, .exec i t (.extSet id ns key entry) r) :: past) s')
    (calls : ∀ e ∈ (s, .exec i t (.extSet id ns key entry) r) :: past, Sparing cache ns key e.2)
    (fits : ∀ e ∈ (s, .exec i t (.extSet id ns key entry) r) :: past, ∀ t ∈ e.2.time,
      minI64 ≤ t + cache.freshMs ∧ t + cache.staleMs ≤ maxI64) {due : Int} (long :
      due ≤ entry.freshUntil) :
    HeldFresh cache id ns key due s'.world ∨
    Passed due ((s, .exec i t (.extSet id ns key entry) r) :: past) := by
  obtain ⟨_, _, _, does⟩ := does_step atStore run calls (List.suffix_refl _)
  obtain ⟨_, e, encodes⟩ := does.writesKey
  have inOrder := written_ordered atStore ordered run calls fits (List.suffix_refl _)
  cases run with
  | step _ taken =>
      cases taken with
      | exec _ _ done =>
          rcases exec_retentive retentive (i := i) done does.not_clears with
            ⟨_, same, holds | ⟨_, expired⟩⟩ | ⟨other, _⟩
          · cases same
            exact .inl ⟨entry, e, holds, encodes, long, inOrder⟩
          · cases same
            have late := StoredEntry.isExpired_iff.mp expired
            exact .inr ⟨_, List.mem_cons_self .., t, rfl, by omega⟩
          · exact absurd rfl (other entry)

/-- What is held fresh stays so until the time is over. -/
theorem held_step (retentive : X.Retentive) (atStore : cache.store = .ext id name mode)
    (ordered : cache.freshMs ≤ cache.staleMs) {l : Label (system X)} {s' : Config (system X)}
    (before : Run (system X) (.idle w) past s) (taken : Step (system X) s l s')
    (calls : ∀ e ∈ (s, l) :: past, Sparing cache ns key e.2)
    (fits : ∀ e ∈ (s, l) :: past, ∀ t ∈ e.2.time, minI64 ≤ t + cache.freshMs ∧
      t + cache.staleMs ≤ maxI64)
    (timely : Timely cache id ns key past s l) {due : Int}
    (held : HeldFresh cache id ns key due s.world) :
    HeldFresh cache id ns key due s'.world ∨ Passed due ((s, l) :: past) := by
  obtain ⟨latest, e, holds, encodes, long, inOrder⟩ := held
  have run := before.step taken
  cases taken with
  | start | turn | drop => exact .inl ⟨latest, e, holds, encodes, long, inOrder⟩
  | @exec _ i th c rest t r _ at_i next done =>
      obtain ⟨_, _, _, does⟩ := does_step atStore run calls (List.suffix_refl _)
      rcases exec_retentive retentive done does.not_clears with
        ⟨entry, rfl, _⟩ | ⟨_, same | ⟨_, gone, held, expired⟩⟩
      · have longer := timely.lasting _ _ _ _ rfl latest holds
        exact put_held retentive atStore ordered run calls fits (by omega)
      · exact .inl ⟨latest, e, same.trans holds, encodes, long, inOrder⟩
      · rw [holds] at held
        obtain rfl := Option.some.inj held
        have late := StoredEntry.isExpired_iff.mp expired
        exact .inr ⟨_, List.mem_cons_self .., t, rfl, by omega⟩

theorem written_held (retentive : X.Retentive) (atStore : cache.store = .ext id name mode)
    (ordered : cache.freshMs ≤ cache.staleMs) (run : Run (system X) (.idle w) past s)
    (calls : ∀ e ∈ past, Sparing cache ns key e.2)
    (timely : ∀ s l earlier, (s, l) :: earlier <:+ past → Timely cache id ns key earlier s l)
    {s₁ : Config (system X)} {k : Nat} {τ : Int} {entry : StoredEntry ι} {r}
    (written : (s₁, .exec k τ (.extSet id ns key entry) r) ∈ past) :
    HeldFresh cache id ns key entry.freshUntil s.world ∨ Passed entry.freshUntil past := by
  induction run with
  | refl => simp at written
  | @step past s l s' before taken ih =>
      have run := before.step taken
      have fits := fits_of timely
      have earlierTimely := fun s₀ l₀ earlier (suffix : (s₀, l₀) :: earlier <:+ past) =>
        timely s₀ l₀ earlier (suffix.trans (List.suffix_cons _ _))
      rcases List.mem_cons.mp written with same | older
      · cases same
        exact put_held retentive atStore ordered run calls fits (Int.le_refl _)
      · rcases ih (fun e member =>
          calls e (List.mem_cons_of_mem _ member)) earlierTimely older with held | passed
        · exact held_step retentive atStore ordered before taken calls fits
            (timely _ _ _ (List.suffix_refl _)) held
        · exact .inr passed.later

/-- A value that is delivered was written with stamps later than its load. -/
theorem delivered_written (atStore : cache.store = .ext id name mode)
    (ordered : cache.freshMs ≤ cache.staleMs) (run : Run (system X) (.idle w) past s)
    (clocked : Clocked past) (calls : ∀ e ∈ past, Sparing cache ns key e.2)
    (fits : ∀ e ∈ past, ∀ t ∈ e.2.time, minI64 ≤ t + cache.freshMs ∧ t + cache.staleMs ≤ maxI64)
    {i : Nat} {t : Int} (delivered : Delivered cache id ns key past i t) :
    ∃ s k τ entry r, (s, .exec k τ (.extSet id ns key entry) r) ∈ past ∧
      t + cache.freshMs ≤ entry.freshUntil := by
  obtain ⟨before, value, after, split, delivery⟩ := delivered
  have sorted := clocked.trace_sorted i
  rw [split] at sorted
  -- whatever the task stamps after the load, it stamps with a reading from after the load
  have stampedLater :
      ∀ {part : History (system X)} {between rest : TimedLog ι} {freshUntil staleUntil : Int},
      trace i part = before ++ (t, ⟨.loadEnd cache ns key, some value⟩) :: between →
      after = between ++ rest → cache.StampedNow (replies i part) freshUntil staleUntil →
      t + cache.freshMs ≤ freshUntil := by
    rintro part between rest freshUntil staleUntil same rfl stamped
    obtain ⟨t', now, read, rfl, _⟩ := stamped.since same
    have reading : (t', ⟨.now, now⟩) ∈ trace i past := by simp [split, read]
    obtain ⟨exact', _⟩ := stamped_reading run fits ordered reading
    have later : t ≤ t' := (List.pairwise_cons.mp (List.pairwise_append.mp sorted).2.1).1 _
      (List.mem_append_left _ read)
    omega
  rcases delivery with ⟨t', entry, r, member⟩ |
    ⟨t', value', freshUntil, staleUntil, member, s₁, k, τ, entry, r, th, written, at_k, task⟩
  · obtain ⟨between, rest, rfl⟩ := List.append_of_mem member
    rw [← List.cons_append, ← List.append_assoc] at split
    obtain ⟨s₁, earlier, step, same⟩ := step_of_trace split
    obtain ⟨th, at_i, spares, does⟩ := does_step atStore run calls step
    refine ⟨s₁, i, t', entry, r, step.subset (List.mem_cons_self ..), ?_⟩
    obtain ⟨stamps, _⟩ := does.writesKey
    cases task : th.task <;> rw [task] at stamps spares <;> first | exact stamps.elim | skip
    case revalidate =>
        obtain rfl := spares
        exact stampedLater same rfl stamps.2.2
    case cacheValue =>
        obtain ⟨_, _, empty, _⟩ := stamps
        simp [replies, same] at empty
  · obtain ⟨between, rest, rfl⟩ := List.append_of_mem member
    rw [← List.cons_append, ← List.append_assoc] at split
    obtain ⟨s₀, earlier, step₀, same⟩ := step_of_trace split
    obtain ⟨_, _, _, does₀⟩ := does_step atStore run calls step₀
    obtain ⟨later, older, whole⟩ := List.append_of_mem written
    have step : (s₁, .exec k τ (.extSet id ns key entry) r) :: older <:+ past := ⟨later, whole.symm⟩
    obtain ⟨th', at_k', _, does⟩ := does_step atStore run calls step
    obtain rfl := Option.some.inj (at_k.symm.trans at_k')
    obtain ⟨stamps, _⟩ := does.writesKey
    rw [task] at stamps
    obtain ⟨_, _, _, fresh, _⟩ := stamps
    refine ⟨s₁, k, τ, entry, r, written, ?_⟩
    rw [fresh]
    rcases does₀.spawns with ⟨_, _, other⟩ | ⟨_, _, _, _, _, other, stamped⟩
    · cases other
    · cases other
      exact stampedLater same rfl stamped

omit [DecidableEq ι] in
theorem looks_ext {look : Log ι} {result : Except CacheError (Option (StoredEntry ι))}
    (atStore : cache.store = .ext id name mode)
    (yields : (cache.dyn.get ns key).Yields look result) :
    look = [⟨.extGet id ns key, result⟩] := by
  rw [dyn_ext atStore] at yields
  simp only [ExtStore.dyn, Ask.extGet, issue, Prog.yields_op, Prog.yields_ret] at yields
  obtain ⟨_, _, rfl, rfl, rfl⟩ := yields
  rfl

/-- The answer to a look-up after which a load may be started: it cannot be decoded, or it
    was out of date at some reading of the clock since. -/
def Spent (cache : SwrCache ι) (past : History (system X))
    (answer : Except CacheError (Option (StoredEntry ι))) : Prop :=
  ∀ stored entry, answer = .ok (some stored) → stored.intoTyped cache.ty = .ok entry →
    ∃ i now, (now, ⟨.now, now⟩) ∈ trace i past ∧ (entry.freshUntil ≤ now ∨ entry.staleUntil ≤ now)

theorem looked_last {i : Nat} {before after : Log ι}
    {answer : Except CacheError (Option (StoredEntry ι))}
    (split : replies i past = before ++ [⟨.extGet id ns key, answer⟩] ++ after)
    (own : ∀ e ∈ after, cache.Own ns key e.1) :
    ∃ s₀ τ part, lastIssue (M := system X) (Cmd.asksFor id ns key) i past = some part ∧
      (s₀, .exec i τ (.extGet id ns key) answer) :: part <:+ past := by
  obtain ⟨s₀, τ, part, found, looked, _⟩ :=
    lastIssue_of_replies (split.trans (List.append_assoc ..)) Cmd.asksFor_self
      fun e member => own_not_asksFor (own e member)
  exact ⟨s₀, τ, part, found, looked⟩

theorem read_at (run : Run (system X) (.idle w) past s) {i : Nat} {now : Int}
    (member : ⟨.now, now⟩ ∈ replies i past) : (now, ⟨.now, now⟩) ∈ trace i past := by
  obtain ⟨⟨t, _⟩, read, rfl⟩ := List.mem_map.mp member
  obtain rfl := trace_now run read
  exact read

/-- The look-up that a load of the key goes by was answered so that a load may be started. -/
theorem load_grounds (atStore : cache.store = .ext id name mode)
    (run : Run (system X) (.idle w) past s) (calls : ∀ e ∈ past, Sparing cache ns key e.2) {j : Nat}
    {t : Int} {r} {s₁ : Config (system X)} {earlier : History (system X)}
    (step : (s₁, .exec j t (.loadStart cache ns key) r) :: earlier <:+ past) :
    ∃ before s₀ i τ answer, grounds id ns key j earlier = some before ∧
      (s₀, .exec i τ (.extGet id ns key) answer) :: before <:+ earlier ∧
      Spent cache earlier answer := by
  obtain ⟨th, at_j, spares, _⟩ := does_step atStore run calls step
  obtain ⟨th', at_j', reaches⟩ := run.reached step
  obtain rfl := Option.some.inj (at_j.symm.trans at_j')
  obtain ⟨run₁, _⟩ := run.upTo step
  have calls₁ : ∀ e ∈ earlier, Sparing cache ns key e.2 := fun e member =>
    calls e (step.subset (List.mem_cons_of_mem _ member))
  obtain ⟨_, _, isFor⟩ := spares.isFor
  rcases isFor.reaches_load reaches with ⟨_, before, look, after, split, own, gave⟩ | ⟨task, own⟩
  · -- the thread has looked for itself
    rcases gave with ⟨answer, yields, undecodable⟩ |
      ⟨entry, now, ⟨stored, yields, decodes⟩, read, expired⟩
    · obtain rfl := looks_ext atStore yields
      obtain ⟨s₀, τ, part, found, looked⟩ := looked_last split own
      refine ⟨part, s₀, j, τ, answer, by simp [grounds, found], looked, ?_⟩
      exact fun stored entry same decodes => absurd decodes (undecodable stored entry same)
    · obtain rfl := looks_ext atStore yields
      obtain ⟨s₀, τ, part, found, looked⟩ := looked_last split own
      refine ⟨part, s₀, j, τ, _, by simp [grounds, found], looked, ?_⟩
      rintro _ _ ⟨⟩ decodes'
      obtain rfl := Except.ok.inj (decodes.symm.trans decodes')
      exact ⟨j, now, read_at run₁ (by simp [split, read]), .inr expired⟩
  · -- the thread was started by one that has looked
    have unlooked : lastIssue (M := system X) (Cmd.asksFor id ns key) j earlier = none :=
      lastIssue_eq_none fun e member => own_not_asksFor (own e member)
    rcases run₁.started at_j with ⟨s₀, called⟩ | ⟨s₀, i, τ, c, r', part, starts, step₀, member⟩
    · have outside := (calls₁ _ called _ rfl).1
      rw [task] at outside
      cases outside
    · rw [task] at member
      obtain rfl := Cmd.mem_spawned.mp member
      obtain ⟨th₀, at_i, spares₀, _⟩ := does_step atStore run₁ calls₁ step₀
      obtain ⟨th₀', at_i', reaches₀⟩ := run₁.reached step₀
      obtain rfl := Option.some.inj (at_i.symm.trans at_i')
      obtain ⟨_, _, isFor₀⟩ := spares₀.isFor
      obtain ⟨_, look, entry, now, split, ⟨stored, yields, decodes⟩, stale⟩ :=
        isFor₀.reaches_renewal reaches₀
      obtain rfl := looks_ext atStore yields
      have split' : replies i part = [] ++ [⟨.extGet id ns key, .ok (some stored)⟩] ++
          [⟨.now, now⟩] := split
      have own₀ : ∀ e ∈ ([⟨.now, now⟩] : Log ι), cache.Own ns key e.1 := by simp [SwrCache.Own]
      obtain ⟨s₁, τ₁, part₁, found, looked⟩ := looked_last split' own₀
      have older : part <:+ earlier := (List.suffix_cons _ _).trans step₀
      refine ⟨part₁, s₁, i, τ₁, _, by simp [grounds, unlooked, starts, found],
        looked.trans older, ?_⟩
      rintro _ _ ⟨⟩ decodes'
      obtain rfl := Except.ok.inj (decodes.symm.trans decodes')
      exact ⟨i, now, read_at run₁ ((replies_suffix older).subset (by simp [split])), .inl stale⟩

/-- In a timely run no load of the key starts within the window of one that has returned a
    value. -/
theorem one_load_per_window [LawfulSerdeJson ι] (retentive : X.Retentive)
    (atStore : cache.store = .ext id name mode) (ordered : cache.freshMs ≤ cache.staleMs)
    (run : Run (system X) (.idle w) past s) (clocked : Clocked past)
    (calls : ∀ e ∈ past, Sparing cache ns key e.2)
    (timely : ∀ s l earlier, (s, l) :: earlier <:+ past → Timely cache id ns key earlier s l)
    {s₁ s₂ : Config (system X)} {i j : Nat} {t t' : Int} {value : Val cache.ty} {r}
    {earlier : History (system X)}
    (started : (s₂, .exec j t' (.loadStart cache ns key) r) :: earlier <:+ past)
    (loaded : (s₁, .exec i t (.loadEnd cache ns key) (some value)) ∈ earlier) :
    t + cache.freshMs ≤ t' := by
  by_contra early
  have part : earlier <:+ past := (List.suffix_cons _ _).trans started
  obtain ⟨latest, _⟩ := List.pairwise_cons.mp (clocked.sublist started.sublist)
  obtain ⟨before, s₀, k, τ, answer, goesBy, looked, spent⟩ := load_grounds atStore run calls started
  have whole : before <:+ past := (List.suffix_cons _ _).trans (looked.trans part)
  obtain ⟨run₀, s₀', taken⟩ := run.upTo (looked.trans part)
  have calls₀ : ∀ e ∈ before, Sparing cache ns key e.2 :=
    fun e member => calls e (whole.subset member)
  have timely₀ := fun s₀ l₀ sooner (suffix : (s₀, l₀) :: sooner <:+ before) =>
    timely s₀ l₀ sooner (suffix.trans whole)
  -- the value had been written when the store was looked at
  have delivered :=
    (timely _ _ _ started).settled j t' r rfl before goesBy i t value (mem_trace loaded)
    (Int.not_le.mp early)
  obtain ⟨s₃, k', τ', entry, r₃, written, fresh⟩ := delivered_written atStore ordered run₀
    (clocked.sublist whole.sublist) calls₀ (fits_of timely₀) delivered
  have notPassed : ¬ Passed entry.freshUntil before := by
    rintro ⟨e, member, τ'', shown, late⟩
    have notAfter :=
      latest e ((List.suffix_cons _ _).trans looked |>.subset member) t' rfl τ'' shown
    omega
  obtain ⟨held, e, holds, encodes, longer, inOrder⟩ :=
    (written_held retentive atStore ordered run₀ calls₀ timely₀ written).resolve_right notPassed
  -- so it was found there, and it is fresh
  have looking := latest _ (looked.subset (List.mem_cons_self ..)) t' rfl τ rfl
  have found : answer = .ok (some held) := by
    cases taken with
    | exec _ _ done =>
        obtain ⟨m, answered, _⟩ := done
        rcases (retentive.get answered).1 with served | ⟨_, gone, same, expired⟩
        · rw [served, holds]
        · rw [holds] at same
          obtain rfl := Option.some.inj same
          have late := StoredEntry.isExpired_iff.mp expired
          omega
  obtain ⟨k'', now, read, late⟩ := spent held e found encodes.intoTyped
  obtain ⟨_, _, readAt⟩ := step_of_mem_trace read
  have shown := latest _ (readAt.subset (List.mem_cons_self ..)) t' rfl now rfl
  rw [← encodes.freshUntil, ← encodes.staleUntil] at late
  omega

def loadStarted : Label (system X) → Option Int
  | .exec _ t (.loadStart ..) _ => some t
  | _ => none

def loadEnded : Label (system X) → Option Int
  | .exec _ t (.loadEnd ..) _ => some t
  | _ => none

def putFresh : Label (system X) → Option Int
  | .exec _ _ (.extSet _ _ _ entry) _ => some entry.freshUntil
  | _ => none

/-- The loads are a window apart, and the stamps in the store follow them. -/
def Paced (cache : SwrCache ι) (id : Nat) (ns key : String) (earlier : History (system X))
    (s : Config (system X)) (l : Label (system X)) : Prop :=
  (∀ t' ∈ loadStarted l, ∀ e ∈ earlier, ∀ t ∈ loadEnded e.2, t + cache.freshMs ≤ t') ∧
  (∀ fresh ∈ putFresh l, ∀ replaced ∈ s.world.ext id ns key, replaced.freshUntil ≤ fresh) ∧
  ∀ t ∈ l.time, minI64 ≤ t + cache.freshMs ∧ t + cache.staleMs ≤ maxI64

instance (cache : SwrCache ι) (id : Nat) (ns key : String) (earlier : History (system X))
    (s : Config (system X)) (l : Label (system X)) :
    Decidable (Paced cache id ns key earlier s l) :=
  inferInstanceAs (Decidable ((∀ t' ∈ loadStarted l, ∀ e ∈ earlier, ∀ t ∈ loadEnded e.2, _) ∧
    (∀ fresh ∈ putFresh l, ∀ _ ∈ _, _) ∧ ∀ t ∈ l.time, _))

theorem Paced.timely {earlier : History (system X)} {l : Label (system X)}
    (paced : Paced cache id ns key earlier s l) : Timely cache id ns key earlier s l where
  settled j t' r step before goesBy i t value member within := by
    subst step
    obtain ⟨s₁, older, step⟩ := step_of_mem_trace member
    have apart := paced.1 t' rfl _ (step.subset (List.mem_cons_self ..)) t rfl
    omega
  lasting j t' entry r step replaced held := by
    subst step
    exact paced.2.1 _ rfl replaced held
  fits := paced.2.2

theorem sparing_swr {past : History (system .atomicMap)} {n : Nat}
    (called : past.filterMap (fun e => e.2.starting) = List.replicate n (.swr soleCache "ns" "k")) :
    ∀ e ∈ past, Sparing soleCache "ns" "k" e.2 := by
  intro e member task starts
  have among : task ∈ past.filterMap (fun e => e.2.starting) :=
    List.mem_filterMap.mpr ⟨e, member, starts⟩
  rw [called] at among
  obtain rfl := (List.mem_replicate.mp among).2
  exact ⟨rfl, rfl⟩

/-- A miss, a call that is served within the window, and a revalidation when it is over. -/
theorem one_load_per_window_renewed : ∃ (past earlier : History (system .atomicMap))
    (s s₁ s₂ : Config (system .atomicMap)),
    Run (system .atomicMap) (.idle (.empty : World Unit)) past s ∧
    (∃ th, s.threads[2]? = some th ∧ th.Finished (.value () (.ok (some true)))) ∧
    (s₂, .exec 4 15 (.loadStart soleCache "ns" "k") ()) :: earlier <:+ past ∧
    (s₁, .exec 0 1 (.loadEnd soleCache "ns" "k") (some true)) ∈ earlier ∧
    1 + soleCache.freshMs ≤ 15 := by
  obtain ⟨past, s, played, clocked, called, paced, served, s₁, s₂, earlier, rfl, loaded⟩ : ∃ past s,
      driver.play (fun _ _ => True)
        [.start (.swr soleCache "ns" "k"), .go 0 (reading 0), .go 0 (reading 0), .go 0 (reading 0),
          .go 0 (reading 0), .go 0 (reading 1), .go 0 (reading 1), .go 0 (reading 2),
          .go 0 (reading 2), .go 1 (reading 2), .start (.swr soleCache "ns" "k"), .go 2 (reading 5),
          .go 2 (reading 5), .start (.swr soleCache "ns" "k"), .go 3 (reading 14),
          .go 3 (reading 14), .go 3 (reading 14), .go 4 (reading 15), .go 4 (reading 15),
          .go 4 (reading 15)]
        ([], .idle .empty) = some (past, s) ∧
      Clocked past ∧
      past.filterMap (fun e => e.2.starting) = List.replicate 3 (.swr soleCache "ns" "k") ∧
      Throughout (Paced soleCache 0 "ns" "k") past ∧
      (∃ th, s.threads[2]? = some th ∧ th.Finished (.value () (.ok (some true)))) ∧
      ∃ s₁ s₂ earlier, past = (s₂, .exec 4 15 (.loadStart soleCache "ns" "k") ()) :: earlier ∧
        (s₁, .exec 0 1 (.loadEnd soleCache "ns" "k") (some true)) ∈ earlier :=
    ⟨_, _, rfl, by decide, rfl, by decide, ⟨_, rfl, rfl⟩, _, _, _, rfl,
      .tail _ (.tail _ (.tail _ (.tail _ (.tail _ (.tail _ (.tail _ (.tail _ (.tail _ (.tail _
        (.tail _ (.tail _ (.tail _ (.head _)))))))))))))⟩
  obtain ⟨run, _⟩ := Driver.plays played
  refine ⟨_, earlier, s, s₁, s₂, run, served, List.suffix_refl _, loaded, ?_⟩
  exact one_load_per_window ExtSemantics.atomicMap_retentive rfl (by decide) run clocked
    (sparing_swr called) (fun s l earlier step => (throughout_iff.mp paced s l earlier step).timely)
      (List.suffix_refl _) loaded

/-- A call that comes while the value of a load is still on its way to the store loads
    again. -/
theorem second_load :
    ¬ ∀ (past earlier : History (system .atomicMap)) (s : Config (system .atomicMap)),
    Run (system .atomicMap) (.idle (.empty : World Unit)) past s → Clocked past →
    (∀ e ∈ past, Sparing soleCache "ns" "k" e.2) →
    ∀ s₁ s₂ i j t t' value r, (s₂, .exec j t' (.loadStart soleCache "ns" "k") r) ::
    earlier <:+ past →
      (s₁, .exec i t (.loadEnd soleCache "ns" "k") (some value)) ∈ earlier →
      t + soleCache.freshMs ≤ t' := by
  intro once
  obtain ⟨past, s, played, clocked, called, s₁, s₂, earlier, rfl, loaded⟩ : ∃ past s,
      driver.play (fun _ _ => True)
        [.start (.swr soleCache "ns" "k"), .go 0 (reading 0), .go 0 (reading 0), .go 0 (reading 0),
          .go 0 (reading 0), .go 0 (reading 0), .go 0 (reading 0), .start (.swr soleCache "ns" "k"),
          .go 1 (reading 1), .go 1 (reading 1), .go 1 (reading 1), .go 1 (reading 1)]
        ([], .idle .empty) = some (past, s) ∧
      Clocked past ∧
      past.filterMap (fun e => e.2.starting) = List.replicate 2 (.swr soleCache "ns" "k") ∧
      ∃ s₁ s₂ earlier, past = (s₂, .exec 1 1 (.loadStart soleCache "ns" "k") ()) :: earlier ∧
        (s₁, .exec 0 0 (.loadEnd soleCache "ns" "k") (some true)) ∈ earlier :=
    ⟨_, _, rfl, by decide, rfl, _, _, _, rfl,
      .tail _ (.tail _ (.tail _ (.tail _ (.tail _ (.head _)))))⟩
  obtain ⟨run, _⟩ := Driver.plays played
  have apart := once _ earlier s run clocked (sparing_swr called) s₁ s₂ 0 1 0 1 true ()
    (List.suffix_refl _) loaded
  exact absurd apart (by decide)

end Runs

end Swr
