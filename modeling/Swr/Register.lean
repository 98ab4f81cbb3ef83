import Swr.OneLeaf

/-! # One leaf as a register

Any number of caches over trees with one and the same leaf, wrapped in whatever way. The
leaf may evict, its entries expire, its server may fail, and deletions of expired entries
may arrive at any time. For each composite key it is a register that may lose its value,
and `get`, `set` and `remove` are operations on it that take effect at one moment each.
-/

namespace Swr

open Async

variable {ι : Type} [SerdeJson ι]

/-! ## The register -/

/-- A call on a cache over a tree with this leaf, which uses each composite key at one
    type, or a task that such calls start, or the loss of entries: as a removal from
    outside, which any leaf may suffer at any time and a Moka cache does when it is full. -/
def Task.UsesLeaf (home : Home) (typing : String → ι) : Task ι → Prop
  | .get cache ns key | .set cache ns key _ _ | .remove cache ns key | .swr cache ns key
  | .cacheValue cache ns key _ _ _ | .revalidate cache ns key =>
      cache.store.sole = some home ∧ cache.ty = typing (buildCacheKey ns key)
  | .redisDel .. | .storeRemove .. => True
  | .storeGet .. | .storeSet .. | .backfill .. => False

/-- The command at which an operation on the key takes effect. -/
def Task.decides (home : Home) (cacheKey : String) : Task ι → Cmd ι → Bool
  | .get .., c => c.looksAt home cacheKey
  | .set .., c | .cacheValue .., c | .revalidate .., c => c.writesAt home cacheKey
  | .remove .., c => c.takesAt home cacheKey
  | _, _ => false

/-- Every `get` of the key counts, and every `set` and `remove` that succeeded. -/
def Task.counts (cacheKey : String) : Task ι → Out ι → Prop
  | .get _ ns key, _ => buildCacheKey ns key = cacheKey
  | .set _ ns key _ _, .done (.ok ()) | .remove _ ns key, .done (.ok ()) =>
      buildCacheKey ns key = cacheKey
  | _, _ => False

/-- What an operation on the key may do to the register, and return. A `get` may find
    nothing at any time, but it finds nothing else than what the register holds. An
    operation that fails, or has not returned, takes effect or does not. -/
def Task.legal (cacheKey : String) (task : Task ι) (log : Log ι) (out : Option (Out ι))
    (held held' : Option (Σ ty : ι, Val ty)) : Prop :=
  match task with
  | .get cache ns key => buildCacheKey ns key = cacheKey ∧ held' = held ∧
      ∀ value, out = some (.value cache.ty (.ok (some value))) → held = some ⟨cache.ty, value⟩
  | .set cache ns key value _ => buildCacheKey ns key = cacheKey ∧
      (held' = some ⟨cache.ty, value⟩ ∨ held' = held ∧ out ≠ some (.done (.ok ())))
  | .remove _ ns key => buildCacheKey ns key = cacheKey ∧
      (held' = none ∨ held' = held ∧ out ≠ some (.done (.ok ())))
  | .cacheValue cache ns key value _ _ => buildCacheKey ns key = cacheKey ∧
      (held' = some ⟨cache.ty, value⟩ ∨ held' = held)
  | .revalidate cache ns key => buildCacheKey ns key = cacheKey ∧
      ((∃ value, ⟨.loadEnd cache ns key, some value⟩ ∈ log ∧ held' = some ⟨cache.ty, value⟩) ∨
        held' = held)
  | _ => False

/-- The leaf has nothing under the key but what the register holds. -/
def Home.Represents (home : Home) (typing : String → ι) (cacheKey : String) (w : World ι)
    (held : Option (Σ ty : ι, Val ty)) : Prop :=
  ∀ stored, home.Shows w cacheKey stored → ∃ value, held = some value ∧ value.1 = typing cacheKey ∧
    stored.Carries value

theorem StoredEntry.Carries.decodes [DecidableEq ι] [LawfulSerdeJson ι] {ty : ι} {value : Val ty}
    {stored : StoredEntry ι} (carries : stored.Carries ⟨ty, value⟩) :
    ∃ entry, stored.intoTyped ty = .ok entry ∧ entry.value = value := by
  cases stored with
  | typed held freshUntil staleUntil serializer =>
      obtain ⟨rfl, _⟩ := carries
      exact ⟨⟨value, freshUntil, staleUntil⟩, by simp [StoredEntry.intoTyped], rfl⟩
  | serialized json freshUntil staleUntil =>
      obtain ⟨freshUntil', staleUntil', written⟩ := carries
      obtain ⟨json', written', read, _⟩ :=
        LawfulSerdeJson.roundTrip ty ⟨value, freshUntil', staleUntil'⟩
      obtain rfl := Except.ok.inj (written.symm.trans written')
      exact ⟨⟨value, freshUntil', staleUntil'⟩, by simp only [StoredEntry.intoTyped, read], rfl⟩

theorem Cmd.Puts.carries {value : Σ ty : ι, Val ty} {key cacheKey : String}
    {home : Home} {c : Cmd ι} (puts : c.Puts (StoredEntry.Carries value) key)
    (writes : c.writesAt home cacheKey = true) : key = cacheKey ∧ c.Carries value := by
  cases c
  case mapInsert =>
    obtain ⟨rfl, carries⟩ := puts
    exact ⟨(of_decide_eq_true writes).2, carries⟩
  case redisSet =>
    obtain ⟨rfl, _, _, carries⟩ := puts
    exact ⟨(of_decide_eq_true writes).2, carries⟩
  case redisSetEx =>
    obtain ⟨rfl, _, _, _, carries, _⟩ := puts
    exact ⟨(of_decide_eq_true writes).2, carries⟩
  all_goals cases writes

theorem Cmd.writesAt_isWrite {home : Home} {cacheKey : String} {c : Cmd ι}
    (reads : c.isWrite = false) : c.writesAt home cacheKey = false := by
  cases c <;> first | rfl | cases reads

theorem Sighted.among {log : Log ι} {cacheKey : String} {stored : StoredEntry ι}
    (sighted : Sighted log cacheKey stored) : ∃ e ∈ log, Sighted [e] cacheKey stored ∧
      ∀ home, (∀ place ∈ e.1.home, place = home) → e.1.looksAt home cacheKey = true := by
  cases sighted with
  | hashMap shown =>
      refine ⟨_, shown, .hashMap (List.mem_singleton_self _), fun home here => ?_⟩
      obtain rfl := here _ rfl
      simp [Cmd.looksAt]
  | moka shown =>
      refine ⟨_, shown, .moka (List.mem_singleton_self _), fun home here => ?_⟩
      obtain rfl := here _ rfl
      simp [Cmd.looksAt]
  | redis shown stamps =>
      refine ⟨_, shown, .redis (List.mem_singleton_self _) stamps, fun home here => ?_⟩
      obtain rfl := here _ rfl
      simp [Cmd.looksAt]

namespace SwrCache

variable {self : SwrCache ι} {ns key : String} {home : Home} {log : Log ι}

theorem dyn_sole (sole : self.store.sole = some home) : self.dyn.Sole home :=
  self.store.sole_sole sole

theorem set_once (sole : self.dyn.Sole home) (value : Val self.ty) (opts : Option SetOptions)
    (cacheKey : String) :
    (self.set ns key value opts).Costs (fun c => (c.writesAt home cacheKey).toNat) 1 := by
  refine once_later rfl fun now => ?_
  dsimp only
  split
  · trivial
  · exact sole.writesOnce ns key _ cacheKey

theorem set_writes (sole : self.dyn.Sole home) {value : Val self.ty} {opts : Option SetOptions}
    (yields : (self.set ns key value opts).Yields log (.ok ())) :
    (∃ e ∈ log, e.1.writesAt home (buildCacheKey ns key) = true) ∧
    ∀ e ∈ log, ¬ Refused e.1 e.2 := by
  simp only [SwrCache.set, Ask.now_bind, Prog.yields_op] at yields
  obtain ⟨now, rest, rfl, onward⟩ := yields
  split at onward
  · cases onward
  · obtain ⟨⟨e, member, writes⟩, calm⟩ := sole.writes onward
    exact ⟨⟨e, List.mem_cons_of_mem _ member, writes⟩, List.forall_mem_cons.mpr ⟨id, calm⟩⟩

theorem cacheValueTask_once (sole : self.dyn.Sole home) (value : Val self.ty)
    (freshUntil staleUntil : Int) (cacheKey : String) :
    (self.cacheValueTask ns key value freshUntil staleUntil).Costs
    (fun c => (c.writesAt home cacheKey).toNat) 1 := by
  simp only [cacheValueTask]
  split
  · trivial
  · exact once_then (sole.writesOnce ns key _ cacheKey) fun _ => trivial

theorem revalidateTask_once (sole : self.dyn.Sole home) (cacheKey : String) :
    (self.revalidateTask ns key).Costs (fun c => (c.writesAt home cacheKey).toNat) 1 := by
  have unmarks : (self.unmark ns key).Only fun c : Cmd ι => c.writesAt home cacheKey = false :=
    only_issue rfl
  have free : (self.unmark ns key).Costs (fun c => (c.writesAt home cacheKey).toNat) 0 :=
    unmarks.free fun c none => by simp [none]
  refine once_later rfl fun running => ?_
  split
  · trivial
  · refine once_later rfl fun _ => once_later rfl fun _ => once_later rfl fun value => ?_
    cases value with
    | none => exact free.mono (Nat.zero_le 1)
    | some v =>
        refine once_later rfl fun now => ?_
        split
        · exact free.mono (Nat.zero_le 1)
        · exact once_then (sole.writesOnce ns key _ cacheKey) fun _ => unmarks

variable [DecidableEq ι]

theorem get_once (sole : self.dyn.Sole home) (cacheKey : String) :
    (SwrCache.get self ns key).Costs (fun c => (c.looksAt home cacheKey).toNat) 1 := by
  have read : (Cmd.now : Cmd ι).looksAt home cacheKey = false := rfl
  refine once_then (once_then (sole.looksOnce ns key cacheKey) fun result => ?_) fun result => ?_
  · rcases result with e | _ | stored
    · trivial
    · trivial
    · dsimp only
      split
      · trivial
      · refine (only_issue read).bind fun _ => ?_
        split
        · trivial
        · split <;> trivial
  · cases result <;> trivial

theorem get_keyed (sole : self.dyn.Sole home) : (SwrCache.get self ns key).Only fun c : Cmd ι =>
    ∀ cacheKey, c.looksAt home cacheKey = true → buildCacheKey ns key = cacheKey := by
  refine ((sole.keyed ns key).bind fun result => ?_).bind fun result => ?_
  · rcases result with e | _ | stored
    · trivial
    · trivial
    · dsimp only
      split
      · trivial
      · refine Prog.Only.bind (only_issue nofun) fun _ => ?_
        split
        · trivial
        · split <;> trivial
  · cases result <;> trivial

theorem get_looks (sole : self.dyn.Sole home) {result : Except CacheError (Option (Val self.ty))}
    (yields : (SwrCache.get self ns key).Yields log result) :
    ∃ e ∈ log, e.1.looksAt home (buildCacheKey ns key) = true := by
  simp only [SwrCache.get, SwrCache.getInternal, bind_assoc] at yields
  obtain ⟨look, _, _, rfl, within, _⟩ := Prog.yields_bind.mp yields
  obtain ⟨e, member, looks⟩ := sole.looks within
  exact ⟨e, List.mem_append_left _ member, looks⟩

theorem get_finds {value : Val self.ty}
    (yields : (SwrCache.get self ns key).Yields log (.ok (some value))) :
    ∃ look rest entry, log = look ++ rest ∧ self.Finds ns key look entry ∧ entry.value = value := by
  simp only [SwrCache.get, SwrCache.getInternal, bind_assoc] at yields
  obtain ⟨look, answer, rest, rfl, looks, onward⟩ := Prog.yields_bind.mp yields
  rcases answer with e | _ | stored
  · cases onward
  · cases onward
  · cases decodes : stored.intoTyped self.ty with
    | error e =>
        simp only [decodes] at onward
        cases onward
    | ok entry =>
        simp only [decodes, Ask.now_bind, Prog.op_bind, Prog.yields_op] at onward
        obtain ⟨now, _, rfl, onward⟩ := onward
        refine ⟨look, _, entry, rfl, ⟨stored, looks, decodes⟩, ?_⟩
        split at onward
        · exact (Option.some.inj (Except.ok.inj (Prog.yields_ret.mp onward).2)).symm
        · split at onward <;>
            exact (Option.some.inj (Except.ok.inj (Prog.yields_ret.mp onward).2)).symm

theorem get_shows (alone : self.store.sole = some home) {value : Val self.ty}
    {c : Cmd ι} {r : c.Ans} (yields : (SwrCache.get self ns key).Yields log (.ok (some value)))
    (member : ⟨c, r⟩ ∈ log) (looks : c.looksAt home (buildCacheKey ns key) = true) :
    ∃ stored entry, Sighted [⟨c, r⟩] (buildCacheKey ns key) stored ∧
    stored.intoTyped self.ty = .ok entry ∧
      entry.value = value := by
  have sole := dyn_sole alone
  obtain ⟨look, rest, entry, rfl, ⟨stored, found, decodes⟩, same⟩ := get_finds yields
  obtain ⟨e, shown, sighted, place⟩ :=
    ((self.store.closed_shows (self.store.sole_closed alone)).finds found).among
  have also := place home ((sole.here ns key).yields found e shown)
  obtain rfl :=
    Prog.paid_unique ((get_once sole _).yields yields) (List.mem_append_left _ shown) member
    (by rw [also]; rfl) (by rw [looks]; rfl)
  exact ⟨stored, entry, sighted, decodes, same⟩

end SwrCache

/-! ## Operations on the register -/

section Rule

variable [DecidableEq ι] {home : Home} {typing : String → ι} {cacheKey : String}
  {task : Task ι} {log : Log ι} {c : Cmd ι}

omit [DecidableEq ι] in
theorem looksUp_sole {cache : SwrCache ι} {ns key : String} (sole : cache.store.sole = some home) :
    cache.LooksUp ns key fun _ next => next.isWrite = false ∧
      ∀ task ∈ next.spawned, ∃ server cacheKey, task = .redisDel server cacheKey where
  reads {past next} reaches := by
    have unfilled := ((SwrCache.dyn_sole sole).unfilled ns key).reaches reaches
    cases reads_ofGet (cache.store.closed_shows (cache.store.sole_closed sole))
      cache.dyn_plain reaches with
    | refills => exact absurd rfl (unfilled _ _ _ _)
    | clears =>
        exact ⟨rfl, fun task member => ⟨_, _, (Cmd.spawn.inj (Cmd.mem_spawned.mp member)).symm⟩⟩
    | looks reads quiet => exact ⟨reads, Cmd.all_spawned quiet⟩
  after _ _ _ looks := looks

/-- What a task of the leaf can issue: it writes nothing, or it hands an entry to its store. -/
theorem Task.UsesLeaf.issues (uses : task.UsesLeaf home typing)
    (reaches : task.body.Reaches log c) :
    (c.isWrite = false ∧ ∀ task' ∈ c.spawned, task'.UsesLeaf home typing) ∨
    ∃ cache ns key first entry stored second, task.Hands cache ns key first entry ∧
      SwrCache.storedEntry cache.ty cache.dyn.storageMode entry.value entry.freshUntil
        entry.staleUntil = .ok stored ∧
      log = first ++ second ∧ (cache.dyn.set ns key stored).Reaches second c := by
  have mine {cache : SwrCache ι} {ns key : String} (isFor : task.IsFor cache ns key)
      (sole : cache.store.sole = some home) (typed : cache.ty = typing (buildCacheKey ns key)) :
      (c.isWrite = false ∧ ∀ task' ∈ c.spawned, task'.UsesLeaf home typing) ∨
      ∃ cache ns key first entry stored second, task.Hands cache ns key first entry ∧
        SwrCache.storedEntry cache.ty cache.dyn.storageMode entry.value entry.freshUntil
          entry.staleUntil = .ok stored ∧
        log = first ++ second ∧ (cache.dyn.set ns key stored).Reaches second c := by
    rcases isFor.reaches (looksUp_sole sole) reaches with
      (⟨reads, starts⟩ | ⟨own, -⟩) |
      ⟨first, entry, stored, second, hands, made, split, writes⟩ | ⟨_, removes⟩
    · refine .inl ⟨reads, fun task' member => ?_⟩
      obtain ⟨_, _, rfl⟩ := starts task' member
      trivial
    · refine .inl ?_
      cases c
      case spawn task' =>
        refine ⟨rfl, fun started member => ?_⟩
        obtain rfl := Cmd.spawn.inj (Cmd.mem_spawned.mp member)
        rcases own with rfl | ⟨_, _, _, rfl⟩
        · exact ⟨sole, typed⟩
        · exact ⟨sole, typed⟩
      all_goals first | exact own.elim | exact ⟨rfl, Cmd.all_spawned rfl⟩
    · exact .inr ⟨cache, ns, key, first, entry, stored, second, hands, made, split, writes⟩
    · have takes := (cache.store.remove_takes ns [key]).reaches removes
      refine .inl ?_
      cases c <;> first | exact takes.elim | exact ⟨rfl, Cmd.all_spawned rfl⟩
  cases task with
  | get cache ns key | set cache ns key | remove cache ns key | swr cache ns key
  | cacheValue cache ns key
  | revalidate cache ns key => exact mine (by exact ⟨rfl, rfl, rfl⟩) uses.1 uses.2
  | redisDel server cacheKey =>
      have only : (Task.redisDel server cacheKey : Task ι).body.Only
          (fun c : Cmd ι => c = .redisDel server [cacheKey]) :=
        Prog.Only.bind (Prog.Only.bind (only_issue rfl) fun _ => trivial) fun _ => trivial
      obtain rfl := only.reaches reaches
      exact .inl ⟨rfl, Cmd.all_spawned rfl⟩
  | storeRemove store ns keys =>
      rcases reaches.of_bind with within | ⟨_, _, _, _, _, onward⟩
      · have takes := (store.remove_takes ns keys).reaches within
        refine .inl ?_
        cases c <;> first | exact takes.elim | exact ⟨rfl, Cmd.all_spawned rfl⟩
      · cases onward
  | storeGet | storeSet | backfill => exact uses.elim

omit [DecidableEq ι] in
theorem SwrCache.dyn_carries {cache : SwrCache ι} {ns key : String} {second : Log ι}
    {entry : Entry (Val cache.ty)} {stored : StoredEntry ι}
    (made : SwrCache.storedEntry cache.ty cache.dyn.storageMode entry.value entry.freshUntil
      entry.staleUntil = .ok stored)
    (reaches : (cache.dyn.set ns key stored).Reaches second c)
    (writes : c.writesAt home cacheKey = true) :
    buildCacheKey ns key = cacheKey ∧ c.Carries ⟨cache.ty, entry.value⟩ :=
  ((Store.putsOnly (fun carries done => carries.convert done) cache.store ns key stored
    (storedEntry_carries made)).reaches reaches).carries writes

omit [DecidableEq ι] in
/-- After a write the leaf holds the value that was written, or what it held before. -/
theorem represents_written {X : ExtSemantics ι} {i : Nat} {t : Int} {w w' : World ι} {r : c.Ans}
    {held : Option (Σ ty : ι, Val ty)} {value : Σ ty : ι, Val ty} (done : exec X i t w c r w')
    (writes : c.writesAt home cacheKey = true) (carries : c.Carries value)
    (typed : value.1 = typing cacheKey) (represents : home.Represents typing cacheKey w held) :
    home.Represents typing cacheKey w' (some value) ∨ home.Represents typing cacheKey w' held ∧
    Refused c r := by
  rcases exec_sets done writes with written | ⟨rfl, refused⟩
  · exact .inl fun stored shows => ⟨value, rfl, typed, written stored value shows carries⟩
  · exact .inr ⟨represents, refused⟩

/-- Who writes the key at the leaf writes the value that it hands to its store. -/
theorem Task.UsesLeaf.writes (uses : task.UsesLeaf home typing) (reaches : task.body.Reaches log c)
    (writes : c.writesAt home cacheKey = true) : ∃ cache ns key first entry,
      task.Hands cache ns key first entry ∧ first <+: log ∧ buildCacheKey ns key = cacheKey ∧
      cache.ty = typing cacheKey ∧ c.Carries ⟨cache.ty, entry.value⟩ := by
  rcases uses.issues reaches with ⟨reads, _⟩ |
    ⟨cache, ns, key, first, entry, stored, second, hands, made, rfl, onward⟩
  · rw [Cmd.writesAt_isWrite reads] at writes
    cases writes
  · obtain ⟨rfl, carries⟩ := SwrCache.dyn_carries made onward writes
    refine ⟨cache, ns, key, first, entry, hands, List.prefix_append _ _, rfl, ?_, carries⟩
    cases hands <;> exact uses.2

/-- What takes effect elsewhere does not write the key there. -/
theorem Task.UsesLeaf.spares (uses : task.UsesLeaf home typing) (reaches : task.body.Reaches log c)
    (quiet : ∀ cache ns key first entry, task.Hands cache ns key first entry →
      c.writesAt home cacheKey = false) :
    c.writesAt home cacheKey = false := by
  refine Bool.eq_false_iff.mpr fun writes => ?_
  obtain ⟨cache, ns, key, first, entry, hands, _⟩ := uses.writes reaches writes
  rw [quiet cache ns key first entry hands] at writes
  cases writes

theorem Task.UsesLeaf.once (uses : task.UsesLeaf home typing) :
    task.body.Costs (fun c => (task.decides home cacheKey c).toNat) 1 := by
  cases task with
  | get cache ns key =>
      exact once_then (SwrCache.get_once (SwrCache.dyn_sole uses.1) cacheKey) fun _ => trivial
  | set cache ns key value opts =>
      exact once_then (SwrCache.set_once (SwrCache.dyn_sole uses.1) value opts cacheKey)
        fun _ => trivial
  | remove cache ns key =>
      exact once_then ((SwrCache.dyn_sole uses.1).takesOnce ns key cacheKey) fun _ => trivial
  | cacheValue cache ns key value freshUntil staleUntil =>
      exact once_then (SwrCache.cacheValueTask_once (SwrCache.dyn_sole uses.1) value freshUntil
        staleUntil cacheKey) fun _ => trivial
  | revalidate cache ns key =>
      exact once_then (SwrCache.revalidateTask_once (SwrCache.dyn_sole uses.1) cacheKey)
        fun _ => trivial
  | swr | redisDel | storeRemove => exact Prog.Costs.nothing _
  | storeGet | storeSet | backfill => exact uses.elim

theorem Task.UsesLeaf.needed (uses : task.UsesLeaf home typing) {out : Out ι}
    (yields : task.body.Yields log out) (counts : task.counts cacheKey out) :
    ∃ e ∈ log, task.decides home cacheKey e.1 = true := by
  cases task with
  | get cache ns key =>
      obtain ⟨result, within, _⟩ := Prog.yields_map.mp yields
      obtain rfl : buildCacheKey ns key = cacheKey := counts
      exact SwrCache.get_looks (SwrCache.dyn_sole uses.1) within
  | set cache ns key value opts =>
      obtain ⟨result, within, rfl⟩ := Prog.yields_map.mp yields
      rcases result with _ | _
      · exact counts.elim
      · obtain rfl : buildCacheKey ns key = cacheKey := counts
        exact (SwrCache.set_writes (SwrCache.dyn_sole uses.1) within).1
  | remove cache ns key =>
      obtain ⟨result, within, rfl⟩ := Prog.yields_map.mp yields
      rcases result with _ | _
      · exact counts.elim
      · obtain rfl : buildCacheKey ns key = cacheKey := counts
        exact ((SwrCache.dyn_sole uses.1).takes within).1
  | swr | cacheValue | revalidate | redisDel | storeRemove => exact counts.elim
  | storeGet | storeSet | backfill => exact uses.elim

variable {X : ExtSemantics ι} {i : Nat} {t : Int} {w w' : World ι} {r : c.Ans}
  {held : Option (Σ ty : ι, Val ty)}

omit [DecidableEq ι] in
theorem yields_done {p : Code ι (Except CacheError Unit)} {result : Except CacheError Unit}
    (yields : (do return Out.done (← p) : Code ι (Out ι)).Yields log (.done result)) :
    p.Yields log result := by
  obtain ⟨result', within, same⟩ := Prog.yields_map.mp yields
  cases same
  exact within

/-- A value that was read at the leaf is the value that the register held. -/
theorem Sighted.reveals [LawfulSerdeJson ι] {ty : ι} {stored : StoredEntry ι}
    {entry : Entry (Val ty)} (sighted : Sighted [⟨c, r⟩] cacheKey stored)
    (typed : ty = typing cacheKey) (done : exec X i t w c r w')
    (looks : c.looksAt home cacheKey = true) (decodes : stored.intoTyped ty = .ok entry)
    (represents : home.Represents typing cacheKey w held) : held = some ⟨ty, entry.value⟩ := by
  obtain ⟨⟨ty', value⟩, rfl, typed', carries⟩ := represents stored (exec_looks done looks sighted)
  obtain rfl : ty' = ty := typed'.trans typed.symm
  obtain ⟨entry', decodes', rfl⟩ := carries.decodes
  obtain rfl := Except.ok.inj (decodes.symm.trans decodes')
  rfl

/-- What a `get` returns is what the register held when it looked. -/
theorem get_returns [LawfulSerdeJson ι] {cache : SwrCache ι} {ns key : String} {out : Out ι}
    (uses : (Task.get cache ns key).UsesLeaf home typing) (looks : c.looksAt home cacheKey = true)
    (same : buildCacheKey ns key = cacheKey) (done : exec X i t w c r w')
    (represents : home.Represents typing cacheKey w held)
    (yields : (Task.get cache ns key).body.Yields log out) (member : ⟨c, r⟩ ∈ log)
    (value : Val cache.ty) (returned : out = .value cache.ty (.ok (some value))) :
    held = some ⟨cache.ty, value⟩ := by
  subst same
  obtain ⟨result, within, rfl⟩ := Prog.yields_map.mp yields
  cases returned
  obtain ⟨stored, entry, sighted, decodes, rfl⟩ := SwrCache.get_shows uses.1 within member looks
  exact sighted.reveals uses.2 done looks decodes represents

omit [DecidableEq ι] in
theorem represents_kept (done : exec X i t w c r w') (spares : c.writesAt home cacheKey = false)
    (represents : home.Represents typing cacheKey w held) :
    home.Represents typing cacheKey w' held :=
  fun stored shows => represents stored (exec_shows done spares shows)

omit [DecidableEq ι] in
/-- After a removal the register holds nothing, or what it held before. -/
theorem represents_taken (done : exec X i t w c r w') (takes : c.takesAt home cacheKey = true)
    (represents : home.Represents typing cacheKey w held) :
    home.Represents typing cacheKey w' none ∨ home.Represents typing cacheKey w' held ∧
    Refused c r := by
  rcases exec_unsets done takes with none | ⟨rfl, refused⟩
  · exact .inl fun stored shows => absurd shows (none stored)
  · exact .inr ⟨represents, refused⟩

omit [DecidableEq ι] in
theorem Cmd.Takes.key {ns key : String} (own : c.Takes ns [key])
    (takes : c.takesAt home cacheKey = true) : buildCacheKey ns key = cacheKey := by
  cases c
  case mapRemove | redisDel =>
    obtain ⟨key', member, same⟩ := own cacheKey (of_decide_eq_true takes).2
    obtain rfl := List.mem_singleton.mp member
    exact same
  all_goals cases takes

/-- The decisive command of each operation has the effect that the register allows. -/
theorem Task.UsesLeaf.effect [LawfulSerdeJson ι] (uses : task.UsesLeaf home typing)
    (reaches : task.body.Reaches log c) (decides : task.decides home cacheKey c = true)
    (done : exec X i t w c r w') (represents : home.Represents typing cacheKey w held) :
    ∃ held', home.Represents typing cacheKey w' held' ∧
      (∀ rest, task.legal cacheKey (log ++ ⟨c, r⟩ :: rest) none held held') ∧
      ∀ rest out, task.body.Yields (log ++ ⟨c, r⟩ :: rest) out →
        task.legal cacheKey (log ++ ⟨c, r⟩ :: rest) (some out) held held' := by
  have answered (rest : Log ι) : ⟨c, r⟩ ∈ log ++ ⟨c, r⟩ :: rest := by simp
  cases task with
  | get cache ns key =>
      have spares : c.writesAt home cacheKey = false :=
        uses.spares reaches fun _ _ _ _ _ hands => by cases hands
      have own : buildCacheKey ns key = cacheKey := by
        rcases reaches.of_bind with within | ⟨_, _, _, _, _, onward⟩
        · exact (SwrCache.get_keyed (SwrCache.dyn_sole uses.1)).reaches within cacheKey decides
        · cases onward
      refine ⟨held, represents_kept done spares represents, fun rest =>
        ⟨own, rfl, fun _ none => (by cases none)⟩, ?_⟩
      intro rest out yields
      refine ⟨own, rfl, fun value returned => ?_⟩
      exact get_returns uses decides own done represents yields (answered rest) value
        (Option.some.inj returned)
  | set cache ns key value opts =>
      obtain ⟨_, _, _, _, entry, hands, _, own, typed, carries⟩ := uses.writes reaches decides
      cases hands
      rcases represents_written done decides carries typed represents with written | ⟨kept, refused⟩
      · exact ⟨_, written, fun _ => ⟨own, .inl rfl⟩, fun _ _ _ => ⟨own, .inl rfl⟩⟩
      · refine ⟨held, kept, fun _ => ⟨own, .inr ⟨rfl, fun none => (by cases none)⟩⟩, ?_⟩
        intro rest out yields
        refine ⟨own, .inr ⟨rfl, ?_⟩⟩
        rintro ⟨⟩
        exact (SwrCache.set_writes (SwrCache.dyn_sole uses.1) (yields_done yields)).2
          _ (answered rest) refused
  | cacheValue cache ns key value freshUntil staleUntil =>
      obtain ⟨_, _, _, _, entry, hands, _, own, typed, carries⟩ := uses.writes reaches decides
      cases hands
      rcases represents_written done decides carries typed represents with written | ⟨kept, _⟩
      · exact ⟨_, written, fun _ => ⟨own, .inl rfl⟩, fun _ _ _ => ⟨own, .inl rfl⟩⟩
      · exact ⟨held, kept, fun _ => ⟨own, .inr rfl⟩, fun _ _ _ => ⟨own, .inr rfl⟩⟩
  | revalidate cache ns key =>
      obtain ⟨_, _, _, first, entry, hands, begins, own, typed, carries⟩ :=
        uses.writes reaches decides
      cases hands with
      | @revalidate value now =>
          have loaded (rest : Log ι) :
              ⟨.loadEnd cache ns key, some value⟩ ∈ log ++ ⟨c, r⟩ :: rest :=
            List.mem_append_left _ (begins.subset (by simp [SwrCache.renewalLog]))
          rcases represents_written done decides carries typed represents with written | ⟨kept, _⟩
          · have renews (rest : Log ι) :
                Task.legal cacheKey (.revalidate cache ns key) (log ++ ⟨c, r⟩ :: rest) none
                held (some ⟨cache.ty, value⟩) := ⟨own, .inl ⟨value, loaded rest, rfl⟩⟩
            exact ⟨_, written, renews, fun rest _ _ => renews rest⟩
          · exact ⟨held, kept, fun _ => ⟨own, .inr rfl⟩, fun _ _ _ => ⟨own, .inr rfl⟩⟩
  | remove cache ns key =>
      have own : buildCacheKey ns key = cacheKey := by
        rcases reaches.of_bind with within | ⟨_, _, _, _, _, onward⟩
        · exact Cmd.Takes.key ((cache.store.remove_takes ns [key]).reaches within) decides
        · cases onward
      rcases represents_taken done decides represents with taken | ⟨kept, refused⟩
      · exact ⟨none, taken, fun _ => ⟨own, .inl rfl⟩, fun _ _ _ => ⟨own, .inl rfl⟩⟩
      · refine ⟨held, kept, fun _ => ⟨own, .inr ⟨rfl, fun none => (by cases none)⟩⟩, ?_⟩
        intro rest out yields
        refine ⟨own, .inr ⟨rfl, ?_⟩⟩
        rintro ⟨⟩
        exact ((SwrCache.dyn_sole uses.1).takes (yields_done yields)).2 _ (answered rest) refused
  | swr | redisDel | storeRemove => cases decides
  | storeGet | storeSet | backfill => exact uses.elim

theorem Task.UsesLeaf.heirs (uses : task.UsesLeaf home typing) (reaches : task.body.Reaches log c) :
    ∀ task' ∈ c.spawned, task'.UsesLeaf home typing := by
  rcases uses.issues reaches with ⟨_, starts⟩ |
    ⟨cache, ns, key, _, _, stored, _, _, made, _, onward⟩
  · exact starts
  · have puts :=
      (Store.putsOnly (fun carries done => carries.convert done) cache.store ns key stored
      (storedEntry_carries made)).reaches onward
    exact Cmd.all_spawned puts.spawned

/-- Every operation takes effect at its decisive command. -/
theorem leaf_decisive [LawfulSerdeJson ι] (X : ExtSemantics ι) (home : Home) (typing : String → ι)
    (cacheKey : String) :
    Decisive (M := system X) (Task.decides home cacheKey) (Task.counts cacheKey)
      (Task.legal cacheKey) (home.Represents typing cacheKey) (Task.UsesLeaf home typing) where
  once task uses := uses.once
  needed task log out uses yields counts := uses.needed yields counts
  heirs task log c uses reaches := uses.heirs reaches
  quiet task log c uses reaches quiet i t w r w' held done represents := by
    refine represents_kept done (uses.spares reaches fun _ _ _ _ _ hands => ?_) represents
    cases hands <;> exact quiet
  effect task log c uses reaches decides i t w r w' held done represents :=
    uses.effect reaches decides done represents

omit [DecidableEq ι] in
theorem represents_empty : home.Represents typing cacheKey .empty none := by
  intro stored shows
  cases home with
  | map | ext => cases shows
  | server =>
      obtain ⟨_, _, _, none, _⟩ := shows
      cases none

end Rule

/-- Any number of calls on caches over one and the same leaf, each composite key used at
    one type, from empty stores on. Calls and background tasks run in any order, tasks may
    be dropped, entries may be evicted, expire or be lost, and a server may fail. For each
    key, the order of their decisive commands is a history of a register that may lose its
    value. It explains what each `get` has returned and which calls have succeeded, and
    contradicts real time nowhere: the caches are linearizable. -/
theorem linearizable [DecidableEq ι] [LawfulSerdeJson ι] {X : ExtSemantics ι} {home : Home}
    {typing : String → ι} {past : History (system X)} {s : Config (system X)}
    (run : Run (system X) (.idle .empty) past s)
    (calls : ∀ s₀ task, (s₀, .start task) ∈ past → task.UsesLeaf home typing) (cacheKey : String) :
    Linearized (Task.counts cacheKey) (Task.legal cacheKey) none past s
      (decided (Task.decides home cacheKey) past) :=
  run.linearized (leaf_decisive X home typing cacheKey) calls represents_empty

/-- A `get` that was called first, but looked after a `set` of another cache had written,
    comes second. -/
theorem linearizable_late_look :
    ∃ (past : History (system .atomicMap)) (s : Config (system .atomicMap)),
    Run (system .atomicMap) (.idle (.empty : World Unit)) past s ∧
    (∃ th, s.threads[0]? = some th ∧ th.task = .get readerCache "ns" "k" ∧
      th.Finished (.value () (.ok (some true)))) ∧
    Linearized (Task.counts "ns:k") (Task.legal "ns:k") none past s [1, 0] := by
  obtain ⟨past, s, played, called, order, returned⟩ : ∃ past s,
      driver.play (fun _ _ => True) [.start (.get readerCache "ns" "k"),
        .start (.set writerCache "ns" "k" true none), .go 1 (reading 0), .go 1 (reading 0),
        .go 0 (reading 7), .go 0 (reading 7), .go 0 (reading 7), .go 0 (reading 7),
        .go 0 (reading 7)] ([], .idle .empty) = some (past, s) ∧
      past.filterMap (fun e => e.2.starting) =
        [.set writerCache "ns" "k" true none, .get readerCache "ns" "k"] ∧
      decided (Task.decides (.map (.moka 0)) "ns:k") past = [1, 0] ∧
      ∃ th, s.threads[0]? = some th ∧ th.task = .get readerCache "ns" "k" ∧
        th.Finished (.value () (.ok (some true))) :=
    ⟨_, _, rfl, rfl, rfl, _, rfl, rfl, rfl⟩
  obtain ⟨run, _⟩ := Driver.plays played
  have calls : ∀ s₀ task, (s₀, .start task) ∈ past →
      task.UsesLeaf (.map (.moka 0)) fun _ => () := by
    intro s₀ task member
    have among : task ∈ past.filterMap (fun e => e.2.starting) :=
      List.mem_filterMap.mpr ⟨_, member, rfl⟩
    rw [called] at among
    simp only [List.mem_cons, List.not_mem_nil, or_false] at among
    rcases among with rfl | rfl
    · exact ⟨rfl, rfl⟩
    · exact ⟨rfl, rfl⟩
  have linear := linearizable run calls "ns:k"
  rw [order] at linear
  exact ⟨past, s, run, returned, linear⟩

/-- The value that the task writes under the key, if it comes to its write. -/
def Task.Brings (cacheKey : String) (value : Σ ty : ι, Val ty) : Task ι → Log ι → Prop
  | .set cache ns key v _, _ | .cacheValue cache ns key v _ _, _ =>
      buildCacheKey ns key = cacheKey ∧ value = ⟨cache.ty, v⟩
  | .revalidate cache ns key, log => buildCacheKey ns key = cacheKey ∧
      ∃ v, ⟨.loadEnd cache ns key, some v⟩ ∈ log ∧ value = ⟨cache.ty, v⟩
  | _, _ => False

/-- The call has put something else in the place of what was there, or nothing. -/
def Task.Replaces (cacheKey : String) : Task ι → Out ι → Prop
  | .set _ ns key _ _, .done (.ok ()) | .remove _ ns key, .done (.ok ()) =>
      buildCacheKey ns key = cacheKey
  | _, _ => False

theorem Task.Replaces.counts {cacheKey : String} {task : Task ι} {out : Out ι}
    (replaces : task.Replaces cacheKey out) : task.counts cacheKey out := by
  cases task with
  | set | remove =>
      rcases out with _ | _ | (_ | _)
      all_goals exact replaces
  | get | swr | cacheValue | revalidate | storeGet | storeSet | storeRemove | backfill | redisDel =>
      exact replaces.elim

theorem legal_brings {cacheKey : String} {task : Task ι} {log : Log ι} {out : Option (Out ι)}
    {held : Option (Σ ty : ι, Val ty)} {value : Σ ty : ι, Val ty}
    (legal : task.legal cacheKey log out held (some value)) : task.Brings cacheKey value log ∨
      held = some value ∧ ∀ result, out = some result → ¬ task.Replaces cacheKey result := by
  cases task with
  | get => exact .inr ⟨legal.2.1.symm, fun _ _ => id⟩
  | set =>
      obtain ⟨own, same | ⟨same, failed⟩⟩ := legal
      · exact .inl ⟨own, Option.some.inj same⟩
      · refine .inr ⟨same.symm, ?_⟩
        rintro result rfl replaces
        rcases result with _ | _ | (_ | _)
        all_goals first | exact replaces.elim | exact failed rfl
  | cacheValue =>
      obtain ⟨own, same | same⟩ := legal
      · exact .inl ⟨own, Option.some.inj same⟩
      · exact .inr ⟨same.symm, fun _ _ => id⟩
  | revalidate =>
      obtain ⟨own, ⟨v, loaded, same⟩ | same⟩ := legal
      · exact .inl ⟨own, v, loaded, Option.some.inj same⟩
      · exact .inr ⟨same.symm, fun _ _ => id⟩
  | remove =>
      obtain ⟨own, none | ⟨same, failed⟩⟩ := legal
      · cases none
      · refine .inr ⟨same.symm, ?_⟩
        rintro result rfl replaces
        rcases result with _ | _ | (_ | _)
        all_goals first | exact replaces.elim | exact failed rfl
  | swr | storeGet | storeSet | storeRemove | backfill | redisDel => exact legal.elim

theorem Task.Brings.later {cacheKey : String} {value : Σ ty : ι, Val ty}
    {task : Task ι} {log : Log ι} (brings : task.Brings cacheKey value log) (rest : Log ι) :
    task.Brings cacheKey value (log ++ rest) := by
  cases task with
  | revalidate =>
      obtain ⟨own, v, loaded, same⟩ := brings
      exact ⟨own, v, List.mem_append_left _ loaded, same⟩
  | set | cacheValue => exact brings
  | get | swr | remove | storeGet | storeSet | storeRemove | backfill | redisDel =>
      exact brings.elim

section Found

variable [DecidableEq ι] [LawfulSerdeJson ι] {X : ExtSemantics ι} {home : Home}
  {typing : String → ι} {past : History (system X)} {s : Config (system X)} {cache : SwrCache ι}
  {ns key : String} {value : Val cache.ty}

omit [LawfulSerdeJson ι] in
/-- What a look-up finds is at the leaf at one moment of the look-up. -/
theorem SwrCache.Finds.step (sole : cache.store.sole = some home) {j : Nat}
    {before look after : Log ι} {entry : Entry (Val cache.ty)}
    (log : replies j past = before ++ look ++ after) (finds : cache.Finds ns key look entry) :
    ∃ s₁ t c r earlier stored, (s₁, .exec j t c r) :: earlier <:+ past ∧
      c.looksAt home (buildCacheKey ns key) = true ∧
      Sighted [⟨c, r⟩] (buildCacheKey ns key) stored ∧ stored.intoTyped cache.ty = .ok entry := by
  obtain ⟨stored, asked, decodes⟩ := finds
  have shows : cache.dyn.Shows := cache.store.closed_shows (cache.store.sole_closed sole)
  obtain ⟨⟨c, r⟩, shown, sighted, place⟩ := (shows.finds asked).among
  have here := ((SwrCache.dyn_sole sole).here ns key).yields asked _ shown
  obtain ⟨⟨t, _⟩, member, rfl⟩ :=
    List.mem_map.mp (show ⟨c, r⟩ ∈ replies j past by simp [log, shown])
  obtain ⟨s₁, earlier, step⟩ := step_of_mem_trace member
  exact ⟨s₁, t, c, r, earlier, stored, step, place home here, sighted, decodes⟩

/-- A `get` or `swr` returns what the call itself has loaded, or a value that a call or a
    background task has issued a write of, and not after it. It never returns a value that a
    `set` or a `remove` had replaced before it was called. -/
theorem found_recent (run : Run (system X) (.idle .empty) past s)
    (calls : ∀ s₀ task, (s₀, .start task) ∈ past → task.UsesLeaf home typing) {j : Nat}
    {th : Thread (system X)} (at_j : s.threads[j]? = some th)
    (task : th.task = .get cache ns key ∨ th.task = .swr cache ns key)
    (finished : th.Finished (.value cache.ty (.ok (some value)))) :
    ⟨.loadEnd cache ns key, some value⟩ ∈ replies j past ∨ ∃ i writer, s.threads[i]? = some writer ∧
      writer.task.Brings (buildCacheKey ns key) ⟨cache.ty, value⟩ (replies i past) ∧
      i ∈ decided (Task.decides home (buildCacheKey ns key)) past ∧ ¬ Precedes past s j i ∧
      ∀ k other out, s.threads[k]? = some other → other.Finished out →
      other.task.Replaces (buildCacheKey ns key) out →
        ¬ (Precedes past s i k ∧ Precedes past s k j) := by
  have rule := leaf_decisive X home typing (buildCacheKey ns key)
  have uses : cache.store.sole = some home ∧ cache.ty = typing (buildCacheKey ns key) := by
    have mine : th.task.UsesLeaf home typing :=
      run.tasks (fun task log c uses reaches => rule.heirs task log c uses reaches) calls at_j
    rcases task with same | same
    · rw [same] at mine
      exact mine
    · rw [same] at mine
      exact mine
  have offered : cache.Offered ns key (replies j past) value := by
    rcases task with same | same
    · have yields := run.finished_yields at_j finished
      rw [same] at yields
      obtain ⟨result, within, returned⟩ := Prog.yields_map.mp yields
      cases returned
      obtain ⟨look, after, entry, split, finds, found⟩ := SwrCache.get_finds within
      exact .inl ⟨[], look, after, entry, split, finds, found⟩
    · obtain ⟨found, returned, course⟩ := swr_course run at_j same finished
      cases returned
      exact course.sourced
  rcases offered with ⟨before, look, after, entry, split, finds, rfl⟩ | loaded
  · right
    obtain ⟨s₁, t, c, r, earlier, stored, step, looks, sighted, decodes⟩ := finds.step uses.1 split
    obtain ⟨_, _, taken⟩ := run.upTo step
    have fresh : none ≠ some (⟨cache.ty, entry.value⟩ : Σ ty : ι, Val ty) :=
      (Option.some_ne_none _).symm
    refine run.observed rule calls represents_empty fresh (fun _ _ _ _ legal => legal_brings legal)
      (fun _ _ replaces => replaces.counts) (fun _ _ rest brings => brings.later rest) step
        fun held represents => ?_
    cases taken with
    | exec _ _ done => exact sighted.reveals uses.2 done looks decodes represents
  · exact .inl loaded

end Found

/-- The second of two caches has replaced what the first one wrote, and `swr` finds it. -/
theorem found_recent_replaced :
    ∃ (past : History (system .atomicMap)) (s : Config (system .atomicMap)),
    Run (system .atomicMap) (.idle (.empty : World Unit)) past s ∧
    (∃ th, s.threads[2]? = some th ∧ th.task = .swr readerCache "ns" "k" ∧
      th.Finished (.value () (.ok (some false)))) ∧
    (⟨.loadEnd readerCache "ns" "k", some false⟩ ∈ replies 2 past ∨
      ∃ i writer, s.threads[i]? = some writer ∧
      writer.task.Brings "ns:k" ⟨(), false⟩ (replies i past) ∧
        i ∈ decided (Task.decides (.map (.moka 0)) "ns:k") past ∧ ¬ Precedes past s 2 i ∧
        ∀ k other out, s.threads[k]? = some other → other.Finished out →
        other.task.Replaces "ns:k" out →
          ¬ (Precedes past s i k ∧ Precedes past s k 2)) := by
  obtain ⟨past, s, played, called, th, at_2, task, finished⟩ : ∃ past s,
      driver.play (fun _ _ => True) [.start (.set writerCache "ns" "k" true none),
        .go 0 (reading 0), .go 0 (reading 0), .start (.set readerCache "ns" "k" false none),
        .go 1 (reading 1), .go 1 (reading 1), .go 1 (reading 1), .start (.swr readerCache "ns" "k"),
        .go 2 (reading 2), .go 2 (reading 2), .go 2 (reading 2), .go 2 (reading 2),
        .go 2 (reading 2)] ([], .idle .empty) = some (past, s) ∧
      past.filterMap (fun e => e.2.starting) =
        [.swr readerCache "ns" "k", .set readerCache "ns" "k" false none,
        .set writerCache "ns" "k" true none] ∧
      ∃ th, s.threads[2]? = some th ∧ th.task = .swr readerCache "ns" "k" ∧
        th.Finished (.value () (.ok (some false))) :=
    ⟨_, _, rfl, rfl, _, rfl, rfl, rfl⟩
  obtain ⟨run, _⟩ := Driver.plays played
  have calls : ∀ s₀ task, (s₀, .start task) ∈ past →
      task.UsesLeaf (.map (.moka 0)) fun _ => () := by
    intro s₀ task member
    have among : task ∈ past.filterMap (fun e => e.2.starting) :=
      List.mem_filterMap.mpr ⟨_, member, rfl⟩
    rw [called] at among
    simp only [List.mem_cons, List.not_mem_nil, or_false] at among
    rcases among with rfl | rfl | rfl
    all_goals exact ⟨rfl, rfl⟩
  exact ⟨past, s, run, ⟨th, at_2, task, finished⟩, found_recent run calls at_2 (.inr task) finished⟩

end Swr
