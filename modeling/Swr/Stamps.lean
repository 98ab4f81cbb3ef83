import Swr.Coherence
import Swr.ExpiredValues
import Swr.Markers

/-! # Stamps

Where an `SwrCache` makes the stamps of an entry, when the sums fit `i64`, and what a
`MetricsStore` and the cache itself make of the stamps later. Neither asks for
`fresh_ms <= stale_ms`, and neither looks for an overflow.
-/

namespace Swr

open Async

variable {ι : Type} [SerdeJson ι]

/-! ## Sums that wrap -/

/-- A sum beyond `i64` comes out negative. -/
theorem addMs_wraps {now ms : Int} (clock : 0 ≤ now ∧ now < 2 ^ 53) (fits : ms ≤ maxI64)
    (beyond : maxI64 < now + ms) : addMs now ms < 0 := by
  simp only [maxI64] at fits beyond
  simp only [addMs, Int.bmod_def]
  omega

theorem addMs_of_le {now ms : Int} (clock : 0 ≤ now ∧ now < 2 ^ 53) (nonneg : 0 ≤ ms)
    (high : now + ms ≤ maxI64) : addMs now ms = now + ms :=
  addMs_of_fits (by simp only [minI64]; omega) high

/-! ## Where stamps are made -/

def SwrCache.durations (cache : SwrCache ι) (opts : Option SetOptions) : SetOptions :=
  ⟨(opts.map SetOptions.freshMs).getD cache.freshMs,
    (opts.map SetOptions.staleMs).getD cache.staleMs⟩

/-- The command writes an entry with these stamps. Those of a text are what its readers see. -/
def Cmd.WritesStamps (freshUntil staleUntil : Int) : Cmd ι → Prop
  | .mapInsert _ _ entry | .extSet _ _ _ entry =>
      entry.freshUntil = freshUntil ∧ entry.staleUntil = staleUntil
  | .redisSet _ _ json | .redisSetEx _ _ json _ =>
      SerdeJson.metadataFromStr ι json = .ok ⟨freshUntil, staleUntil⟩
  | _ => False

section Written

variable {ty : ι} {c : Cmd ι} {freshUntil staleUntil : Int}

theorem Cmd.WritesStamps.isWrite (writes : c.WritesStamps freshUntil staleUntil) :
    c.isWrite = true := by
  cases c <;> first | rfl | exact writes.elim

theorem Encodes.metadata [LawfulSerdeJson ι] {e : Entry (Val ty)} {json : String}
    {fresh stale : Int} (encodes : Encodes e (.serialized json fresh stale)) :
    SerdeJson.metadataFromStr ι json = .ok ⟨e.freshUntil, e.staleUntil⟩ := by
  cases encodes with
  | serialized written =>
      obtain ⟨_, written', _, metadata⟩ := LawfulSerdeJson.roundTrip ty e
      obtain rfl := Except.ok.inj (written.symm.trans written')
      exact metadata

theorem Cmd.Puts.stamps [LawfulSerdeJson ι] {e : Entry (Val ty)} {cacheKey : String}
    (puts : c.Puts (Encodes e) cacheKey) (writes : c.WritesStamps freshUntil staleUntil) :
    freshUntil = e.freshUntil ∧ staleUntil = e.staleUntil := by
  cases c <;> try exact writes.elim
  case mapInsert | extSet =>
    obtain ⟨rfl, rfl⟩ := writes
    exact ⟨puts.2.freshUntil, puts.2.staleUntil⟩
  case redisSet =>
    obtain ⟨_, _, _, encodes⟩ := puts
    have read := writes.symm.trans encodes.metadata
    cases read
    exact ⟨rfl, rfl⟩
  case redisSetEx =>
    obtain ⟨_, _, _, _, encodes, _⟩ := puts
    have read := writes.symm.trans encodes.metadata
    cases read
    exact ⟨rfl, rfl⟩

end Written

section Stamping

variable [DecidableEq ι]

/-- At the clock reading `now` the code of a cache makes these stamps from the durations:
    an entry that `set` or a revalidation writes has them, whose first reading it is, or
    one that a task writes to which an `swr` call has handed its value right after it. -/
inductive SwrCache.Stamps (cache : SwrCache ι) (ns key : String) (now : Int) :
    SetOptions → Int → Int → Prop where
  | set : (Task.set cache ns key value opts).body.Reaches (⟨.now, now⟩ :: later) c →
      c.WritesStamps freshUntil staleUntil →
      Stamps cache ns key now (cache.durations opts) freshUntil staleUntil
  | cacheValue : (Task.swr cache ns key).body.Reaches (log ++ [⟨.now, now⟩])
        (.spawn (.cacheValue cache ns key value fresh stale)) →
      (Task.cacheValue cache ns key value fresh stale).body.Reaches later c →
      c.WritesStamps freshUntil staleUntil →
      Stamps cache ns key now (cache.durations none) freshUntil staleUntil
  | revalidate : (Task.revalidate cache ns key).body.Reaches (log ++ ⟨.now, now⟩ :: later) c →
      (∀ t, ⟨.now, t⟩ ∉ log) → c.WritesStamps freshUntil staleUntil →
      Stamps cache ns key now (cache.durations none) freshUntil staleUntil

variable {cache : SwrCache ι} {ns key : String} {now freshUntil staleUntil : Int} {d : SetOptions}

theorem Task.IsFor.hands [LawfulSerdeJson ι] {task : Task ι} {log : Log ι} {c : Cmd ι}
    (isFor : task.IsFor cache ns key) (reaches : task.body.Reaches log c)
    (writes : c.WritesStamps freshUntil staleUntil) :
    ∃ first entry, task.Hands cache ns key first entry ∧ first <+: log ∧
    freshUntil = entry.freshUntil ∧
      staleUntil = entry.staleUntil := by
  rcases isFor.reaches SwrCache.looksUp_ofGet reaches with
    (reads | ⟨own, _⟩) | ⟨first, entry, stored, second, hands, made, rfl, sets⟩ | ⟨_, removes⟩
  · cases reads.2.symm.trans writes.isWrite
  · cases c <;> first | exact own.elim | exact writes.elim
  · have puts :=
      (Store.putsOnly encodes_converts cache.store ns key stored (storedEntry_encodes made)).reaches
        sets
    exact ⟨first, entry, hands, List.prefix_append _ _, puts.stamps writes⟩
  · have takes := (cache.store.remove_takes ns [key]).reaches removes
    cases c <;> first | exact takes.elim | exact writes.elim

omit [DecidableEq ι] in
theorem first_reading {before log later rest : Log ι} {t : Int} (unread : ∀ t, ⟨.now, t⟩ ∉ before)
    (unread' : ∀ t, ⟨.now, t⟩ ∉ log)
    (same : before ++ ⟨.now, t⟩ :: rest = log ++ ⟨.now, now⟩ :: later) : t = now := by
  rcases List.append_eq_append_iff.mp same with ⟨more, rfl, split⟩ | ⟨more, rfl, split⟩
  · cases more with
    | nil => cases split; rfl
    | cons e more => cases split; exact absurd (by simp) (unread' t)
  · cases more with
    | nil => cases split; rfl
    | cons e more => cases split; exact absurd (by simp) (unread now)

omit [DecidableEq ι] in
theorem SwrCache.renewalLog_reading {value : Val cache.ty} {log later rest : Log ι} {read : Int}
    (unread : ∀ t, ⟨.now, t⟩ ∉ log)
    (same : cache.renewalLog ns key value read ++ rest = log ++ ⟨.now, now⟩ :: later) :
    read = now := by
  have same' : [⟨.containsKey cache.revalidating (buildCacheKey ns key), false⟩,
      ⟨.insertMarker cache.revalidating (buildCacheKey ns key), ()⟩, ⟨.loadStart cache ns key, ()⟩,
      ⟨.loadEnd cache ns key, some value⟩] ++ ⟨.now, read⟩ :: rest = log ++ ⟨.now, now⟩ :: later :=
      same
  exact first_reading (by simp) unread same'

theorem SwrCache.Stamps.sums [LawfulSerdeJson ι]
    (stamps : cache.Stamps ns key now d freshUntil staleUntil) :
    freshUntil = addMs now d.freshMs ∧ staleUntil = addMs now d.staleMs := by
  cases stamps with
  | @set value opts later c _ _ reaches writes =>
      have isFor : (Task.set cache ns key value opts).IsFor cache ns key := ⟨rfl, rfl, rfl⟩
      obtain ⟨first, entry, hands, ⟨rest, split⟩, fresh, stale⟩ := isFor.hands reaches writes
      rw [fresh, stale]
      cases hands with
      | set read =>
          cases split
          exact ⟨rfl, rfl⟩
  | @cacheValue log value made till later c _ _ reaches caches writes =>
      have isFor : (Task.cacheValue cache ns key value made till).IsFor cache ns key :=
        ⟨rfl, rfl, rfl⟩
      obtain ⟨first, entry, hands, _, fresh, stale⟩ := isFor.hands caches writes
      rw [fresh, stale]
      cases hands
      rcases reaches.of_bind with within | ⟨_, _, _, _, _, onward⟩
      · rcases SwrCache.swr_reaches SwrCache.looksUp_ofGet within with reads | ⟨_, stamped⟩
        · exact reads.1.elim
        · obtain ⟨read, last, sums⟩ := stamped _ _ _ rfl
          rw [List.getLast?_concat] at last
          cases last
          exact sums
      · cases onward
  | @revalidate log later c _ _ reaches unread writes =>
      have isFor : (Task.revalidate cache ns key).IsFor cache ns key := ⟨rfl, rfl, rfl⟩
      obtain ⟨first, entry, hands, ⟨rest, split⟩, fresh, stale⟩ := isFor.hands reaches writes
      rw [fresh, stale]
      cases hands with
      | revalidate read =>
          obtain rfl := SwrCache.renewalLog_reading unread split
          exact ⟨rfl, rfl⟩

variable (ι) in
/-- The sums fit `i64`, no stamp lies before the clock or after a later one, and no
    shorter `stale_ms` gives a later `stale_until` at that moment. -/
structure SoundStamps (now : Int) (d : SetOptions) (freshUntil staleUntil : Int) : Prop where
  freshFits : minI64 ≤ now + d.freshMs ∧ now + d.freshMs ≤ maxI64
  staleFits : minI64 ≤ now + d.staleMs ∧ now + d.staleMs ≤ maxI64
  ordered : now ≤ freshUntil ∧ freshUntil ≤ staleUntil
  monotone : ∀ (cache : SwrCache ι) ns key d' freshUntil' staleUntil',
    cache.Stamps ns key now d' freshUntil' staleUntil' → 0 ≤ d'.staleMs → d'.staleMs ≤ d.staleMs →
      staleUntil' ≤ staleUntil

theorem SwrCache.Stamps.expired [LawfulSerdeJson ι]
    (stamps : cache.Stamps ns key now d freshUntil staleUntil) (clock : 0 ≤ now ∧ now < 2 ^ 53)
    (fits : d.staleMs ≤ maxI64) (beyond : maxI64 < now + d.staleMs) :
    staleUntil < now := by
  rw [stamps.sums.2]
  exact Int.lt_of_lt_of_le (addMs_wraps clock fits beyond) clock.1

/-- The stamps are sound if and only if the later one fits `i64`; else the entry has expired
    when it is made. -/
theorem stamps_sound_iff [LawfulSerdeJson ι]
    (stamps : cache.Stamps ns key now d freshUntil staleUntil) (clock : 0 ≤ now ∧ now < 2 ^ 53)
    (ordered : 0 ≤ d.freshMs ∧ d.freshMs ≤ d.staleMs) (fits : d.staleMs ≤ maxI64) :
    (SoundStamps ι now d freshUntil staleUntil ↔ now + d.staleMs ≤ maxI64) ∧
      (maxI64 < now + d.staleMs → staleUntil < now) := by
  refine ⟨⟨fun sound => sound.staleFits.2, fun high => ?_⟩, stamps.expired clock fits⟩
  have bounds : minI64 ≤ 0 := by decide
  have fresh : freshUntil = now + d.freshMs := by
    rw [stamps.sums.1]
    exact addMs_of_le clock ordered.1 (by omega)
  have stale : staleUntil = now + d.staleMs := by
    rw [stamps.sums.2]
    exact addMs_of_le clock (by omega) high
  constructor
  case freshFits => omega
  case staleFits => omega
  case ordered => omega
  case monotone =>
    intro cache' ns' key' d' freshUntil' staleUntil' stamps' nonneg shorter
    rw [stale, stamps'.sums.2, addMs_of_le clock nonneg (by omega)]
    omega

section Examples

def neverExpire : SwrCache Unit := .new () (.hashMap 0 none) maxI64 maxI64 0

theorem expired_at_birth :
    (∃ freshUntil staleUntil, neverExpire.Stamps "ns" "k" 1 ⟨maxI64, maxI64⟩ freshUntil staleUntil ∧
      ¬ SoundStamps Unit 1 ⟨maxI64, maxI64⟩ freshUntil staleUntil ∧ staleUntil < 1) ∧
    let written :=
    driver.runTask 0 (fun _ => reading 1) [] (.set neverExpire "ns" "k" true none) .empty
    written.1 = .done (.ok ()) ∧
      (driver.runTask 1 (fun _ => reading 1) [] (.get neverExpire "ns" "k") written.2.world).1 =
        .value () (.ok none) := by
  have reaches : (Task.set neverExpire "ns" "k" true none).body.Reaches [⟨.now, 1⟩] _ := .op .here
  have stamps : neverExpire.Stamps "ns" "k" 1 ⟨maxI64, maxI64⟩ _ _ := .set reaches ⟨rfl, rfl⟩
  refine ⟨⟨_, _, stamps, fun sound => ?_, by decide⟩, rfl, rfl⟩
  exact absurd sound.ordered.1 (by decide)

theorem stamps_sound_century : ∃ freshUntil staleUntil,
    neverExpire.Stamps "ns" "k" 1700000000000 ⟨60000, maxI64 - 1700000000000⟩
      freshUntil staleUntil ∧
    SoundStamps Unit 1700000000000 ⟨60000, maxI64 - 1700000000000⟩ freshUntil staleUntil := by
  have reaches :
      (Task.set neverExpire "ns" "k" true (some ⟨60000, maxI64 - 1700000000000⟩)).body.Reaches
        [⟨.now, 1700000000000⟩] _ := .op .here
  have stamps : neverExpire.Stamps "ns" "k" 1700000000000 ⟨60000, maxI64 - 1700000000000⟩ _ _ :=
    .set reaches ⟨rfl, rfl⟩
  exact ⟨_, _, stamps,
    (stamps_sound_iff stamps (by decide) (by decide) (by decide)).1.mpr (by decide)⟩

end Examples

end Stamping

/-! ## What is read from stamps -/

/-- What a wrapper reports of an entry is what the cache makes of it. -/
structure Agree {V : Type} (status : Option CacheEntryStatus) (result : GetResult V) : Prop where
  fresh : status = some .fresh ↔ result.revalidate = false
  stale : status = some .stale ↔ result.revalidate = true ∧ result.isExpired = false
  expired : status = none ↔ result.isExpired = true

theorem MetricsStore.get_reports {inner : Store} {sink : Nat} {ns key : String}
    {stored : StoredEntry ι} {look : Log ι} {t : Int} {metric : CacheMetric}
    (metered : (MetricsStore.get (inner.dyn ι) sink ns key).Yields
      (look ++ [⟨.now, t⟩, ⟨.emit sink metric, ()⟩]) (.ok (some stored))) :
    metric = .read key true (if t < stored.freshUntil then some .fresh
      else if t < stored.staleUntil then some .stale else none) (inner.dyn ι).name ns := by
  obtain ⟨first, result, second, answered, _, onward⟩ := Prog.yields_bind.mp metered
  rcases result with e | _ | entry
  · obtain ⟨_, _, _, ended⟩ := Prog.yields_op.mp onward
    cases ended
  · obtain ⟨_, _, _, ended⟩ := Prog.yields_op.mp onward
    cases ended
  · obtain ⟨now, _, rfl, emits⟩ := Prog.yields_op.mp onward
    obtain ⟨_, _, rfl, ended⟩ := Prog.yields_op.mp emits
    cases ended
    have tail := (List.append_inj' answered rfl).2
    simp only [List.cons.injEq, Sigma.mk.injEq, heq_eq_eq, true_and, Cmd.emit.injEq] at tail
    obtain ⟨rfl, ⟨⟨_, rfl⟩, _⟩, _⟩ := tail
    by_cases fresh : t < stored.freshUntil
    · simp [StoredEntry.isFresh, fresh]
    · simp [StoredEntry.isFresh, StoredEntry.isStale, fresh, Int.not_lt.mp fresh]

variable [DecidableEq ι]

theorem SwrCache.getInternal_judges [LawfulSerdeJson ι] {cache : SwrCache ι} {ns key : String}
    {entry : Entry (Val cache.ty)} {stored : StoredEntry ι} {look : Log ι} {t : Int}
    {result : GetResult (Val cache.ty)} (encodes : Encodes entry stored)
    (found : (cache.dyn.get ns key).Yields look (.ok (some stored)))
    (judged : (cache.getInternal ns key).Yields (look ++ [⟨.now, t⟩]) (.ok result)) :
    result = ⟨some entry.value, decide (entry.staleUntil ≤ t ∨ entry.freshUntil ≤ t),
      decide (entry.staleUntil ≤ t)⟩ := by
  obtain ⟨first, looked, second, answered, begun, onward⟩ := Prog.yields_bind.mp judged
  obtain ⟨rfl, rfl, rfl⟩ :=
    (Store.get_straight cache.store ns key).yields_unique found begun answered
  dsimp only at onward
  rw [encodes.intoTyped] at onward
  simp only [Ask.now_bind, Prog.yields_op, ge_iff_le] at onward
  obtain ⟨now, _, tail, ended⟩ := onward
  cases tail
  by_cases expired : entry.staleUntil ≤ t
  · rw [if_pos expired] at ended
    cases ended
    simp [expired]
  · rw [if_neg expired] at ended
    by_cases stale : entry.freshUntil ≤ t
    · rw [if_pos stale] at ended
      cases ended
      simp [expired, stale]
    · rw [if_neg stale] at ended
      cases ended
      simp [expired, stale]

/-- A wrapper and the cache that read the clock alike say the same of an entry unless it
    has expired while it still counts as fresh. -/
theorem status_agrees_iff [LawfulSerdeJson ι] {cache : SwrCache ι} {inner : Store} {sink : Nat}
    {ns key ns' key' : String} {entry : Entry (Val cache.ty)} {stored : StoredEntry ι}
    {look look' : Log ι} {t : Int} {status : Option CacheEntryStatus} {tier : String}
    {result : GetResult (Val cache.ty)} (encodes : Encodes entry stored)
    (metered : (MetricsStore.get (inner.dyn ι) sink ns' key').Yields
      (look' ++ [⟨.now, t⟩, ⟨.emit sink (.read key' true status tier ns'), ()⟩])
      (.ok (some stored)))
    (found : (cache.dyn.get ns key).Yields look (.ok (some stored)))
    (judged : (cache.getInternal ns key).Yields (look ++ [⟨.now, t⟩]) (.ok result)) :
    Agree status result ↔ ¬ (entry.staleUntil ≤ t ∧ t < entry.freshUntil) := by
  have reported := MetricsStore.get_reports metered
  rw [encodes.freshUntil, encodes.staleUntil] at reported
  obtain ⟨_, _, rfl, _, _⟩ := CacheMetric.read.inj reported
  obtain rfl := SwrCache.getInternal_judges encodes found judged
  by_cases fresh : t < entry.freshUntil
  · by_cases expired : entry.staleUntil ≤ t
    · refine iff_of_false (fun agree => ?_) (by simp [fresh, expired])
      simpa [fresh, expired] using agree.fresh
    · refine iff_of_true ?_ (by simp [expired])
      constructor <;> simp [fresh, expired, Int.not_le.mpr fresh]
  · refine iff_of_true ?_ (by simp [fresh])
    by_cases expired : entry.staleUntil ≤ t
    · constructor <;> simp [fresh, expired, Int.not_lt.mpr expired]
    · constructor <;> simp [fresh, expired, Int.not_le.mp expired, Int.not_lt.mp fresh]

section Examples

/-- An entry that `set_with_options` gives a longer fresh than stale time, in a store that keeps
    what has expired: the wrapper reports a fresh entry, the cache an expired one. -/
theorem fresh_and_expired :
    let cache : SwrCache Unit := .new () (.metrics (.redis 0 true) 0) 60000 300000 0
    let written :=
      (driver.runTask 0 (fun _ => reading 0) [] (.set cache "ns" "k" true (some ⟨100, 10⟩))
        .empty).2.world
    let read :=
      (cache.getInternal "ns" "k").run (driver.alone 1 fun _ => reading 50) ⟨written, [], []⟩ []
    (read.1.toOption.map fun result => (result.revalidate, result.isExpired)) = some (true, true) ∧
      read.2.1.world.metrics = [(0, .write "k" "redis" "ns"),
        (0, .read "k" true (some .fresh) "redis" "ns")] ∧
      ∀ result, read.1 = .ok result → ¬ Agree (some .fresh) result := by
  intro cache written read
  have judged : (read.1.toOption.map fun result => (result.revalidate, result.isExpired)) =
      some (true, true) := by
    decide +kernel
  refine ⟨judged, by decide +kernel, fun result same agree => ?_⟩
  have renewed : some (result.revalidate, result.isExpired) = some (true, true) := by
    rw [← judged, same]
    rfl
  simp only [Option.some.injEq, Prod.mk.injEq, agree.fresh.mp rfl, Bool.false_eq_true,
    false_and] at renewed

theorem status_agrees_stale : Agree (some .stale) (⟨some true, true, false⟩ : GetResult Bool) := by
  let cache : SwrCache Unit := .new () (.ext 0 "ext" .typed) 60000 300000 0
  let stored : StoredEntry Unit := .fromTypedWithSerializer () true 50 60
  have found : (cache.dyn.get "ns" "k").Yields [⟨.extGet 0 "ns" "k", .ok (some stored)⟩]
      (.ok (some stored)) :=
    .op .ret
  have metered : (MetricsStore.get ((Store.ext 0 "ext" .typed).dyn Unit) 0 "ns" "k").Yields
      ([⟨.extGet 0 "ns" "k", .ok (some stored)⟩] ++
        [⟨.now, 55⟩, ⟨.emit 0 (.read "k" true (some .stale) "ext" "ns"), ()⟩])
      (.ok (some stored)) :=
    .op (.op (.op .ret))
  have judged : (cache.getInternal "ns" "k").Yields
      ([⟨.extGet 0 "ns" "k", .ok (some stored)⟩] ++ [⟨.now, 55⟩]) (.ok ⟨some true, true, false⟩) :=
    .op (.op .ret)
  have encodes : Encodes (⟨true, 50, 60⟩ : Entry (Val cache.ty)) stored := .typed
  exact (status_agrees_iff encodes metered found judged).mpr (by decide)

end Examples

end Swr
