import Swr.Json
import Swr.TierContents

/-! # The cache refines the ideal one

Calls on a `Cache` over tiers that keep what they are given, one call after the other,
each followed by the tasks it has spawned.
-/

namespace Swr

open Async

variable {ι : Type} [SerdeJson ι]

/-! ## The ideal cache of a cache -/

/-- The cache stands over tiers that keep what they are given. -/
structure OverTiers (cache : SwrCache ι) (tiers : List Store) : Prop where
  store : cache.store = .tiered tiers
  some : tiers ≠ []
  plain : ∀ tier ∈ tiers, tier.isPlain = true

/-- What the cache is, seen from outside. -/
def SwrCache.ideal (self : SwrCache ι) (tiers : List Store) : Ideal :=
  ⟨self.freshMs, self.staleMs, tiers.any Store.keepsExpired⟩

/-- What `get_internal` makes of the entry it sees. -/
def GetResult.of {V : Type} (t : Int) : Option (Entry V) → GetResult V
  | none => ⟨none, false, false⟩
  | some e =>
      if t ≥ e.staleUntil then ⟨some e.value, true, true⟩
      else if t ≥ e.freshUntil then ⟨some e.value, true, false⟩
      else ⟨some e.value, false, false⟩

/-- The sum of a clock reading and a duration fits in `i64`. -/
def FitsI64 (t ms : Int) : Prop := minI64 ≤ t + ms ∧ t + ms ≤ maxI64

instance (t ms : Int) : Decidable (FitsI64 t ms) := inferInstanceAs (Decidable (_ ∧ _))

section Cache

variable [DecidableEq ι] {self : SwrCache ι} {tiers : List Store} {i : Nat} {t : Int}
  {origin : (i : ι) → Option (Val i)} {held : Option (Entry (Val self.ty))} {ns key : String}
  {a : Solo (system (ι := ι) .atomicMap)}

omit [DecidableEq ι] in
theorem OverTiers.dyn (stands : OverTiers self tiers) :
    self.dyn = TieredStore.dyn (Store.dynList ι tiers) := by
  simp [SwrCache.dyn, stands.store, Store.dyn]

omit [DecidableEq ι] in
theorem OverTiers.visible (stands : OverTiers self tiers) :
    shownBy tiers t held = (self.ideal tiers).visible t held := by
  have any (p : Bool) :
      tiers.any (fun tier => p || tier.keepsExpired) = (p || tiers.any Store.keepsExpired) := by
    cases p with
    | true =>
        obtain ⟨tier, rest, rfl⟩ := List.exists_cons_of_ne_nil stands.some
        simp
    | false => simp
  simp [shownBy, Ideal.visible, SwrCache.ideal, any]

variable [LawfulSerdeJson ι]

theorem store_get (stands : OverTiers self tiers)
    (fits : AllFit tiers t held (buildCacheKey ns key) a.world) :
    (self.dyn.get ns key).Ends (answers i t origin) (fun a' result => ∃ spawned,
      Refill tiers ns key held spawned ∧ After t held (buildCacheKey ns key) spawned [] a a' ∧
        Found ((self.ideal tiers).visible t held) result) a := by
  rw [stands.dyn, ← stands.visible]
  exact getFrom_ends stands.plain [] (List.forall_mem_nil _) (fun _ member => member) fits

theorem getInternal_ends (stands : OverTiers self tiers)
    (fits : AllFit tiers t held (buildCacheKey ns key) a.world) :
    (self.getInternal ns key).Ends (answers i t origin) (fun a' result => ∃ spawned,
      Refill tiers ns key held spawned ∧ After t held (buildCacheKey ns key) spawned [] a a' ∧
        result = .ok (.of t ((self.ideal tiers).visible t held))) a := by
  unfold SwrCache.getInternal
  refine Prog.Ends.bind ((store_get stands fits).mono ?_)
  rintro a' result ⟨spawned, refill, after, found⟩
  generalize (self.ideal tiers).visible t held = seen at found ⊢
  cases found with
  | nothing => exact Prog.ends_ret.mpr ⟨spawned, refill, after, rfl⟩
  | @entry e stored encodes =>
      simp only [encodes.intoTyped, Ask.now_bind, Prog.ends_op]
      have later :
          After t held (buildCacheKey ns key) spawned [] a (answers i t origin .now a').2 := by
        simpa using after.trans (After.command (c := .now) trivial)
      rw [answers_now]
      have same : (if t ≥ e.staleUntil then pure (.ok ⟨some e.value, true, true⟩)
          else if t ≥ e.freshUntil then pure (.ok ⟨some e.value, true, false⟩)
          else pure (.ok ⟨some e.value, false, false⟩) :
            Code ι (Except CacheError (GetResult (Val self.ty)))) =
              .ret (.ok (.of t (some e))) := by
        simp only [GetResult.of]
        split_ifs <;> rfl
      rw [same]
      exact Prog.ends_ret.mpr ⟨spawned, refill, later, rfl⟩

theorem get_ends (stands : OverTiers self tiers)
    (fits : AllFit tiers t held (buildCacheKey ns key) a.world) :
    (SwrCache.get self ns key).Ends (answers i t origin) (fun a' result => ∃ spawned,
      Refill tiers ns key held spawned ∧ After t held (buildCacheKey ns key) spawned [] a a' ∧
        result = .ok (((self.ideal tiers).visible t held).map Entry.value)) a := by
  unfold SwrCache.get
  refine Prog.Ends.bind ((getInternal_ends stands fits).mono ?_)
  rintro a' result ⟨spawned, refill, after, rfl⟩
  refine Prog.ends_ret.mpr ⟨spawned, refill, after, ?_⟩
  cases (self.ideal tiers).visible t held with
  | none => rfl
  | some e =>
      simp only [GetResult.of]
      split_ifs <;> rfl

/-- What the cache writes, all tiers have. -/
theorem store_set (stands : OverTiers self tiers) (e : Entry (Val self.ty)) : ∃ stored,
    SwrCache.storedEntry self.ty self.dyn.storageMode e.value e.freshUntil e.staleUntil =
      .ok stored ∧ ∀ (i : Nat) (t : Int) (origin : (i : ι) → Option (Val i)) (ns key : String)
        (a : Solo (system (ι := ι) .atomicMap)),
        (self.dyn.set ns key stored).Ends (answers i t origin) (fun a' result => result = .ok () ∧
          After t (some e) (buildCacheKey ns key) [] [] a a' ∧
          AllFit tiers t (some e) (buildCacheKey ns key) a'.world) a := by
  obtain ⟨stored, built, encodes⟩ := Encodes.of_storedEntry (e := e) self.dyn.storageMode
  refine ⟨stored, built, fun i t origin ns key a => ?_⟩
  rw [stands.dyn]
  exact tiers_set stands.plain encodes

theorem set_ends (stands : OverTiers self tiers) (value : Val self.ty) (opts : Option SetOptions)
    {freshMs staleMs : Int} (fresh : (opts.map SetOptions.freshMs).getD self.freshMs = freshMs)
    (stale : (opts.map SetOptions.staleMs).getD self.staleMs = staleMs)
    (fitsFresh : FitsI64 t freshMs) (fitsStale : FitsI64 t staleMs) :
    (self.set ns key value opts).Ends (answers i t origin) (fun a' result => result = .ok () ∧
      After t (some ⟨value, t + freshMs, t + staleMs⟩) (buildCacheKey ns key) [] [] a a' ∧
      AllFit tiers t (some (⟨value, t + freshMs, t + staleMs⟩ : Entry (Val self.ty)))
        (buildCacheKey ns key) a'.world) a := by
  simp only [SwrCache.set, fresh, stale, Ask.now_bind, Prog.ends_op]
  rw [answers_now, addMs_of_fits fitsFresh.1 fitsFresh.2, addMs_of_fits fitsStale.1 fitsStale.2]
  obtain ⟨stored, built, ends⟩ := store_set stands ⟨value, t + freshMs, t + staleMs⟩
  simp only [built]
  exact (ends i t origin ns key _).mono fun a' result ⟨good, after, fits⟩ =>
    ⟨good, (After.command (c := .now) trivial).onward after, fits⟩

omit [LawfulSerdeJson ι] in
theorem remove_ends (stands : OverTiers self tiers) :
    (SwrCache.remove self ns key).Ends (answers i t origin) (fun a' result => result = .ok () ∧
      After t (none : Option (Entry (Val self.ty))) (buildCacheKey ns key) [] [] a a' ∧
      AllFit tiers t (none : Option (Entry (Val self.ty))) (buildCacheKey ns key) a'.world) a := by
  unfold SwrCache.remove
  rw [stands.dyn]
  exact tiers_remove stands.plain

/-! ## Calling the origin -/

omit [LawfulSerdeJson ι] [DecidableEq ι] in
theorem fits_setMarker {w : World ι} {revalidating : Nat} {key' : String} {marker : Option Nat}
    {tier : Store} :
    tier.Fits t held key (w.setMarker revalidating key' marker) ↔ tier.Fits t held key w := by
  cases tier <;> rfl

omit [LawfulSerdeJson ι] in
/-- What happens between putting a marker and taking it away is all that happens. -/
theorem After.marked {cacheKey : String} {revalidating : Nat} {marker : Option Nat}
    {spawned : List (Task ι)} {started loaded : List (String × String)}
    {a' b b' : Solo (system (ι := ι) .atomicMap)}
    (unmarked : a.world.markers revalidating cacheKey = none)
      (before : b.world = a.world.setMarker revalidating cacheKey marker ∧ b.spawned = a.spawned ∧
      loads b.issued = loads a.issued ++ started)
    (between : After t held cacheKey spawned loaded b b')
    (after : a'.world = b'.world.setMarker revalidating cacheKey none ∧ a'.spawned = b'.spawned ∧
      loads a'.issued = loads b'.issued) :
      After t held cacheKey spawned (started ++ loaded) a a' := by
  obtain ⟨marked, spawnedBefore, loadedBefore⟩ := before
  obtain ⟨released, spawnedAfter, loadedAfter⟩ := after
  refine ⟨⟨fun map key other => ?_, fun server key other => ?_, ?_⟩, fun tier fits => ?_, ?_, ?_⟩
  · rw [released]
    exact (between.elsewhere.maps map key other).trans (by rw [marked]; rfl)
  · rw [released]
    exact (between.elsewhere.redis server key other).trans (by rw [marked]; rfl)
  · have inner : b'.world.markers = (a.world.setMarker revalidating cacheKey marker).markers :=
      between.elsewhere.markers.trans (by rw [marked])
    have whole := congrArg World.markers (World.unmark_marked marker unmarked)
    rw [released, ← whole]
    simp only [World.setMarker] at inner ⊢
    rw [inner]
  · rw [released, fits_setMarker]
    refine between.fits tier ?_
    rw [marked, fits_setMarker]
    exact fits
  · rw [spawnedAfter, between.spawned, spawnedBefore]
  · rw [loadedAfter, between.loaded, loadedBefore, List.append_assoc]

omit [LawfulSerdeJson ι] in
theorem markedLoad_ends (held : Option (Entry (Val self.ty)))
    (unmarked : a.world.markers self.revalidating (buildCacheKey ns key) = none) :
    (self.markedLoad ns key).Ends (answers i t origin) (fun a' result =>
      After t held (buildCacheKey ns key) [] [(ns, key)] a a' ∧
        result = .ok (origin self.ty)) a := by
  simp only [SwrCache.markedLoad, SwrCache.unmark, Ask.insertMarker_bind, Ask.loadStart_bind,
    Ask.loadEnd_bind, Ask.removeMarker_bind, Prog.ends_op]
  refine Prog.ends_ret.mpr ⟨?_, rfl⟩
  let marked := (answers i t origin (.insertMarker self.revalidating (buildCacheKey ns key)) a).2
  let loaded := (answers i t origin (.loadEnd self ns key)
    (answers i t origin (.loadStart self ns key) marked).2).2
  let final :=
    (answers i t origin (.removeMarker self.revalidating (buildCacheKey ns key)) loaded).2
  change After t held (buildCacheKey ns key) [] ([(ns, key)] ++ []) a final
  refine .marked (b := loaded) unmarked ⟨rfl, ?_, ?_⟩ .refl ⟨rfl, ?_, ?_⟩
  · simp [loaded, marked, Cmd.spawned]
  · simp [loaded, marked, Cmd.load]
  · simp [final, Cmd.spawned]
  · simp [final, Cmd.load]

omit [LawfulSerdeJson ι] in
/-- With no marker about, a load is a marked load. -/
theorem deduplicated_ends (held : Option (Entry (Val self.ty)))
    (unmarked : a.world.markers self.revalidating (buildCacheKey ns key) = none) :
    (self.deduplicatedLoadFromOrigin ns key).Ends (answers i t origin) (fun a' result =>
      After t held (buildCacheKey ns key) [] [(ns, key)] a a' ∧
        result = .ok (origin self.ty)) a := by
  simp only [SwrCache.deduplicatedLoadFromOrigin, Ask.containsKey_bind, Prog.ends_op]
  have free :
      (answers i t origin (.containsKey self.revalidating (buildCacheKey ns key)) a).1 = false := by
    simp [driver_alone, perform, unmarked]
  have asked : After t held (buildCacheKey ns key) [] [] a
      (answers i t origin (.containsKey self.revalidating (buildCacheKey ns key)) a).2 :=
    ⟨.refl, fun _ here => here, by simp [Cmd.spawned], by simp [Cmd.load]⟩
  simp only [free, Bool.false_eq_true, if_false]
  refine (markedLoad_ends (a :=
    (answers i t origin (.containsKey self.revalidating (buildCacheKey ns key)) a).2)
    held unmarked).mono fun a' result ended => ?_
  exact ⟨asked.trans ended.1, ended.2⟩

/-- The task that writes back what was loaded. -/
def writeBack (self : SwrCache ι) (t : Int) (ns key : String) (loaded : Option (Val self.ty)) :
    List (Task ι) :=
  match loaded with
  | some value => [.cacheValue self ns key value (t + self.freshMs) (t + self.staleMs)]
  | none => []

omit [LawfulSerdeJson ι] in
theorem cacheValue_ends (held : Option (Entry (Val self.ty))) (fitsFresh : FitsI64 t self.freshMs)
    (fitsStale : FitsI64 t self.staleMs) (value : Val self.ty) :
    (self.cacheValue ns key value).Ends (answers i t origin) (fun a' _ =>
      After t held (buildCacheKey ns key) (writeBack self t ns key (some value)) [] a a') a := by
  simp only [SwrCache.cacheValue, Ask.now_bind, Prog.ends_op]
  rw [answers_now, addMs_of_fits fitsFresh.1 fitsFresh.2, addMs_of_fits fitsStale.1 fitsStale.2]
  refine Prog.ends_op.mpr (Prog.ends_ret.mpr ?_)
  exact (After.command (c := .now) trivial).trans (.spawn _)

omit [LawfulSerdeJson ι] in
theorem loadOrFail_ends (held : Option (Entry (Val self.ty)))
    (unmarked : a.world.markers self.revalidating (buildCacheKey ns key) = none)
    (fitsFresh : FitsI64 t self.freshMs) (fitsStale : FitsI64 t self.staleMs) :
    (self.loadOrFail ns key).Ends (answers i t origin) (fun a' result =>
      After t held (buildCacheKey ns key) (writeBack self t ns key (origin self.ty))
        [(ns, key)] a a' ∧ result = .ok (origin self.ty)) a := by
  unfold SwrCache.loadOrFail
  refine Prog.Ends.bind ((deduplicated_ends held unmarked).mono ?_)
  rintro a' result ⟨after, rfl⟩
  generalize origin self.ty = loaded
  cases loaded with
  | none => exact Prog.ends_ret.mpr ⟨after, rfl⟩
  | some value =>
      refine Prog.Ends.bind ((cacheValue_ends held fitsFresh fitsStale value).mono
        fun a'' _ later => ?_)
      exact Prog.ends_ret.mpr ⟨after.trans later, rfl⟩

/-! ## What a call leaves to do -/

/-- Run in this order at time `t`, the tasks take the key from `held` to another entry
    and load these keys. -/
inductive Leads (cache : SwrCache ι) (tiers : List Store) (t : Int) (ns key : String)
    (loaded : Option (Val cache.ty)) : Option (Entry (Val cache.ty)) → List (Task ι) →
      Option (Entry (Val cache.ty)) → List (String × String) → Prop where
  | done : Leads cache tiers t ns key loaded old [] old []
  | backfill (lower : ∀ tier ∈ before, tier ∈ tiers) (encodes : Encodes e stored)
      (rest : Leads cache tiers t ns key loaded (some e) tasks new keys) :
      Leads cache tiers t ns key loaded (some e) (.backfill before ns key stored :: tasks) new keys
  | cacheValue (rest : Leads cache tiers t ns key loaded
      (some ⟨value, fresh, stale⟩) tasks new keys) : Leads cache tiers t ns key loaded old
        (.cacheValue cache ns key value fresh stale :: tasks) new keys
  | revalidate (fitsFresh : FitsI64 t cache.freshMs) (fitsStale : FitsI64 t cache.staleMs)
      (rest : Leads cache tiers t ns key loaded ((cache.ideal tiers).renewed t loaded old)
        tasks new keys) :
      Leads cache tiers t ns key loaded old (.revalidate cache ns key :: tasks) new
        ((ns, key) :: keys)

omit [DecidableEq ι] [LawfulSerdeJson ι] in
theorem Refill.leads {refill tasks : List (Task ι)} {loaded : Option (Val self.ty)}
    {held' : Option (Entry (Val self.ty))} {keys : List (String × String)}
    (refills : Refill tiers ns key held refill)
    (rest : Leads self tiers t ns key loaded held tasks held' keys) :
    Leads self tiers t ns key loaded held (refill ++ tasks) held' keys := by
  cases refills with
  | none => exact rest
  | some lower encodes => exact .backfill lower encodes rest

omit [DecidableEq ι] [LawfulSerdeJson ι] in
theorem Refill.leads_alone {refill : List (Task ι)} {loaded : Option (Val self.ty)}
    (refills : Refill tiers ns key held refill) :
    Leads self tiers t ns key loaded held refill held [] := by
  rw [← List.append_nil refill]
  exact refills.leads .done

omit [DecidableEq ι] [LawfulSerdeJson ι] in
theorem Refill.length_le {refill : List (Task ι)} (refills : Refill tiers ns key held refill) :
    refill.length ≤ 1 := by
  cases refills with
  | none => exact Nat.zero_le 1
  | some => exact Nat.le_refl 1

omit [DecidableEq ι] [LawfulSerdeJson ι] in
theorem writeBack_leads (loaded : Option (Val self.ty)) : Leads self tiers t ns key loaded held
    (writeBack self t ns key loaded) ((self.ideal tiers).renewed t loaded held) [] := by
  cases loaded with
  | none => exact .done
  | some value => exact .cacheValue .done

omit [DecidableEq ι] [LawfulSerdeJson ι] in
theorem writeBack_length_le (loaded : Option (Val self.ty)) :
    (writeBack self t ns key loaded).length ≤ 1 := by
  cases loaded with
  | none => exact Nat.zero_le 1
  | some => exact Nat.le_refl 1

/-- At the end of a call: the key holds `held'` and `keys` were loaded once what the call
    leaves to do is done. -/
def Completes (self : SwrCache ι) (tiers : List Store) (t : Int) (ns key : String)
    (loaded : Option (Val self.ty)) (held' : Option (Entry (Val self.ty)))
    (keys : List (String × String)) (a a' : Solo (system (ι := ι) .atomicMap)) : Prop :=
  ∃ held tasks now later, After t held (buildCacheKey ns key) tasks now a a' ∧
    AllFit tiers t held (buildCacheKey ns key) a'.world ∧
    Leads self tiers t ns key loaded held tasks held' later ∧ tasks.length ≤ 2 ∧ keys = now ++ later

omit [LawfulSerdeJson ι] in
/-- A call that leaves nothing to do. -/
theorem Completes.written {loaded : Option (Val self.ty)} {new : Option (Entry (Val self.ty))}
    {a' : Solo (system (ι := ι) .atomicMap)}
    (after : After t held (buildCacheKey ns key) [] [] a a')
    (fits : AllFit tiers t held (buildCacheKey ns key) a'.world) (same : new = held) :
    Completes self tiers t ns key loaded new [] a a' :=
  ⟨held, [], [], [], after, fits, same ▸ .done, Nat.zero_le 2, rfl⟩

theorem swr_ends (stands : OverTiers self tiers)
    (fits : AllFit tiers t held (buildCacheKey ns key) a.world)
    (unmarked : a.world.markers self.revalidating (buildCacheKey ns key) = none)
    (fitsFresh : FitsI64 t self.freshMs) (fitsStale : FitsI64 t self.staleMs) :
    let ideal := (self.ideal tiers).swr t (origin self.ty) held
    (self.swr ns key).Ends (answers i t origin) (fun a' result => result = .ok ideal.1 ∧
      Completes self tiers t ns key (origin self.ty) ideal.2.2
        (if ideal.2.1 then [(ns, key)] else []) a a') a := by
  unfold SwrCache.swr Ideal.swr
  refine Prog.Ends.bind ((getInternal_ends stands fits).mono ?_)
  rintro a' result ⟨refill, refills, after, rfl⟩
  have fitsNow : AllFit tiers t held (buildCacheKey ns key) a'.world :=
    fun tier member => after.fits tier (fits tier member)
  have unmarkedNow : a'.world.markers self.revalidating (buildCacheKey ns key) = none := by
    rw [after.elsewhere.markers]
    exact unmarked
  have few := refills.length_le
  have fewMore (loaded : Option (Val self.ty)) : (writeBack self t ns key loaded).length ≤ 1 :=
    writeBack_length_le loaded
  cases (self.ideal tiers).visible t held with
  | none =>
      refine (loadOrFail_ends held unmarkedNow fitsFresh fitsStale).mono ?_
      rintro a'' result ⟨later, rfl⟩
      refine ⟨rfl, held, _, _, [], after.trans later, fun tier member =>
        later.fits tier (fitsNow tier member), refills.leads (writeBack_leads _), ?_, rfl⟩
      have one := fewMore (origin self.ty)
      rw [List.length_append]
      omega
  | some e =>
      simp only [GetResult.of]
      split
      · refine Prog.Ends.bind ((deduplicated_ends held unmarkedNow).mono ?_)
        rintro a'' result ⟨later, rfl⟩
        have fitsLater : AllFit tiers t held (buildCacheKey ns key) a''.world :=
          fun tier member => later.fits tier (fitsNow tier member)
        generalize origin self.ty = loaded
        cases loaded with
        | none =>
            refine Prog.ends_ret.mpr ⟨rfl, held, refill, [(ns, key)], [], ?_, fitsLater,
              refills.leads_alone, by omega, rfl⟩
            simpa using after.trans later
        | some value =>
            refine Prog.Ends.bind ((cacheValue_ends held fitsFresh fitsStale value).mono
              fun a₃ _ last => ?_)
            refine Prog.ends_ret.mpr ⟨rfl, held, _, _, [], (after.trans later).trans last,
              fun tier member => last.fits tier (fitsLater tier member), ?_, ?_, rfl⟩
            · rw [List.append_nil]
              exact refills.leads (writeBack_leads _)
            · have one := fewMore (some value)
              simp only [List.append_nil, List.length_append]
              omega
      · split
        · refine Prog.ends_op.mpr (Prog.ends_ret.mpr ?_)
          refine ⟨rfl, held, _, _, [(ns, key)], after.trans (.spawn _), fitsNow,
            refills.leads (.revalidate fitsFresh fitsStale .done), ?_, rfl⟩
          rw [List.length_append, List.length_singleton]
          omega
        · exact Prog.ends_ret.mpr ⟨rfl, held, refill, [], [], after, fitsNow, refills.leads_alone,
            by omega, rfl⟩

/-! ## The tasks that are left -/

/-- A task that runs on its own takes the key from one entry to another. -/
def Task.Takes (task : Task ι) (tiers : List Store) (revalidating : Nat) (t : Int) {ty : ι}
    (old new : Option (Entry (Val ty))) (origin : (i : ι) → Option (Val i)) (ns key : String)
    (keys : List (String × String)) : Prop :=
  ∀ i a, AllFit tiers t old (buildCacheKey ns key) a.world →
    a.world.markers revalidating (buildCacheKey ns key) = none →
    task.body.Ends (answers i t origin)
      (fun a' _ => After t new (buildCacheKey ns key) [] keys a a' ∧
      AllFit tiers t new (buildCacheKey ns key) a'.world) a

theorem backfill_takes (stands : OverTiers self tiers) {lower : List Store}
    {e : Entry (Val self.ty)}
    {stored : StoredEntry ι} (lowerTiers : ∀ tier ∈ lower, tier ∈ tiers)
    (encodes : Encodes e stored) :
    (Task.backfill lower ns key stored).Takes tiers self.revalidating t (some e)
    (some e) origin ns key [] := by
  intro i a fits _
  have plain : ∀ tier ∈ lower, tier.isPlain = true :=
    fun tier member => stands.plain tier (lowerTiers tier member)
  refine Prog.Ends.bind ((backfill_ends plain encodes).mono fun a' _ after => ?_)
  exact Prog.ends_ret.mpr ⟨after, fun tier member => after.fits tier (fits tier member)⟩

theorem cacheValue_takes (stands : OverTiers self tiers) {value : Val self.ty}
    {freshUntil staleUntil : Int} :
    (Task.cacheValue self ns key value freshUntil staleUntil).Takes tiers self.revalidating t held
      (some ⟨value, freshUntil, staleUntil⟩) origin ns key [] := by
  intro i a _ _
  obtain ⟨stored, built, ends⟩ := store_set stands ⟨value, freshUntil, staleUntil⟩
  simp only [Task.body, SwrCache.cacheValueTask, built]
  refine Prog.Ends.bind (Prog.Ends.bind ((ends i t origin ns key a).mono fun a' _ written => ?_))
  exact Prog.ends_ret.mpr (Prog.ends_ret.mpr ⟨written.2.1, written.2.2⟩)

theorem revalidate_takes (stands : OverTiers self tiers) (fitsFresh : FitsI64 t self.freshMs)
    (fitsStale : FitsI64 t self.staleMs) :
    (Task.revalidate self ns key).Takes tiers self.revalidating t held
      ((self.ideal tiers).renewed t (origin self.ty) held) origin ns key [(ns, key)] := by
  intro i a fits unmarked
  let asked := (answers i t origin (.containsKey self.revalidating (buildCacheKey ns key)) a).2
  have free :
      (answers i t origin (.containsKey self.revalidating (buildCacheKey ns key)) a).1 = false := by
    simp [driver_alone, perform, unmarked]
  let marked :=
    (answers i t origin (.insertMarker self.revalidating (buildCacheKey ns key)) asked).2
  let loaded := (answers i t origin (.loadEnd self ns key)
    (answers i t origin (.loadStart self ns key) marked).2).2
  simp only [Task.body, SwrCache.revalidateTask, Ask.containsKey_bind, Prog.op_bind,
    Prog.ends_op, free, Bool.false_eq_true, if_false, Ask.insertMarker_bind, Ask.loadStart_bind,
    Ask.loadEnd_bind, answers_loadEnd]
  change Prog.Ends _ _ _ loaded
  have before : loaded.world = a.world.setMarker self.revalidating (buildCacheKey ns key) (some i) ∧
      loaded.spawned = a.spawned ∧ loads loaded.issued = loads a.issued ++ [(ns, key)] := by
    refine ⟨rfl, ?_, ?_⟩
    · simp [loaded, marked, asked, Cmd.spawned]
    · simp [loaded, marked, asked, Cmd.load]
  have released (new : Option (Entry (Val self.ty))) (b : Solo (system (ι := ι) .atomicMap))
      (between : After t new (buildCacheKey ns key) [] [] loaded b) :
      After t new (buildCacheKey ns key) [] ([(ns, key)] ++ []) a
        (answers i t origin (.removeMarker self.revalidating (buildCacheKey ns key)) b).2 :=
    .marked unmarked before between ⟨rfl, by simp [Cmd.spawned], by simp [Cmd.load]⟩
  have fitsAfter (new : Option (Entry (Val self.ty))) (b : Solo (system (ι := ι) .atomicMap))
      (fits : AllFit tiers t new (buildCacheKey ns key) b.world) :
      AllFit tiers t new (buildCacheKey ns key)
        (answers i t origin (.removeMarker self.revalidating (buildCacheKey ns key)) b).2.world :=
    fun tier member => fits_setMarker.mpr (fits tier member)
  refine Prog.Ends.bind ?_
  cases origin self.ty with
  | none =>
      refine Prog.ends_op.mpr (Prog.ends_ret.mpr (Prog.ends_ret.mpr ⟨released _ _ .refl, ?_⟩))
      exact fitsAfter held loaded fun tier member => fits_setMarker.mpr (fits tier member)
  | some value =>
      obtain ⟨stored, built, ends⟩ := store_set stands ⟨value, t + self.freshMs, t + self.staleMs⟩
      simp only [Ask.now_bind, Prog.ends_op, answers_now, addMs_of_fits fitsFresh.1 fitsFresh.2,
        addMs_of_fits fitsStale.1 fitsStale.2, built]
      refine Prog.Ends.bind ((ends i t origin ns key _).mono fun b _ written => ?_)
      refine Prog.ends_op.mpr
        (Prog.ends_ret.mpr (Prog.ends_ret.mpr ⟨released _ _ ?_, fitsAfter _ _ written.2.2⟩))
      exact (After.command (c := .now) trivial).onward written.2.1

/-- The first of the tasks that are left. -/
theorem Leads.takes (stands : OverTiers self tiers) {task : Task ι} {tasks : List (Task ι)}
    {new : Option (Entry (Val self.ty))} {keys : List (String × String)}
    (leads : Leads self tiers t ns key (origin self.ty) held (task :: tasks) new keys) :
    ∃ mid first rest,
      task.Takes tiers self.revalidating t held mid origin ns key first ∧
        Leads self tiers t ns key (origin self.ty) mid tasks new rest ∧ keys = first ++ rest := by
  cases leads with
  | backfill lower encodes rest => exact ⟨_, _, _, backfill_takes stands lower encodes, rest, rfl⟩
  | cacheValue rest => exact ⟨_, _, _, cacheValue_takes stands, rest, rfl⟩
  | revalidate fitsFresh fitsStale rest =>
      exact ⟨_, _, _, revalidate_takes stands fitsFresh fitsStale, rest, rfl⟩

end Cache

/-! ## Rounds -/

section Rounds

variable [DecidableEq ι]

/-- One call at one reading of the clock. What it spawns is drained after it, in any order. -/
structure Round (cache : Cache ι) where
  call : Call cache.V
  time : Int
  /-- What `load_from_origin` returns. -/
  origin : (i : ι) → Option (Val i)
  coins : List Bool
  /-- The pending task that is run next, and its coins. -/
  drain : List (Nat × List Bool)

namespace Round

variable {cache : Cache ι}

def drainTurns (r : Round cache) :
    List (Turn (system (ι := ι) .atomicMap) (Int × ((i : ι) → Option (Val i))) Unit) :=
  r.drain.map fun (n, coins) => ⟨(), .resume n, fun _ => (r.time, r.origin), coins⟩

def turns (r : Round cache) :
    List (Turn (system (ι := ι) .atomicMap) (Int × ((i : ι) → Option (Val i))) Unit) :=
  ⟨(), .call (cache.task r.call), fun _ => (r.time, r.origin), r.coins⟩ :: r.drainTurns

/-- The keys for which a turn called the origin. -/
def loadedBy (answer : Unit × Option (Out ι × List (Cmd ι))) : List (String × String) :=
  (answer.2.map (fun done => loads done.2)).getD []

/-- Play a round: what the call returns, and the keys for which the origin was called. -/
def play (r : Round cache) (s : Session (system (ι := ι) .atomicMap) Unit) :
    (Option (Out ι) × List (String × String)) × Session (system (ι := ι) .atomicMap) Unit :=
  let done := driver.session r.turns s
  (((done.1.head?.bind Prod.snd).map Prod.fst, done.1.flatMap loadedBy), done.2)

/-- The durations that the call adds to the clock. -/
def durations (r : Round cache) : List Int :=
  match r.call with
  | .set .. | .swr _ => [cache.swrCache.freshMs, cache.swrCache.staleMs]
  | .setWithOptions _ _ freshMs staleMs => [freshMs, staleMs]
  | .get _ | .remove _ => []

/-- No stamp overflows. -/
def Stamped (r : Round cache) : Prop := ∀ ms ∈ r.durations, FitsI64 r.time ms

instance (r : Round cache) : Decidable r.Stamped := inferInstanceAs (Decidable (∀ _ ∈ _, _))

/-- The tasks that were spawned are run in the order in which they were spawned. A call
    leaves at most two. -/
def InOrder (r : Round cache) : Prop := 2 ≤ r.drain.length ∧ ∀ next ∈ r.drain, next.1 = 0

instance (r : Round cache) : Decidable r.InOrder := inferInstanceAs (Decidable (_ ∧ ∀ _ ∈ _, _))

end Round

section Drain

variable [LawfulSerdeJson ι] {self : SwrCache ι} {tiers : List Store} {t : Int}
  {origin : (i : ι) → Option (Val i)} {ns key : String}
  {s : Session (system (ι := ι) .atomicMap) Unit}

omit [LawfulSerdeJson ι] in
/-- What the code of a task ends in, running the task ends in. -/
theorem runTask_ends {task : Task ι} {i : Nat} {w : World ι}
    {post : Solo (system (ι := ι) .atomicMap) → Out ι → Prop}
    (ends : task.body.Ends (answers i t origin) post ⟨w, [], []⟩) (coins : List Bool) :
    post (driver.runTask i (fun _ => (t, origin)) coins task w).2
      (driver.runTask i (fun _ => (t, origin)) coins task w).1 :=
  ends.run coins

omit [LawfulSerdeJson ι] in
/-- Running the first of the pending tasks. -/
theorem resume_first {task : Task ι} {i : Nat} {rest : List (Task ι × Nat)}
    {old new : Option (Entry (Val self.ty))} {keys : List (String × String)} (coins : List Bool)
    (pending : s.pending () = (task, i) :: rest)
    (takes : task.Takes tiers self.revalidating t old new origin ns key keys)
    (fits : AllFit tiers t old (buildCacheKey ns key) s.world)
    (unmarked : s.world.markers self.revalidating (buildCacheKey ns key) = none) :
    let done := driver.turn ⟨(), .resume 0, fun _ => (t, origin), coins⟩ s
    done.2.pending () = rest ∧ AllFit tiers t new (buildCacheKey ns key) done.2.world ∧
      Elsewhere (buildCacheKey ns key) s.world done.2.world ∧
      Round.loadedBy ((), done.1) = keys := by
  obtain ⟨after, fitsAfter⟩ := runTask_ends (takes i ⟨s.world, [], []⟩ fits unmarked) coins
  simp only [Driver.turn, Session.pick, pending, List.getElem?_cons_zero, List.eraseIdx_cons_zero]
  refine ⟨?_, fitsAfter, after.elsewhere, ?_⟩
  · simp [Session.leave, after.spawned]
  · simp only [Round.loadedBy, Option.map_some, Option.getD_some, after.loaded]
    rfl

/-- Once all pending tasks have run in their order, the key holds what they lead to. -/
theorem drain_leads (stands : OverTiers self tiers) {drain : List (Nat × List Bool)}
    {tasks : List (Task ι)} {new : Option (Entry (Val self.ty))}
    {held : Option (Entry (Val self.ty))} {keys : List (String × String)}
    (first : ∀ next ∈ drain, next.1 = 0) (enough : tasks.length ≤ drain.length)
    (leads : Leads self tiers t ns key (origin self.ty) held tasks new keys)
    (pending : (s.pending ()).map Prod.fst = tasks)
    (fits : AllFit tiers t held (buildCacheKey ns key) s.world)
    (unmarked : s.world.markers self.revalidating (buildCacheKey ns key) = none) :
    let done :=
    driver.session (drain.map fun (n, coins) => ⟨(), .resume n, fun _ => (t, origin), coins⟩) s
    done.2.pending () = [] ∧ AllFit tiers t new (buildCacheKey ns key) done.2.world ∧
      Elsewhere (buildCacheKey ns key) s.world done.2.world ∧
      done.1.flatMap Round.loadedBy = keys := by
  induction drain generalizing s tasks held keys with
  | nil =>
      obtain rfl : tasks = [] := List.length_eq_zero_iff.mp (Nat.le_zero.mp enough)
      cases leads
      exact ⟨List.map_eq_nil_iff.mp pending, fits, .refl, rfl⟩
  | cons next drain ih =>
      obtain ⟨n, coins⟩ := next
      obtain ⟨rfl, others⟩ := List.forall_mem_cons.mp first
      cases tasks with
      | nil =>
          have none : s.pending () = [] := List.map_eq_nil_iff.mp pending
          have same : driver.turn ⟨(), .resume 0, fun _ => (t, origin), coins⟩ s =
              (Option.none, s) := by
            simp [Driver.turn, Session.pick, none]
          have rest := ih others (Nat.zero_le _) leads pending fits unmarked
          simp only [List.map_cons, Driver.session, same]
          exact rest
      | cons task tasks =>
          obtain ⟨⟨_, i⟩, rest, here, rfl, left⟩ := List.map_eq_cons_iff.mp pending
          obtain ⟨mid, now, later, takes, leadsOn, rfl⟩ := leads.takes stands
          obtain ⟨pendingNow, fitsNow, elsewhere, loaded⟩ :=
            resume_first coins here takes fits unmarked
          have unmarkedNow :
              (driver.turn ⟨(), .resume 0, fun _ => (t, origin), coins⟩ s).2.world.markers
              self.revalidating (buildCacheKey ns key) = none := by
            rw [elsewhere.markers]
            exact unmarked
          obtain ⟨drained, fitsLater, onward, loadedLater⟩ :=
            ih others (Nat.le_of_succ_le_succ enough) leadsOn
              (by rw [pendingNow]; exact left) fitsNow unmarkedNow
          refine ⟨drained, fitsLater, elsewhere.trans onward, ?_⟩
          exact congrArg₂ (· ++ ·) loaded loadedLater

end Drain

/-! ## Calls -/

/-- The key that a call is about. -/
def Call.key {V : Type} : Call V → String
  | .get key | .set key _ | .setWithOptions key _ _ _ | .remove key | .swr key => key

/-- An ideal answer, as the cache gives it. -/
def Ideal.Answer.out {ty : ι} : Ideal.Answer (Val ty) → Out ι
  | .value found => .value ty (.ok found)
  | .done => .done (.ok ())

/-- Calls leave other keys alone. -/
theorem Ideal.step_other {V : Type} {ideal : Ideal} {t : Int} {loaded : Option V}
    {m : String → Option (Entry V)} {call : Call V} {key : String} (other : key ≠ call.key) :
    (ideal.step t loaded m call).2 key = m key := by
  cases call with
  | get => rfl
  | set | setWithOptions | remove | swr => exact Function.update_of_ne other _ _

variable [LawfulSerdeJson ι] {cache : Cache ι} {tiers : List Store} {i : Nat}
  {m : String → Option (Entry cache.V)} {a : Solo (system (ι := ι) .atomicMap)}

theorem task_ends (stands : OverTiers cache.swrCache tiers) {r : Round cache} (stamped : r.Stamped)
    (fits : AllFit tiers r.time (m r.call.key) (buildCacheKey cache.ns r.call.key) a.world)
    (unmarked : a.world.markers cache.swrCache.revalidating (buildCacheKey cache.ns r.call.key) =
      none) :
    let ideal := (cache.swrCache.ideal tiers).step r.time (r.origin cache.swrCache.ty) m r.call
    (cache.task r.call).body.Ends (answers i r.time r.origin) (fun a' out => out = ideal.1.1.out ∧
      Completes cache.swrCache tiers r.time cache.ns r.call.key (r.origin cache.swrCache.ty)
        (ideal.2 r.call.key) (ideal.1.2.map (cache.ns, ·)) a a') a := by
  obtain ⟨call, t, origin, coins, drain⟩ := r
  cases call with
  | get key =>
      refine Prog.Ends.bind ((get_ends stands fits).mono ?_)
      rintro a' result ⟨refill, refills, after, rfl⟩
      have few := refills.length_le
      exact Prog.ends_ret.mpr ⟨rfl, m key, refill, [], [], after,
        fun tier member => after.fits tier (fits tier member), refills.leads_alone, by omega, rfl⟩
  | set key value =>
      have fitsFresh := stamped cache.swrCache.freshMs (by simp [Round.durations])
      have fitsStale := stamped cache.swrCache.staleMs (by simp [Round.durations])
      refine Prog.Ends.bind ((set_ends stands value none rfl rfl fitsFresh fitsStale).mono ?_)
      rintro a' result ⟨rfl, after, fitsAfter⟩
      exact Prog.ends_ret.mpr ⟨rfl, .written after fitsAfter (Function.update_self ..)⟩
  | setWithOptions key value freshMs staleMs =>
      have fitsFresh := stamped freshMs (by simp [Round.durations])
      have fitsStale := stamped staleMs (by simp [Round.durations])
      refine Prog.Ends.bind
        ((set_ends stands value (some ⟨freshMs, staleMs⟩) rfl rfl fitsFresh fitsStale).mono ?_)
      rintro a' result ⟨rfl, after, fitsAfter⟩
      exact Prog.ends_ret.mpr ⟨rfl, .written after fitsAfter (Function.update_self ..)⟩
  | remove key =>
      refine Prog.Ends.bind ((remove_ends stands).mono ?_)
      rintro a' result ⟨rfl, after, fitsAfter⟩
      exact Prog.ends_ret.mpr ⟨rfl, .written after fitsAfter (Function.update_self ..)⟩
  | swr key =>
      have fitsFresh := stamped cache.swrCache.freshMs (by simp [Round.durations])
      have fitsStale := stamped cache.swrCache.staleMs (by simp [Round.durations])
      refine Prog.Ends.bind ((swr_ends stands fits unmarked fitsFresh fitsStale).mono ?_)
      rintro a' result ⟨rfl, completes⟩
      refine Prog.ends_ret.mpr ⟨rfl, ?_⟩
      simp only [Ideal.step, Call.key, Function.update_self]
      rw [apply_ite (List.map _)]
      exact completes

/-- The tiers hold what the ideal cache holds, and nothing is going on. -/
structure Stands (cache : Cache ι) (tiers : List Store) (t : Int)
    (m : String → Option (Entry cache.V))
    (s : Session (system (ι := ι) .atomicMap) Unit) : Prop where
  fits : ∀ key, AllFit tiers t (m key) (buildCacheKey cache.ns key) s.world
  unmarked : ∀ key, s.world.markers cache.swrCache.revalidating (buildCacheKey cache.ns key) = none
  drained : s.pending () = []

/-- A round of the cache is a step of the ideal cache. -/
theorem round_refines (stands : OverTiers cache.swrCache tiers)
    {s : Session (system (ι := ι) .atomicMap) Unit} {r : Round cache} {now : Int}
    (held : Stands cache tiers now m s) (later : now ≤ r.time) (stamped : r.Stamped)
    (inOrder : r.InOrder) :
    let ideal := (cache.swrCache.ideal tiers).step r.time (r.origin cache.swrCache.ty) m r.call
    (r.play s).1 = (some ideal.1.1.out, ideal.1.2.map (cache.ns, ·)) ∧
      Stands cache tiers r.time ideal.2 (r.play s).2 := by
  intro ideal
  have fits (key : String) : AllFit tiers r.time (m key) (buildCacheKey cache.ns key) s.world :=
    fun tier member => (held.fits key tier member).later later
  obtain ⟨out, middle, tasks, before, after, happened, fitsCalled, leads, few, keys⟩ :=
    runTask_ends (task_ends stands (m := m) (i := s.started) (a := ⟨s.world, [], []⟩) stamped
      (fits r.call.key) (held.unmarked _)) r.coins
  let called := driver.turn ⟨(), .call (cache.task r.call), fun _ => (r.time, r.origin), r.coins⟩ s
  let solo :=
    (driver.runTask s.started (fun _ => (r.time, r.origin)) r.coins (cache.task r.call) s.world).2
  have pending : (called.2.pending ()).map Prod.fst = tasks := by
    have left : called.2.pending () = s.pending () ++ solo.spawned.zipIdx (s.started + 1) := rfl
    rw [left, held.drained, happened.spawned]
    simp
  have unmarked : called.2.world.markers cache.swrCache.revalidating
      (buildCacheKey cache.ns r.call.key) = none := by
    have same : called.2.world.markers = s.world.markers := happened.elsewhere.markers
    rw [same]
    exact held.unmarked _
  obtain ⟨drained, fitsDrained, elsewhere, loadedLater⟩ :=
    drain_leads stands (s := called.2) inOrder.2 (Nat.le_trans few inOrder.1) leads pending
      fitsCalled unmarked
  have loaded : Round.loadedBy ((), called.1) = before := happened.loaded
  have whole : Elsewhere (buildCacheKey cache.ns r.call.key) s.world (r.play s).2.world :=
    happened.elsewhere.trans elsewhere
  refine ⟨Prod.ext (congrArg some out) ?_, fun key => ?_, fun key => ?_, drained⟩
  · rw [keys]
    exact congrArg₂ (· ++ ·) loaded loadedLater
  · by_cases here : key = r.call.key
    · subst here
      exact fitsDrained
    · have other : buildCacheKey cache.ns key ≠ buildCacheKey cache.ns r.call.key :=
        fun same => here (buildCacheKey_inj.mp same)
      intro tier member
      have same : ideal.2 key = m key := Ideal.step_other here
      rw [same]
      exact whole.fits other (fits key tier member)
  · rw [whole.markers]
    exact held.unmarked key

/-- What the ideal cache does in a round, as the cache shows it. -/
def Round.ideal (cache : Cache ι) (tiers : List Store) (r : Round cache)
    (m : String → Option (Entry cache.V)) :
    (Option (Out ι) × List (String × String)) × (String → Option (Entry cache.V)) :=
  let done := (cache.swrCache.ideal tiers).step r.time (r.origin cache.swrCache.ty) m r.call
  ((some done.1.1.out, done.1.2.map (cache.ns, ·)), done.2)

theorem replay_refines (stands : OverTiers cache.swrCache tiers)
    {rounds : List (Round cache)} {now : Int} {s : Session (system (ι := ι) .atomicMap) Unit}
    (held : Stands cache tiers now m s) (later : ∀ r ∈ rounds, now ≤ r.time)
    (clock : (rounds.map Round.time).Pairwise (· ≤ ·)) (stamped : ∀ r ∈ rounds, r.Stamped)
    (inOrder : ∀ r ∈ rounds, r.InOrder) :
    (replay Round.play rounds s).1 = (replay (Round.ideal cache tiers) rounds m).1 ∧
      ∃ now, Stands cache tiers now (replay (Round.ideal cache tiers) rounds m).2
        (replay Round.play rounds s).2 := by
  induction rounds generalizing now m s with
  | nil => exact ⟨rfl, now, held⟩
  | cons r rounds ih =>
      obtain ⟨lateHere, _⟩ := List.forall_mem_cons.mp later
      obtain ⟨stampedHere, stampedLater⟩ := List.forall_mem_cons.mp stamped
      obtain ⟨inOrderHere, inOrderLater⟩ := List.forall_mem_cons.mp inOrder
      obtain ⟨afterHere, clockLater⟩ := List.pairwise_cons.mp clock
      obtain ⟨shown, heldNext⟩ := round_refines stands held lateHere stampedHere inOrderHere
      obtain ⟨rest, reached⟩ := ih heldNext
        (fun next member => afterHere next.time (List.mem_map_of_mem member)) clockLater
          stampedLater inOrderLater
      exact ⟨congrArg₂ List.cons shown rest, reached⟩

omit [LawfulSerdeJson ι] in
/-- An empty world stands for the empty ideal cache. -/
theorem stands_empty (plain : ∀ tier ∈ tiers, tier.isPlain = true) (t : Int) :
    Stands cache tiers t (fun _ => none) (.idle .empty) where
  fits key tier member := by
    rcases Store.isPlain_cases (plain tier member) with ⟨id, rfl⟩ | ⟨server, rfl⟩
    · exact .absent
    · exact .absent
  unmarked _ := rfl
  drained := rfl

/-- Round after round, a cache over in-memory tiers without eviction and Redis tiers
    without expiration returns what the ideal cache returns and calls the origin when the
    ideal cache does, if the tasks that a call spawns are run in the order in which they
    were spawned; and nothing is ever left to do. A Moka cache among the tiers is taken to
    evict nothing by itself. -/
theorem cache_refines (ty : ι) (ns : String) (tiers : List Store) (freshMs staleMs : Int)
    (revalidating : Nat) (some : tiers ≠ []) (plain : ∀ tier ∈ tiers, tier.isPlain = true)
    (rounds : List (Round (Cache.new ty ns tiers freshMs staleMs revalidating)))
    (clock : (rounds.map Round.time).Pairwise (· ≤ ·)) (stamped : ∀ r ∈ rounds, r.Stamped)
    (inOrder : ∀ r ∈ rounds, r.InOrder) :
    let done := replay Round.play rounds (.idle .empty)
    done.1 = (replay (Round.ideal _ tiers) rounds (fun _ => none)).1 ∧ done.2.pending () = [] := by
  have early : ∃ now, ∀ r ∈ rounds, now ≤ r.time := by
    cases rounds with
    | nil => exact ⟨0, List.forall_mem_nil _⟩
    | cons r rounds =>
        refine ⟨r.time, List.forall_mem_cons.mpr ⟨Int.le_refl _, fun next member => ?_⟩⟩
        exact (List.pairwise_cons.mp clock).1 next.time (List.mem_map_of_mem member)
  obtain ⟨now, later⟩ := early
  have stands : OverTiers (Cache.new ty ns tiers freshMs staleMs revalidating).swrCache tiers :=
    ⟨rfl, some, plain⟩
  obtain ⟨same, _, reached⟩ :=
    replay_refines stands (stands_empty plain now) later clock stamped inOrder
  exact ⟨same, reached.drained⟩

end Rounds

/-! ## Two orders of draining -/

attribute [local semireducible] Json.valueKey Json.freshKey Json.staleKey Json.closing

/-- A key that is set, renewed once expired and once stale, and read, where the tasks
    left by each call are resumed in the given order. -/
def renewals (first second : Nat) :
    List (Round (Cache.new () "ns" [.hashMap 0 none, .redis 0 true] 10 20 0)) :=
  let drain := [(first, []), (second, [])]
  [⟨.set "k" true, 0, fun _ => none, [], drain⟩, ⟨.swr "k", 30, fun _ => some false, [], drain⟩,
    ⟨.swr "k", 45, fun _ => some true, [], drain⟩, ⟨.get "k", 46, fun _ => none, [], drain⟩]

theorem cache_refines_renewals :
    let done := replay Round.play (renewals 0 0) (.idle .empty)
    done.1 = (replay (Round.ideal _ [.hashMap 0 none, .redis 0 true]) (renewals 0 0)
      (fun _ => none)).1 ∧ done.2.pending () = [] :=
  cache_refines () "ns" [.hashMap 0 none, .redis 0 true] 10 20 0 (by decide) (by decide)
    (renewals 0 0) (by decide) (by decide) (by decide)

/-- The write of what was loaded comes before the back-fill of the expired entry, and the
    write of the revalidation before the back-fill of the stale one: the value that was
    replaced is read. -/
theorem disordered_drain :
    ((renewals 1 0).map Round.time).Pairwise (· ≤ ·) ∧ (∀ r ∈ renewals 1 0, r.Stamped) ∧
      ((renewals 1 0).inits.all fun before =>
        ((replay Round.play before (.idle .empty)).2.pending ()).isEmpty) = true ∧
      (replay Round.play (renewals 1 0) (.idle .empty)).1.getLast? =
        some (some (.value () (.ok (some false))), []) ∧
      (replay (Round.ideal _ [.hashMap 0 none, .redis 0 true]) (renewals 1 0)
        (fun _ => none)).1.getLast? = some (some (.value () (.ok (some true))), []) :=
  ⟨by decide, by decide, by rfl, by rfl, by rfl⟩

end Swr
