import Swr.Async.Shuffle
import Swr.TierWrites

/-! # Looking an entry up in the tiers

The tiers are asked in order until one has the entry. The back-fill that is left behind
then gives it to the tiers before that one, each in its own form.
-/

namespace Swr

open Async

variable {ι : Type} [SerdeJson ι]

/-! ## The search -/

/-- Asked one after the other, none of the tiers has the key. -/
inductive Misses (ns key : String) : List Store → Log ι → Prop where
  | nil : Misses ns key [] []
  | cons : ((tier.dyn ι).get ns key).Yields first (.ok none) → Misses ns key rest later →
      Misses ns key (tier :: rest) (first ++ later)

/-- The tiers before the first one that has the key, and what that one returns. -/
structure Search (tiers : List Store) (ns key : String) (log : Log ι) (lower : List Store)
    (tier : Store) (higher : List Store) (result : Except CacheError (Option (StoredEntry ι)))
    (rest : Log ι) : Prop where
  split : tiers = lower ++ tier :: higher
  misses : ∃ missed found, Misses ns key lower missed ∧
    ((tier.dyn ι).get ns key).Yields found result ∧ log = missed ++ found ++ rest

/-- What a look-up does with a hit behind the tiers `lower`. -/
def backfills (lower : List Store) (ns key : String) (entry : StoredEntry ι) : Log ι :=
  match lower with
  | [] => []
  | _ => [⟨.spawn (.backfill lower ns key entry), ()⟩]

theorem Search.later {tier : Store} {first log : Log ι} {ns key : String}
    {tiers lower higher : List Store} {at_hit : Store}
    {result : Except CacheError (Option (StoredEntry ι))} {rest : Log ι}
    (misses : ((tier.dyn ι).get ns key).Yields first (.ok none))
    (search : Search tiers ns key log lower at_hit higher result rest) :
    Search (tier :: tiers) ns key (first ++ log) (tier :: lower) at_hit higher result rest := by
  obtain ⟨rfl, missed, found, before, hit, rfl⟩ := search
  exact ⟨rfl, first ++ missed, found, .cons misses before, hit, by simp⟩

/-- The three ways in which a search ends. -/
theorem getFrom_search (before : List Store) {tiers : List Store} {ns key : String} {log : Log ι}
    {result : Except CacheError (Option (StoredEntry ι))}
    (yields : (TieredStore.getFrom (Store.dynList ι before) (Store.dynList ι tiers) ns key).Yields
      log result) :
    (result = .ok none ∧ Misses ns key tiers log) ∨
    (∃ e lower tier higher, result = .error e ∧
      Search tiers ns key log lower tier higher (.error e) []) ∨
    ∃ entry lower tier higher, result = .ok (some entry) ∧
      Search tiers ns key log lower tier higher (.ok (some entry))
        (backfills (before ++ lower) ns key entry) := by
  induction tiers generalizing before log with
  | nil =>
      obtain ⟨rfl, rfl⟩ := Prog.yields_ret.mp yields
      exact .inl ⟨rfl, .nil⟩
  | cons tier rest ih =>
      obtain ⟨first, answer, later, rfl, asked, onward⟩ := Prog.yields_bind.mp yields
      rcases answer with e | _ | entry
      · obtain ⟨rfl, rfl⟩ := Prog.yields_ret.mp onward
        exact .inr (.inl ⟨e, [], tier, rest, rfl, rfl, [], first, .nil, asked, by simp⟩)
      · have further : Store.dynList ι (before ++ [tier]) = Store.dynList ι before ++
            [tier.dyn ι] := by
          simp only [Store.dynList_eq_map, List.map_append, List.map_singleton]
        dsimp only at onward
        rw [← further] at onward
        rcases ih _ onward with ⟨rfl, misses⟩ | ⟨e, lower, at_hit, higher, rfl, search⟩ |
          ⟨entry, lower, at_hit, higher, rfl, search⟩
        · exact .inl ⟨rfl, .cons asked misses⟩
        · exact .inr (.inl ⟨e, tier :: lower, at_hit, higher, rfl, search.later asked⟩)
        · rw [List.append_assoc] at search
          exact .inr (.inr ⟨entry, tier :: lower, at_hit, higher, rfl, search.later asked⟩)
      · obtain ⟨rfl, rfl⟩ : later = backfills before ns key entry ∧ result = .ok (some entry) := by
          cases before with
          | nil => exact Prog.yields_ret.mp onward
          | cons first before =>
              obtain ⟨_, _, rfl, ended⟩ := Prog.yields_op.mp onward
              obtain ⟨rfl, rfl⟩ := Prog.yields_ret.mp ended
              simp [backfills, Store.dynList, Store.dynList_arc]
        refine .inr (.inr ⟨entry, [], tier, rest, rfl, rfl, [], first, .nil, asked, by simp⟩)

/-! ## What a `set` touches -/

namespace Store

mutual
/-- The maps of a tree of stores that are evicted from when they grow. A Moka cache always
    has a capacity, and evicts by itself. -/
def evicting : Store → List Home
  | .hashMap id (some _) => [.map (.hashMap id)]
  | .moka id => [.map (.moka id)]
  | .tiered tiers => evictingOf tiers
  | .metrics inner _ => evicting inner
  | .hashMap _ none | .redis .. | .ext .. => []

def evictingOf : List Store → List Home
  | [] => []
  | store :: stores => evicting store ++ evictingOf stores
end

end Store

/-- The command of a `set`: it writes nothing but the key, in one of the places, or evicts. -/
def Cmd.SetsIn (homes evicting : List Home) (ns key : String) : Cmd ι → Prop
  | .mapInsert map cacheKey _ => .map map ∈ homes ∧ cacheKey = buildCacheKey ns key
  | .mapEvict map _ => .map map ∈ homes ∧ .map map ∈ evicting
  | .redisSet server cacheKey _ | .redisSetEx server cacheKey .. =>
      .server server ∈ homes ∧ cacheKey = buildCacheKey ns key
  | .extSet store ns' key' _ => .ext store ∈ homes ∧ ns' = ns ∧ key' = key
  | .now | .rand | .emit .. => True
  | _ => False

theorem Cmd.SetsIn.mono {homes homes' evicting evicting' : List Home} {ns key : String} {c : Cmd ι}
    (sets : c.SetsIn homes evicting ns key) (more : homes ⊆ homes') (more' : evicting ⊆ evicting') :
    c.SetsIn homes' evicting' ns key := by
  cases c <;> first | exact sets | exact ⟨more sets.1, sets.2⟩ | exact ⟨more sets.1, more' sets.2⟩

/-- The `set` of a store at these places. -/
def DynStore.SetsIn (homes evicting : List Home) (store : DynStore ι) : Prop :=
  ∀ ns key entry, (store.set ns key entry).Only (Cmd.SetsIn homes evicting ns key)

theorem HashMapStore.setsIn (id : Nat) (evictOnSet : Option EvictOnSetConfig) :
    (dyn id evictOnSet : DynStore ι).SetsIn (Store.homes (.hashMap id evictOnSet))
      (Store.evicting (.hashMap id evictOnSet)) := by
  intro ns key entry
  refine set_only ⟨List.mem_singleton.mpr rfl, rfl⟩ fun config configured => ?_
  cases configured
  exact ⟨trivial, List.mem_singleton.mpr rfl, List.mem_singleton.mpr rfl⟩

theorem RedisStore.setsIn (server : Nat) (disableExpiration : Bool) :
    (dyn server disableExpiration : DynStore ι).SetsIn [.server server] [] := by
  intro ns key entry
  cases entry with
  | typed => trivial
  | serialized json freshUntil =>
      exact set_only freshUntil trivial (fun _ => ⟨List.mem_singleton.mpr rfl, rfl⟩)
        fun _ _ => ⟨List.mem_singleton.mpr rfl, rfl⟩

theorem TieredStore.setsIn {homes evicting : List Home} {tiers : List (DynStore ι)}
    (each : ∀ tier ∈ tiers, tier.SetsIn homes evicting) : (dyn tiers).SetsIn homes evicting := by
  intro ns key entry
  exact set_only fun tier inTiers => setTier_only fun converted _ =>
    each tier inTiers ns key converted

namespace Store

mutual
theorem setsIn : ∀ store : Store, (store.dyn ι).SetsIn store.homes store.evicting
  | .hashMap id evictOnSet => HashMapStore.setsIn id evictOnSet
  | .moka _ => fun _ _ _ => MokaStore.set_only ⟨List.mem_singleton.mpr rfl, rfl⟩
  | .redis server disableExpiration => RedisStore.setsIn server disableExpiration
  | .tiered tiers => TieredStore.setsIn (allSetsIn tiers)
  | .metrics inner _ => fun ns key entry =>
      MetricsStore.set_only (setsIn inner ns key entry) trivial
  | .ext .. => fun _ _ _ => only_issue ⟨List.mem_singleton.mpr rfl, rfl, rfl⟩

theorem allSetsIn : ∀ stores : List Store, ∀ tier ∈ dynList ι stores,
    tier.SetsIn (homesOf stores) (evictingOf stores)
  | [], _, member => by simp [dynList] at member
  | store :: stores, tier, member => by
      rcases List.mem_cons.mp member with rfl | later
      · exact fun ns key entry => (setsIn store ns key entry).mono fun _ sets =>
          sets.mono (List.subset_append_left _ _) (List.subset_append_left _ _)
      · exact fun ns key entry => (allSetsIn stores tier later ns key entry).mono fun _ sets =>
          sets.mono (List.subset_append_right _ _) (List.subset_append_right _ _)
end

end Store

/-- Other keys are as they were, or were evicted. -/
def Held.Beside (evicts : Prop) (ns key : String) : Held ι → Held ι → Prop
  | .map m, .map m' => ∀ cacheKey, cacheKey ≠ buildCacheKey ns key →
      m'.lookup cacheKey = m.lookup cacheKey ∨ evicts ∧ m'.lookup cacheKey = none
  | .server items, .server items' =>
      ∀ cacheKey, cacheKey ≠ buildCacheKey ns key → items' cacheKey = items cacheKey
  | .ext m, .ext m' => ∀ ns' key', ¬ (ns' = ns ∧ key' = key) → m' ns' key' = m ns' key'
  | _, _ => False

namespace Held.Beside

variable {evicts : Prop} {ns key : String}

theorem refl (v : Held ι) : v.Beside evicts ns key v := by
  cases v with
  | map => exact fun _ _ => .inl rfl
  | server => exact fun _ _ => rfl
  | ext => exact fun _ _ _ => rfl

theorem trans {v v' v'' : Held ι} (first : v.Beside evicts ns key v')
    (second : v'.Beside evicts ns key v'') : v.Beside evicts ns key v'' := by
  cases v <;> cases v' <;> cases v'' <;> try exact first.elim
  case map.map.map =>
    intro cacheKey other
    rcases second cacheKey other with same | gone
    · rw [same]
      exact first cacheKey other
    · exact .inr gone
  case server.server.server => exact fun cacheKey other =>
    (second cacheKey other).trans (first cacheKey other)
  case ext.ext.ext => exact fun ns' key' other =>
    (second ns' key' other).trans (first ns' key' other)
  all_goals exact second.elim

end Held.Beside

section Effects

variable {homes evicting : List Home} {ns key : String} {i : Nat} {w w' : World ι}
  {c : Cmd ι} {r : c.Ans}

theorem Cmd.SetsIn.home (sets : c.SetsIn homes evicting ns key) {home : Home}
    (absent : home ∉ homes) : c.home ≠ some home := by
  rintro same
  cases c <;> first | exact sets.elim | cases same
  all_goals exact absent sets.1

/-- A command of a `set` changes nothing in other places. -/
theorem setsIn_elsewhere (sets : c.SetsIn homes evicting ns key)
    (done : c.May i w r w') {home : Home} (absent : home ∉ homes) : w'.held home = w.held home := by
  obtain ⟨_, done⟩ := done
  exact exec_frame done (sets.home absent)

theorem beside_setMap {map : MapId} {m : HashMap ι} (home : Home)
    (kept : ∀ cacheKey, cacheKey ≠ buildCacheKey ns key →
      m.lookup cacheKey = (w.maps map).lookup cacheKey ∨ .map map ∈ evicting ∧
      m.lookup cacheKey = none) :
    (w.held home).Beside (home ∈ evicting) ns key ((w.setMap map m).held home) := by
  by_cases here : some (.map map) = some home
  · cases here
    simp only [World.held, World.setMap_maps, if_true]
    exact kept
  · rw [held_setMap here]
    exact .refl _

theorem beside_setRedis {server : Nat} {item : Option RedisItem} (home : Home) :
    (w.held home).Beside (home ∈ evicting) ns key
    ((w.setRedis server (buildCacheKey ns key) item).held home) := by
  by_cases here : some (.server server) = some home
  · cases here
    intro cacheKey other
    rw [World.setRedis_redis, if_neg fun same => other same.2.symm]
  · rw [World.setRedis, held_redis here]
    exact .refl _

theorem setsIn_beside (sets : c.SetsIn homes evicting ns key) (done : c.May i w r w')
    (home : Home) : (w.held home).Beside (home ∈ evicting) ns key (w'.held home) := by
  obtain ⟨t, done⟩ := done
  cases c <;> try exact sets.elim
  case mapInsert map cacheKey entry =>
    obtain ⟨_, rfl⟩ := sets
    obtain rfl := done
    refine beside_setMap home fun cacheKey other => .inl ?_
    rw [HashMap.lookup_insert, if_neg other]
  case mapEvict map maxItems =>
    obtain ⟨order, _, rfl⟩ := done
    refine beside_setMap home fun cacheKey _ => ?_
    cases found : ((w.maps map).evict t maxItems order).lookup cacheKey with
    | none => exact .inr ⟨sets.2, rfl⟩
    | some stored => exact .inl (HashMap.lookup_evict found).symm
  case redisSet | redisSetEx =>
    obtain ⟨_, rfl⟩ := sets
    rcases done with ⟨_, rfl⟩ | ⟨_, _, rfl | rfl⟩
    · exact beside_setRedis home
    · exact .refl _
    · exact beside_setRedis home
  case extSet store ns' key' entry =>
    obtain ⟨_, rfl, rfl⟩ := sets
    obtain ⟨m, ⟨_, rfl⟩ | ⟨_, rfl⟩, rfl⟩ := done
    · by_cases here : some (.ext store) = some home
      · cases here
        intro ns' key' other
        simp only [World.setExt, Function.update_self, Contents.put_apply, if_neg other]
      · rw [held_setExt here]
        exact .refl _
    · rw [World.setExt_self]
      exact .refl _
  case now | rand =>
    obtain ⟨_, rfl⟩ := done
    exact .refl _
  case emit =>
    obtain rfl := done
    cases home <;> exact .refl _

end Effects

/-- What a `set` leaves alone. -/
theorem set_leaves_alone {α : Type} {homes evicting : List Home} {ns key : String} {i : Nat}
    {w w' : World ι} {p : Code ι α} {value : α} (sets : p.Only (Cmd.SetsIn homes evicting ns key))
    (runs : p.Runs (Cmd.May i) w value w') :
    (∀ home, home ∉ homes → w'.held home = w.held home) ∧
      ∀ home, (w.held home).Beside (home ∈ evicting) ns key (w'.held home) := by
  refine runs.keeps (I := fun v => (∀ home, home ∉ homes → v.held home = w.held home) ∧
    ∀ home, (w.held home).Beside (home ∈ evicting) ns key (v.held home)) ?_ sets ⟨fun _ _ =>
      rfl, fun _ => .refl _⟩
  rintro c v r v' sets done ⟨elsewhere, beside⟩
  constructor
  · intro home absent
    rw [setsIn_elsewhere sets done absent, elsewhere home absent]
  · intro home
    exact (beside home).trans (setsIn_beside sets done home)

/-! ## The back-fill -/

/-- A plain map that was set holds the entry. -/
theorem set_holds {tier : Store} (isMap : tier.IsMap) {i : Nat} {ns key : String}
    {entry converted : StoredEntry ι}
    (made : entry.convertForMode (tier.dyn ι).storageMode = .ok converted) {w w' : World ι}
    (runs : ((tier.dyn ι).set ns key converted).Runs (Cmd.May i) w (.ok ()) w') :
    ∀ home ∈ tier.homes, (w'.held home).Has ns key (some converted) := by
  intro home member
  cases isMap with
  | hashMap | moka =>
      obtain ⟨_, _, ⟨_, done⟩, ended⟩ := Prog.runs_op.mp runs
      obtain ⟨_, rfl⟩ := Prog.runs_ret.mp ended
      obtain rfl := List.mem_singleton.mp member
      obtain rfl := done
      simp [World.held, World.setMap_maps, Held.Has]
  | redis =>
      obtain ⟨json, freshUntil, staleUntil, rfl⟩ := serialized_of_convert made
      obtain ⟨answer, _, ⟨_, done⟩, ended⟩ := Prog.runs_op.mp runs
      obtain rfl := List.mem_singleton.mp member
      rcases done with ⟨rfl, rfl⟩ | ⟨e, rfl, _⟩
      · obtain ⟨_, rfl⟩ := Prog.runs_ret.mp ended
        exact ⟨json, _, _, rfl, by simp [World.setRedis]⟩
      · cases (Prog.runs_ret.mp ended).1
  | ext =>
      obtain ⟨answer, _, ⟨_, m, done, rfl⟩, ended⟩ := Prog.runs_op.mp runs
      obtain ⟨rfl, rfl⟩ := Prog.runs_ret.mp ended
      obtain rfl := List.mem_singleton.mp member
      rcases done with ⟨_, rfl⟩ | ⟨⟨e, fails⟩, _⟩
      · simp [World.held, World.setExt, Held.Has, Contents.put_apply]
      · cases fails

/-- The tier's part in a back-fill, and what it has come to: the tier was set to the entry
    in its own form, or left alone if there is no such form. -/
def Store.Filled (tier : Store) (i : Nat) (ns key : String) (entry : StoredEntry ι) (part : Log ι)
    (w w' : World ι) : Prop :=
  match entry.convertForMode (tier.dyn ι).storageMode with
  | .ok converted => ∃ (r : Except CacheError Unit) (v v' : World ι),
      ((tier.dyn ι).set ns key converted).Yields part r ∧ Plays (S := sig ι) (Cmd.May i) part v v' ∧
      (∀ home ∈ tier.homes, v.held home = w.held home ∧ w'.held home = v'.held home) ∧
      (r = .ok () → tier.IsMap → ∀ home ∈ tier.homes, (w'.held home).Has ns key (some converted))
  | .error _ => part = [] ∧ ∀ home ∈ tier.homes, w'.held home = w.held home

/-- A tier that nobody has touched before is filled from where it was. -/
theorem Store.Filled.since {tier : Store} {i : Nat} {ns key : String} {entry : StoredEntry ι}
    {part : Log ι} {w v w' : World ι} (filled : tier.Filled i ns key entry part v w')
    (untouched : ∀ home ∈ tier.homes, v.held home = w.held home) :
    tier.Filled i ns key entry part w w' := by
  unfold Filled at *
  split at filled
  · obtain ⟨r, v₁, v₂, yields, plays, same, holds⟩ := filled
    exact ⟨r, v₁, v₂, yields, plays, fun home member =>
      ⟨(same home member).1.trans (untouched home member), (same home member).2⟩, holds⟩
  · exact ⟨filled.1, fun home member => (filled.2 home member).trans (untouched home member)⟩

theorem backfill_setsIn (lower : List Store) (ns key : String) (entry : StoredEntry ι) :
    (TieredStore.backfill (Store.dynList ι lower) ns key entry).Only
      (Cmd.SetsIn (Store.homesOf lower) (Store.evictingOf lower) ns key) := by
  induction lower with
  | nil => trivial
  | cons tier rest ih =>
      have later : (TieredStore.backfill (Store.dynList ι rest) ns key entry).Only
          (Cmd.SetsIn (Store.homesOf (tier :: rest)) (Store.evictingOf (tier :: rest)) ns key) :=
        ih.mono fun _ sets => sets.mono (List.subset_append_right _ _)
          (List.subset_append_right _ _)
      simp only [Store.dynList, TieredStore.backfill]
      split
      · exact (Store.allSetsIn (tier :: rest) _ (List.mem_cons_self ..) ns key _).bind
          fun _ => later
      · exact later

/-- A back-fill falls into the parts of its tiers. Each tier is filled, whether the others
    could be or not. -/
theorem backfill_fills {lower : List Store} (distinct : Store.Distinct lower) {i : Nat}
    {ns key : String} {entry : StoredEntry ι} {log : Log ι} {w w' : World ι} {out : Unit}
    (yields : (TieredStore.backfill (Store.dynList ι lower) ns key entry).Yields log out)
    (plays : Plays (S := sig ι) (Cmd.May i) log w w') :
    ∃ parts, List.Forall₂ (fun tier part => tier.Filled i ns key entry part w w') lower parts ∧
      log = parts.flatten := by
  induction lower generalizing w log with
  | nil => exact ⟨[], .nil, (Prog.yields_ret.mp yields).1⟩
  | cons tier rest ih =>
      obtain ⟨apart, distinct⟩ := List.pairwise_cons.mp distinct
      have beyond : ∀ home ∈ tier.homes, home ∉ Store.homesOf rest := by
        intro home here inRest
        obtain ⟨tier', member, there⟩ := Store.mem_homesOf.mp inRest
        exact apart tier' member here there
      simp only [Store.dynList, TieredStore.backfill] at yields
      split at yields
      · next converted done =>
          obtain ⟨part, r, later, rfl, sets, onward⟩ := Prog.yields_bind.mp yields
          obtain ⟨v, played, playedLater⟩ := plays_append.mp plays
          have setRuns := Prog.runs_iff_yields.mpr ⟨part, sets, played⟩
          obtain ⟨elsewhere, _⟩ := set_leaves_alone (Store.setsIn tier ns key converted) setRuns
          obtain ⟨unmoved, _⟩ := set_leaves_alone (backfill_setsIn rest ns key entry)
            (Prog.runs_iff_yields.mpr ⟨later, onward, playedLater⟩)
          obtain ⟨parts, all, rfl⟩ := ih distinct onward playedLater
          have allApart := (List.forall₂_and_left rest parts).mpr ⟨apart, all⟩
          refine ⟨part :: parts, .cons ?_ (allApart.imp fun tier' part' both => ?_), rfl⟩
          · simp only [Store.Filled, done]
            refine ⟨r, w, v, sets, played, fun home here =>
              ⟨rfl, unmoved home (beyond home here)⟩, ?_⟩
            rintro rfl isMap home here
            rw [unmoved home (beyond home here)]
            exact set_holds isMap done setRuns home here
          · obtain ⟨apart', filled⟩ := both
            exact filled.since fun home there => elsewhere home fun here => apart' here there
      · next e fails =>
          obtain ⟨unmoved, _⟩ := set_leaves_alone (backfill_setsIn rest ns key entry)
            (Prog.runs_iff_yields.mpr ⟨log, yields, plays⟩)
          obtain ⟨parts, all, rfl⟩ := ih distinct yields plays
          refine ⟨[] :: parts, .cons ?_ all, rfl⟩
          simp only [Store.Filled, fails]
          exact ⟨trivial, fun home here => unmoved home (beyond home here)⟩

/-! ## The look-up -/

/-- What the back-fill of a hit at `tier` does, and leaves when it has run alone: its log
    falls into the parts of the tiers before `tier`, in their order. -/
structure Refilled (lower : List Store) (tier : Store) (higher : List Store) (i : Nat)
    (ns key : String) (entry : StoredEntry ι) (log : Log ι) (w w' : World ι) : Prop where
  filled :
    ∃ parts, List.Forall₂ (fun before part => before.Filled i ns key entry part w w') lower parts ∧
    log = parts.flatten
  writes : ∀ e ∈ log, e.1.SetsIn (Store.homesOf lower) (Store.evictingOf lower) ns key
  beyond : ∀ other ∈ tier :: higher, ∀ home ∈ other.homes, w'.held home = w.held home
  beside : ∀ home, (w.held home).Beside (home ∈ Store.evictingOf lower) ns key (w'.held home)

variable [DecidableEq ι]

theorem backfill_refills {lower higher : List Store} {tier : Store}
    (distinct : Store.Distinct (lower ++ tier :: higher)) {i : Nat} {ns key : String}
    {entry : StoredEntry ι} {log : Log ι} {w w' : World ι} {out : Out ι}
    (yields : (Task.backfill lower ns key entry).body.Yields log out)
    (plays : Plays (S := sig ι) (Cmd.May i) log w w') :
    Refilled lower tier higher i ns key entry log w w' := by
  obtain ⟨whole, _, _, rfl, fills, ended⟩ := Prog.yields_bind.mp yields
  obtain ⟨rfl, rfl⟩ := Prog.yields_ret.mp ended
  rw [List.append_nil] at plays ⊢
  obtain ⟨inside, _, apart⟩ := List.pairwise_append.mp distinct
  obtain ⟨elsewhere, beside⟩ := set_leaves_alone (backfill_setsIn lower ns key entry)
    (Prog.runs_iff_yields.mpr ⟨whole, fills, plays⟩)
  refine ⟨backfill_fills inside fills plays, (backfill_setsIn lower ns key entry).yields fills,
    fun other member home here => elsewhere home ?_, beside⟩
  intro inLower
  obtain ⟨before, there, in_before⟩ := Store.mem_homesOf.mp inLower
  exact apart before there other member in_before here

/-- A look-up returns the entry of the first tier that has one and nothing if none has;
    the back-fill that it spawns fills the tiers before that one, and only those. A Moka cache
    is taken to keep what is put there until the back-fill is through. -/
theorem tier_lookup {tiers : List Store} (distinct : Store.Distinct tiers)
    {ns key : String} {log : Log ι} {result : Except CacheError (Option (StoredEntry ι))}
    (yields : (Task.storeGet (.tiered tiers) ns key).body.Yields log (.entry result)) :
    (result = .ok none ∧ Misses ns key tiers log) ∨
    (∃ e lower tier higher, result = .error e ∧
      Search tiers ns key log lower tier higher (.error e) []) ∨
    ∃ entry lower tier higher, result = .ok (some entry) ∧
      Search tiers ns key log lower tier higher (.ok (some entry)) (backfills lower ns key entry) ∧
      ∀ i filling w out w', (Task.backfill lower ns key entry).body.Yields filling out →
        Plays (S := sig ι) (Cmd.May i) filling w w' →
        Refilled lower tier higher i ns key entry filling w w' := by
  obtain ⟨whole, _, _, rfl, yields, ended⟩ := Prog.yields_bind.mp yields
  obtain ⟨rfl, same⟩ := Prog.yields_ret.mp ended
  cases same
  rw [List.append_nil]
  rcases getFrom_search [] yields with misses | fails | ⟨entry, lower, tier, higher, rfl, search⟩
  · exact .inl misses
  · exact .inr (.inl fails)
  · refine .inr
      (.inr ⟨entry, lower, tier, higher, rfl, search, fun i filling w out w' fills plays => ?_⟩)
    rw [search.split] at distinct
    exact backfill_refills distinct fills plays

/-- Two tiers miss an entry that has no serializer, and the third one has it. -/
theorem tier_lookup_third :
    let tiers : List Store := [.hashMap 0 none, .redis 0 true, .hashMap 1 none]
    let entry : StoredEntry Unit := .fromTyped () true 10 20
    ∃ (log : Log Unit) (lower : List Store) (tier : Store) (higher : List Store),
      (Task.storeGet (.tiered tiers) "ns" "k").body.Yields log (.entry (.ok (some entry))) ∧
      Search tiers "ns" "k" log lower tier higher (.ok (some entry))
        (backfills lower "ns" "k" entry) ∧
      ∀ i filling w out w', (Task.backfill lower "ns" "k" entry).body.Yields filling out →
        Plays (S := sig Unit) (Cmd.May i) filling w w' →
        Refilled lower tier higher i "ns" "k" entry filling w w' := by
  intro tiers entry
  have distinct : Store.Distinct tiers := by simp [tiers, Store.Distinct, Store.homes]
  have yields : (Task.storeGet (.tiered tiers) "ns" "k").body.Yields
      [⟨.mapRead (.hashMap 0) "ns:k", (none, 0)⟩, ⟨.redisGet 0 "ns:k", .ok none⟩,
        ⟨.mapRead (.hashMap 1) "ns:k", (some entry, 0)⟩,
        ⟨.spawn (.backfill [.hashMap 0 none, .redis 0 true] "ns" "k" entry), ()⟩]
      (.entry (.ok (some entry))) :=
    .op (.op (.op (.op .ret)))
  rcases tier_lookup distinct yields with ⟨none, _⟩ | ⟨_, _, _, _, fails, _⟩ |
    ⟨_, lower, tier, higher, same, search, refills⟩
  · cases none
  · cases fails
  · cases same
    exact ⟨_, lower, tier, higher, yields, search, refills⟩

end Swr
