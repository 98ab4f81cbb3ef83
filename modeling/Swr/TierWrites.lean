import Swr.Json
import Swr.StoreCode
import Swr.TierParts

/-! # Writes to all tiers

A `set` or `remove` on a tiered store over plain maps, alone, with any of the tiers
failing and the futures of the tiers taking turns as they like.
-/

namespace Swr

open Async

variable {ι : Type} [SerdeJson ι]

/-- A plain map: a store that keeps every entry until it is removed. -/
inductive Store.IsMap : Store → Prop where
  | hashMap {id : Nat} : IsMap (.hashMap id none)
  | moka {id : Nat} : IsMap (.moka id)
  | redis : IsMap (.redis server true)
  | ext {id : Nat} : IsMap (.ext id name mode)

theorem Store.IsMap.homes {tier : Store} (isMap : tier.IsMap) : ∃ home, tier.homes = [home] := by
  cases isMap <;> exact ⟨_, rfl⟩

/-- The store failed to do what it was asked. -/
def Cmd.Failed : (c : Cmd ι) → c.Ans → Prop
  | .redisSet .., r | .redisSetEx .., r | .redisDel .., r => ∃ e, r = .error e
  | .extSet .., r | .extRemove .., r => ∃ e, r = .error e
  | _, _ => False

/-- The command touches the place and no other one. -/
def Cmd.At (home : Home) (c : Cmd ι) : Prop := c.home = some home

/-- What a command of thread `i` does if a store that fails leaves everything as it was. -/
def Cmd.Does (i : Nat) (c : Cmd ι) (w : World ι) (r : c.Ans) (w' : World ι) : Prop :=
  c.May i w r w' ∧ (c.Failed r → w' = w)

/-- The world falls into the places where stores keep their contents. -/
def places (i : Nat) : Parts (S := sig ι) (Cmd.Does i) (Option Home) (Option (Held ι)) where
  part home w := home.map w.held
  owner := Cmd.home
  frame := by
    rintro c w r w' home ⟨⟨_, done⟩, _⟩ other
    cases home with
    | none => rfl
    | some home => exact congrArg some (exec_frame done (Ne.symm other))

namespace Held

/-- What is kept under a key. -/
def Has (ns key : String) : Held ι → Option (StoredEntry ι) → Prop
  | .map m, stored => m.lookup (buildCacheKey ns key) = stored
  | .server items, none => items (buildCacheKey ns key) = none
  | .server items, some stored => ∃ json freshUntil staleUntil,
      stored = .serialized json freshUntil staleUntil ∧
      items (buildCacheKey ns key) = some ⟨json, none⟩
  | .ext m, stored => m ns key = stored

/-- Nothing but the keys may have changed. -/
def SameBut (ns : String) (keys : List String) : Held ι → Held ι → Prop
  | .map m, .map m' =>
      ∀ cacheKey ∉ keys.map (buildCacheKey ns), m'.lookup cacheKey = m.lookup cacheKey
  | .server items, .server items' =>
      ∀ cacheKey ∉ keys.map (buildCacheKey ns), items' cacheKey = items cacheKey
  | .ext m, .ext m' => ∀ ns' key, ¬ (ns' = ns ∧ key ∈ keys) → m' ns' key = m ns' key
  | _, _ => False

theorem SameBut.refl {ns : String} {keys : List String} (v : Held ι) : v.SameBut ns keys v := by
  cases v with
  | map | server => exact fun _ _ => rfl
  | ext => exact fun _ _ _ => rfl

end Held

/-- The part of a call that goes to one tier. -/
def StoreCall.part (call : StoreCall ι) (tier : DynStore ι) : Code ι (Except CacheError Unit) :=
  match call with
  | .get .. => return .ok ()
  | .set ns key entry => TieredStore.setTier ns key entry tier
  | .remove ns keys => tier.remove ns keys

/-- What a call leaves in a tier that held `v`, if the tier was answered `share` and its
    part of the call ended with `r`. The tier fails if one of the commands does. -/
def StoreCall.Leaves (tier : Store) (share : Log ι) (v : Held ι) (r : Except CacheError Unit)
    (v' : Held ι) : StoreCall ι → Prop
  | .get .. => False
  | .set ns key entry =>
      match entry.convertForMode (tier.dyn ι).storageMode with
      | .error e => r = .error e ∧ share = [] ∧ v' = v
      | .ok converted =>
          (r = .ok () ∧ (∀ e ∈ share, ¬ e.1.Failed e.2) ∧ v'.Has ns key (some converted) ∧
            v.SameBut ns [key] v') ∨ (∃ e, r = .error e) ∧ (∃ e ∈ share, e.1.Failed e.2) ∧ v' = v
  | .remove ns keys =>
      (r = .ok () ∧ (∀ e ∈ share, ¬ e.1.Failed e.2) ∧ (∀ key ∈ keys, v'.Has ns key none) ∧
        v.SameBut ns keys v') ∨ (∃ e, r = .error e) ∧ (∃ e ∈ share, e.1.Failed e.2) ∧ v' = v

/-! ## One tier -/

section Tier

variable {i : Nat} {tier : Store} {home : Home} {r : Except CacheError Unit} {ns : String}

theorem held_act {c : Cmd ι} {answer : c.Ans} {v v' : Option (Held ι)}
    (acts : (places i).act c v answer v') (here : c.At home) :
    ∃ w w', c.Does i w answer w' ∧ v = some (w.held home) ∧ v' = some (w'.held home) := by
  obtain ⟨w, w', done, rfl, rfl⟩ := acts
  have owner : (places i).owner c = some home := here
  exact ⟨w, w', done, by rw [owner]; rfl, by rw [owner]; rfl⟩

/-! ### What a write does to the place it touches -/

section Acts

variable {map : MapId} {server store : Nat} {key json : String} {entry : StoredEntry ι}
  {keys : List String} {v v' : Option (Held ι)}

theorem act_insert {r : Unit} (acts : (places i).act (.mapInsert map key entry) v r v') :
    ∃ m, v = some (.map m) ∧ v' = some (.map (AList.insert key entry m)) := by
  obtain ⟨w, _, ⟨⟨_, rfl⟩, _⟩, before, after⟩ := held_act acts rfl
  exact ⟨w.maps map, before, by rw [after, World.held, World.setMap_maps, if_pos rfl]⟩

theorem act_remove {r : Unit} (acts : (places i).act (.mapRemove (ι := ι) map keys) v r v') :
    ∃ m, v = some (.map m) ∧ v' = some (.map (m.eraseAll keys)) := by
  obtain ⟨w, _, ⟨⟨_, rfl⟩, _⟩, before, after⟩ := held_act acts rfl
  exact ⟨w.maps map, before, by rw [after, World.held, World.setMap_maps, if_pos rfl]⟩

theorem act_redisSet {r : Except String Unit}
    (acts : (places i).act (.redisSet (ι := ι) server key json) v r v') :
    (∃ items, r = .ok () ∧ v = some (.server items) ∧
      v' = some (.server (Function.update items key (some ⟨json, none⟩)))) ∨
      (∃ e, r = .error e) ∧ v' = v := by
  obtain ⟨w, _, ⟨⟨_, done⟩, fails⟩, before, after⟩ := held_act acts rfl
  rcases done with ⟨rfl, rfl⟩ | ⟨e, rfl, _⟩
  · exact .inl ⟨w.redis server, rfl, before, by simp [after, World.held, World.setRedis]⟩
  · exact .inr ⟨⟨e, rfl⟩, by rw [before, after, fails ⟨e, rfl⟩]⟩

theorem act_redisDel {r : Except String Unit}
    (acts : (places i).act (.redisDel (ι := ι) server keys) v r v') :
    (∃ items, r = .ok () ∧ v = some (.server items) ∧
      v' = some (.server fun key => if key ∈ keys then none else items key)) ∨
      (∃ e, r = .error e) ∧ v' = v := by
  obtain ⟨w, _, ⟨⟨_, done⟩, fails⟩, before, after⟩ := held_act acts rfl
  rcases done with ⟨rfl, rfl⟩ | ⟨e, rfl, _⟩
  · exact .inl ⟨w.redis server, rfl, before, by simp [after, World.held, World.delRedis]⟩
  · exact .inr ⟨⟨e, rfl⟩, by rw [before, after, fails ⟨e, rfl⟩]⟩

theorem act_extSet (acts : (places i).act (.extSet store ns key entry) v r v') :
    (∃ m, r = .ok () ∧ v = some (.ext m) ∧ v' = some (.ext (m.put ns key entry))) ∨
    (∃ e, r = .error e) ∧ v' = v := by
  obtain ⟨w, _, ⟨⟨_, m, done, rfl⟩, _⟩, before, after⟩ := held_act acts rfl
  rcases done with ⟨rfl, rfl⟩ | ⟨fails, rfl⟩
  · exact .inl ⟨w.ext store, rfl, before, by simp [after, World.held, World.setExt]⟩
  · exact .inr ⟨fails, by rw [before, after, World.setExt_self]⟩

theorem act_extRemove (acts : (places i).act (.extRemove (ι := ι) store ns keys) v r v') :
    (∃ m, r = .ok () ∧ v = some (.ext m) ∧ v' = some (.ext (m.remove ns keys))) ∨
    (∃ e, r = .error e) ∧ v' = v := by
  obtain ⟨w, _, ⟨⟨_, m, done, rfl⟩, _⟩, before, after⟩ := held_act acts rfl
  rcases done with ⟨rfl, rfl⟩ | ⟨fails, rfl⟩
  · exact .inl ⟨w.ext store, rfl, before, by simp [after, World.held, World.setExt]⟩
  · exact .inr ⟨fails, by rw [before, after, World.setExt_self]⟩

end Acts

theorem serialized_of_convert {entry converted : StoredEntry ι}
    (done : entry.convertForMode .serialized = .ok converted) :
    ∃ json freshUntil staleUntil, converted = .serialized json freshUntil staleUntil := by
  cases entry with
  | serialized => cases done; exact ⟨_, _, _, rfl⟩
  | typed value freshUntil staleUntil serializer =>
      rcases serializer with _ | _ | json <;> cases done
      exact ⟨_, _, _, rfl⟩

theorem issue_at {c : Cmd ι} (here : c.home = some home) : (issue c).Only (Cmd.At home) :=
  only_issue here

theorem MokaStore.remove_touches (id : Nat) (ns : String) (keys : List String) :
    (remove id ns keys).Only (Cmd.At (ι := ι) (.map (.moka id))) := by
  induction keys with
  | nil => trivial
  | cons key keys ih => exact (issue_at rfl).bind fun _ => ih

/-- The part of a tier in a `set` touches nothing but the tier. -/
theorem setTier_touches (isMap : tier.IsMap) (at_home : tier.homes = [home]) (key : String)
    (entry : StoredEntry ι) :
    (TieredStore.setTier ns key entry (tier.dyn ι)).Only (Cmd.At home) := by
  unfold TieredStore.setTier
  split
  · trivial
  · next converted done =>
      cases isMap with
      | hashMap | moka | ext =>
          cases at_home
          exact (issue_at rfl).bind fun _ => trivial
      | redis =>
          cases at_home
          obtain ⟨json, freshUntil, staleUntil, rfl⟩ := serialized_of_convert done
          exact (issue_at rfl).bind fun done => by cases done <;> trivial

theorem remove_touches (isMap : tier.IsMap) (at_home : tier.homes = [home]) (keys : List String) :
    ((tier.dyn ι).remove ns keys).Only (Cmd.At home) := by
  cases isMap with
  | hashMap | ext =>
      cases at_home
      exact (issue_at rfl).bind fun _ => trivial
  | moka =>
      cases at_home
      exact MokaStore.remove_touches _ ns keys
  | redis =>
      cases at_home
      simp only [Store.dyn, RedisStore.dyn, RedisStore.remove]
      split
      · trivial
      · exact (issue_at rfl).bind fun done => by cases done <;> trivial

theorem insert_has (m : HashMap ι) (ns key : String) (entry : StoredEntry ι) :
    (Held.map (AList.insert (buildCacheKey ns key) entry m)).Has ns key (some entry) ∧
      (Held.map m).SameBut ns [key] (.map (AList.insert (buildCacheKey ns key) entry m)) := by
  constructor
  · simp [Held.Has]
  · intro cacheKey other
    rw [HashMap.lookup_insert, if_neg (by simpa using other)]

theorem eraseAll_has (m : HashMap ι) (ns : String) (keys : List String) :
    (∀ key ∈ keys, (Held.map (m.eraseAll (keys.map (buildCacheKey ns)))).Has ns key none) ∧
      (Held.map m).SameBut ns keys (.map (m.eraseAll (keys.map (buildCacheKey ns)))) := by
  constructor
  · intro key member
    simp only [Held.Has]
    rw [HashMap.lookup_eraseAll, if_pos (List.mem_map_of_mem member)]
  · intro cacheKey other
    rw [HashMap.lookup_eraseAll, if_neg other]

theorem MokaStore.remove_acts {id : Nat} {m : HashMap ι} {keys : List String} {share : Log ι}
    {v' : Option (Held ι)}
    (yields : (remove id ns keys).Yields share r)
    (plays : Plays (places i).act share (some (.map m)) v') :
    r = .ok () ∧ (∀ e ∈ share, ¬ e.1.Failed e.2) ∧
    v' = some (.map (m.eraseAll (keys.map (buildCacheKey ns)))) := by
  induction keys generalizing m share with
  | nil =>
      obtain ⟨rfl, rfl⟩ := Prog.yields_ret.mp yields
      exact ⟨rfl, by simp, plays_nil.mp plays⟩
  | cons key keys ih =>
      obtain ⟨_, later, rfl, onward⟩ := Prog.yields_op.mp yields
      obtain ⟨_, acts, played⟩ := plays_cons.mp plays
      obtain ⟨m', same, rfl⟩ := act_remove acts
      cases same
      obtain ⟨rfl, served, rfl⟩ := ih onward played
      exact ⟨rfl, List.forall_mem_cons.mpr ⟨by simp [Cmd.Failed], served⟩, rfl⟩

/-- What the part of a tier in a `set` leaves there. -/
theorem setTier_leaves (isMap : tier.IsMap) {key : String} {entry : StoredEntry ι} {share : Log ι}
    {v v' : Held ι} (yields : (TieredStore.setTier ns key entry (tier.dyn ι)).Yields share r)
    (plays : Plays (places i).act share (some v) (some v')) :
    (StoreCall.set ns key entry).Leaves tier share v r v' := by
  unfold TieredStore.setTier at yields
  unfold StoreCall.Leaves
  cases done : entry.convertForMode (tier.dyn ι).storageMode with
  | error e =>
      simp only [done] at yields ⊢
      obtain ⟨rfl, rfl⟩ := Prog.yields_ret.mp yields
      exact ⟨rfl, rfl, Option.some.inj (plays_nil.mp plays)⟩
  | ok converted =>
      simp only [done] at yields ⊢
      cases isMap with
      | hashMap | moka =>
          obtain ⟨_, _, rfl, ended⟩ := Prog.yields_op.mp yields
          obtain ⟨rfl, rfl⟩ := Prog.yields_ret.mp ended
          obtain ⟨m, before, same⟩ := act_insert (plays_single.mp plays)
          cases before
          cases same
          exact .inl ⟨rfl, by simp [Cmd.Failed], insert_has m ns key converted⟩
      | redis =>
          obtain ⟨json, freshUntil, staleUntil, rfl⟩ := serialized_of_convert done
          obtain ⟨answer, _, rfl, ended⟩ := Prog.yields_op.mp yields
          rcases answer with e | _ <;> obtain ⟨rfl, rfl⟩ := Prog.yields_ret.mp ended <;>
            rcases act_redisSet (plays_single.mp plays) with ⟨items, answered, before, same⟩ |
              ⟨⟨_, failed⟩, same⟩
          · cases answered
          · exact .inr ⟨⟨_, rfl⟩, by simp [Cmd.Failed], Option.some.inj same⟩
          · cases before
            cases same
            refine .inl ⟨rfl, by simp [Cmd.Failed], ⟨json, _, _, rfl, by simp⟩,
              fun cacheKey other => ?_⟩
            rw [Function.update_of_ne (by simpa using other)]
          · cases failed
      | ext =>
          obtain ⟨answer, _, rfl, ended⟩ := Prog.yields_op.mp yields
          obtain ⟨rfl, rfl⟩ := Prog.yields_ret.mp ended
          rcases act_extSet (plays_single.mp plays) with ⟨m, rfl, before, same⟩ | ⟨⟨e, rfl⟩, same⟩
          · cases before
            cases same
            refine .inl ⟨rfl, by simp [Cmd.Failed], ?_, fun ns' key' other => ?_⟩
            · simp only [Held.Has, Contents.put_apply, and_self, if_true]
            · rw [Contents.put_apply, if_neg (by simpa using other)]
          · exact .inr ⟨⟨e, rfl⟩, by simp [Cmd.Failed], Option.some.inj same⟩

/-- What the part of a tier in a `remove` leaves there. -/
theorem remove_leaves (isMap : tier.IsMap) (at_home : tier.homes = [home]) {keys : List String}
    {share : Log ι} {w w' : World ι} (yields : ((tier.dyn ι).remove ns keys).Yields share r)
    (plays : Plays (places i).act share (some (w.held home)) (some (w'.held home))) :
    (StoreCall.remove ns keys).Leaves tier share (w.held home) r (w'.held home) := by
  simp only [StoreCall.Leaves]
  cases isMap with
  | hashMap =>
      obtain ⟨_, _, rfl, ended⟩ := Prog.yields_op.mp yields
      obtain ⟨rfl, rfl⟩ := Prog.yields_ret.mp ended
      obtain ⟨m, before, same⟩ := act_remove (plays_single.mp plays)
      rw [Option.some.inj before, Option.some.inj same]
      exact .inl ⟨rfl, by simp [Cmd.Failed], eraseAll_has m ns keys⟩
  | moka =>
      cases at_home
      obtain ⟨rfl, served, same⟩ := MokaStore.remove_acts yields plays
      rw [Option.some.inj same]
      exact .inl ⟨rfl, served, eraseAll_has _ ns keys⟩
  | redis =>
      simp only [Store.dyn, RedisStore.dyn, RedisStore.remove] at yields
      split at yields
      · next empty =>
          obtain rfl := List.isEmpty_iff.mp empty
          obtain ⟨rfl, rfl⟩ := Prog.yields_ret.mp yields
          rw [Option.some.inj (plays_nil.mp plays)]
          exact .inl ⟨rfl, by simp, by simp, Held.SameBut.refl _⟩
      · obtain ⟨answer, _, rfl, ended⟩ := Prog.yields_op.mp yields
        rcases answer with e | _ <;> obtain ⟨rfl, rfl⟩ := Prog.yields_ret.mp ended <;>
          rcases act_redisDel (plays_single.mp plays) with ⟨items, answered, before, same⟩ |
            ⟨⟨_, failed⟩, same⟩
        · cases answered
        · exact .inr ⟨⟨_, rfl⟩, by simp [Cmd.Failed], Option.some.inj same⟩
        · rw [Option.some.inj before, Option.some.inj same]
          refine .inl ⟨rfl, by simp [Cmd.Failed], fun key member => ?_, fun cacheKey other => ?_⟩
          · simp only [Held.Has, if_pos (List.mem_map_of_mem member)]
          · exact if_neg other
        · cases failed
  | ext =>
      obtain ⟨answer, _, rfl, ended⟩ := Prog.yields_op.mp yields
      obtain ⟨rfl, rfl⟩ := Prog.yields_ret.mp ended
      rcases act_extRemove (plays_single.mp plays) with ⟨m, rfl, before, same⟩ | ⟨⟨e, rfl⟩, same⟩
      · rw [Option.some.inj before, Option.some.inj same]
        refine .inl ⟨rfl, by simp [Cmd.Failed], fun key member => ?_, fun ns' key' other => ?_⟩
        · simp only [Held.Has, Contents.remove_apply, member, and_self, if_true]
        · rw [Contents.remove_apply, if_neg other]
      · exact .inr ⟨⟨e, rfl⟩, by simp [Cmd.Failed], Option.some.inj same⟩

end Tier

/-! ## All tiers -/

namespace TieredStore

variable {results : List (Except CacheError Unit)}

theorem firstError_ok : firstError results = .ok () ↔ ∀ r ∈ results, r = .ok () := by
  induction results with
  | nil => simp [firstError]
  | cons r results ih => rcases r with e | _ <;> simp [firstError, ih]

theorem firstError_error {e : CacheError} : firstError results = .error e ↔
    ∃ before after, results = before ++ .error e :: after ∧ ∀ r ∈ before, r = .ok () := by
  induction results with
  | nil => simp [firstError]
  | cons r results ih =>
      rcases r with e' | _
      · simp only [firstError, Except.error.injEq]
        constructor
        · rintro rfl
          exact ⟨[], results, rfl, by simp⟩
        · rintro ⟨before, after, same, fine⟩
          cases before with
          | nil => cases same; rfl
          | cons first before => cases same; cases fine _ (List.mem_cons_self ..)
      · simp only [firstError, ih]
        constructor
        · rintro ⟨before, after, rfl, fine⟩
          exact ⟨_ :: before, after, rfl, List.forall_mem_cons.mpr ⟨rfl, fine⟩⟩
        · rintro ⟨before, after, same, fine⟩
          cases before with
          | nil => cases same
          | cons first before =>
              cases same
              exact ⟨before, after, rfl, (List.forall_mem_cons.mp fine).2⟩

end TieredStore

/-- The place of a plain map. -/
def Store.place (tier : Store) : Option Home := tier.homes.head?

/-- What a log says of the commands that went to the tier. -/
def Store.share (tier : Store) (log : Log ι) : Log ι := log.filter fun e => e.1.home = tier.place

/-- The tier's part of a call ends as the answers to the tier's own commands have it, and the
    tier is left with what this leaves there. -/
def StoreCall.Settles (call : StoreCall ι) (tier : Store) (log : Log ι) (w : World ι)
    (r : Except CacheError Unit) (w' : World ι) : Prop :=
  (call.part (tier.dyn ι)).Yields (tier.share log) r ∧
    ∀ home ∈ tier.homes, call.Leaves tier (tier.share log) (w.held home) r (w'.held home)

theorem places_nodup {tiers : List Store} (maps : ∀ tier ∈ tiers, tier.IsMap)
    (distinct : Store.Distinct tiers) : (tiers.map Store.place).Nodup := by
  refine List.pairwise_map.mpr (distinct.imp_of_mem ?_)
  intro tier tier' member member' apart same
  obtain ⟨home, at_home⟩ := (maps tier member).homes
  obtain ⟨home', at_home'⟩ := (maps tier' member').homes
  rw [Store.place, Store.place, at_home, at_home'] at same
  cases same
  exact apart (a := home) (by simp [at_home]) (by simp [at_home'])

/-- The parts of a call leave in each tier what the call leaves there, and nothing elsewhere. -/
theorem parts_leave {i : Nat} {tiers : List Store} {call : StoreCall ι} {log : Log ι}
    {w w' : World ι} {results : List (Except CacheError Unit)} (maps : ∀ tier ∈ tiers, tier.IsMap)
    (distinct : Store.Distinct tiers) (touches : ∀ (tier : Store) home, tier.IsMap →
      tier.homes = [home] → (call.part (tier.dyn ι)).Only (Cmd.At home))
    (leaves : ∀ (tier : Store) home r share (w w' : World ι), tier.IsMap → tier.homes = [home] →
      (call.part (tier.dyn ι)).Yields share r →
      Plays (places i).act share (some (w.held home)) (some (w'.held home)) →
        call.Leaves tier share (w.held home) r (w'.held home))
    (yields : (Prog.joinAll ((Store.dynList ι tiers).map call.part)).Yields log results)
    (plays : Plays (S := sig ι) (Cmd.Does i) log w w') :
    List.Forall₂ (fun tier r => call.Settles tier log w r w') tiers results ∧
      ∀ home, (∀ tier ∈ tiers, home ∉ tier.homes) → w'.held home = w.held home := by
  rw [Store.dynList_eq_map, List.map_map] at yields
  have own : ∀ tier ∈ tiers, (call.part (tier.dyn ι)).Only fun c =>
      (places i).owner c = tier.place := by
    intro tier member
    obtain ⟨home, at_home⟩ := (maps tier member).homes
    rw [Store.place, at_home]
    exact touches tier home (maps tier member) at_home
  obtain ⟨each, owners⟩ := Parts.yields_joinAll own (places_nodup maps distinct) yields
  constructor
  · refine ((List.forall₂_and_left tiers results).mpr ⟨maps, each⟩).imp ?_
    rintro tier r ⟨isMap, alone⟩
    refine ⟨alone, fun home member => ?_⟩
    obtain ⟨home', at_home⟩ := isMap.homes
    rw [at_home] at member
    obtain rfl := List.mem_singleton.mp member
    have at_place : tier.place = some home := by rw [Store.place, at_home]; rfl
    have played : Plays (places i).act (tier.share log) ((places i).part tier.place w)
        ((places i).part tier.place w') :=
      Parts.plays_restrict plays tier.place
    rw [at_place] at played
    exact leaves tier home r _ w w' isMap at_home alone played
  · intro home absent
    have untouched := Parts.untouched (P := places i) (k := some home) plays fun e member same => by
      obtain ⟨tier, inTiers, there⟩ := List.mem_map.mp (owners e member)
      exact absent tier inTiers (List.mem_of_head? (there.trans same))
    exact Option.some.inj untouched

section Calls

variable [DecidableEq ι] {tiers : List Store} {call : StoreCall ι} {log : Log ι} {w w' : World ι}
  {result : Except CacheError Unit}

/-- Every tier is left with what the call leaves there, whatever the other tiers do, and
    the first tier that failed is the one whose error is returned. A Moka cache is taken to
    evict nothing by itself. -/
theorem tier_writes_isolated {i : Nat} (maps : ∀ tier ∈ tiers, tier.IsMap)
    (distinct : Store.Distinct tiers)
    (yields : (call.task (.tiered tiers)).body.Yields log (.done result))
    (plays : Plays (S := sig ι) (Cmd.Does i) log w w') :
    ∃ results : List (Except CacheError Unit),
      List.Forall₂ (fun tier r => call.Settles tier log w r w') tiers results ∧
      (∀ home, (∀ tier ∈ tiers, home ∉ tier.homes) → w'.held home = w.held home) ∧
      (result = .ok () ↔ ∀ r ∈ results, r = .ok ()) ∧
      ∀ e, result = .error e ↔
        ∃ before after, results = before ++ .error e :: after ∧ ∀ r ∈ before, r = .ok () := by
  obtain ⟨results, rfl, each, elsewhere⟩ : ∃ results, result = TieredStore.firstError results ∧
      List.Forall₂ (fun tier r => call.Settles tier log w r w') tiers results ∧
      ∀ home, (∀ tier ∈ tiers, home ∉ tier.homes) → w'.held home = w.held home := by
    cases call with
    | get ns key =>
        obtain ⟨_, _, _, _, _, ended⟩ := Prog.yields_bind.mp yields
        cases ended
    | set ns key entry =>
        obtain ⟨_, _, _, rfl, whole, ended⟩ := Prog.yields_bind.mp yields
        obtain ⟨_, results, _, rfl, joined, last⟩ := Prog.yields_bind.mp whole
        obtain ⟨rfl, rfl⟩ := Prog.yields_ret.mp last
        obtain ⟨rfl, same⟩ := Prog.yields_ret.mp ended
        cases same
        simp only [List.append_nil] at plays ⊢
        exact ⟨results, rfl, parts_leave maps distinct
          (fun _ _ isMap at_home => setTier_touches isMap at_home key entry)
          (fun _ _ _ _ _ _ isMap _ => setTier_leaves isMap) joined plays⟩
    | remove ns keys =>
        obtain ⟨_, _, _, rfl, whole, ended⟩ := Prog.yields_bind.mp yields
        obtain ⟨_, results, _, rfl, joined, last⟩ := Prog.yields_bind.mp whole
        obtain ⟨rfl, rfl⟩ := Prog.yields_ret.mp last
        obtain ⟨rfl, same⟩ := Prog.yields_ret.mp ended
        cases same
        simp only [List.append_nil] at plays ⊢
        exact ⟨results, rfl, parts_leave maps distinct (fun _ _ isMap at_home =>
          remove_touches isMap at_home keys) (fun _ _ _ _ _ _ isMap at_home =>
            remove_leaves isMap at_home) joined plays⟩
  exact ⟨results, each, elsewhere, TieredStore.firstError_ok, fun _ => TieredStore.firstError_error⟩

end Calls

theorem perform_does (around : Surroundings ι) (i : Nat) (t : Int)
    (sane : 0 ≤ around.rand ∧ around.rand ≤ 1) (c : Cmd ι) (w : World ι) :
    c.Does i w (perform around i t w c).1 (perform around i t w c).2 := by
  refine ⟨⟨t, perform_exec_faulty around i t w c sane⟩, fun fails => ?_⟩
  cases c
  case redisSet | redisSetEx | redisDel => obtain ⟨_, fails⟩ := fails; cases fails
  case extSet | extRemove =>
    obtain ⟨_, fails⟩ := fails
    simp only [perform] at fails ⊢
    split at fails
    · rfl
    · cases fails
  all_goals exact fails.elim

/-- One tier is out of order and one cannot take the entry; the third one has it. -/
theorem tier_writes_isolated_beside :
    ∃ (log : Log Unit) (w' : World Unit) (results : List (Except CacheError Unit)),
    let tiers : List Store := [.ext 0 "down" .typed, .redis 0 true, .hashMap 0 none]
    let call : StoreCall Unit := .set "ns" "k" (.fromTyped () true 10 20)
    (call.task (.tiered tiers)).body.Yields log
      (.done (.error (.operation "down" "k" "no answer"))) ∧
    (w'.maps (.hashMap 0)).lookup "ns:k" = some (.fromTyped () true 10 20) ∧
    List.Forall₂ (fun tier r => call.Settles tier log .empty r w') tiers results := by
  let around : Surroundings Unit :=
    { Surroundings.calm 0 (fun _ =>
      none) with setFault := fun _ => some (.operation "down" "k" "no answer") }
  let tiers : List Store := [.ext 0 "down" .typed, .redis 0 true, .hashMap 0 none]
  let call : StoreCall Unit := .set "ns" "k" (.fromTyped () true 10 20)
  have runs := Prog.Runs.of_run (s := World.empty)
    (perform_does around 0 0 ⟨by decide, by decide⟩) (call.task (.tiered tiers)).body []
  obtain ⟨log, yields, plays⟩ := Prog.runs_iff_yields.mp runs
  have maps : ∀ tier ∈ tiers, tier.IsMap := by
    simp only [tiers, List.forall_mem_cons]
    exact ⟨.ext, .redis, .hashMap, by simp⟩
  have distinct : Store.Distinct tiers := by simp [tiers, Store.Distinct, Store.homes]
  obtain ⟨results, each, _⟩ := tier_writes_isolated maps distinct yields plays
  exact ⟨log, _, results, yields, rfl, each⟩

end Swr
