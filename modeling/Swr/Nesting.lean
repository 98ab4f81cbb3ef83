import Swr.Async.Joins
import Swr.System

/-! # Nested tiers

A `TieredStore` is a store, so tiers can have tiers of their own. A look-up, a write and a
removal do not see how they are nested: only the leaves count, in their order. What is nested
shows in one place: tiers that want their entries serialized have them serialized for all their
leaves, in a write as in a back-fill.
-/

namespace Swr

open Async

/-! ## Leaves -/

namespace Store

mutual
/-- The stores at the end of all nesting. Tiers without a tier are such an end as well. -/
def leaves : Store → List Store
  | .tiered [] => [.tiered []]
  | .tiered tiers => leavesOf tiers
  | store => [store]

def leavesOf : List Store → List Store
  | [] => []
  | store :: stores => leaves store ++ leavesOf stores
end

theorem leavesOf_append (first second : List Store) :
    leavesOf (first ++ second) = leavesOf first ++ leavesOf second := by
  induction first with
  | nil => rfl
  | cons store stores ih => simp only [List.cons_append, leavesOf, ih, List.append_assoc]

mutual
/-- Leaves have no leaves but themselves. -/
theorem leavesOf_leaves : ∀ store : Store, leavesOf store.leaves = store.leaves
  | .tiered [] => rfl
  | .tiered (tier :: tiers) => leavesOf_leavesOf (tier :: tiers)
  | .hashMap .. | .moka _ | .redis .. | .metrics .. | .ext .. => rfl

theorem leavesOf_leavesOf : ∀ stores : List Store, leavesOf (leavesOf stores) = leavesOf stores
  | [] => rfl
  | store :: stores => by
      simp only [leavesOf, leavesOf_append, leavesOf_leaves store, leavesOf_leavesOf stores]
end

end Store

variable {ι : Type} [SerdeJson ι]

/-! ## Look-ups -/

/-- A leaf that a back-fill goes over, and the entry the back-fill was given. -/
structure Target (ι : Type) [SerdeJson ι] where
  leaf : Store
  ns : String
  key : String
  entry : StoredEntry ι

/-- The leaves a back-fill goes over. In which form they get the entry is another matter. -/
def targetsOf (lower : List Store) (ns key : String) (entry : StoredEntry ι) : List (Target ι) :=
  (Store.leavesOf lower).map fun leaf => ⟨leaf, ns, key, entry⟩

theorem targetsOf_append (first second : List Store) (ns key : String) (entry : StoredEntry ι) :
    targetsOf (first ++ second) ns key entry = targetsOf first ns key entry ++
    targetsOf second ns key entry := by
  simp only [targetsOf, Store.leavesOf_append, List.map_append]

/-- Put down the targets in place of the command, if it spawns a back-fill. -/
def Cmd.noting {α : Type} (c : Cmd ι) (next : c.Ans → Code ι (α × List (Target ι))) :
    Code ι (α × List (Target ι)) :=
  match c, next with
  | .spawn (.backfill lower ns key entry), next => do
      let (value, targets) ← next ()
      return (value, targets ++ targetsOf lower ns key entry)
  | c, next => .op c next

/-- The code with the targets of all its back-fills put down, the latest first. -/
def targeting {α : Type} : Code ι α → Code ι (α × List (Target ι))
  | .ret value => .ret (value, [])
  | .op c rest => Cmd.noting c fun r => targeting (rest r)
  | .choice left right => .choice (targeting left) (targeting right)

section Targeting

variable {α β : Type}

/-- The result with more targets. -/
def noted (found : List (Target ι)) (p : Code ι (α × List (Target ι))) :
    Code ι (α × List (Target ι)) := do
  let (value, targets) ← p
  return (value, targets ++ found)

theorem noted_ret (found targets : List (Target ι)) (value : α) :
    noted found (.ret (value, targets)) = .ret (value, targets ++ found) := rfl

theorem noted_noted (first second : List (Target ι)) (p : Code ι (α × List (Target ι))) :
    noted second (noted first p) = noted (first ++ second) p := by
  simp only [noted, bind_assoc, Prog.ret_bind, Prog.pure_eq, List.append_assoc]

theorem noted_nil (p : Code ι (α × List (Target ι))) : noted [] p = p := by
  simp only [noted, List.append_nil]
  exact Prog.bind_ret p

theorem noted_bind (found : List (Target ι)) (p : Code ι (α × List (Target ι)))
    (next : α × List (Target ι) → Code ι (β × List (Target ι))) :
    noted found (p >>= next) = (p >>= fun result => noted found (next result)) := by
  simp only [noted, bind_assoc]

theorem bind_noted (found : List (Target ι)) (p : Code ι (α × List (Target ι)))
    (next : α × List (Target ι) → Code ι β) :
    (noted found p >>= next) = (p >>= fun result => next (result.1, result.2 ++ found)) := by
  simp only [noted, bind_assoc, Prog.ret_bind, Prog.pure_eq]

theorem noting_bind (c : Cmd ι) (next : c.Ans → Code ι (α × List (Target ι)))
    (onward : α → Code ι (β × List (Target ι))) :
    (c.noting next >>= fun result => noted result.2 (onward result.1)) =
      c.noting fun r => next r >>= fun result => noted result.2 (onward result.1) := by
  cases c
  case spawn task =>
    cases task
    case backfill lower ns key entry =>
      simp only [Cmd.noting, bind_assoc, Prog.ret_bind, Prog.pure_eq]
      refine congrArg _ (funext fun result => ?_)
      exact (noted_noted result.2 (targetsOf lower ns key entry) (onward result.1)).symm
    all_goals rfl
  all_goals rfl

theorem targeting_bind (p : Code ι α) (next : α → Code ι β) :
    targeting (p >>= next) = (targeting p >>= fun result =>
      noted result.2 (targeting (next result.1))) := by
  induction p with
  | ret value => exact (noted_nil _).symm
  | op c rest ih =>
      simp only [Prog.op_bind, targeting, ih]
      exact (noting_bind c (fun r => targeting (rest r)) fun value => targeting (next value)).symm
  | choice left right ihl ihr => simp only [Prog.choice_bind, targeting, ihl, ihr]

end Targeting

/-! ## Reads -/

namespace TieredStore

/-- One tier in place of a list. -/
theorem getFrom_one (tier : DynStore ι) (ns key : String) :
    getFrom [] [tier] ns key = tier.get ns key := by
  rw [getFrom]
  refine Eq.trans (congrArg (tier.get ns key >>= ·) (funext fun result => ?_)) (Prog.bind_ret _)
  rcases result with e | _ | entry
  · rfl
  · rfl
  · rfl

/-- The search among `tiers` when those of `lower` had nothing. -/
abbrev search (ι : Type) [SerdeJson ι] (lower tiers : List Store) (ns key : String) :
    Code ι (Except CacheError (Option (StoredEntry ι))) :=
  getFrom (Store.dynList ι lower) (Store.dynList ι tiers) ns key

/-- How a search goes on after one tier. -/
def afterTier (lower : List Store) (tier : Store) (tiers : List Store) (ns key : String) :
    Except CacheError (Option (StoredEntry ι)) →
    Code ι (Except CacheError (Option (StoredEntry ι)) × List (Target ι))
  | .error e => .ret (.error e, [])
  | .ok none => targeting (search ι (lower ++ [tier]) tiers ns key)
  | .ok (some entry) => .ret (.ok (some entry), targetsOf lower ns key entry)

theorem targeting_search_cons (ns key : String) (lower : List Store) (tier : Store)
    (tiers : List Store) : targeting (search ι lower (tier :: tiers) ns key) =
      (targeting ((tier.dyn ι).get ns key) >>= fun result =>
        noted result.2 (afterTier lower tier tiers ns key result.1)) := by
  simp only [search, Store.dynList, getFrom]
  rw [targeting_bind]
  refine congrArg _ (funext fun result => congrArg _ ?_)
  obtain ⟨result, found⟩ := result
  rcases result with e | _ | entry
  · rfl
  · simp only [afterTier, search, Store.dynList_eq_map, List.map_append,
      List.map_cons, List.map_nil]
  · cases lower with
    | nil => rfl
    | cons first rest =>
        have arcs : (first.dyn ι :: Store.dynList ι rest).map DynStore.arc = first :: rest :=
          Store.dynList_arc ι (first :: rest)
        simp only [Store.dynList, List.isEmpty_cons, Bool.not_false, if_true, arcs]
        rfl

/-- How a search goes on after several tiers. -/
def afterTiers (lower tiers more : List Store) (ns key : String) :
    Except CacheError (Option (StoredEntry ι)) →
    Code ι (Except CacheError (Option (StoredEntry ι)) × List (Target ι))
  | .error e => .ret (.error e, [])
  | .ok none => targeting (search ι (lower ++ tiers) more ns key)
  | .ok (some entry) => .ret (.ok (some entry), targetsOf lower ns key entry)

/-- A search among some tiers and more tiers is a search among the former first. What was
    searched before is filled as well. -/
theorem targeting_search_append (ns key : String) (lower before tiers more : List Store) :
    targeting (search ι (lower ++ before) (tiers ++ more) ns key) =
      (targeting (search ι before tiers ns key) >>= fun result =>
        noted result.2 (afterTiers lower (before ++ tiers) more ns key result.1)) := by
  induction tiers generalizing before with
  | nil =>
      simp only [List.nil_append, List.append_nil]
      exact (noted_nil _).symm
  | cons tier tiers ih =>
      rw [List.cons_append, targeting_search_cons, targeting_search_cons, bind_assoc]
      refine congrArg _ (funext fun result => ?_)
      obtain ⟨result, found⟩ := result
      dsimp only
      rw [bind_noted]
      rcases result with e | _ | entry
      · simp only [afterTier, afterTiers, Prog.ret_bind, noted_ret, List.nil_append]
      · simp only [afterTier, List.append_assoc]
        rw [ih, noted_bind]
        simp only [noted_noted, List.append_assoc, List.singleton_append]
      · simp only [afterTier, afterTiers, Prog.ret_bind, targetsOf_append, noted_ret,
          List.append_assoc]

theorem afterTiers_leaves (lower tiers more : List Store) (ns key : String)
    (onward : targeting (search ι (lower ++ tiers) more ns key) =
      targeting (search ι (Store.leavesOf (lower ++ tiers)) (Store.leavesOf more) ns key)) :
    (afterTiers lower tiers more ns key : Except CacheError (Option (StoredEntry ι)) → _) =
      afterTiers (Store.leavesOf lower) (Store.leavesOf tiers) (Store.leavesOf more) ns key := by
  funext result
  rcases result with e | _ | entry
  · rfl
  · simp only [afterTiers, onward, Store.leavesOf_append]
  · simp only [afterTiers, targetsOf, Store.leavesOf_leavesOf]

mutual
/-- A store is searched leaf by leaf. -/
theorem targeting_get (ns key : String) : ∀ store : Store,
    targeting ((store.dyn ι).get ns key) = targeting (search ι [] store.leaves ns key)
  | .tiered [] => congrArg targeting (getFrom_one ((Store.tiered []).dyn ι) ns key).symm
  | .tiered (tier :: tiers) => targeting_search ns key [] (tier :: tiers)
  | .hashMap id evictOnSet =>
      congrArg targeting (getFrom_one ((Store.hashMap id evictOnSet).dyn ι) ns key).symm
  | .moka id => congrArg targeting (getFrom_one ((Store.moka id).dyn ι) ns key).symm
  | .redis server disableExpiration =>
      congrArg targeting (getFrom_one ((Store.redis server disableExpiration).dyn ι) ns key).symm
  | .metrics inner sink =>
      congrArg targeting (getFrom_one ((Store.metrics inner sink).dyn ι) ns key).symm
  | .ext id name mode =>
      congrArg targeting (getFrom_one ((Store.ext id name mode).dyn ι) ns key).symm

theorem targeting_search (ns key : String) (lower : List Store) : ∀ tiers : List Store,
    targeting (search ι lower tiers ns key) =
      targeting (search ι (Store.leavesOf lower) (Store.leavesOf tiers) ns key)
  | [] => rfl
  | store :: stores => by
      have single :
          targeting (search ι [] [store] ns key) = targeting (search ι [] store.leaves ns key) :=
        (congrArg targeting (getFrom_one (store.dyn ι) ns key)).trans (targeting_get ns key store)
      have alone : Store.leavesOf [store] = store.leaves := List.append_nil _
      calc targeting (search ι lower (store :: stores) ns key)
        _ = (targeting (search ι [] [store] ns key) >>= fun result =>
            noted result.2 (afterTiers lower [store] stores ns key result.1)) := by
          have opened : targeting (search ι (lower ++ []) ([store] ++ stores) ns key) = _ :=
            targeting_search_append ns key lower [] [store] stores
          rwa [List.append_nil] at opened
        _ = (targeting (search ι [] store.leaves ns key) >>= fun result => noted result.2
            (afterTiers (Store.leavesOf lower) store.leaves
              (Store.leavesOf stores) ns key result.1)) := by
          rw [single,
            afterTiers_leaves lower [store] stores ns key (targeting_search ns key _ stores), alone]
        _ = targeting (search ι (Store.leavesOf lower)
          (Store.leavesOf (store :: stores)) ns key) := by
          have opened : targeting (search ι (Store.leavesOf lower ++ [])
              (store.leaves ++ Store.leavesOf stores) ns key) = _ :=
            targeting_search_append ns key (Store.leavesOf lower) [] store.leaves
              (Store.leavesOf stores)
          rw [List.append_nil] at opened
          exact opened.symm
end

end TieredStore

/-! ## Writes -/

/-- The form of an entry that is converted once more. -/
def StorageMode.through : StorageMode → StorageMode → StorageMode
  | .typed, mode => mode
  | .serialized, _ => .serialized

/-- Two conversions are one. -/
theorem convertForMode_through (entry : StoredEntry ι) (first second : StorageMode) :
    (entry.convertForMode first >>= fun converted => converted.convertForMode second) =
      entry.convertForMode (first.through second) := by
  cases first with
  | typed => cases entry <;> rfl
  | serialized =>
      cases entry with
      | serialized => cases second <;> rfl
      | typed value freshUntil staleUntil serializer =>
          cases serializer with
          | none => rfl
          | some serializer =>
              cases serializer with
              | error e => rfl
              | ok data => cases second <;> rfl

theorem convertForMode_typed (entry : StoredEntry ι) : entry.convertForMode .typed = .ok entry := by
  cases entry <;> rfl

section Places

variable (ι)

mutual
/-- The leaves, each with the form in which it gets an entry that comes in the form `wanted`. -/
def Store.places (wanted : StorageMode) : Store → List (Store × StorageMode)
  | .tiered [] => [(.tiered [], wanted.through ((Store.tiered []).dyn ι).storageMode)]
  | .tiered tiers => Store.placesOf (wanted.through ((Store.tiered tiers).dyn ι).storageMode) tiers
  | store => [(store, wanted.through (store.dyn ι).storageMode)]

def Store.placesOf (wanted : StorageMode) : List Store → List (Store × StorageMode)
  | [] => []
  | store :: stores => Store.places wanted store ++ Store.placesOf wanted stores
end

mutual
theorem Store.places_leaves (wanted : StorageMode) : ∀ store : Store,
    (store.places ι wanted).map Prod.fst = store.leaves
  | .tiered [] => rfl
  | .tiered (tier :: tiers) => Store.placesOf_leaves _ (tier :: tiers)
  | .hashMap .. | .moka _ | .redis .. | .metrics .. | .ext .. => rfl

theorem Store.placesOf_leaves (wanted : StorageMode) : ∀ stores : List Store,
    (Store.placesOf ι wanted stores).map Prod.fst = Store.leavesOf stores
  | [] => rfl
  | store :: stores => by
      simp only [Store.placesOf, Store.leavesOf, List.map_append, Store.places_leaves wanted store,
        Store.placesOf_leaves wanted stores]
end

theorem Store.flatten_places (wanted : StorageMode) (stores : List Store) :
    (stores.map (Store.places ι wanted)).flatten = Store.placesOf ι wanted stores := by
  induction stores with
  | nil => rfl
  | cons store stores ih => simp only [List.map_cons, List.flatten_cons, Store.placesOf, ih]

mutual
/-- What comes in serialized stays so. -/
theorem Store.places_serialized :
    ∀ store : Store, ∀ place ∈ store.places ι .serialized, place.2 = .serialized
  | .tiered [] | .hashMap .. | .moka _ | .redis .. | .metrics .. | .ext .. => by
      intro place member
      obtain rfl := List.mem_singleton.mp member
      rfl
  | .tiered (tier :: tiers) => Store.placesOf_serialized (tier :: tiers)

theorem Store.placesOf_serialized : ∀ stores : List Store,
    ∀ place ∈ Store.placesOf ι .serialized stores, place.2 = .serialized
  | [] => List.forall_mem_nil _
  | store :: stores => by
      intro place member
      rcases List.mem_append.mp member with here | later
      · exact Store.places_serialized store place here
      · exact Store.placesOf_serialized stores place later
end

mutual
theorem Store.places_ne_nil (wanted : StorageMode) : ∀ store : Store, store.places ι wanted ≠ []
  | .tiered [] | .hashMap .. | .moka _ | .redis .. | .metrics .. | .ext .. => List.cons_ne_nil _ _
  | .tiered (tier :: tiers) => Store.placesOf_ne_nil _ (tier :: tiers) (List.cons_ne_nil _ _)

theorem Store.placesOf_ne_nil (wanted : StorageMode) : ∀ stores : List Store, stores ≠ [] →
    Store.placesOf ι wanted stores ≠ []
  | [], absent => absurd rfl absent
  | store :: _, _ => List.append_ne_nil_of_left_ne_nil (Store.places_ne_nil wanted store) _
end

end Places

namespace TieredStore

variable (ns key : String) (entry : StoredEntry ι)

/-- Set a leaf, in this form. -/
def setLeaf (place : Store × StorageMode) : Code ι (Except CacheError Unit) :=
  match entry.convertForMode place.2 with
  | .error e => return .error e
  | .ok converted => (place.1.dyn ι).set ns key converted

theorem firstError_folds : Prog.Folds firstError fun first second => first >>= fun _ => second where
  single result := by cases result <;> rfl
  append results more := by
    induction results with
    | nil => rfl
    | cons result results ih =>
        cases result with
        | error => rfl
        | ok => exact ih

/-- A tier converts what was converted before. -/
theorem setTier_through {wanted : StorageMode} {converted : StoredEntry ι}
    (done : entry.convertForMode wanted = .ok converted) (store : Store) :
    setTier ns key converted (store.dyn ι) =
      setLeaf ns key entry (store, wanted.through (store.dyn ι).storageMode) := by
  simp only [setTier, setLeaf, ← convertForMode_through, done]
  rfl

/-- What cannot be converted cannot be converted for any of the leaves. -/
theorem gather_failed {wanted : StorageMode} {e : CacheError}
    (failed : entry.convertForMode wanted = .error e) (tier : Store) (tiers : List Store) :
    Prog.gather firstError ((Store.placesOf ι wanted (tier :: tiers)).map (setLeaf ns key entry)) =
      .ret (.error e) := by
  have serialized : wanted = .serialized := by
    cases wanted with
    | typed =>
        rw [convertForMode_typed] at failed
        cases failed
    | serialized => rfl
  subst serialized
  have all : (Store.placesOf ι .serialized (tier :: tiers)).map (setLeaf ns key entry) =
      ((Store.placesOf ι .serialized (tier :: tiers)).map fun _ => .error e).map .ret := by
    rw [List.map_map]
    refine List.map_congr_left fun place member => ?_
    simp only [setLeaf, Store.placesOf_serialized ι _ place member, failed, Prog.pure_eq,
      Function.comp]
  obtain ⟨place, places, same⟩ := List.exists_cons_of_ne_nil
    (Store.placesOf_ne_nil ι .serialized (tier :: tiers) (List.cons_ne_nil _ _))
  rw [Prog.gather, all, Prog.joinAll_returned, Prog.ret_bind, same]
  rfl

mutual
/-- Setting a store is setting its leaves together. -/
theorem setLeaf_alike (wanted : StorageMode) : ∀ store : Store,
    Prog.Alike (setLeaf ns key entry (store, wanted.through (store.dyn ι).storageMode))
      (Prog.gather firstError ((store.places ι wanted).map (setLeaf ns key entry)))
  | .tiered (tier :: tiers) => by
      simp only [Store.places]
      cases converts : entry.convertForMode
        (wanted.through ((Store.tiered (tier :: tiers)).dyn ι).storageMode) with
      | error e =>
          rw [gather_failed ns key entry converts]
          simp only [setLeaf, converts]
          exact .refl _
      | ok converted =>
          simp only [setLeaf, converts]
          exact setAll_alike _ converted converts (tier :: tiers)
  | .tiered [] | .hashMap .. | .moka _ | .redis .. | .metrics .. | .ext .. => by
      simp only [Store.places, List.map_cons, List.map_nil, Prog.gather_one firstError_folds]
      exact .refl _

theorem setAll_alike (wanted : StorageMode) (converted : StoredEntry ι)
    (done : entry.convertForMode wanted = .ok converted) : ∀ stores : List Store,
    Prog.Alike (Prog.gather firstError ((Store.dynList ι stores).map (setTier ns key converted)))
      (Prog.gather firstError ((Store.placesOf ι wanted stores).map (setLeaf ns key entry)))
  | [] => .refl _
  | store :: stores => by
      simp only [Store.dynList, Store.placesOf, List.map_cons, List.map_append]
      rw [setTier_through ns key entry done]
      exact Prog.gather_open firstError_folds (setLeaf_alike wanted store)
        (setAll_alike wanted converted done stores)
end

mutual
/-- Removing from a store is removing from its leaves together. -/
theorem remove_alike (ns : String) (keys : List String) : ∀ store : Store,
    Prog.Alike ((store.dyn ι).remove ns keys)
      (Prog.gather firstError (store.leaves.map fun leaf => (leaf.dyn ι).remove ns keys))
  | .tiered (tier :: tiers) => removeAll_alike ns keys (tier :: tiers)
  | .tiered [] | .hashMap .. | .moka _ | .redis .. | .metrics .. | .ext .. => by
      simp only [Store.leaves, List.map_cons, List.map_nil, Prog.gather_one firstError_folds]
      exact .refl _

theorem removeAll_alike (ns : String) (keys : List String) : ∀ stores : List Store,
    Prog.Alike (Prog.gather firstError ((Store.dynList ι stores).map fun tier =>
      tier.remove ns keys)) (Prog.gather firstError ((Store.leavesOf stores).map fun leaf =>
        (leaf.dyn ι).remove ns keys))
  | [] => .refl _
  | store :: stores => by
      simp only [Store.dynList, Store.leavesOf, List.map_cons, List.map_append]
      exact Prog.gather_open firstError_folds (remove_alike ns keys store)
        (removeAll_alike ns keys stores)
end

end TieredStore

/-- However tiers are nested: a write sets every leaf once, all of them together. A leaf gets
    the entry in its own form, or serialized if some tiers on the way to it want it so, and
    the first error in the order of the leaves is returned. A removal takes the keys from
    the leaves as one `TieredStore` of all leaves does. -/
theorem nested_writes (tiers : List Store) (ns key : String) (entry : StoredEntry ι)
    (keys : List String) : Prog.Alike (((Store.tiered tiers).dyn ι).set ns key entry) (do
      let results ← Prog.joinAll
        ((Store.placesOf ι .typed tiers).map (TieredStore.setLeaf ns key entry))
      return TieredStore.firstError results) ∧
    (Store.placesOf ι .typed tiers).map Prod.fst = Store.leavesOf tiers ∧
    Prog.Alike (((Store.tiered tiers).dyn ι).remove ns keys)
      (((Store.tiered (Store.leavesOf tiers)).dyn ι).remove ns keys) := by
  refine ⟨?_, Store.placesOf_leaves ι .typed tiers, ?_⟩
  · exact TieredStore.setAll_alike ns key entry .typed entry (convertForMode_typed entry) tiers
  · have flat : Prog.Alike (((Store.tiered tiers).dyn ι).remove ns keys) _ :=
      TieredStore.removeAll_alike ns keys tiers
    have same := Store.dynList_eq_map ι (Store.leavesOf tiers)
    refine flat.trans ?_
    simp only [Store.dyn, TieredStore.dyn, TieredStore.remove, same, List.map_map]
    exact .refl _

/-! ## Back-fills -/

namespace TieredStore

/-- Set the leaves of one tier after the other, those of a tier together. -/
def setInTurn (ns key : String) (entry : StoredEntry ι) :
    List (List (Store × StorageMode)) → Code ι Unit
  | [] => return ()
  | places :: rest => do
      let _ ← Prog.joinAll (places.map (setLeaf ns key entry))
      setInTurn ns key entry rest

/-- A tier whose entry cannot be converted is passed over. -/
theorem backfill_cons (ns key : String) (entry : StoredEntry ι) (tier : Store)
    (lower : List (DynStore ι)) : backfill (tier.dyn ι :: lower) ns key entry =
      (setLeaf ns key entry (tier, (tier.dyn ι).storageMode) >>= fun _ =>
        backfill lower ns key entry) := by
  simp only [backfill, setLeaf]
  cases entry.convertForMode (tier.dyn ι).storageMode with
  | error e => rfl
  | ok converted => rfl

/-- A back-fill opens the tiers it fills. -/
theorem backfill_opens (ns key : String) (entry : StoredEntry ι) : ∀ lower : List Store,
    Prog.Alike (backfill (Store.dynList ι lower) ns key entry)
      (setInTurn ns key entry (lower.map (Store.places ι .typed)))
  | [] => .refl _
  | tier :: lower => by
      have opened : Prog.Alike (setLeaf ns key entry (tier, (tier.dyn ι).storageMode)) _ :=
        setLeaf_alike ns key entry .typed tier
      simp only [Store.dynList, backfill_cons, List.map_cons, setInTurn]
      refine (opened.bind fun _ => backfill_opens ns key entry lower).trans ?_
      simp only [Prog.gather, bind_assoc, Prog.ret_bind, Prog.pure_eq]
      exact .refl _

end TieredStore

/-- However tiers are nested: a look-up asks the leaves as one `TieredStore` of all leaves
    does, returns the same, and its back-fills go over the same leaves in the same order. A
    back-fill sets the leaves of one tier after the other, each once. A leaf gets the entry in
    its own form, or serialized if some tiers on the way to it want it so, and is passed over
    if that fails. -/
theorem nested_get (store : Store) (ns key : String) :
    targeting ((store.dyn ι).get ns key) =
      targeting (((Store.tiered store.leaves).dyn ι).get ns key) ∧
    ∀ lower (entry : StoredEntry ι),
      Prog.Alike (TieredStore.backfill (Store.dynList ι lower) ns key entry)
        (TieredStore.setInTurn ns key entry (lower.map (Store.places ι .typed))) ∧
      (targetsOf lower ns key entry).map Target.leaf =
        (lower.map (Store.places ι .typed)).flatten.map Prod.fst := by
  refine ⟨TieredStore.targeting_get ns key store, fun lower entry => ⟨?_, ?_⟩⟩
  · exact TieredStore.backfill_opens ns key entry lower
  · rw [Store.flatten_places, Store.placesOf_leaves, targetsOf, List.map_map]
    exact List.map_id _

end Swr
