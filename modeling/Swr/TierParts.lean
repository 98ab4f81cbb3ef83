import Swr.Async.Alone
import Swr.System

/-! # Where the tiers keep their contents

A command touches one map, one server or one foreign store, and none of the others.
-/

namespace Swr

open Async

variable {ι : Type} [SerdeJson ι]

/-- A place where a store keeps its contents. -/
inductive Home where
  | map (id : MapId)
  | server (server : Nat)
  | ext (store : Nat)
  deriving DecidableEq

/-- What is kept at one place. -/
inductive Held (ι : Type) [SerdeJson ι] where
  | map (m : HashMap ι)
  | server (items : String → Option RedisItem)
  | ext (m : Contents ι)

def World.held (w : World ι) : Home → Held ι
  | .map id => .map (w.maps id)
  | .server server => .server (w.redis server)
  | .ext store => .ext (w.ext store)

/-- The place that a command touches. -/
def Cmd.home : Cmd ι → Option Home
  | .mapRead map _ | .mapGet map _ | .mapInsert map .. | .mapExpire map _ | .mapRemove map _ |
      .mapEvict map _ =>
      some (.map map)
  | .redisGet server _ | .redisSet server .. | .redisSetEx server .. | .redisDel server _ =>
      some (.server server)
  | .extGet store .. | .extSet store .. | .extRemove store .. => some (.ext store)
  | _ => none

section Frame

variable {w : World ι} {home : Home}

theorem held_setMap {map : MapId} {m : HashMap ι} (other : some (.map map) ≠ some home) :
    (w.setMap map m).held home = w.held home := by
  cases home with
  | map id =>
      have apart : id ≠ map := fun same => other (by rw [same])
      simp only [World.held, World.setMap_maps, if_neg apart]
  | server | ext => rfl

theorem held_redis {server : Nat} {items : String → Option RedisItem}
    (other : some (.server server) ≠ some home) :
    World.held { w with redis := Function.update w.redis server items } home = w.held home := by
  cases home with
  | server server' =>
      have apart : server' ≠ server := fun same => other (by rw [same])
      simp only [World.held, Function.update_of_ne apart]
  | map | ext => rfl

theorem held_setExt {store : Nat} {m : Contents ι} (other : some (.ext store) ≠ some home) :
    (w.setExt store m).held home = w.held home := by
  cases home with
  | ext store' =>
      have apart : store' ≠ store := fun same => other (by rw [same])
      simp only [World.held, World.setExt, Function.update_of_ne apart]
  | map | server => rfl

/-- A command leaves alone what is kept anywhere else. -/
theorem exec_frame {X : ExtSemantics ι} {i : Nat} {t : Int} {w' : World ι} {c : Cmd ι} {r : c.Ans}
    (done : exec X i t w c r w') (other : c.home ≠ some home) : w'.held home = w.held home := by
  cases c
  case mapInsert | mapExpire | mapRemove =>
    obtain rfl := done
    exact held_setMap other
  case mapEvict =>
    obtain ⟨_, _, rfl⟩ := done
    exact held_setMap other
  case redisSet | redisSetEx | redisDel =>
    rcases done with ⟨_, rfl⟩ | ⟨_, _, rfl | rfl⟩
    · exact held_redis other
    · rfl
    · exact held_redis other
  case extGet | extSet | extRemove =>
    obtain ⟨_, _, rfl⟩ := done
    exact held_setExt other
  case now | rand | mapRead | mapGet | redisGet | containsKey =>
    obtain ⟨_, rfl⟩ := done
    rfl
  case sleep | spawn | loadStart | loadEnd =>
    obtain rfl := done
    rfl
  case insertMarker | removeMarker | emit =>
    obtain rfl := done
    cases home <;> rfl

end Frame

/-- Thread `i` may be answered `r` to the command, at some time. -/
def Cmd.May (i : Nat) (c : Cmd ι) (w : World ι) (r : c.Ans) (w' : World ι) : Prop :=
  ∃ t, exec .faulty i t w c r w'

/-! ## The places of a store -/

namespace Store

mutual
/-- The places where a tree of stores keeps its contents. -/
def homes : Store → List Home
  | .hashMap id _ => [.map (.hashMap id)]
  | .moka id => [.map (.moka id)]
  | .redis server _ => [.server server]
  | .tiered tiers => homesOf tiers
  | .metrics inner _ => homes inner
  | .ext id .. => [.ext id]

def homesOf : List Store → List Home
  | [] => []
  | store :: stores => homes store ++ homesOf stores
end

theorem mem_homesOf {stores : List Store} {home : Home} :
    home ∈ homesOf stores ↔ ∃ store ∈ stores, home ∈ store.homes := by
  induction stores with
  | nil => simp [homesOf]
  | cons store stores ih => simp [homesOf, ih]

/-- No two of the stores share a place. -/
def Distinct (stores : List Store) : Prop :=
  stores.Pairwise fun store store' => store.homes.Disjoint store'.homes

end Store

end Swr
