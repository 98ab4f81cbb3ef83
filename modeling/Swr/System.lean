import Swr.Async.Session
import Swr.Cache
import Swr.World

/-! # The system

All tasks of the library as one interleaving machine.
-/

namespace Swr

open Async

/-- What a finished task returns. -/
inductive Out (ι : Type) [SerdeJson ι] where
  | entry (result : Except CacheError (Option (StoredEntry ι)))
  | value (ty : ι) (result : Except CacheError (Option (Val ty)))
  | done (result : Except CacheError Unit)

/-- What a piece of code was answered. -/
abbrev Log (ι : Type) [SerdeJson ι] := List (Σ c : Cmd ι, c.Ans)

variable {ι : Type} [SerdeJson ι] [DecidableEq ι]

/-- The code of each task. -/
def Task.body : Task ι → Code ι (Out ι)
  | .get cache ns key => do return .value cache.ty (← cache.get ns key)
  | .set cache ns key value opts => do return .done (← cache.set ns key value opts)
  | .remove cache ns key => do return .done (← cache.remove ns key)
  | .swr cache ns key => do return .value cache.ty (← cache.swr ns key)
  | .storeGet store ns key => do return .entry (← (store.dyn ι).get ns key)
  | .storeSet store ns key entry => do return .done (← (store.dyn ι).set ns key entry)
  | .storeRemove store ns keys => do return .done (← (store.dyn ι).remove ns keys)
  | .cacheValue cache ns key value freshUntil staleUntil => do
      cache.cacheValueTask ns key value freshUntil staleUntil
      return .done (.ok ())
  | .revalidate cache ns key => do
      cache.revalidateTask ns key
      return .done (.ok ())
  | .backfill lower ns key entry => do
      TieredStore.backfill (Store.dynList ι lower) ns key entry
      return .done (.ok ())
  | .redisDel server cacheKey => do
      RedisStore.backgroundDel server cacheKey
      return .done (.ok ())

/-- The tasks a command starts. -/
def Cmd.spawned : Cmd ι → List (Task ι)
  | .spawn task => [task]
  | _ => []

omit [DecidableEq ι] in
theorem Cmd.mem_spawned {c : Cmd ι} {task : Task ι} : task ∈ c.spawned ↔ c = .spawn task := by
  cases c <;> simp [Cmd.spawned, eq_comm]

omit [DecidableEq ι] in
/-- Of a command that starts no task. -/
theorem Cmd.all_spawned {c : Cmd ι} {P : Task ι → Prop} (quiet : c.spawned = []) :
    ∀ task ∈ c.spawned, P task := by
  rw [quiet]
  exact List.forall_mem_nil P

/-- The machine that runs any number of calls with the tasks they spawn. -/
abbrev system (X : ExtSemantics ι) : System where
  sig := sig ι
  Task := Task ι
  Out := Out ι
  World := World ι
  body := Task.body
  spawned := Cmd.spawned
  exec := exec X

/-- Only calls are started from outside, the other tasks are left to the library. -/
def FromOutside {X : ExtSemantics ι} (l : Label (system X)) : Prop :=
  ∀ task ∈ l.starting, task.isCall = true

instance {X : ExtSemantics ι} (l : Label (system X)) : Decidable (FromOutside l) :=
  inferInstanceAs (Decidable (∀ _ ∈ _, _))

/-- Drive the machine by clock readings and origin outcomes. -/
def driver : Driver (system (ι := ι) .atomicMap) (Int × ((i : ι) → Option (Val i))) where
  time input := input.1
  answer input i w c := perform (.calm input.1 input.2) i input.1 w c
  sound input i w c := perform_exec_atomicMap input.1 input.2 i input.1 w c

/-- What a command does to a task on its own. -/
theorem driver_alone {i : Nat} {inputs : Nat → Int × ((i : ι) → Option (Val i))} {c : Cmd ι}
    {a : Solo (system (ι := ι) .atomicMap)} :
    let input := inputs a.issued.length
    let done := perform (.calm input.1 input.2) i input.1 a.world c
    driver.alone i inputs c a = (done.1, ⟨done.2, a.spawned ++ c.spawned, a.issued ++ [c]⟩) := rfl

/-! ## Calls on a cache -/

namespace Cache

variable {cache : Cache ι}

omit [DecidableEq ι] in
/-- The task of a call. -/
def task (cache : Cache ι) : Call cache.V → Task ι
  | .get key => .get cache.swrCache cache.ns key
  | .set key value => .set cache.swrCache cache.ns key value none
  | .setWithOptions key value freshMs staleMs =>
      .set cache.swrCache cache.ns key value (some ⟨freshMs, staleMs⟩)
  | .remove key => .remove cache.swrCache cache.ns key
  | .swr key => .swr cache.swrCache cache.ns key

/-- The method that a call is a call of. -/
def code (cache : Cache ι) : Call cache.V → Code ι (Out ι)
  | .get key => do return .value _ (← cache.get key)
  | .set key value => do return .done (← cache.set key value)
  | .setWithOptions key value freshMs staleMs => do
      return .done (← cache.setWithOptions key value freshMs staleMs)
  | .remove key => do return .done (← cache.remove key)
  | .swr key => do return .value _ (← cache.swr key)

theorem task_body (call : Call cache.V) : (cache.task call).body = cache.code call := by
  cases call <;> rfl

end Cache

/-! ## Calls on a store -/

inductive StoreCall (ι : Type) [SerdeJson ι] where
  | get (ns key : String)
  | set (ns key : String) (entry : StoredEntry ι)
  | remove (ns : String) (keys : List String)

omit [DecidableEq ι] in
/-- The task of a call. -/
def StoreCall.task (store : Store) : StoreCall ι → Task ι
  | .get ns key => .storeGet store ns key
  | .set ns key entry => .storeSet store ns key entry
  | .remove ns keys => .storeRemove store ns keys

end Swr
