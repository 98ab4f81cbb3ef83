import Swr.Store

/-! # MetricsStore -/

namespace Swr.MetricsStore

variable {ι : Type} [SerdeJson ι]

def get (inner : DynStore ι) (sink : Nat) (ns key : String) :
    Code ι (Except CacheError (Option (StoredEntry ι))) := do
  let result ← inner.get ns key
  let (hit, status) ← match result with
    | .ok (some entry) => do
        let now ← Ask.now
        let status :=
          if entry.isFresh now then some CacheEntryStatus.fresh
          else if entry.isStale now then some CacheEntryStatus.stale
          else none
        pure (true, status)
    | .ok none => pure (false, none)
    | .error _ => pure (false, none)
  Ask.emit sink (.read key hit status inner.name ns)
  return result

def set (inner : DynStore ι) (sink : Nat) (ns key : String) (entry : StoredEntry ι) :
    Code ι (Except CacheError Unit) := do
  let result ← inner.set ns key entry
  Ask.emit sink (.write key inner.name ns)
  return result

def remove (inner : DynStore ι) (sink : Nat) (ns : String) (keys : List String) :
    Code ι (Except CacheError Unit) := do
  let result ← inner.remove ns keys
  Ask.emit sink (.remove keys.length keys.head? inner.name ns)
  return result

def dyn (inner : DynStore ι) (sink : Nat) : DynStore ι where
  arc := .metrics inner.arc sink
  name := "metrics"
  storageMode := inner.storageMode
  get := get inner sink
  set := set inner sink
  remove := remove inner sink

end Swr.MetricsStore
