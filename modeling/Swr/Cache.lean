import Swr.SwrCache

/-! # Cache

A namespace and an `SwrCache` over a `TieredStore`.
-/

namespace Swr

structure Cache (ι : Type) where
  ns : String
  swrCache : SwrCache ι

namespace Cache

variable {ι : Type} [SerdeJson ι]

/-- `Cache::new`. -/
def new (ty : ι) (ns : String) (stores : List Store) (freshMs staleMs : Int) (revalidating : Nat) :
    Cache ι :=
  ⟨ns, .new ty (.tiered stores) freshMs staleMs revalidating⟩

/-- `Cache::with_optional_stores`. -/
def withOptionalStores (ty : ι) (ns : String) (stores : List (Option Store)) (freshMs staleMs : Int)
    (revalidating : Nat) : Cache ι :=
  ⟨ns, .new ty (.tiered (stores.filterMap id)) freshMs staleMs revalidating⟩

/-- The type of the values the cache stores. -/
abbrev V (self : Cache ι) : Type := Val self.swrCache.ty

def set (self : Cache ι) (key : String) (value : self.V) : Code ι (Except CacheError Unit) :=
  self.swrCache.set self.ns key value none

def setWithOptions (self : Cache ι) (key : String) (value : self.V) (freshMs staleMs : Int) :
    Code ι (Except CacheError Unit) :=
  self.swrCache.set self.ns key value (some ⟨freshMs, staleMs⟩)

def remove (self : Cache ι) (key : String) : Code ι (Except CacheError Unit) :=
  self.swrCache.remove self.ns key

variable [DecidableEq ι]

def get (self : Cache ι) (key : String) : Code ι (Except CacheError (Option self.V)) :=
  self.swrCache.get self.ns key

def swr (self : Cache ι) (key : String) : Code ι (Except CacheError (Option self.V)) :=
  self.swrCache.swr self.ns key

end Cache

/-- A call of one of the methods of a `Cache` of `V`s. -/
inductive Call (V : Type) where
  | get (key : String)
  | set (key : String) (value : V)
  | setWithOptions (key : String) (value : V) (freshMs staleMs : Int)
  | remove (key : String)
  | swr (key : String)

end Swr
