import Mathlib.Logic.Function.Basic
import Swr.Cache

/-! # The ideal cache

What a cache is for, said without tiers, background tasks and formats: one map from keys
to entries, read and written by whole calls.
-/

namespace Swr

/-- The durations of the cache, and whether it still shows an entry that has expired. -/
structure Ideal where
  freshMs : Int
  staleMs : Int
  keepsExpired : Bool

namespace Ideal

variable {V : Type}

inductive Answer (V : Type) where
  | value (found : Option V)
  | done

def visible (self : Ideal) (t : Int) (held : Option (Entry V)) : Option (Entry V) :=
  held.filter (fun e => t < e.staleUntil || self.keepsExpired)

def renewed (self : Ideal) (t : Int) (loaded : Option V) (held : Option (Entry V)) :
    Option (Entry V) :=
  match loaded with
  | some value => some ⟨value, t + self.freshMs, t + self.staleMs⟩
  | none => held

/-- One look at a key: the value that is returned, whether the origin is called, and what
    the key holds afterwards. -/
def swr (self : Ideal) (t : Int) (loaded : Option V) (held : Option (Entry V)) :
    Option V × Bool × Option (Entry V) :=
  match self.visible t held with
  | none => (loaded, true, self.renewed t loaded held)
  | some e =>
      if t ≥ e.staleUntil then (some (loaded.getD e.value), true, self.renewed t loaded held)
      else if t ≥ e.freshUntil then (some e.value, true, self.renewed t loaded held)
      else (some e.value, false, held)

/-- One call at time `t`, when the origin would return `loaded`: the answer, the keys
    for which the origin is called, and the map afterwards. -/
def step (self : Ideal) (t : Int) (loaded : Option V) (m : String → Option (Entry V)) :
    Call V → (Answer V × List String) × (String → Option (Entry V))
  | .get key => ((.value ((self.visible t (m key)).map Entry.value), []), m)
  | .set key value =>
      ((.done, []), Function.update m key (some ⟨value, t + self.freshMs, t + self.staleMs⟩))
  | .setWithOptions key value freshMs staleMs =>
      ((.done, []), Function.update m key (some ⟨value, t + freshMs, t + staleMs⟩))
  | .remove key => ((.done, []), Function.update m key none)
  | .swr key =>
      let (value, loads, held) := self.swr t loaded (m key)
      ((.value value, if loads then [key] else []), Function.update m key held)

end Ideal

end Swr
