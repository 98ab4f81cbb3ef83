import Swr.Utils

/-! # Entries

The value types a program caches are indexed by `ι`, which plays the part of
`TypeId`: a type-erased `Arc<dyn Any>` is a value together with its index.
`serde_json` is not part of the repository and enters as the class `SerdeJson`;
what is assumed of it is a class of its own, `LawfulSerdeJson`.
-/

namespace Swr

/-- Error type for cache operations. -/
inductive CacheError where
  | operation (tier key message : String)
  | serialization (message : String)
  deriving DecidableEq

/-- The `#[error(...)]` texts. -/
def CacheError.display : CacheError → String
  | .operation tier key message =>
      "[" ++ tier ++ "] cache error for key '" ++ key ++ "': " ++ message
  | .serialization message => "Serialization error: " ++ message

/-- A cache entry containing a value and its expiration times. -/
structure Entry (V : Type) where
  value : V
  freshUntil : Int
  staleUntil : Int
  deriving DecidableEq

namespace Entry

variable {V : Type}

def isFresh (e : Entry V) (now : Int) : Bool := now < e.freshUntil

def isStale (e : Entry V) (now : Int) : Bool := now ≥ e.freshUntil && now < e.staleUntil

def isExpired (e : Entry V) (now : Int) : Bool := now ≥ e.staleUntil

end Entry

/-- The struct `RedisStore::get` reads the stamps with. -/
structure EntryMetadata where
  freshUntil : Int
  staleUntil : Int
  deriving DecidableEq

/-- The cached types and what `serde_json` does with their entries. A failure is
    `serde_json`'s own message. -/
class SerdeJson (ι : Type) where
  Val : ι → Type
  toString : (i : ι) → Entry (Val i) → Except String String
  fromStr : (i : ι) → String → Except String (Entry (Val i))
  metadataFromStr : String → Except String EntryMetadata

export SerdeJson (Val)

/-- Every entry can be written, is read back as it was, and shows its own stamps to
    a reader that asks for nothing else. -/
class LawfulSerdeJson (ι : Type) [SerdeJson ι] : Prop where
  roundTrip (i : ι) (e : Entry (Val i)) : ∃ data, SerdeJson.toString i e = .ok data ∧
    SerdeJson.fromStr i data = .ok e ∧
    SerdeJson.metadataFromStr ι data = .ok ⟨e.freshUntil, e.staleUntil⟩

/-- Storage mode preference for stores. -/
inductive StorageMode where
  | typed
  | serialized
  deriving DecidableEq

/-- Type-erased storage entry. A serializer is a closure without arguments and
    without state, so it is given by what calling it returns. -/
inductive StoredEntry (ι : Type) [SerdeJson ι] where
  | typed (value : Σ i : ι, Val i) (freshUntil staleUntil : Int)
      (serializer : Option (Except CacheError String))
  | serialized (data : String) (freshUntil staleUntil : Int)

namespace StoredEntry

variable {ι : Type} [SerdeJson ι]

/-- `from_typed`. -/
def fromTyped (i : ι) (value : Val i) (freshUntil staleUntil : Int) : StoredEntry ι :=
  .typed ⟨i, value⟩ freshUntil staleUntil none

/-- `serde_json::to_string(..).map_err(..)`, with the text both callers use. -/
def serialize (i : ι) (e : Entry (Val i)) : Except CacheError String :=
  match SerdeJson.toString i e with
  | .ok data => .ok data
  | .error message => .error (.serialization ("Serialization failed: " ++ message))

/-- `from_typed_with_serializer`: the serializer captured the value and the stamps. -/
def fromTypedWithSerializer (i : ι) (value : Val i) (freshUntil staleUntil : Int) :
    StoredEntry ι :=
  .typed ⟨i, value⟩ freshUntil staleUntil (some (serialize i ⟨value, freshUntil, staleUntil⟩))

/-- `from_serialized`. -/
def fromSerialized (data : String) (freshUntil staleUntil : Int) : StoredEntry ι :=
  .serialized data freshUntil staleUntil

def freshUntil : StoredEntry ι → Int
  | .typed _ freshUntil _ _ => freshUntil
  | .serialized _ freshUntil _ => freshUntil

def staleUntil : StoredEntry ι → Int
  | .typed _ _ staleUntil _ => staleUntil
  | .serialized _ _ staleUntil => staleUntil

def isFresh (e : StoredEntry ι) (now : Int) : Bool := now < e.freshUntil

def isStale (e : StoredEntry ι) (now : Int) : Bool := now ≥ e.freshUntil && now < e.staleUntil

def isExpired (e : StoredEntry ι) (now : Int) : Bool := now ≥ e.staleUntil

/-- `into_typed`: a typed entry is downcast, a serialized one brings its stamps along
    in the JSON and the outer ones are not looked at. -/
def intoTyped [DecidableEq ι] (i : ι) : StoredEntry ι → Except CacheError (Entry (Val i))
  | .typed value freshUntil staleUntil _ =>
      if same : value.1 = i then .ok ⟨same ▸ value.2, freshUntil, staleUntil⟩
      else .error (.serialization "Type downcast failed")
  | .serialized data _ _ =>
      match SerdeJson.fromStr i data with
      | .ok entry => .ok entry
      | .error message => .error (.serialization ("Deserialization failed: " ++ message))

/-- `to_serialized`. -/
def toSerialized : StoredEntry ι → Except CacheError (StoredEntry ι)
  | .serialized data freshUntil staleUntil => .ok (.serialized data freshUntil staleUntil)
  | .typed _ freshUntil staleUntil (some ser) =>
      match ser with
      | .ok data => .ok (.serialized data freshUntil staleUntil)
      | .error e => .error e
  | .typed _ _ _ none =>
      .error (.serialization "Cannot serialize Typed entry: no serializer available")

/-- `convert_for_mode`: only a typed entry on its way to a serialized store is
    converted. -/
def convertForMode (e : StoredEntry ι) (target : StorageMode) : Except CacheError (StoredEntry ι) :=
  match e, target with
  | .typed .., .serialized => e.toSerialized
  | .typed .., .typed | .serialized .., .serialized | .serialized .., .typed => .ok e

/-! ## What conversions keep -/

theorem isExpired_iff {e : StoredEntry ι} {now : Int} :
    e.isExpired now = true ↔ e.staleUntil ≤ now := by
  simp [isExpired]

theorem toSerialized_stamps {e e' : StoredEntry ι} (h : e.toSerialized = .ok e') :
    e'.freshUntil = e.freshUntil ∧ e'.staleUntil = e.staleUntil := by
  cases e with
  | serialized => cases h; exact ⟨rfl, rfl⟩
  | typed value fresh stale serializer =>
      cases serializer with
      | none => cases h
      | some ser => cases ser <;> cases h; exact ⟨rfl, rfl⟩

/-- Converting an entry leaves its outer stamps as they are. -/
theorem convertForMode_stamps {e e' : StoredEntry ι} {target : StorageMode}
    (h : e.convertForMode target = .ok e') :
    e'.freshUntil = e.freshUntil ∧ e'.staleUntil = e.staleUntil := by
  cases e <;> cases target
  case typed.serialized => exact toSerialized_stamps h
  all_goals cases h; exact ⟨rfl, rfl⟩

end StoredEntry

end Swr
