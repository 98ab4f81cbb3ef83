import Mathlib.Data.List.Basic
import Swr.Entry

/-! # Entries of booleans as JSON

One lawful instance of `SerdeJson`: a program that caches `bool`. The text is what
`serde_json::to_string` renders for an `Entry<bool>`, and the reader accepts exactly
that rendering.
-/

namespace Swr.Json

/-! ## Reading and writing numbers -/

def writeInt (n : Int) : List Char :=
  if n < 0 then '-' :: Nat.toDigits 10 n.natAbs else Nat.toDigits 10 n.natAbs

def readNat (cs : List Char) : Option (Nat × List Char) :=
  match cs.takeWhile Char.isDigit with
  | [] => none
  | digits => some (Nat.ofDigitChars 10 digits 0, cs.dropWhile Char.isDigit)

def readInt : List Char → Option (Int × List Char)
  | '-' :: cs => (readNat cs).map (fun (n, rest) => (-(n : Int), rest))
  | cs => (readNat cs).map (fun (n, rest) => ((n : Int), rest))

/-- What follows a number does not go on with digits. -/
def Closed (rest : List Char) : Prop := ∀ c ∈ rest.head?, c.isDigit = false

theorem Closed.append {c : Char} {cs lit : List Char} (starts : lit = c :: cs)
    (other : c.isDigit = false) (rest : List Char) : Closed (lit ++ rest) := by
  subst starts
  intro d first
  obtain rfl : c = d := by simpa using first
  exact other

private theorem toDigits_isDigit (n : Nat) : ∀ c ∈ Nat.toDigits 10 n, c.isDigit = true :=
  fun _ member => Nat.isDigit_of_mem_toDigits (by decide) (by decide) member

theorem readNat_toDigits (n : Nat) {rest : List Char} (closed : Closed rest) :
    readNat (Nat.toDigits 10 n ++ rest) = some (n, rest) := by
  have stops : rest.takeWhile Char.isDigit = [] ∧ rest.dropWhile Char.isDigit = rest := by
    cases rest with
    | nil => simp
    | cons c cs =>
        have other : c.isDigit = false := closed c (by simp)
        simp [other]
  have digits := toDigits_isDigit n
  simp only [readNat, List.takeWhile_append_of_pos digits, List.dropWhile_append_of_pos digits,
    stops.1, stops.2, List.append_nil]
  split
  · next none => exact absurd none Nat.toDigits_ne_nil
  · next => simp

theorem readInt_writeInt (n : Int) {rest : List Char} (closed : Closed rest) :
    readInt (writeInt n ++ rest) = some (n, rest) := by
  by_cases negative : n < 0
  · simp only [writeInt, negative, if_true, List.cons_append, readInt,
      readNat_toDigits n.natAbs closed, Option.map_some, Option.some.injEq, Prod.mk.injEq, and_true]
    omega
  · have read := readNat_toDigits n.natAbs closed
    have value : ((n.natAbs : Nat) : Int) = n := by omega
    simp only [writeInt, negative, if_false]
    cases h : Nat.toDigits 10 n.natAbs ++ rest with
    | nil => simp [h, readNat] at read
    | cons c cs =>
        have digit : c.isDigit = true := by
          cases digits : Nat.toDigits 10 n.natAbs with
          | nil => exact absurd digits Nat.toDigits_ne_nil
          | cons d ds =>
              rw [digits, List.cons_append] at h
              obtain ⟨rfl, _⟩ := List.cons.inj h
              exact toDigits_isDigit n.natAbs d (by rw [digits]; simp)
        rw [h] at read
        have plain : c ≠ '-' := by rintro rfl; simp at digit
        rw [readInt.eq_2 _ (fun _ dash => plain (List.cons.inj dash).1), read]
        simp [value]

/-! ## Entries -/

def readLit (lit cs : List Char) : Option (List Char) :=
  if lit.isPrefixOf cs then some (cs.drop lit.length) else none

@[simp] theorem readLit_append (lit rest : List Char) : readLit lit (lit ++ rest) = some rest := by
  simp [readLit]

def writeBool (b : Bool) : List Char := if b then "true".toList else "false".toList

def readBool (cs : List Char) : Option (Bool × List Char) :=
  match readLit "true".toList cs with
  | some rest => some (true, rest)
  | none => (readLit "false".toList cs).map (false, ·)

theorem readBool_writeBool (b : Bool) (rest : List Char) :
    readBool (writeBool b ++ rest) = some (b, rest) := by
  cases b with
  | true => simp [readBool, writeBool, readLit]
  | false => simp [readBool, writeBool, readLit]

@[irreducible] def valueKey : List Char := "\x7b\"value\":".toList

@[irreducible] def freshKey : List Char := ",\"fresh_until\":".toList

@[irreducible] def staleKey : List Char := ",\"stale_until\":".toList

@[irreducible] def closing : List Char := "\x7d".toList

def writeEntry (e : Entry Bool) : List Char :=
  valueKey ++ (writeBool e.value ++ (freshKey ++ (writeInt e.freshUntil ++
    (staleKey ++ (writeInt e.staleUntil ++ closing)))))

def readEntry (cs : List Char) : Option (Entry Bool) := do
  let cs ← readLit valueKey cs
  let (value, cs) ← readBool cs
  let cs ← readLit freshKey cs
  let (freshUntil, cs) ← readInt cs
  let cs ← readLit staleKey cs
  let (staleUntil, cs) ← readInt cs
  let cs ← readLit closing cs
  if cs.isEmpty then some ⟨value, freshUntil, staleUntil⟩ else none

theorem readEntry_writeEntry (e : Entry Bool) : readEntry (writeEntry e) = some e := by
  have comma : staleKey = ',' :: "\"stale_until\":".toList := by simp [staleKey]
  have afterFresh : Closed (staleKey ++ (writeInt e.staleUntil ++ closing)) :=
    .append comma (by decide) _
  have brace : closing = ['\x7d'] := by simp [closing]
  have afterStale : Closed closing := by
    simpa only [List.append_nil] using Closed.append brace (by decide) []
  have last : readLit closing closing = some [] := by
    simpa only [List.append_nil] using readLit_append closing []
  simp only [readEntry, writeEntry, Option.bind_eq_bind, readLit_append, Option.bind_some,
    readBool_writeBool, readInt_writeInt e.freshUntil afterFresh,
    readInt_writeInt e.staleUntil afterStale, last, List.isEmpty_nil, if_true]

/-- The rejection `serde_json` words differently for each kind of malformed text. -/
def malformed : String := "expected an entry"

def fromStr (data : String) : Except String (Entry Bool) :=
  match readEntry data.toList with
  | some e => .ok e
  | none => .error malformed

theorem fromStr_writeEntry (e : Entry Bool) : fromStr (String.ofList (writeEntry e)) = .ok e := by
  simp [fromStr, readEntry_writeEntry]

instance : SerdeJson Unit where
  Val _ := Bool
  toString _ e := .ok (String.ofList (writeEntry e))
  fromStr _ := fromStr
  metadataFromStr data := (fromStr data).map (fun e => ⟨e.freshUntil, e.staleUntil⟩)

instance : LawfulSerdeJson Unit where
  roundTrip _ e := ⟨_, rfl, fromStr_writeEntry e, congrArg (Except.map _) (fromStr_writeEntry e)⟩

example : String.ofList (writeEntry ⟨true, 60, -5⟩) =
    "\x7b\"value\":true,\"fresh_until\":60,\"stale_until\":-5\x7d" := by
  decide +kernel

end Swr.Json
