import Swr.Json
import Swr.System

/-! # Tiers that fail

A look-up gives up at the first tier whose `get` fails, so a tier behind it that has the
key is not asked.
-/

namespace Swr

open Async

variable {ι : Type} [SerdeJson ι] {σ : Type}

/-- What each tier answers to a `get`, if all of them are asked in turn. -/
def tierAnswers (answer : (c : Cmd ι) → σ → c.Ans × σ) (ns key : String) :
    List (DynStore ι) → σ → List Bool → List (Except CacheError (Option (StoredEntry ι)))
  | [], _, _ => []
  | tier :: rest, s, coins =>
      let (result, s', coins') := (tier.get ns key).run answer s coins
      result :: tierAnswers answer ns key rest s' coins'

/-- The first answer that is not a miss. -/
def firstAnswer :
    List (Except CacheError (Option (StoredEntry ι))) → Except CacheError (Option (StoredEntry ι))
  | [] => .ok none
  | .ok none :: rest => firstAnswer rest
  | result :: _ => result

theorem getFrom_run (answer : (c : Cmd ι) → σ → c.Ans × σ) (lower tiers : List (DynStore ι))
    (ns key : String) (s : σ) (coins : List Bool) :
    ((TieredStore.getFrom lower tiers ns key).run answer s coins).1 =
      firstAnswer (tierAnswers answer ns key tiers s coins) := by
  induction tiers generalizing lower s coins with
  | nil => rfl
  | cons tier rest ih =>
      simp only [TieredStore.getFrom, Prog.run_bind, tierAnswers]
      rcases asked : ((tier.get ns key).run answer s coins).1 with e | _ | entry
      · simp only [asked]
        rfl
      · simp only [asked]
        exact ih _ _ _
      · simp only [asked]
        split <;> rfl

/-- A hit is the first answer when all answers before it are misses. -/
theorem firstAnswer_hit {before : List (Except CacheError (Option (StoredEntry ι)))}
    {entry : StoredEntry ι}
    (after : List (Except CacheError (Option (StoredEntry ι))))
    (first : ∀ e, .ok (some e) ∉ before) :
    firstAnswer (before ++ .ok (some entry) :: after) = .ok (some entry) ↔
    ∀ e, .error e ∉ before := by
  induction before with
  | nil => exact ⟨fun _ _ => List.not_mem_nil, fun _ => rfl⟩
  | cons r before ih =>
      have later : ∀ e, .ok (some e) ∉ before :=
        fun e member => first e (List.mem_cons_of_mem _ member)
      rcases r with e | _ | found
      · exact ⟨nofun, fun fine => absurd (List.mem_cons_self ..) (fine e)⟩
      · simp [firstAnswer, ih later]
      · exact absurd (List.mem_cons_self ..) (first found)

/-- The first entry that any tier has is found if and only if no tier before it fails. -/
theorem hit_behind_failures_iff {answer : (c : Cmd ι) → σ → c.Ans × σ} {tiers : List Store}
    {ns key : String} {s : σ} {coins : List Bool}
    {before after : List (Except CacheError (Option (StoredEntry ι)))}
    {entry : StoredEntry ι}
    (answers : tierAnswers answer ns key (Store.dynList ι tiers) s coins = before ++
      .ok (some entry) :: after)
    (first : ∀ e, .ok (some e) ∉ before) :
    ((((Store.tiered tiers).dyn ι).get ns key).run answer s coins).1 = .ok (some entry) ↔
    ∀ e, .error e ∉ before := by
  have found := getFrom_run answer [] (Store.dynList ι tiers) ns key s coins
  rw [answers] at found
  rw [← firstAnswer_hit after first, ← found]
  simp only [Store.dyn, TieredStore.dyn, TieredStore.get]

/-- No Redis server can be reached. -/
def unreachable (t : Int) : (c : Cmd Unit) → World Unit → c.Ans × World Unit
  | .redisGet .., w => (.error "connection refused", w)
  | c, w => perform (.calm t fun _ => none) 0 t w c

/-- One tier is found empty before the second one is asked, and the third one would fail. -/
theorem hit_behind_failures_iff_miss :
    let world : World Unit := World.empty.setMap (.hashMap 1)
      (AList.insert "ns:k" (.fromTypedWithSerializer () true 10 20) ∅)
    let tiers : List Store := [.hashMap 0 none, .hashMap 1 none, .redis 0 false]
    let before : List (Except CacheError (Option (StoredEntry Unit))) := [.ok none]
    let after : List (Except CacheError (Option (StoredEntry Unit))) :=
      [.error (.operation "redis" "k" "GET failed: connection refused")]
    tierAnswers (unreachable 0) "ns" "k" (Store.dynList Unit tiers) world [] =
      before ++ .ok (some (.fromTypedWithSerializer () true 10 20)) :: after ∧
    (((((Store.tiered tiers).dyn Unit).get "ns" "k").run (unreachable 0) world []).1 =
      .ok (some (.fromTypedWithSerializer () true 10 20)) ↔ ∀ e, .error e ∉ before) := by
  intro world tiers before after
  have answers : tierAnswers (unreachable 0) "ns" "k" (Store.dynList Unit tiers) world [] =
      before ++ .ok (some (.fromTypedWithSerializer () true 10 20)) :: after := rfl
  exact ⟨answers, hit_behind_failures_iff answers (by simp [before])⟩

/-- A Redis tier that is down hides what the tier behind it has. -/
theorem hit_behind_outage : ¬ ∀ (tiers : List Store) (ns key : String) (w : World Unit)
    (before after : List (Except CacheError (Option (StoredEntry Unit)))) (entry :
      StoredEntry Unit),
    tierAnswers (unreachable 0) ns key (Store.dynList Unit tiers) w [] = before ++
    .ok (some entry) :: after → (∀ e, .ok (some e) ∉ before) →
    ((((Store.tiered tiers).dyn Unit).get ns key).run (unreachable 0) w []).1 = .ok
    (some entry) := by
  intro served
  have found := served [.redis 0 false, .hashMap 0 none] "ns" "k"
    (World.empty.setMap (.hashMap 0)
      (AList.insert "ns:k" (.fromTypedWithSerializer () true 10 20) ∅))
    [.error (.operation "redis" "k" "GET failed: connection refused")] [] _ rfl (by simp)
  cases found

end Swr
