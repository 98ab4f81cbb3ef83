import Swr.Markers
import Swr.Outcomes

/-! # Back-fills

What a `set` or `remove` leaves in one tier, and how long it stands against the
back-fills of earlier gets. The tiers are foreign stores with atomic calls.
-/

namespace Swr

open Async

variable {ι : Type} [SerdeJson ι]

/-- The id of a foreign store. -/
def Store.extId : Store → Option Nat
  | .ext id .. => some id
  | _ => none

/-- A tiered store over foreign stores. -/
def Store.overForeign : Store → Bool
  | .tiered tiers => tiers.all Store.isForeign
  | _ => false

/-- The task belongs to a tiered store over foreign stores. -/
def Task.ofTiers : Task ι → Bool
  | .storeGet store .. | .storeSet store .. | .storeRemove store .. => store.overForeign
  | .backfill lower .. => lower.all Store.isForeign
  | _ => false

/-! ## The outline -/

/-- What a task does to the tiers: a back-fill has some of them ahead. -/
inductive TierRole where
  | reader
  | writer
  | filler (ahead : List Nat)

def tierOk : TierRole → Cmd ι → Prop
  | .reader, .extGet .. => True
  | .reader, .spawn task => task.isCall = false ∧ task.ofTiers = true
  | .writer, .extSet .. | .writer, .extRemove .. => True
  | .filler ahead, .extSet id .. => id ∈ ahead
  | _, _ => False

/-- The command writes to the tier. -/
def Cmd.fills (id : Nat) : Cmd ι → Bool
  | .extSet id' .. => id' = id
  | _ => false

/-- The tiers up to the one that was just filled are no longer ahead. -/
def passed (id : Nat) (ahead : List Nat) : List Nat := (ahead.dropWhile (· ≠ id)).tail

def tierNext : TierRole → Cmd ι → TierRole
  | .filler ahead, .extSet id .. => .filler (passed id ahead)
  | role, _ => role

abbrev tierOutline (ι : Type) [SerdeJson ι] : Outline (sig ι) where
  Ghost := TierRole
  ok := tierOk
  may _ _ _ := True
  next role c _ := tierNext role c

def Task.tierRole : Task ι → TierRole
  | .storeGet .. => .reader
  | .backfill lower .. => .filler (lower.filterMap Store.extId)
  | _ => .writer

theorem tierOk_spawn {role : TierRole} {task : Task ι} (allowed : tierOk role (.spawn task)) :
    task.isCall = false ∧ task.ofTiers = true := by
  cases role with
  | reader => exact allowed
  | writer | filler => exact allowed.elim

theorem tierOk_reads {role : TierRole} {id : Nat} {ns key : String}
    (allowed : tierOk role (.extGet id ns key : Cmd ι)) : role = .reader := by
  cases role with
  | reader => rfl
  | writer | filler => exact allowed.elim

theorem tierNext_reader {role : TierRole} {c : Cmd ι} :
    tierNext role c = .reader ↔ role = .reader := by
  cases role with
  | reader => exact ⟨fun _ => rfl, fun _ => rfl⟩
  | writer => exact Iff.rfl
  | filler => cases c <;> exact ⟨nofun, nofun⟩

theorem passed_suffix (id : Nat) (ahead : List Nat) : passed id ahead <:+ ahead :=
  (List.tail_suffix _).trans (List.dropWhile_suffix _)

theorem passed_head {id : Nat} {ids ahead : List Nat} (part : id :: ids <:+ ahead) :
    ids <:+ passed id ahead := by
  induction ahead with
  | nil => exact absurd part.length_le (by simp)
  | cons x ahead ih =>
      by_cases here : x = id
      · subst here
        have whole : passed x (x :: ahead) = ahead := by simp [passed]
        rw [whole]
        rcases List.suffix_cons_iff.mp part with same | later
        · obtain ⟨_, rfl⟩ := List.cons.inj same
          exact List.suffix_refl _
        · exact (List.suffix_cons _ _).trans later
      · have skip : passed id (x :: ahead) = passed id ahead := by simp [passed, here]
        rw [skip]
        rcases List.suffix_cons_iff.mp part with same | later
        · exact absurd (List.cons.inj same).1.symm here
        · exact ih later

/-- Filling a tier takes one of its places off the list. -/
theorem passed_count {id : Nat} {ahead : List Nat} (member : id ∈ ahead) :
    (passed id ahead).count id + 1 ≤ ahead.count id := by
  induction ahead with
  | nil => cases member
  | cons x ahead ih =>
      by_cases here : x = id
      · subst here
        simp [passed]
      · have skip : passed id (x :: ahead) = passed id ahead := by simp [passed, here]
        have later : id ∈ ahead := (List.mem_cons.mp member).resolve_left fun same => here same.symm
        rw [skip, List.count_cons_of_ne here]
        exact ih later

namespace TieredStore

theorem dyn_foreign {tier : Store} (foreign : tier.isForeign = true) :
    ∃ id name mode, tier = .ext id name mode ∧ tier.dyn ι = ExtStore.dyn id name mode := by
  obtain ⟨id, name, mode, rfl⟩ := Store.isForeign_iff.mp foreign
  exact ⟨id, name, mode, rfl, by simp [Store.dyn]⟩

theorem dynList_foreign {tiers : List Store} (foreign : tiers.all Store.isForeign = true)
    {tier : DynStore ι} (inTiers : tier ∈ Store.dynList ι tiers) :
    ∃ id name mode, tier = ExtStore.dyn id name mode := by
  rw [Store.dynList_eq_map] at inTiers
  obtain ⟨store, inside, rfl⟩ := List.mem_map.mp inTiers
  obtain ⟨id, name, mode, _, dyn⟩ := dyn_foreign (ι := ι) (List.all_eq_true.mp foreign store inside)
  exact ⟨id, name, mode, dyn⟩

theorem get_reads {tiers : List Store} (foreign : tiers.all Store.isForeign = true)
    (ns key : String) : (get (Store.dynList ι tiers) ns key).Only (tierOk .reader) := by
  refine getFrom_only (fun tier inTiers => ?_) fun part inside stored => ⟨rfl, ?_⟩
  · obtain ⟨id, name, mode, rfl⟩ := dynList_foreign foreign inTiers
    exact only_issue trivial
  · refine List.all_eq_true.mpr fun store member => ?_
    obtain ⟨tier, inPart, rfl⟩ := List.mem_map.mp member
    obtain ⟨id, name, mode, rfl⟩ := dynList_foreign foreign (inside inPart)
    rfl

theorem set_writes {tiers : List Store} (foreign : tiers.all Store.isForeign = true)
    (ns key : String) (entry : StoredEntry ι) :
    (set (Store.dynList ι tiers) ns key entry).Only (tierOk .writer) := by
  refine set_only fun tier inTiers => setTier_only fun converted _ => ?_
  obtain ⟨id, name, mode, rfl⟩ := dynList_foreign foreign inTiers
  exact only_issue trivial

theorem remove_writes {tiers : List Store} (foreign : tiers.all Store.isForeign = true)
    (ns : String) (keys : List String) :
    (remove (Store.dynList ι tiers) ns keys).Only (tierOk .writer) := by
  refine remove_only fun tier inTiers => ?_
  obtain ⟨id, name, mode, rfl⟩ := dynList_foreign foreign inTiers
  exact only_issue trivial

theorem backfill_fills {lower : List Store} (foreign : lower.all Store.isForeign = true)
    (ns key : String) (entry : StoredEntry ι) {ahead : List Nat}
    (part : lower.filterMap Store.extId <:+ ahead) :
    (backfill (Store.dynList ι lower) ns key entry).Keeps (tierOutline ι) ((tierOutline ι).any _)
      (.filler ahead) := by
  induction lower generalizing ahead with
  | nil => exact Prog.keeps_ret.mpr trivial
  | cons tier lower ih =>
      simp only [List.all_cons, Bool.and_eq_true] at foreign
      obtain ⟨id, name, mode, rfl, dyn⟩ := dyn_foreign (ι := ι) foreign.1
      have here : id :: lower.filterMap Store.extId <:+ ahead := part
      simp only [Store.dynList, backfill, dyn]
      split
      · refine Prog.keeps_op.mpr ⟨here.subset (List.mem_cons_self ..), fun _ _ => ?_⟩
        exact ih foreign.2 (passed_head here)
      · exact ih foreign.2 ((List.suffix_cons _ _).trans here)

end TieredStore

theorem tierOutline_body [DecidableEq ι] (task : Task ι) (ofTiers : task.ofTiers = true) :
    task.body.Keeps (tierOutline ι) ((tierOutline ι).any _) task.tierRole := by
  have tiered {store : Store} (foreign : store.overForeign = true) : ∃ tiers : List Store,
      tiers.all Store.isForeign = true ∧ store.dyn ι = TieredStore.dyn (Store.dynList ι tiers) := by
    cases store with
    | tiered tiers => exact ⟨tiers, foreign, by simp [Store.dyn]⟩
    | hashMap | moka | redis | metrics | ext => cases foreign
  cases task with
  | storeGet store ns key =>
      obtain ⟨tiers, foreign, dyn⟩ := tiered ofTiers
      simp only [Task.body, dyn]
      exact Prog.Keeps.bind ((TieredStore.get_reads foreign ns key).keeps
        (fun c allowed => ⟨allowed, fun _ => rfl⟩) fun _ => Prog.keeps_ret.mpr trivial)
  | storeSet store ns key entry =>
      obtain ⟨tiers, foreign, dyn⟩ := tiered ofTiers
      simp only [Task.body, dyn]
      exact Prog.Keeps.bind ((TieredStore.set_writes foreign ns key entry).keeps
        (fun c allowed => ⟨allowed, fun _ => rfl⟩) fun _ => Prog.keeps_ret.mpr trivial)
  | storeRemove store ns keys =>
      obtain ⟨tiers, foreign, dyn⟩ := tiered ofTiers
      simp only [Task.body, dyn]
      exact Prog.Keeps.bind ((TieredStore.remove_writes foreign ns keys).keeps
        (fun c allowed => ⟨allowed, fun _ => rfl⟩) fun _ => Prog.keeps_ret.mpr trivial)
  | backfill lower ns key entry =>
      exact Prog.Keeps.bind ((TieredStore.backfill_fills ofTiers ns key entry
        (List.suffix_refl _)).mono fun _ _ _ => Prog.keeps_ret.mpr trivial)
  | get | set | remove | swr | cacheValue | revalidate | redisDel => cases ofTiers

/-! ## Runs -/

section Runs

variable [DecidableEq ι] {w : World ι} {past earlier later : History (system (ι := ι) .atomicMap)}
  {s s' s₁ : Config (system (ι := ι) .atomicMap)} {l : Label (system (ι := ι) .atomicMap)}

/-- All calls are calls on tiered stores over foreign stores. -/
def OnTiers (l : Label (system (ι := ι) .atomicMap)) : Prop :=
  ∀ task : Task ι, task ∈ l.starting → task.isCall = true ∧ task.ofTiers = true

instance (l : Label (system (ι := ι) .atomicMap)) : Decidable (OnTiers l) :=
  inferInstanceAs (Decidable (∀ task : Task ι, task ∈ l.starting → _))

/-- A `get` of the family has read an entry of the key from one of its tiers. -/
def ReadIn (ns key : String) (past : History (system (ι := ι) .atomicMap)) (root : Nat) : Prop :=
  ∃ s i t id r e th, (s, .exec i t (.extGet id ns key) r) ∈ past ∧ r = .ok (some e) ∧
    s.threads[i]? = some th ∧ th.root = root

/-- How often thread `k` has written to the tier. -/
def fills (id k : Nat) : History (system (ι := ι) .atomicMap) → Nat
  | [] => 0
  | (_, .exec j _ c _) :: past =>
      if j = k ∧ c.fills id then fills id k past + 1 else fills id k past
  | (_, .start _) :: past | (_, .turn ..) :: past | (_, .drop _) :: past => fills id k past

/-- The task is a back-fill that has been to the tier as often as it lists it. -/
def Filled (id k : Nat) (th : Thread (system (ι := ι) .atomicMap))
    (past : History (system (ι := ι) .atomicMap)) : Prop :=
  ∃ lower ns key entry, th.task = .backfill lower ns key entry ∧
    (lower.filterMap Store.extId).count id ≤ fills id k past

def tierRoleAt (i : Nat) (task : Task ι) (past : History (system (ι := ι) .atomicMap)) : TierRole :=
  ghost (tierOutline ι) task.tierRole i past

theorem tierRoleAt_exec {i j : Nat} {t : Int} {c : Cmd ι} {r : c.Ans} {task : Task ι} :
    tierRoleAt i task ((s, .exec j t c r) :: past) =
      if j = i then tierNext (tierRoleAt i task past) c else tierRoleAt i task past := rfl

theorem run_tierRoles (run : Run (system .atomicMap) (.idle w) past s)
    (calls : ∀ e ∈ past, OnTiers e.2) :
    Outlined (tierOutline ι) Task.tierRole ((tierOutline ι).any _) past s := by
  refine (Run.outline (O := tierOutline ι) (T := fun task : Task ι => task.ofTiers = true)
    (fun _ _ => True) tierOutline_body ?_ (fun _ _ _ => True) trivial ?_ run
    (fun _ _ _ _ => trivial) ?_).1
  · intro role c allowed task member
    obtain rfl := Cmd.mem_spawned.mp member
    exact (tierOk_spawn allowed).2
  · exact fun _ _ _ _ _ _ _ _ _ => ⟨fun _ _ _ _ _ _ _ => trivial, trivial⟩
  · intro s₀ task member
    exact (calls _ member task rfl).2

theorem tierRoleAt_reader {i : Nat} {task : Task ι} :
    tierRoleAt i task past = .reader ↔ task.tierRole = .reader := by
  induction past with
  | nil => exact Iff.rfl
  | cons e past ih =>
      obtain ⟨s, l⟩ := e
      cases l with
      | start | turn | drop => exact ih
      | exec j t c r =>
          rw [tierRoleAt_exec]
          split
          · exact tierNext_reader.trans ih
          · exact ih

/-- A call is the root of its family. -/
theorem call_root (run : Run (system .atomicMap) (.idle w) past s)
    (calls : ∀ e ∈ past, OnTiers e.2) {j : Nat} {th : Thread (system .atomicMap)}
    (at_j : s.threads[j]? = some th) (call : th.task.isCall = true) : th.root = j := by
  induction run generalizing j th with
  | refl => simp [Config.idle] at at_j
  | step before taken ih =>
      have before_calls := fun e member => calls e (List.mem_cons_of_mem _ member)
      cases taken.fate at_j with
      | same was_j => exact ih before_calls was_j call
      | moved was_j _ moved | turned was_j _ moved | dropped was_j moved =>
          have same := ih before_calls was_j
          subst moved
          exact same call
      | called _ moved => subst moved; rfl
      | @spawned i th₀ c task _ _ _ _ _ member moved =>
          subst moved
          obtain rfl := Cmd.mem_spawned.mp member
          obtain ⟨_, _, _, allowed⟩ := (run_tierRoles before before_calls).ok taken
          cases call.symm.trans (tierOk_spawn allowed).1

/-- Only gets read, so the family is known by its `get`. -/
theorem reader_get {ns key : String} {root : Nat} (run : Run (system .atomicMap) (.idle w) past s)
    (calls : ∀ e ∈ past, OnTiers e.2) (read : ReadIn ns key past root) :
    ∃ th, s.threads[root]? = some th ∧ th.task.tierRole = .reader := by
  obtain ⟨s₀, i, t, id, r, e, th, member, rfl, at_i, rfl⟩ := read
  obtain ⟨after, before, rfl⟩ := List.append_of_mem member
  have part : (s₀, .exec i t (.extGet id ns key) (.ok (some e))) :: before <:+
      after ++ (s₀, .exec i t (.extGet id ns key) (.ok (some e))) :: before :=
      List.suffix_append _ _
  obtain ⟨run₀, _, taken⟩ := run.upTo part
  have calls₀ : ∀ e ∈ before, OnTiers e.2 :=
    fun e member => calls e (part.subset (List.mem_cons_of_mem _ member))
  obtain ⟨_, at_i', _, allowed⟩ := (run_tierRoles run₀ calls₀).ok taken
  obtain rfl := Option.some.inj (at_i.symm.trans at_i')
  have reader : th.task.tierRole = .reader := tierRoleAt_reader.mp (tierOk_reads allowed)
  have call : th.task.isCall = true := by
    cases task : th.task <;> first | rfl | (rw [task] at reader; cases reader)
  obtain ⟨th', at_i', task, _⟩ := run.persists member at_i
  rw [call_root run₀ calls₀ at_i call]
  exact ⟨th', at_i', by rw [task, reader]⟩

theorem readIn_lt {ns key : String} {root : Nat} (run : Run (system .atomicMap) (.idle w) past s)
    (calls : ∀ e ∈ past, OnTiers e.2) (read : ReadIn ns key past root) :
    root < s.threads.length := by
  obtain ⟨th, at_root, _⟩ := reader_get run calls read
  exact (List.getElem?_eq_some_iff.mp at_root).1

theorem fills_foreign {id k : Nat} (foreign : l.Foreign k) :
    fills id k ((s, l) :: past) = fills id k past := by
  cases l with
  | start | turn | drop => rfl
  | exec j t c r =>
      have other : j ≠ k := by rintro rfl; exact foreign t c r rfl
      simp [fills, other]

theorem fills_unstarted {id k : Nat} (run : Run (system .atomicMap) (.idle w) past s)
    (unstarted : s.threads.length ≤ k) : fills id k past = 0 := by
  induction run with
  | refl => rfl
  | step before taken ih =>
      rw [fills_foreign, ih (Nat.le_trans taken.length_le unstarted)]
      rintro t c r rfl
      have inside := (before.step taken).exec_lt (List.mem_cons_self ..)
      omega

/-- What a back-fill has ahead of it, and what it has done, is what it listed. -/
theorem ahead_count (id : Nat) {k : Nat} (run : Run (system .atomicMap) (.idle w) past s)
    (calls : ∀ e ∈ past, OnTiers e.2) {th : Thread (system .atomicMap)}
    (at_k : s.threads[k]? = some th) {lower : List Store}
    (task : th.task.tierRole = .filler (lower.filterMap Store.extId)) :
    ∃ ahead, tierRoleAt k th.task past = .filler ahead ∧
      ahead.count id + fills id k past ≤ (lower.filterMap Store.extId).count id := by
  induction run generalizing th with
  | refl => simp [Config.idle] at at_k
  | @step past s l s' before taken ih =>
      have before_calls := fun e member => calls e (List.mem_cons_of_mem _ member)
      cases taken.fate at_k with
      | same was_k foreign =>
          rw [tierRoleAt, ghost_foreign foreign, fills_foreign foreign]
          exact ih before_calls was_k task
      | @moved c th r t rest was_k next moved =>
          have known := ih before_calls was_k
          have allowed := (Prog.keeps_op.mp (run_tierRoles before before_calls k th _ was_k next)).1
          subst moved
          obtain ⟨ahead, role, count⟩ := known task
          replace allowed : tierOk (tierRoleAt k th.task past) c := allowed
          rw [role] at allowed
          rw [tierRoleAt_exec, if_pos rfl, role]
          cases c <;> first | exact allowed.elim | skip
          rename_i id' ns key entry
          refine ⟨passed id' ahead, rfl, ?_⟩
          by_cases same : id' = id
          · subst same
            have fewer := passed_count allowed
            simp only [fills, Cmd.fills, decide_true, and_self, if_true]
            omega
          · have fewer := (passed_suffix id' ahead).sublist.count_le id
            simp only [fills, Cmd.fills, same, decide_false, Bool.false_eq_true,
              and_false, if_false]
            omega
      | turned was_k _ moved | dropped was_k moved =>
          have known := ih before_calls was_k
          subst moved
          exact known task
      | called new =>
          refine ⟨lower.filterMap Store.extId, ?_, ?_⟩
          · rw [tierRoleAt, ghost_foreign (by simp [Label.Foreign]),
              before.ghost_unstarted (by omega)]
            exact task
          · rw [fills_foreign (by simp [Label.Foreign]), fills_unstarted before (by omega)]
            exact Nat.le_refl _
      | @spawned i _ _ _ _ _ new _ inside =>
          have foreign :
              ∀ t c r, (Label.exec (M := system (ι := ι) .atomicMap) i t c r).Foreign k := by
            rintro t c r _ _ _ same
            cases same
            omega
          refine ⟨lower.filterMap Store.extId, ?_, ?_⟩
          · rw [tierRoleAt, ghost_foreign (foreign _ _ _), before.ghost_unstarted new]
            exact task
          · rw [fills_foreign (foreign _ _ _), fills_unstarted before new]
            exact Nat.le_refl _

/-- When a call takes effect in a tier while each get that had read is over or has been
    there with its back-fill, those gets are at rest. -/
theorem gets_at_rest {id i : Nat} {ns key : String} {t : Int} {c : Cmd ι} {r : c.Ans}
    (before : Run (system .atomicMap) (.idle w) past s) (calls : ∀ e ∈ past, OnTiers e.2)
    (taken : Step (system .atomicMap) s (.exec i t c r) s') (acts : (c.outcome id ns key).isSome)
    (explicit : ∀ th, s.threads[i]? = some th → th.task.isCall = true)
    (settled : ∀ j th, s.threads[j]? = some th → ReadIn ns key past th.root →
      th.Gone ∨ Filled id j th past) :
    AtRest (Cmd.Inert id ns key) (ReadIn ns key past) s' where
  started root read := Nat.lt_of_lt_of_le (readIn_lt before calls read) taken.length_le
  only := by
    intro j th p at_j read prog
    have outlined := run_tierRoles before calls
    cases taken.fate at_j with
    | same was_j =>
        rcases settled j th was_j read with (dropped | ⟨_, finished⟩) | filled
        · rw [dropped] at prog; cases prog
        · rw [finished] at prog; cases prog; trivial
        · obtain ⟨lower, _, _, _, task, done⟩ := filled
          have filling : th.task.tierRole = .filler (lower.filterMap Store.extId) := by
            rw [task]
            rfl
          obtain ⟨ahead, role, count⟩ := ahead_count id before calls was_j filling
          have past_it : id ∉ ahead := List.count_eq_zero.mp (by omega)
          have keeps :
              p.Keeps (tierOutline ι) ((tierOutline ι).any _) (tierRoleAt j th.task past) :=
            outlined j th p was_j prog
          rw [role] at keeps
          refine keeps.only (P := fun role => ∃ ahead, role = TierRole.filler ahead ∧ id ∉ ahead)
            ?_ ?_ ⟨ahead, rfl, past_it⟩
          · rintro _ c r ⟨ahead, rfl, absent⟩ allowed
            refine ⟨trivial, ?_⟩
            cases c <;> first | exact allowed.elim | skip
            exact ⟨_, rfl, fun member => absent ((passed_suffix _ _).subset member)⟩
          · rintro _ c ⟨ahead, rfl, absent⟩ allowed
            cases c <;> first | exact allowed.elim | skip
            refine ⟨if_neg ?_, rfl⟩
            rintro ⟨rfl, _⟩
            exact absent allowed
    | @moved c th₀ r t rest was_i next moved =>
        -- the family of a call that touches a tier has not read anything
        subst moved
        have call := explicit th₀ was_i
        obtain ⟨th₁, at_root, reader⟩ := reader_get before calls read
        rw [show th₀.root = i from call_root before calls was_i call] at at_root
        obtain rfl := Option.some.inj (was_i.symm.trans at_root)
        have allowed : tierOk (tierRoleAt i th₀.task past) c :=
          (Prog.keeps_op.mp (outlined i _ _ was_i next)).1
        rw [tierRoleAt_reader.mpr reader] at allowed
        cases c <;> first | exact allowed.elim | cases acts
    | spawned _ _ _ member =>
        obtain rfl := Cmd.mem_spawned.mp member
        cases acts

/-- What a `set` or `remove` leaves in a tier is what every look-up finds there, while
    the gets that had read an entry before are the only ones to fill the tier. -/
theorem tier_stands {id i : Nat} {ns key : String} {t : Int} {c : Cmd ι} {r : c.Ans}
    {left : Option (StoredEntry ι)}
    (run : Run (system .atomicMap) (.idle w) (later ++ (s₁, .exec i t c r) :: earlier) s)
    (calls : ∀ e ∈ later ++ (s₁, .exec i t c r) :: earlier, OnTiers e.2)
    (acts : c.outcome id ns key = some left)
    (explicit : ∀ th, s₁.threads[i]? = some th → th.task.isCall = true)
    (settled : ∀ j th, s₁.threads[j]? = some th → ReadIn ns key earlier th.root →
      th.Gone ∨ Filled id j th earlier)
    (belated : ∀ e ∈ later, Belated id ns key (ReadIn ns key earlier) e.1 e.2) :
    s.world.ext id ns key = left ∧ ∀ s₂ j t₂ (r₂ : Except CacheError (Option (StoredEntry ι))),
      (s₂, .exec j t₂ (.extGet id ns key) r₂) ∈ later → r₂ = .ok left := by
  refine outcome_kept run acts (fun s₂ before taken => ?_) belated
  exact gets_at_rest before
    (fun e member => calls e (List.mem_append_right _ (List.mem_cons_of_mem _ member)))
    taken (by rw [acts]; rfl) explicit settled

/-- The second tier has the key. -/
def filledSecond : World Unit :=
  World.empty.setExt 1 (Contents.put (fun _ _ => none) "ns" "k"
    (.fromTypedWithSerializer () true 10 20))

/-- A removal after the back-fill of a get is through. -/
theorem tier_stands_removed : ∃ (later earlier : History (system .atomicMap))
    (s₁ s : Config (system .atomicMap)) (t : Int) (r :
      (Cmd.extRemove (ι := Unit) 0 "ns" ["k"]).Ans),
    Run (system .atomicMap) (.idle filledSecond)
      (later ++ (s₁, .exec 2 t (.extRemove 0 "ns" ["k"]) r) :: earlier) s ∧
    (∃ e ∈ earlier, (outcome 0 "ns" "k" e.2).isSome) ∧
    (∃ s₂ t₂ r₂, (s₂, .exec 3 t₂ (.extGet 0 "ns" "k") r₂) ∈ later) ∧
    s.world.ext 0 "ns" "k" = none ∧
    ∀ s₂ j t₂ (r₂ : Except CacheError (Option (StoredEntry Unit))),
      (s₂, .exec j t₂ (.extGet 0 "ns" "k") r₂) ∈ later → r₂ = .ok none := by
  obtain ⟨past, s, played, e₁, e₂, e₃, s₁, t, r, earlier, rfl, written, looked, quiet,
    other, a, b, th,
      threads, over_a, over_b, task, root⟩ :
      ∃ past s, driver.play (fun _ l => OnTiers l)
        [.start (.storeGet (.tiered twoTiers) "ns" "k"), .go 0 (reading 0), .go 0 (reading 0),
          .go 0 (reading 0), .go 1 (reading 0), .start (.storeRemove (.tiered twoTiers) "ns" ["k"]),
          .turn 2 true, .go 2 (reading 1), .go 2 (reading 1),
          .start (.storeGet (.tiered twoTiers) "ns" "k"), .go 3 (reading 2)]
        ([], .idle filledSecond) = some (past, s) ∧
      ∃ e₁ e₂ e₃ s₁ t r earlier,
        past = [e₁, e₂, e₃] ++ (s₁, .exec 2 t (.extRemove 0 "ns" ["k"]) r) :: earlier ∧
        (∃ e ∈ earlier, (outcome 0 "ns" "k" e.2).isSome) ∧
        (∃ s₂ t₂ r₂, (s₂, .exec 3 t₂ (.extGet 0 "ns" "k") r₂) = e₁) ∧
        e₂.2 = .start (.storeGet (.tiered twoTiers) "ns" "k") ∧ outcome 0 "ns" "k" e₃.2 = none ∧
        ∃ a b th, s₁.threads = [a, b, th] ∧ a.Gone ∧ b.Gone ∧
          th.task = .storeRemove (.tiered twoTiers) "ns" ["k"] ∧ th.root = 2 :=
    ⟨_, _, rfl, _, _, _, _, _, _, _, rfl, ⟨_, .tail _ (.tail _ (.head _)), rfl⟩,
      ⟨_, _, _, rfl⟩, rfl, rfl, _, _, _, rfl, .inr ⟨_, rfl⟩, .inr ⟨_, rfl⟩, rfl, rfl⟩
  obtain ⟨run, calls⟩ := Driver.plays played
  obtain ⟨s₂, t₂, r₂, rfl⟩ := looked
  have before := (run.upTo (List.suffix_append _ _)).1
  refine ⟨_, earlier, s₁, s, t, r, run, written, ⟨s₂, t₂, r₂, List.mem_cons_self ..⟩,
    tier_stands run calls rfl ?_ ?_ ?_⟩
  · intro th' at_2
    rw [threads] at at_2
    cases at_2
    rw [task]
    rfl
  · intro j th' at_j read
    rw [threads] at at_j
    match j, at_j with
    | 0, at_j => cases at_j; exact .inl over_a
    | 1, at_j => cases at_j; exact .inl over_b
    | 2, at_j =>
        cases at_j
        obtain ⟨th₂, at_root, reader⟩ := reader_get before
          (fun e member => calls e (List.mem_append_right _ (List.mem_cons_of_mem _ member))) read
        rw [root, threads] at at_root
        cases at_root
        rw [task] at reader
        cases reader
    | n + 3, at_j => simp at at_j
  · intro e member
    rcases List.mem_cons.mp member with rfl | member
    · exact quiet_belated rfl
    · rcases List.mem_cons.mp member with rfl | member
      · exact quiet_belated (by rw [quiet]; rfl)
      · obtain rfl := List.mem_singleton.mp member
        exact quiet_belated other

/-- A back-fill that is late re-creates a removed key in the first tier. -/
theorem refilled_key : ¬ ∀ (past : History (system .atomicMap)) (s : Config (system .atomicMap)),
    Run (system .atomicMap) (.idle filledSecond) past s →
    (∀ e ∈ past, OnTiers e.2) → ¬ Overtaken 0 "ns" "k" (ReadIn "ns" "k") past := by
  intro ordered
  obtain ⟨past, s, played, overtaken⟩ : ∃ past s, driver.play (fun _ l => OnTiers l)
      [.start (.storeGet (.tiered twoTiers) "ns" "k"), .go 0 (reading 0), .go 0 (reading 0),
        .go 0 (reading 0), .start (.storeRemove (.tiered twoTiers) "ns" ["k"]), .turn 2 false,
        .go 2 (reading 1), .go 2 (reading 1), .go 1 (reading 2)] ([],
        .idle filledSecond) = some (past, s) ∧
      Overtaken 0 "ns" "k" (ReadIn "ns" "k") past :=
    ⟨_, _, rfl, _, 1, _, _, _, _, _, List.suffix_refl _, rfl, rfl, rfl,
      _, 2, _, _, _, _, _, List.suffix_refl _, rfl, rfl, rfl,
      _, 0, _, 1, _, _, _, .tail _ (.tail _ (.tail _ (.tail _ (.head _)))), rfl, rfl, rfl⟩
  obtain ⟨run, calls⟩ := Driver.plays played
  exact ordered past s run calls overtaken

end Runs

end Swr
