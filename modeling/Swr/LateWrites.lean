import Swr.Async.Families
import Swr.Markers
import Swr.Outcomes

/-! # Late writes

What an operation on a key leaves there, and how long it stands. Caches over single
foreign stores with atomic calls; background writes come whenever their task gets
round to it and look at nothing before they write.
-/

namespace Swr

open Async

variable {ι : Type} [SerdeJson ι]

/-- The cache is over a single foreign store. -/
def SwrCache.overForeign (self : SwrCache ι) : Bool := self.store.isForeign

/-- The task belongs to a cache over a single foreign store. -/
def Task.overForeign : Task ι → Bool
  | .get cache .. | .set cache .. | .remove cache .. | .swr cache .. | .cacheValue cache ..
  | .revalidate cache .. => cache.overForeign
  | _ => false

/-! ## The outline -/

/-- What a task does to the store: nothing itself, one write, or nothing any more. -/
inductive Role where
  | lookUp
  | writer
  | done

def roleOk : Role → Cmd ι → Prop
  | .lookUp, .spawn task => task.overForeign = true
  | .lookUp, .extSet .. | .lookUp, .extRemove .. => False
  | .lookUp, _ => True
  | .writer, .spawn _ => False
  | .writer, _ => True
  | .done, .spawn _ | .done, .extSet .. | .done, .extRemove .. => False
  | .done, _ => True

def roleNext : Role → Cmd ι → Role
  | .writer, .extSet .. | .writer, .extRemove .. => .done
  | role, _ => role

abbrev roleOutline (ι : Type) [SerdeJson ι] : Outline (sig ι) where
  Ghost := Role
  ok := roleOk
  may _ _ _ := True
  next role c _ := roleNext role c

def Task.role : Task ι → Role
  | .swr .. => .lookUp
  | _ => .writer

/-- The commands of a look-up in a foreign store. -/
def Cmd.OfLookUp : Cmd ι → Prop
  | .extGet .. | .now => True
  | _ => False

theorem role_ofLookUp {role : Role} (c : Cmd ι) (looks : c.OfLookUp) :
    (roleOutline ι).ok role c ∧ ∀ r, (roleOutline ι).next role c r = role := by
  cases c <;> first | exact looks.elim | (cases role <;> exact ⟨trivial, fun _ => rfl⟩)

theorem keeps_lookUp {α β : Type} {post : (roleOutline ι).Ghost → β → Prop} {p : Code ι α}
    {onward : α → Code ι β} {role : (roleOutline ι).Ghost} (uses : p.Only Cmd.OfLookUp)
    (rest : ∀ value, (onward value).Keeps (roleOutline ι) post role) :
    (p >>= onward).Keeps (roleOutline ι) post role :=
  Prog.Keeps.bind (uses.keeps role_ofLookUp rest)

namespace SwrCache

variable {self : SwrCache ι} (foreign : self.overForeign = true) (ns key : String)

include foreign

theorem dyn_foreign : ∃ id name mode, self.dyn = ExtStore.dyn id name mode := by
  obtain ⟨id, name, mode, store⟩ := Store.isForeign_iff.mp foreign
  exact ⟨id, name, mode, by simp [dyn, store, Store.dyn]⟩

theorem get_looksUp : (self.dyn.get ns key).Only Cmd.OfLookUp := by
  obtain ⟨id, name, mode, dyn⟩ := dyn_foreign foreign
  rw [dyn]
  exact only_issue trivial

/-- A write is one command of a foreign store. -/
theorem keeps_set {β : Type} {post : (roleOutline ι).Ghost → β → Prop}
    {role : (roleOutline ι).Ghost} {entry : StoredEntry ι}
    {onward : Except CacheError Unit → Code ι β}
    (allowed : ∀ id, roleOk role (.extSet id ns key entry))
      (rest : ∀ id result, (onward result).Keeps (roleOutline ι) post
      (roleNext role (.extSet id ns key entry))) :
    (self.dyn.set ns key entry >>= onward).Keeps (roleOutline ι) post role := by
  obtain ⟨id, name, mode, dyn⟩ := dyn_foreign foreign
  rw [dyn]
  simp only [ExtStore.dyn, Ask.extSet_bind, Prog.keeps_op]
  exact ⟨allowed id, fun result _ => rest id result⟩

theorem cacheValueTask_role (value : Val self.ty) (freshUntil staleUntil : Int) :
    (self.cacheValueTask ns key value freshUntil staleUntil).Keeps (roleOutline ι)
    ((roleOutline ι).any _)
      .writer := by
  simp only [cacheValueTask]
  split
  · exact Prog.keeps_ret.mpr trivial
  · exact keeps_set foreign ns key (fun _ => trivial) fun _ _ => Prog.keeps_ret.mpr trivial

theorem revalidateTask_role :
    (self.revalidateTask ns key).Keeps (roleOutline ι) ((roleOutline ι).any _) .writer := by
  have unmarks : ∀ role, (self.unmark ns key).Keeps (roleOutline ι) ((roleOutline ι).any _) role :=
    fun role => Prog.keeps_op.mpr ⟨by cases role <;> trivial, fun _ _ => Prog.keeps_ret.mpr trivial⟩
  simp only [revalidateTask, Ask.containsKey_bind, Prog.keeps_op]
  refine ⟨trivial, fun running _ => ?_⟩
  cases running with
  | true => exact Prog.keeps_ret.mpr trivial
  | false =>
      simp only [Bool.false_eq_true, if_false, Ask.insertMarker_bind, Ask.loadStart_bind,
        Ask.loadEnd_bind, Prog.keeps_op]
      refine ⟨trivial, fun _ _ => ⟨trivial, fun _ _ => ⟨trivial, fun value _ => ?_⟩⟩⟩
      cases value with
      | none => exact unmarks .writer
      | some v =>
          simp only [Ask.now_bind, Prog.keeps_op]
          refine ⟨trivial, fun now _ => ?_⟩
          split
          · exact unmarks .writer
          · exact keeps_set foreign ns key (fun _ => trivial) fun _ _ => unmarks .done

theorem cacheValue_role (value : Val self.ty) {α : Type} (result : α) :
    (do self.cacheValue ns key value; return result : Code ι α).Keeps (roleOutline ι)
    ((roleOutline ι).any _)
      .lookUp := by
  simp only [cacheValue, Ask.now_bind, Prog.op_bind, Prog.keeps_op]
  refine ⟨trivial, fun now _ => ?_⟩
  simp only [Ask.spawn, issue, Prog.op_bind, Prog.keeps_op]
  exact ⟨foreign, fun _ _ => Prog.keeps_ret.mpr trivial⟩

omit foreign in
theorem markedLoad_role :
    (self.markedLoad ns key).Keeps (roleOutline ι) (fun role _ => role = .lookUp) .lookUp := by
  simp only [markedLoad, unmark, Ask.insertMarker_bind, Ask.loadStart_bind, Ask.loadEnd_bind,
    Ask.removeMarker_bind, Prog.keeps_op]
  exact ⟨trivial, fun _ _ => ⟨trivial, fun _ _ => ⟨trivial, fun _ _ => ⟨trivial, fun _ _ =>
    Prog.keeps_ret.mpr rfl⟩⟩⟩⟩

variable [DecidableEq ι]

theorem getInternal_looksUp : (self.getInternal ns key).Only Cmd.OfLookUp :=
  getInternal_only (get_looksUp foreign ns key) trivial

theorem deduplicatedLoadFromOrigin_role :
    (self.deduplicatedLoadFromOrigin ns key).Keeps (roleOutline ι) (fun role _ => role = .lookUp)
      .lookUp := by
  simp only [deduplicatedLoadFromOrigin, Ask.containsKey_bind, Prog.keeps_op]
  refine ⟨trivial, fun loading _ => ?_⟩
  cases loading with
  | false => exact markedLoad_role ns key
  | true =>
      simp only [if_true, Ask.sleep_bind, Prog.keeps_op]
      refine ⟨trivial, fun _ _ => keeps_lookUp (get_looksUp foreign ns key) fun result => ?_⟩
      rcases result with e | _ | stored
      · exact markedLoad_role ns key
      · exact markedLoad_role ns key
      · dsimp only
        split
        · exact Prog.keeps_ret.mpr rfl
        · exact markedLoad_role ns key

theorem loadOrFail_role :
    (self.loadOrFail ns key).Keeps (roleOutline ι) ((roleOutline ι).any _) .lookUp := by
  refine Prog.Keeps.bind ((deduplicatedLoadFromOrigin_role foreign ns key).mono ?_)
  rintro role (e | _ | value) rfl
  · exact Prog.keeps_ret.mpr trivial
  · exact Prog.keeps_ret.mpr trivial
  · exact cacheValue_role foreign ns key value _

theorem swr_role : (self.swr ns key).Keeps (roleOutline ι) ((roleOutline ι).any _) .lookUp := by
  refine keeps_lookUp (getInternal_looksUp foreign ns key) fun result => ?_
  split
  · simp only [spawnRevalidation, Ask.spawn_bind, Prog.keeps_op]
    exact ⟨foreign, fun _ _ => Prog.keeps_ret.mpr trivial⟩
  · refine Prog.Keeps.bind ((deduplicatedLoadFromOrigin_role foreign ns key).mono ?_)
    rintro role (e | _ | fresh) rfl
    · exact Prog.keeps_ret.mpr trivial
    · exact Prog.keeps_ret.mpr trivial
    · exact cacheValue_role foreign ns key fresh _
  · exact Prog.keeps_ret.mpr trivial
  · exact loadOrFail_role foreign ns key
  · exact loadOrFail_role foreign ns key
  · exact loadOrFail_role foreign ns key

end SwrCache

theorem roleOutline_body [DecidableEq ι] (task : Task ι) (foreign : task.overForeign = true) :
    task.body.Keeps (roleOutline ι) ((roleOutline ι).any _) task.role := by
  cases task with
  | get cache ns key =>
      refine keeps_lookUp ((SwrCache.getInternal_looksUp foreign ns key).bind fun result => ?_)
        fun _ => Prog.keeps_ret.mpr trivial
      cases result <;> trivial
  | set cache ns key value opts =>
      simp only [Task.body, SwrCache.set, Ask.now_bind, Prog.op_bind, Prog.keeps_op]
      refine ⟨trivial, fun now _ => Prog.Keeps.bind ?_⟩
      split
      · exact Prog.keeps_ret.mpr (Prog.keeps_ret.mpr trivial)
      · next stored _ =>
          obtain ⟨id, name, mode, dyn⟩ := SwrCache.dyn_foreign foreign
          rw [dyn]
          exact Prog.keeps_op.mpr ⟨trivial, fun _ _ =>
            Prog.keeps_ret.mpr (Prog.keeps_ret.mpr trivial)⟩
  | remove cache ns key =>
      obtain ⟨id, name, mode, dyn⟩ := SwrCache.dyn_foreign foreign
      simp only [Task.body, SwrCache.remove, dyn, ExtStore.dyn, Ask.extRemove_bind, Prog.keeps_op]
      exact ⟨trivial, fun _ _ => Prog.keeps_ret.mpr trivial⟩
  | swr cache ns key =>
      exact Prog.Keeps.bind ((SwrCache.swr_role foreign ns key).mono
        fun _ _ _ => Prog.keeps_ret.mpr trivial)
  | cacheValue cache ns key value freshUntil staleUntil =>
      exact Prog.Keeps.bind
        ((SwrCache.cacheValueTask_role foreign ns key value freshUntil staleUntil).mono
        fun _ _ _ => Prog.keeps_ret.mpr trivial)
  | revalidate cache ns key =>
      exact Prog.Keeps.bind ((SwrCache.revalidateTask_role foreign ns key).mono
        fun _ _ _ => Prog.keeps_ret.mpr trivial)
  | storeGet | storeSet | storeRemove | backfill | redisDel => cases foreign

/-- Who touches the store does so once. -/
theorem done_acting {role : Role} {c : Cmd ι} {id : Nat} {ns key : String} (allowed : roleOk role c)
    (acts : (c.outcome id ns key).isSome) : roleNext role c = .done := by
  cases c
  case extSet | extRemove =>
    cases role with
    | writer => rfl
    | lookUp | done => exact allowed.elim
  all_goals cases acts

theorem inert_done {c : Cmd ι} {id : Nat} {ns key : String} (allowed : roleOk .done c) :
    c.Inert id ns key := by
  cases c <;> first | exact ⟨rfl, rfl⟩ | exact allowed.elim

theorem only_inert {p : Code ι (Out ι)} {id : Nat} {ns key : String}
    (keeps : p.Keeps (roleOutline ι) ((roleOutline ι).any _) Role.done) :
    p.Only (Cmd.Inert id ns key) :=
  keeps.only (P := fun role => role = Role.done)
    (by rintro _ c r rfl _; exact ⟨trivial, rfl⟩)
    (by rintro _ c rfl allowed; exact inert_done allowed)
    rfl

/-! ## What stands -/

section Runs

variable [DecidableEq ι] {w : World ι} {past earlier later : History (system (ι := ι) .atomicMap)}
  {s s' s₁ : Config (system (ι := ι) .atomicMap)} {l : Label (system (ι := ι) .atomicMap)}

/-- All calls are calls on caches over single foreign stores. -/
def OverForeign (l : Label (system (ι := ι) .atomicMap)) : Prop :=
  ∀ task : Task ι, task ∈ l.starting → task.isCall = true ∧ task.overForeign = true

instance (l : Label (system (ι := ι) .atomicMap)) : Decidable (OverForeign l) :=
  inferInstanceAs (Decidable (∀ task : Task ι, task ∈ l.starting → _))

/-- A task of the family has begun a load of the key. -/
def Begun (ns key : String) (past : History (system (ι := ι) .atomicMap)) (root : Nat) : Prop :=
  ∃ s i t cache r th, (s, .exec i t (.loadStart cache ns key) r) ∈ past ∧
    s.threads[i]? = some th ∧ th.root = root

/-- What thread `i` does to the store, after a history. -/
def roleAt (i : Nat) (task : Task ι) (past : History (system (ι := ι) .atomicMap)) : Role :=
  ghost (roleOutline ι) task.role i past

theorem run_roles (run : Run (system .atomicMap) (.idle w) past s)
    (calls : ∀ e ∈ past, OverForeign e.2) :
    Outlined (roleOutline ι) Task.role ((roleOutline ι).any _) past s := by
  refine (Run.outline (O := roleOutline ι) (T := fun task : Task ι => task.overForeign = true)
    (fun _ _ => True) roleOutline_body ?_ (fun _ _ _ => True) trivial ?_ run
    (fun _ _ _ _ => trivial) ?_).1
  · intro role c allowed task member
    obtain rfl := Cmd.mem_spawned.mp member
    cases role with
    | lookUp => exact allowed
    | writer | done => exact allowed.elim
  · exact fun _ _ _ _ _ _ _ _ _ => ⟨fun _ _ _ _ _ _ _ => trivial, trivial⟩
  · intro s₀ task member
    exact (calls _ member task rfl).2

theorem begun_lt {ns key : String} {root : Nat} (run : Run (system .atomicMap) (.idle w) past s)
    (begun : Begun ns key past root) : root < s.threads.length := by
  obtain ⟨s₀, i, t, cache, r, th, member, at_i, rfl⟩ := begun
  obtain ⟨_, before, rfl⟩ := List.append_of_mem member
  have inside := run.exec_lt member
  have reached := (run.upTo (List.suffix_append _ _)).1.root_le at_i
  omega

theorem roleAt_exec {i j : Nat} {t : Int} {c : Cmd ι} {r : c.Ans} {task : Task ι} :
    roleAt i task ((s, .exec j t c r) :: past) =
      if j = i then roleNext (roleAt i task past) c else roleAt i task past := rfl

/-- The task has touched the key. -/
def Acted (id : Nat) (ns key : String) (i : Nat)
    (past : History (system (ι := ι) .atomicMap)) : Prop :=
  ∃ s t c r, (s, .exec i t c r) ∈ past ∧ (c.outcome id ns key).isSome

theorem done_acted {id i : Nat} {ns key : String} (run : Run (system .atomicMap) (.idle w) past s)
    (calls : ∀ e ∈ past, OverForeign e.2) {th : Thread (system .atomicMap)}
    (at_i : s.threads[i]? = some th) (acted : Acted id ns key i past) :
    roleAt i th.task past = .done := by
  induction run generalizing th with
  | refl => simp [Config.idle] at at_i
  | @step past s l s' before taken ih =>
      have before_calls : ∀ e ∈ past, OverForeign e.2 := fun e member => calls e (by simp [member])
      obtain ⟨s₀, t, c, r, member, acts⟩ := acted
      rcases List.mem_cons.mp member with here | earlier
      · cases here
        obtain ⟨th₀, was_i, _, allowed⟩ := (run_roles before before_calls).ok taken
        obtain ⟨th₁, at_i₁, same, _⟩ := taken.persists was_i
        obtain rfl := Option.some.inj (at_i.symm.trans at_i₁)
        rw [same, roleAt_exec, if_pos rfl]
        exact done_acting allowed acts
      · have was_i := List.getElem?_eq_getElem (before.exec_lt earlier)
        obtain ⟨th₁, at_i₁, same, _⟩ := taken.persists was_i
        obtain rfl := Option.some.inj (at_i.symm.trans at_i₁)
        have done := ih before_calls was_i ⟨s₀, t, c, r, earlier, acts⟩
        rw [same]
        cases l with
        | start | turn | drop => exact done
        | exec j t' c' r' =>
            rw [roleAt_exec, done]
            split <;> rfl

/-- Once an operation on the key has taken effect while each task of a load that had
    begun is gone or past its write, those loads are at rest. -/
theorem loads_at_rest {id i : Nat} {ns key : String} {t : Int} {c : Cmd ι} {r : c.Ans}
    (before : Run (system .atomicMap) (.idle w) past s) (calls : ∀ e ∈ past, OverForeign e.2)
    (taken : Step (system .atomicMap) s (.exec i t c r) s') (acts : (c.outcome id ns key).isSome)
    (settled : ∀ j th, s.threads[j]? = some th → j ≠ i → Begun ns key past th.root →
      th.Gone ∨ Acted id ns key j past) :
    AtRest (Cmd.Inert id ns key) (Begun ns key past) s' where
  started root begun := Nat.lt_of_lt_of_le (begun_lt before begun) taken.length_le
  only := by
    intro j th p at_j begun prog
    have outlined := run_roles before calls
    cases taken.fate at_j with
    | same was_j foreign =>
        have other : j ≠ i := by rintro rfl; exact foreign t c r rfl
        rcases settled j th was_j other begun with (dropped | ⟨_, finished⟩) | acted
        · rw [dropped] at prog; cases prog
        · rw [finished] at prog; cases prog; trivial
        · have keeps : p.Keeps (roleOutline ι) ((roleOutline ι).any _) (roleAt j th.task past) :=
            outlined j th p was_j prog
          rw [done_acted before calls was_j acted] at keeps
          exact only_inert keeps
    | moved was_j next moved =>
        subst moved
        obtain rfl := Option.some.inj prog
        obtain ⟨allowed, onward⟩ := Prog.keeps_op.mp (outlined i _ _ was_j next)
        have keeps := onward r trivial
        rw [show (roleOutline ι).next _ c r = Role.done from done_acting allowed acts] at keeps
        exact only_inert keeps
    | spawned _ _ _ member =>
        obtain rfl := Cmd.mem_spawned.mp member
        cases acts

/-- What an operation leaves under a key stands while the loads that had begun are the
    only ones to write there, if each of their tasks was gone or past its write by then. -/
theorem outcome_stands {id i : Nat} {ns key : String} {t : Int} {c : Cmd ι} {r : c.Ans}
    {left : Option (StoredEntry ι)}
    (run : Run (system .atomicMap) (.idle w) (later ++ (s₁, .exec i t c r) :: earlier) s)
    (calls : ∀ e ∈ later ++ (s₁, .exec i t c r) :: earlier, OverForeign e.2)
    (acts : c.outcome id ns key = some left)
    (settled : ∀ j th, s₁.threads[j]? = some th → j ≠ i → Begun ns key earlier th.root →
      th.Gone ∨ Acted id ns key j earlier)
    (belated : ∀ e ∈ later, Belated id ns key (Begun ns key earlier) e.1 e.2) :
    s.world.ext id ns key = left ∧ ∀ s₂ j t₂ (r₂ : Except CacheError (Option (StoredEntry ι))),
      (s₂, .exec j t₂ (.extGet id ns key) r₂) ∈ later → r₂ = .ok left := by
  refine outcome_kept run acts (fun s₂ before taken => ?_) belated
  exact loads_at_rest before
    (fun e member => calls e (List.mem_append_right _ (List.mem_cons_of_mem _ member)))
    taken (by rw [acts]; rfl) settled

/-- A look-up after a removal that no load was under way for. -/
theorem outcome_stands_removed : ∃ (later earlier : History (system .atomicMap))
    (s₁ s : Config (system .atomicMap)) (t : Int) (r :
      (Cmd.extRemove (ι := Unit) 0 "ns" ["k"]).Ans),
    Run (system .atomicMap) (.idle (.empty : World Unit))
      (later ++ (s₁, .exec 2 t (.extRemove 0 "ns" ["k"]) r) :: earlier) s ∧
    (∃ e ∈ earlier, (outcome 0 "ns" "k" e.2).isSome) ∧
    (∃ s₂ t₂ r₂, (s₂, .exec 3 t₂ (.extGet 0 "ns" "k") r₂) ∈ later) ∧
    s.world.ext 0 "ns" "k" = none ∧
    ∀ s₂ j t₂ (r₂ : Except CacheError (Option (StoredEntry Unit))),
      (s₂, .exec j t₂ (.extGet 0 "ns" "k") r₂) ∈ later → r₂ = .ok none := by
  obtain ⟨past, s, played, e₁, e₂, s₁, t, r, earlier, rfl, written, looked, quiet, a, b, th,
    threads, over_a, over_b⟩ :
      ∃ past s, driver.play (fun _ l => OverForeign l)
        [.start (.swr soleCache "ns" "k"), .go 0 (reading 0), .go 0 (reading 0), .go 0 (reading 0),
          .go 0 (reading 0), .go 0 (reading 0), .go 0 (reading 0), .go 0 (reading 0),
          .go 0 (reading 0), .go 1 (reading 0), .start (.remove soleCache "ns" "k"),
          .go 2 (reading 1), .start (.get soleCache "ns" "k"), .go 3 (reading 2)]
        ([], .idle (.empty : World Unit)) = some (past, s) ∧
      ∃ e₁ e₂ s₁ t r earlier,
        past = [e₁, e₂] ++ (s₁, .exec 2 t (.extRemove 0 "ns" ["k"]) r) :: earlier ∧
        (∃ e ∈ earlier, (outcome 0 "ns" "k" e.2).isSome) ∧
        (∃ s₂ t₂ r₂, (s₂, .exec 3 t₂ (.extGet 0 "ns" "k") r₂) = e₁) ∧
        e₂.2 = .start (.get soleCache "ns" "k") ∧
        ∃ a b th, s₁.threads = [a, b, th] ∧ a.Gone ∧ b.Gone :=
    ⟨_, _, rfl, _, _, _, _, _, _, rfl, ⟨_, .tail _ (.head _), rfl⟩, ⟨_, _, _, rfl⟩, rfl,
      _, _, _, rfl, .inr ⟨_, rfl⟩, .inr ⟨_, rfl⟩⟩
  obtain ⟨run, calls⟩ := Driver.plays played
  obtain ⟨s₂, t₂, r₂, rfl⟩ := looked
  refine ⟨_, earlier, s₁, s, t, r, run, written, ⟨s₂, t₂, r₂, List.mem_cons_self ..⟩,
    outcome_stands run calls rfl ?_ ?_⟩
  · intro j th' at_j other _
    rw [threads] at at_j
    match j, at_j with
    | 0, at_j => cases at_j; exact .inl over_a
    | 1, at_j => cases at_j; exact .inl over_b
    | 2, _ => exact absurd rfl other
    | n + 3, at_j => simp at at_j
  · intro e member
    rcases List.mem_cons.mp member with rfl | member
    · exact quiet_belated rfl
    · obtain rfl := List.mem_singleton.mp member
      exact quiet_belated (by rw [quiet]; rfl)

/-- The write of a load that began before a removal brings the key back. -/
theorem revived_key : ¬ ∀ (past : History (system .atomicMap)) (s : Config (system .atomicMap)),
    Run (system .atomicMap) (.idle (.empty : World Unit)) past s →
    (∀ e ∈ past, OverForeign e.2) → ¬ Overtaken 0 "ns" "k" (Begun "ns" "k") past := by
  intro ordered
  obtain ⟨past, s, played, overtaken⟩ : ∃ past s, driver.play (fun _ l => OverForeign l)
      [.start (.swr soleCache "ns" "k"), .go 0 (reading 0), .go 0 (reading 0), .go 0 (reading 0),
        .go 0 (reading 0), .go 0 (reading 0), .go 0 (reading 0), .go 0 (reading 0),
        .go 0 (reading 0), .start (.remove soleCache "ns" "k"), .go 2 (reading 1),
        .go 1 (reading 2)] ([], .idle (.empty : World Unit)) = some (past, s) ∧
      Overtaken 0 "ns" "k" (Begun "ns" "k") past :=
    ⟨_, _, rfl, _, 1, _, _, _, _, _, List.suffix_refl _, rfl, rfl, rfl,
      _, 2, _, _, _, _, _, List.suffix_refl _, rfl, rfl, rfl,
      _, 0, _, soleCache, _, _, .tail _ (.tail _ (.tail _ (.tail _ (.tail _ (.head _))))), rfl, rfl⟩
  obtain ⟨run, calls⟩ := Driver.plays played
  exact ordered past s run calls overtaken

end Runs

end Swr
