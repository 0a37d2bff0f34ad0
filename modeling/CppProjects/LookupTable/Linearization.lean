import CppProjects.Core.LastEntry
import CppProjects.LookupTable.LookupTable

/-!
# The table is a finite map

The buckets hold the entries of one map, each where its hash says and once.  A lookup
tells what the latest update has left, and `get_map` the whole map of the moment at which
it has all locks.
-/

namespace CppProjects.LookupTable

open OrderedMap TransitionSystem

variable {κ ν τ : Type} [LinearOrder κ]

/-! ## One bucket -/

namespace Bucket

theorem findEntryFor_cons (entry : κ × ν) (data : Bucket κ ν) (key : κ) :
    findEntryFor (entry :: data) key =
      if entry.1 = key then some 0 else (data.findEntryFor key).map (· + 1) := by
  rw [findEntryFor, List.findIdx?_cons]
  simp only [decide_eq_true_eq]
  rfl

/-- The value of the first entry with the key. -/
theorem valueFor_eq (data : Bucket κ ν) (key : κ) (default : ν) :
    data.valueFor key default = (lookup? key data).getD default := by
  induction data with
  | nil => rfl
  | cons entry data ih =>
      rw [valueFor, findEntryFor_cons, lookup?]
      rw [valueFor] at ih
      split_ifs with hkey
      · rfl
      · rw [← ih]
        cases findEntryFor data key <;> rfl

/-- Setting a key goes on behind the entries of other keys. -/
theorem addOrUpdateMapping_cons (entry : κ × ν) (data : Bucket κ ν) (key : κ) (value : ν) :
    addOrUpdateMapping (entry :: data) key value =
      if entry.1 = key then (entry.1, value) :: data
      else entry :: data.addOrUpdateMapping key value := by
  rw [addOrUpdateMapping, addOrUpdateMapping, findEntryFor_cons]
  split_ifs with hkey
  · rfl
  · cases findEntryFor data key <;> rfl

theorem removeMapping_cons (entry : κ × ν) (data : Bucket κ ν) (key : κ) :
    removeMapping (entry :: data) key =
      if entry.1 = key then data else entry :: data.removeMapping key := by
  rw [removeMapping, removeMapping, findEntryFor_cons]
  split_ifs with hkey
  · rfl
  · cases findEntryFor data key <;> rfl

theorem lookup?_addOrUpdateMapping (data : Bucket κ ν) (key other : κ) (value : ν) :
    lookup? other (data.addOrUpdateMapping key value) =
      if other = key then some value else lookup? other data := by
  induction data with
  | nil =>
      rw [addOrUpdateMapping, findEntryFor]
      simp [lookup?, eq_comm]
  | cons entry data ih =>
      rw [addOrUpdateMapping_cons]
      split_ifs with hentry hother hother <;> grind [lookup?]

/-- Without the key there is nothing to find. -/
theorem lookup?_eq_none {data : Bucket κ ν} {key : κ} (habsent : key ∉ data.map Prod.fst) :
    lookup? key data = none := by
  induction data with
  | nil => rfl
  | cons entry data ih =>
      rw [List.map_cons, List.mem_cons, not_or] at habsent
      rw [lookup?, if_neg (Ne.symm habsent.1), ih habsent.2]

theorem lookup?_removeMapping (data : Bucket κ ν) (hunique : (data.map Prod.fst).Nodup) (key other : κ) :
    lookup? other (data.removeMapping key) = if other = key then none else lookup? other data := by
  induction data with
  | nil => simp [removeMapping, findEntryFor, lookup?]
  | cons entry data ih =>
      obtain ⟨habsent, hrest⟩ := List.nodup_cons.mp hunique
      rw [removeMapping_cons]
      split_ifs with hentry hother hother
      · rw [hother, ← hentry]
        exact lookup?_eq_none habsent
      · rw [lookup?, if_neg (by rw [hentry]; exact Ne.symm hother)]
      · rw [lookup?, if_neg (by rw [hother]; exact hentry), ih hrest, if_pos hother]
      · rw [lookup?, lookup?, ih hrest, if_neg hother]

/-- The keys stay as they are, or the new one comes last. -/
theorem keys_addOrUpdateMapping (data : Bucket κ ν) (key : κ) (value : ν) :
    (data.addOrUpdateMapping key value).map Prod.fst = data.map Prod.fst ∨
      (key ∉ data.map Prod.fst ∧
        (data.addOrUpdateMapping key value).map Prod.fst = data.map Prod.fst ++ [key]) := by
  induction data with
  | nil => exact .inr ⟨List.not_mem_nil, rfl⟩
  | cons entry data ih =>
      rw [addOrUpdateMapping_cons]
      split_ifs with hentry
      · exact .inl rfl
      · rcases ih with hsame | ⟨habsent, hnew⟩
        · exact .inl (congrArg (entry.1 :: ·) hsame)
        · refine .inr ⟨fun hmem => ?_, congrArg (entry.1 :: ·) hnew⟩
          exact (List.mem_cons.mp hmem).elim (fun hkey => hentry hkey.symm) habsent

theorem keys_removeMapping (data : Bucket κ ν) (key : κ) :
    ((data.removeMapping key).map Prod.fst).Sublist (data.map Prod.fst) := by
  induction data with
  | nil => exact List.Sublist.refl _
  | cons entry data ih =>
      rw [removeMapping_cons]
      split_ifs with hentry
      · exact List.sublist_cons_self _ _
      · exact ih.cons_cons entry.1

end Bucket

/-! ## Copying a bucket -/

/-- Of a key that several entries have, the first counts, and of one that is there
already, none. -/
theorem find?_foldl_insertNew (data : Bucket κ ν) (res : OrderedMap κ ν) (key : κ) :
    (data.foldl insertNew res).find? key = (res.find? key).or (lookup? key data) := by
  induction data generalizing res with
  | nil => simp [lookup?]
  | cons entry data ih =>
      rw [List.foldl_cons, ih, insertNew, index, lookup?]
      cases hfind : res.find? entry.1 with
      | none =>
          dsimp only
          rw [find?_insert]
          split_ifs with hkey hentry hentry
          · rw [hkey, hfind]
            rfl
          · exact absurd hkey.symm hentry
          · exact absurd hentry.symm hkey
          · rfl
      | some val =>
          dsimp only
          split_ifs with hentry
          · rw [← hentry, hfind]
            rfl
          · rfl

/-! ## The map -/

section Events

variable {events : List (Event κ ν τ)} {key : κ}

@[simp] theorem mapAfter_nil : mapAfter ([] : List (Event κ ν τ)) = fun _ => none := rfl

@[simp] theorem mapAfter_concat (events : List (Event κ ν τ)) (event : Event κ ν τ) :
    mapAfter (events ++ [event]) = event.apply (mapAfter events) := by
  rw [mapAfter, List.foldl_append]
  rfl

/-- The event sets the key to the value. -/
def Event.Sets (key : κ) (value : ν) (_ : List (Event κ ν τ)) (event : Event κ ν τ) : Prop :=
  event = .updated key value

/-- The event sets or removes the key. -/
def Event.Touches (key : κ) (_ : List (Event κ ν τ)) (event : Event κ ν τ) : Prop :=
  (∃ value, event = .updated key value) ∨ event = .removed key

/-- The map holds the value of the latest update that no other one and no removal of the
key follows. -/
theorem mapAfter_eq_some_iff (events : List (Event κ ν τ)) (key : κ) (value : ν) :
    mapAfter events key = some value ↔
      ∃ event, LastOf (Event.Sets key value) (Event.Touches key) events event := by
  induction events using List.reverseRecOn with
  | nil => exact iff_of_false (by simp) fun ⟨_, hlast⟩ => not_lastOf_nil hlast
  | append_singleton events event ih =>
      have hlast : (∃ other, LastOf (Event.Sets key value) (Event.Touches key) (events ++ [event]) other) ↔
          event = .updated key value ∨ (mapAfter events key = some value ∧ ¬ Event.Touches key events event) := by
        simp only [lastOf_concat]
        rw [ih, exists_or, exists_and_right, exists_and_right]
        exact or_congr_left (and_iff_right ⟨event, rfl⟩)
      rw [hlast, mapAfter_concat]
      cases event with
      | updated other newValue =>
          by_cases hkey : key = other
          · subst hkey
            simp [Event.apply, Event.Touches]
          · simp [Event.apply, Event.Touches, hkey, Ne.symm hkey]
      | removed other =>
          by_cases hkey : key = other
          · subst hkey
            simp [Event.apply, Event.Touches]
          · simp [Event.apply, Event.Touches, hkey, Ne.symm hkey]
      | read | held | returned => simp [Event.apply, Event.Touches]

end Events

/-! ## The steps -/

section Steps

variable {numBuckets : ℕ} [NeZero numBuckets] [DecidableEq τ] (hasher : κ → ℕ)

/-- What each step needs, tells and leads to. -/
inductive Turn (state : State κ ν τ numBuckets) :
    List (Event κ ν τ) → State κ ν τ numBuckets → Prop
  | read (key : κ) (default : ν) (hfree : state.mutex (bucketIndex hasher key) = none) :
      Turn state
        [.read key default ((state.buckets (bucketIndex hasher key)).valueFor key default)] state
  | update (key : κ) (value : ν) (hfree : state.mutex (bucketIndex hasher key) = none) :
      Turn state [.updated key value] { state with
        buckets := Function.update state.buckets (bucketIndex hasher key)
          ((state.buckets (bucketIndex hasher key)).addOrUpdateMapping key value) }
  | remove (key : κ) (hfree : state.mutex (bucketIndex hasher key) = none) :
      Turn state [.removed key] { state with
        buckets := Function.update state.buckets (bucketIndex hasher key)
          ((state.buckets (bucketIndex hasher key)).removeMapping key) }
  | call (thread : τ) (hcall : state.calls thread = .idle) :
      Turn state [] (state.setCall thread (.locking 0))
  | lock (thread : τ) (i : Fin numBuckets) (hcall : state.calls thread = .locking i)
      (hfree : state.mutex i = none) :
      Turn state [] ((state.setMutex i (some thread)).setCall thread (.locking (i + 1)))
  | hold (thread : τ) (i : ℕ) (hcall : state.calls thread = .locking i) (hall : numBuckets ≤ i) :
      Turn state [.held thread] (state.setCall thread (.copying 0 .empty))
  | copy (thread : τ) (i : Fin numBuckets) (res : OrderedMap κ ν)
      (hcall : state.calls thread = .copying i res) :
      Turn state [] (state.setCall thread (.copying (i + 1) ((state.buckets i).foldl insertNew res)))
  | copied (thread : τ) (i : ℕ) (res : OrderedMap κ ν) (hcall : state.calls thread = .copying i res)
      (hall : numBuckets ≤ i) : Turn state [] (state.setCall thread (.unlocking res))
  | unlock (thread : τ) (i : Fin numBuckets) (res : OrderedMap κ ν)
      (hcall : state.calls thread = .unlocking res) (hheld : state.mutex i = some thread) :
      Turn state [] (state.setMutex i none)
  | return (thread : τ) (res : OrderedMap κ ν) (hcall : state.calls thread = .unlocking res) :
      Turn state [.returned thread res] (state.setCall thread .idle)

variable {hasher} {state state' : State κ ν τ numBuckets}

theorem turn_of_getMapStep {thread : τ} (hstep : state.getMapStep thread = some state') :
    Turn hasher state (report hasher state (.next thread)) state' := by
  rw [State.getMapStep] at hstep
  rw [report]
  cases hcall : state.calls thread with
  | idle => simp only [hcall, reduceCtorEq] at hstep
  | locking i =>
      simp only [hcall] at hstep ⊢
      by_cases hi : i < numBuckets
      · rw [dif_pos hi] at hstep
        split_ifs at hstep with hfree
        obtain rfl := Option.some.inj hstep
        rw [if_pos hi]
        exact .lock thread ⟨i, hi⟩ hcall hfree
      · rw [dif_neg hi] at hstep
        obtain rfl := Option.some.inj hstep
        rw [if_neg hi]
        exact .hold thread i hcall (not_lt.mp hi)
  | copying i res =>
      simp only [hcall] at hstep ⊢
      by_cases hi : i < numBuckets
      · rw [dif_pos hi] at hstep
        obtain rfl := Option.some.inj hstep
        exact .copy thread ⟨i, hi⟩ res hcall
      · rw [dif_neg hi] at hstep
        obtain rfl := Option.some.inj hstep
        exact .copied thread i res hcall (not_lt.mp hi)
  | unlocking res =>
      simp only [hcall] at hstep ⊢
      split_ifs at hstep with hnone
      obtain rfl := Option.some.inj hstep
      exact .return thread res hcall

theorem turn_of_step {label : Label κ ν τ numBuckets} (hstep : state.step hasher label = some state') :
    Turn hasher state (report hasher state label) state' := by
  cases label with
  | valueFor key default =>
      rw [State.step] at hstep
      split_ifs at hstep with hfree
      obtain rfl := Option.some.inj hstep
      exact .read key default hfree
  | addOrUpdateMapping key value =>
      rw [State.step, State.setBucket] at hstep
      split_ifs at hstep with hfree
      obtain rfl := Option.some.inj hstep
      exact .update key value hfree
  | removeMapping key =>
      rw [State.step, State.setBucket] at hstep
      split_ifs at hstep with hfree
      obtain rfl := Option.some.inj hstep
      exact .remove key hfree
  | getMap thread =>
      cases hcall : state.calls thread <;> simp only [State.step, hcall, reduceCtorEq] at hstep
      obtain rfl := Option.some.inj hstep
      exact .call thread hcall
  | next thread => exact turn_of_getMapStep hstep
  | unlock thread i =>
      cases hcall : state.calls thread <;> simp only [State.step, hcall, reduceCtorEq] at hstep
      split_ifs at hstep with hheld
      obtain rfl := Option.some.inj hstep
      exact .unlock thread i _ hcall hheld

/-! ## What every step keeps -/

/-- The buckets hold the map that the events have made. -/
structure Stored (hasher : κ → ℕ) (told : List (Event κ ν τ)) (state : State κ ν τ numBuckets) :
    Prop where
  contents : ∀ key, lookup? key (state.buckets (bucketIndex hasher key)) = mapAfter told key
  placed : ∀ i, ∀ key ∈ (state.buckets i).map Prod.fst, bucketIndex hasher key = i
  unique : ∀ i, ((state.buckets i).map Prod.fst).Nodup

variable {told events : List (Event κ ν τ)}

omit [DecidableEq τ] in
/-- One bucket changes, and the map at one key of it. -/
theorem Stored.setBucket (hstored : Stored hasher told state) (key : κ) {data : Bucket κ ν}
    {event : Event κ ν τ}
    (hdata : ∀ other, bucketIndex hasher other = (bucketIndex hasher key : Fin numBuckets) →
      lookup? other data = event.apply (mapAfter told) other)
    (hother : ∀ other, other ≠ key → event.apply (mapAfter told) other = mapAfter told other)
    (hplaced : ∀ other ∈ data.map Prod.fst,
      other = key ∨ other ∈ (state.buckets (bucketIndex hasher key)).map Prod.fst)
    (hunique : (data.map Prod.fst).Nodup) : Stored hasher (told ++ [event])
      { state with buckets := Function.update state.buckets (bucketIndex hasher key) data } := by
  refine ⟨fun other => ?_, fun i other hmem => ?_, fun i => ?_⟩
  · rw [mapAfter_concat]
    dsimp only
    by_cases hsame : bucketIndex hasher other = (bucketIndex hasher key : Fin numBuckets)
    · rw [hsame, Function.update_self]
      exact hdata other hsame
    · rw [Function.update_of_ne hsame, hother other fun hkey => hsame (congrArg _ hkey)]
      exact hstored.contents other
  · dsimp only at hmem
    by_cases hi : i = bucketIndex hasher key
    · subst hi
      rw [Function.update_self] at hmem
      rcases hplaced other hmem with rfl | hold
      · rfl
      · exact hstored.placed _ other hold
    · rw [Function.update_of_ne hi] at hmem
      exact hstored.placed i other hmem
  · dsimp only
    by_cases hi : i = bucketIndex hasher key
    · subst hi
      rw [Function.update_self]
      exact hunique
    · rw [Function.update_of_ne hi]
      exact hstored.unique i

omit [DecidableEq τ] in
/-- Steps that leave the buckets and the map alone. -/
theorem Stored.of_same (hstored : Stored hasher told state)
    (hmap : mapAfter (told ++ events) = mapAfter told) (hbuckets : state'.buckets = state.buckets) :
    Stored hasher (told ++ events) state' := by
  obtain ⟨hcontents, hplaced, hunique⟩ := hstored
  refine ⟨fun key => ?_, fun i key => ?_, fun i => ?_⟩
  · rw [hbuckets, hmap]
    exact hcontents key
  · rw [hbuckets]
    exact hplaced i key
  · rw [hbuckets]
    exact hunique i

theorem Stored.step (hstored : Stored hasher told state) (hturn : Turn hasher state events state') :
    Stored hasher (told ++ events) state' := by
  cases hturn with
  | read | hold | «return» => exact hstored.of_same (mapAfter_concat _ _) rfl
  | call | lock | copy | copied | unlock => exact hstored.of_same (by rw [List.append_nil]) rfl
  | update key value =>
      have hkeys := Bucket.keys_addOrUpdateMapping (state.buckets (bucketIndex hasher key)) key value
      have hunique := hstored.unique (bucketIndex hasher key)
      refine hstored.setBucket key (fun other hother => ?_) (fun other hne => ?_) (fun other hmem => ?_) ?_
      · rw [Bucket.lookup?_addOrUpdateMapping, ← hother, hstored.contents other]
        exact (Function.update_apply _ _ _ _).symm
      · exact Function.update_of_ne hne _ _
      · rcases hkeys with hsame | ⟨-, hnew⟩
        · rw [hsame] at hmem
          exact .inr hmem
        · rw [hnew] at hmem
          exact (List.mem_append.mp hmem).symm.imp_left List.mem_singleton.mp
      · rcases hkeys with hsame | ⟨habsent, hnew⟩
        · rw [hsame]
          exact hunique
        · rw [hnew]
          exact List.nodup_append.mpr ⟨hunique, List.nodup_singleton _, fun left hleft right hright heq =>
            habsent (by rw [List.mem_singleton.mp hright] at heq; rwa [heq] at hleft)⟩
  | remove key =>
      have hunique := hstored.unique (bucketIndex hasher key)
      have hkeys := Bucket.keys_removeMapping (state.buckets (bucketIndex hasher key)) key
      refine hstored.setBucket key (fun other hother => ?_) (fun other hne => ?_)
        (fun other hmem => .inr (hkeys.subset hmem)) (hunique.sublist hkeys)
      · rw [Bucket.lookup?_removeMapping _ hunique, ← hother, hstored.contents other]
        exact (Function.update_apply _ _ _ _).symm
      · exact Function.update_of_ne hne _ _

/-- The mutexes that a call of `get_map` has. -/
def Holds (mutex : Fin numBuckets → Option τ) (thread : τ) : Phase κ ν → Prop
  | .locking i => ∀ j : Fin numBuckets, (j : ℕ) < i → mutex j = some thread
  | .copying _ _ => ∀ j, mutex j = some thread
  | .idle | .unlocking _ => True

/-- A call of `get_map` has the mutexes that it has taken. -/
def Locked (state : State κ ν τ numBuckets) : Prop :=
  ∀ thread, Holds state.mutex thread (state.calls thread)

omit [NeZero numBuckets] in
/-- A call of `get_map` goes on. -/
theorem Locked.setCall (hlocked : Locked state) {thread : τ} {phase : Phase κ ν}
    (hphase : Holds state.mutex thread phase) : Locked (state.setCall thread phase) := by
  intro other
  change Holds state.mutex other (Function.update state.calls thread phase other)
  by_cases hother : other = thread
  · subst hother
    rw [Function.update_self]
    exact hphase
  · rw [Function.update_of_ne hother]
    exact hlocked other

omit [NeZero numBuckets] [DecidableEq τ] in
/-- Another thread gets a mutex that is free. -/
theorem Holds.setMutex {mutex : Fin numBuckets → Option τ} {thread : τ} {phase : Phase κ ν}
    (hholds : Holds mutex thread phase) {i : Fin numBuckets} {owner : Option τ}
    (hi : mutex i ≠ some thread) : Holds (Function.update mutex i owner) thread phase := by
  have hkept : ∀ j, mutex j = some thread → Function.update mutex i owner j = some thread := by
    intro j hj
    rw [Function.update_of_ne, hj]
    rintro rfl
    exact hi hj
  cases phase with
  | locking => exact fun j hj => hkept j (hholds j hj)
  | copying => exact fun j => hkept j (hholds j)
  | idle | unlocking => trivial

theorem Locked.step (hlocked : Locked state) (hturn : Turn hasher state events state') :
    Locked state' := by
  cases hturn with
  | read | update | remove => exact hlocked
  | call thread => exact hlocked.setCall fun j hj => absurd hj (Nat.not_lt_zero _)
  | lock thread i hcall hfree =>
      have hmutexes : Locked (state.setMutex i (some thread)) := fun other =>
        (hlocked other).setMutex (by rw [hfree]; exact Option.some_ne_none other |>.symm)
      refine hmutexes.setCall fun j hj => ?_
      change Function.update state.mutex i (some thread) j = some thread
      by_cases hji : j = i
      · rw [hji, Function.update_self]
      · have hthread := hlocked thread
        rw [hcall] at hthread
        rw [Function.update_of_ne hji]
        exact hthread j (lt_of_le_of_ne (Nat.le_of_lt_succ hj) fun hval => hji (Fin.ext hval))
  | hold thread i hcall hall =>
      have hthread := hlocked thread
      rw [hcall] at hthread
      exact hlocked.setCall fun j => hthread j (j.isLt.trans_le hall)
  | copy thread i res hcall =>
      have hthread := hlocked thread
      rw [hcall] at hthread
      exact hlocked.setCall hthread
  | copied | «return» => exact hlocked.setCall trivial
  | unlock thread i res hcall hheld =>
      intro other
      by_cases hother : other = thread
      · subst hother
        change Holds _ other (state.calls other)
        rw [hcall]
        trivial
      · apply (hlocked other).setMutex
        rw [hheld]
        exact fun hsame => hother (Option.some.inj hsame).symm

omit [NeZero numBuckets] [DecidableEq τ] in
/-- No bucket changes while a call copies them. -/
theorem Locked.mutex_ne_none (hlocked : Locked state) {thread : τ} {i : ℕ} {res : OrderedMap κ ν}
    (hcall : state.calls thread = .copying i res) (j : Fin numBuckets) : state.mutex j ≠ none := by
  have hthread := hlocked thread
  rw [hcall] at hthread
  rw [hthread j]
  exact Option.some_ne_none thread

/-! ## What the callers see -/

/-- The map of the moment at which the call of `get_map` that a thread is in, or returns
from, held all locks. -/
def Taken (told : List (Event κ ν τ)) (thread : τ) (map : κ → Option ν) : Prop :=
  ∃ earlier later, told = earlier ++ .held thread :: later ∧ map = mapAfter earlier ∧
    ∀ event ∈ later, event ≠ .held thread ∧ ∀ res, event ≠ .returned thread res

omit [DecidableEq τ] in
theorem Taken.concat {thread : τ} {map : κ → Option ν} (htaken : Taken told thread map)
    {event : Event κ ν τ} (hheld : event ≠ .held thread) (hreturned : ∀ res, event ≠ .returned thread res) :
    Taken (told ++ [event]) thread map := by
  obtain ⟨earlier, later, rfl, hmap, hquiet⟩ := htaken
  refine ⟨earlier, later ++ [event], by simp, hmap, fun other hmem => ?_⟩
  rcases List.mem_append.mp hmem with hold | hnew
  · exact hquiet other hold
  · rw [List.mem_singleton.mp hnew]
    exact ⟨hheld, hreturned⟩

/-- The copy that a call of `get_map` has made. -/
def Copies (hasher : κ → ℕ) (numBuckets : ℕ) [NeZero numBuckets] (told : List (Event κ ν τ))
    (thread : τ) : Phase κ ν → Prop
  | .copying i res => Taken told thread (mapAfter told) ∧ ∀ key, res.find? key =
      if (bucketIndex hasher key : Fin numBuckets).val < i then mapAfter told key else none
  | .unlocking res => Taken told thread res.find?
  | .idle | .locking _ => True

/-- What an event tells is right. -/
def Event.Answers (told : List (Event κ ν τ)) : Event κ ν τ → Prop
  | .read key default result => result = (mapAfter told key).getD default
  | .returned thread res => Taken told thread res.find?
  | .updated _ _ | .removed _ | .held _ => True

/-- The table at some point of a run. -/
structure Consistent (hasher : κ → ℕ) (told : List (Event κ ν τ)) (state : State κ ν τ numBuckets) :
    Prop where
  stored : Stored hasher told state
  locked : Locked state
  copies : ∀ thread, Copies hasher numBuckets told thread (state.calls thread)
  answers : ∀ before event after, told = before ++ event :: after → event.Answers before

variable {thread : τ} {phase : Phase κ ν}

omit [DecidableEq τ] in
/-- An event that neither changes the map nor is one of the thread's own. -/
theorem Copies.concat (hcopies : Copies hasher numBuckets told thread phase) {event : Event κ ν τ}
    (hmap : ∀ i res, phase = .copying i res → event.apply (mapAfter told) = mapAfter told)
    (hheld : event ≠ .held thread) (hreturned : ∀ res, event ≠ .returned thread res) :
    Copies hasher numBuckets (told ++ [event]) thread phase := by
  cases phase with
  | idle | locking => trivial
  | copying i res =>
      obtain ⟨htaken, hfind⟩ := hcopies
      rw [Copies, mapAfter_concat, hmap i res rfl]
      exact ⟨htaken.concat hheld hreturned, hfind⟩
  | unlocking res => exact Taken.concat hcopies hheld hreturned

omit [DecidableEq τ] in
theorem answers_concat {event : Event κ ν τ}
    (hanswers : ∀ before other after, told = before ++ other :: after → other.Answers before)
    (hevent : event.Answers told) : ∀ before other after,
      told ++ [event] = before ++ other :: after → other.Answers before := by
  intro before other after hsplit
  rcases concat_eq_append_cons hsplit with ⟨rfl, rfl⟩ | ⟨rest, rfl, rfl⟩
  · obtain rfl := (List.append_singleton_inj.mp hsplit).1
    exact hevent
  · exact hanswers before other rest rfl

/-- One call of `get_map` goes on without telling anything. -/
theorem copies_setCall (hcopies : ∀ thread, Copies hasher numBuckets told thread (state.calls thread))
    (hphase : Copies hasher numBuckets told thread phase) (other : τ) :
    Copies hasher numBuckets told other ((state.setCall thread phase).calls other) := by
  change Copies hasher numBuckets told other (Function.update state.calls thread phase other)
  by_cases hother : other = thread
  · rw [hother, Function.update_self]
    exact hphase
  · rw [Function.update_of_ne hother]
    exact hcopies other

omit [DecidableEq τ] in
/-- A bucket more is copied. -/
theorem Copies.copy (hstored : Stored hasher told state) {i : Fin numBuckets} {res : OrderedMap κ ν}
    (hcopies : Copies hasher numBuckets told thread (.copying i res)) :
    Copies hasher numBuckets told thread
      (.copying (i + 1) ((state.buckets i).foldl insertNew res)) := by
  obtain ⟨htaken, hfind⟩ := hcopies
  refine ⟨htaken, fun key => ?_⟩
  rw [find?_foldl_insertNew, hfind]
  by_cases hkey : bucketIndex hasher key = i
  · rw [if_neg (by rw [hkey]; exact lt_irrefl _), if_pos (by rw [hkey]; exact Nat.lt_succ_self _),
      Option.none_or, ← hkey, hstored.contents key]
  · have habsent : lookup? key (state.buckets i) = none :=
      Bucket.lookup?_eq_none fun hmem => hkey (hstored.placed i key hmem)
    have hne : (bucketIndex hasher key : Fin numBuckets).val ≠ i := fun hval => hkey (Fin.ext hval)
    rw [habsent, Option.or_none]
    exact if_congr ⟨Nat.lt_succ_of_lt, fun hlt => lt_of_le_of_ne (Nat.le_of_lt_succ hlt) hne⟩ rfl rfl

theorem Consistent.step (hconsistent : Consistent hasher told state)
    (hturn : Turn hasher state events state') : Consistent hasher (told ++ events) state' := by
  obtain ⟨hstored, hlocked, hcopies, hanswers⟩ := hconsistent
  -- a bucket that is free is not being copied
  have hfixed : ∀ (j : Fin numBuckets), state.mutex j = none → ∀ thread i res,
      state.calls thread ≠ .copying i res := fun j hfree thread i res hcall =>
    hlocked.mutex_ne_none hcall j hfree
  refine ⟨hstored.step hturn, hlocked.step hturn, fun thread => ?_, ?_⟩
  · cases hturn with
    | read key default => exact (hcopies thread).concat (fun _ _ _ => rfl) (by simp) (by simp)
    | update key value hfree =>
        exact (hcopies thread).concat (fun i res hcall => absurd hcall (hfixed _ hfree thread i res))
          (by simp) (by simp)
    | remove key hfree =>
        exact (hcopies thread).concat (fun i res hcall => absurd hcall (hfixed _ hfree thread i res))
          (by simp) (by simp)
    | call other =>
        rw [List.append_nil]
        refine copies_setCall hcopies ?_ thread
        trivial
    | lock other i =>
        rw [List.append_nil]
        have hmutexes : ∀ thread, Copies hasher numBuckets told thread
          ((state.setMutex i (some other)).calls thread) := hcopies
        refine copies_setCall hmutexes ?_ thread
        trivial
    | hold other =>
        change Copies _ _ _ _ (Function.update state.calls other _ thread)
        by_cases hthread : thread = other
        · rw [hthread, Function.update_self]
          exact ⟨⟨told, [], rfl, mapAfter_concat _ _, by simp⟩, fun key => rfl⟩
        · rw [Function.update_of_ne hthread]
          exact (hcopies thread).concat (fun _ _ _ => rfl) (by simpa using Ne.symm hthread) (by simp)
    | copy other i res hcall =>
        have hother := hcopies other
        rw [hcall] at hother
        rw [List.append_nil]
        exact copies_setCall hcopies (hother.copy hstored) thread
    | copied other i res hcall hall =>
        have hother := hcopies other
        rw [hcall] at hother
        rw [List.append_nil]
        refine copies_setCall hcopies ?_ thread
        have hfind : res.find? = mapAfter told := by
          funext key
          rw [hother.2 key, if_pos ((bucketIndex hasher key).isLt.trans_le hall)]
        rw [Copies, hfind]
        exact hother.1
    | unlock =>
        rw [List.append_nil]
        exact hcopies thread
    | «return» other res =>
        change Copies _ _ _ _ (Function.update state.calls other _ thread)
        by_cases hthread : thread = other
        · rw [hthread, Function.update_self]
          trivial
        · rw [Function.update_of_ne hthread]
          exact (hcopies thread).concat (fun _ _ _ => rfl) (by simp) (by simp [Ne.symm hthread])
  · cases hturn with
    | read key default =>
        exact answers_concat hanswers (by
          rw [Event.Answers, Bucket.valueFor_eq, hstored.contents])
    | update | remove | hold => exact answers_concat hanswers trivial
    | call | lock | copy | copied | unlock =>
        rw [List.append_nil]
        exact hanswers
    | «return» other res hcall =>
        have hother := hcopies other
        rw [hcall] at hother
        exact answers_concat hanswers hother

end Steps

/-- In every run of the table a key is only in the bucket that its hash selects, and
there at most once; a lookup returns the value that the latest update of its key has
set, or the default; and `get_map` returns the map of the moment at which it held all
locks. -/
theorem table_is_map {numBuckets : ℕ} [NeZero numBuckets] [DecidableEq τ] (hasher : κ → ℕ)
    {visited : List (State κ ν τ numBuckets × Label κ ν τ numBuckets)}
    {state : State κ ν τ numBuckets} (hrun : (table κ ν τ numBuckets hasher).Run visited state) :
    (∀ i, (∀ key ∈ (state.buckets i).map Prod.fst, bucketIndex hasher key = i) ∧
      ((state.buckets i).map Prod.fst).Nodup) ∧
    ∀ before event after, history (report hasher) visited = before ++ event :: after →
      (∀ key default result, event = .read key default result →
        result = (mapAfter before key).getD default) ∧
      ∀ thread res, event = .returned thread res → Taken before thread res.find? := by
  have hconsistent : Consistent hasher (history (report hasher) visited) state := by
    refine hrun.history_invariant (R := Consistent hasher) ?_ ?_
    · rintro state rfl
      refine ⟨⟨fun _ => rfl, fun _ _ hmem => ?_, fun _ => List.nodup_nil⟩, fun _ => trivial,
        fun _ => trivial, fun before event after hsplit => ?_⟩
      · cases hmem
      · simp at hsplit
    · exact fun told state label state' hconsistent hstep => hconsistent.step (turn_of_step hstep)
  refine ⟨fun i => ⟨hconsistent.stored.placed i, hconsistent.stored.unique i⟩, ?_⟩
  intro before event after hsplit
  have hanswer := hconsistent.answers before event after hsplit
  constructor
  · rintro key default result rfl
    exact hanswer
  · rintro thread res rfl
    exact hanswer

def noEntry : State ℕ ℕ ℕ 2 := ⟨fun _ => [], fun _ => none, fun _ => .idle⟩

def oneEntry : State ℕ ℕ ℕ 2 :=
  { noEntry with buckets := Function.update noEntry.buckets (bucketIndex id 3) [(3, 7)] }

/-- The key 3 is set to 7 and looked up. -/
theorem table_is_map_oneEntry :
    (∀ i, (∀ key ∈ (oneEntry.buckets i).map Prod.fst, bucketIndex id key = i) ∧
      ((oneEntry.buckets i).map Prod.fst).Nodup) ∧
    ∀ before event after, history (report id)
        [(noEntry, .addOrUpdateMapping 3 7), (oneEntry, .valueFor 3 0)] = before ++ event :: after →
      (∀ key default result, event = .read key default result →
        result = (mapAfter before key).getD default) ∧
      ∀ thread res, event = .returned thread res → Taken before thread res.find? :=
  table_is_map id (.step (.step (.initial rfl) rfl) rfl)

end CppProjects.LookupTable
