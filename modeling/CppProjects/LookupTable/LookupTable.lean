import CppProjects.Core.OrderedMap
import CppProjects.Core.TransitionSystem

/-!
# The thread-safe lookup table

`threadsafe_lookup_table` keeps its entries in buckets, each with a mutex of its own.
Any number of threads look up, set and remove entries, each such call under the mutex of
one bucket; `get_map` takes the mutexes one after another, copies the buckets, and gives
the mutexes back.  The body of `get_map` is read with `buckets[i]->` where it says
`buckets[i].`.
-/

namespace CppProjects.LookupTable

variable {κ ν τ : Type} [LinearOrder κ]

/-! ## A bucket -/

/-- `bucket_data`. -/
abbrev Bucket (κ ν : Type) := List (κ × ν)

namespace Bucket

/-- `find_entry_for`, with `none` for `data.end()`. -/
def findEntryFor (data : Bucket κ ν) (key : κ) : Option ℕ := data.findIdx? fun item => item.1 = key

def valueFor (data : Bucket κ ν) (key : κ) (default : ν) : ν :=
  match data.findEntryFor key with
  | none => default
  | some found => (data[found]?.map Prod.snd).getD default

def addOrUpdateMapping (data : Bucket κ ν) (key : κ) (value : ν) : Bucket κ ν :=
  match data.findEntryFor key with
  | none => data ++ [(key, value)]
  | some found => data.modify found fun entry => (entry.1, value)

def removeMapping (data : Bucket κ ν) (key : κ) : Bucket κ ν :=
  match data.findEntryFor key with
  | none => data
  | some found => data.eraseIdx found

end Bucket

/-! ## The table -/

/-- Where a call of `get_map` is: it has locked so many buckets, has copied so many, or
gives back the locks. -/
inductive Phase (κ ν : Type) [LinearOrder κ]
  | idle
  | locking (i : ℕ)
  | copying (i : ℕ) (res : OrderedMap κ ν)
  | unlocking (res : OrderedMap κ ν)

/-- The buckets, the thread of `get_map` that holds each mutex, and the calls of
`get_map`. -/
structure State (κ ν τ : Type) [LinearOrder κ] (numBuckets : ℕ) where
  buckets : Fin numBuckets → Bucket κ ν
  mutex : Fin numBuckets → Option τ
  calls : τ → Phase κ ν

/-- A whole call that needs one bucket, or a step of a call of `get_map`. -/
inductive Label (κ ν τ : Type) (numBuckets : ℕ)
  | valueFor (key : κ) (default : ν)
  | addOrUpdateMapping (key : κ) (value : ν)
  | removeMapping (key : κ)
  /-- A thread calls `get_map`. -/
  | getMap (thread : τ)
  /-- It takes the next mutex, or copies the next bucket, or returns. -/
  | next (thread : τ)
  /-- It gives a mutex back, in any order. -/
  | unlock (thread : τ) (i : Fin numBuckets)

/-- `res.insert(*it)`, which keeps what is there. -/
def insertNew (res : OrderedMap κ ν) (entry : κ × ν) : OrderedMap κ ν := (res.index entry.1 entry.2).2

variable {numBuckets : ℕ} [NeZero numBuckets] (hasher : κ → ℕ)

/-- `get_bucket`. -/
def bucketIndex (key : κ) : Fin numBuckets := Fin.ofNat numBuckets (hasher key)

namespace State

variable [DecidableEq τ]

def setCall (state : State κ ν τ numBuckets) (thread : τ) (phase : Phase κ ν) :
    State κ ν τ numBuckets :=
  { state with calls := Function.update state.calls thread phase }

def setMutex (state : State κ ν τ numBuckets) (i : Fin numBuckets) (owner : Option τ) :
    State κ ν τ numBuckets :=
  { state with mutex := Function.update state.mutex i owner }

/-- A call that changes one bucket waits for its mutex. -/
def setBucket (state : State κ ν τ numBuckets) (i : Fin numBuckets) (data : Bucket κ ν) :
    Option (State κ ν τ numBuckets) :=
  if state.mutex i = none then some { state with buckets := Function.update state.buckets i data }
  else none

/-- The next step of `get_map`. -/
def getMapStep (state : State κ ν τ numBuckets) (thread : τ) : Option (State κ ν τ numBuckets) :=
  match state.calls thread with
  | .idle => none
  | .locking i =>
      if hi : i < numBuckets then
        if state.mutex ⟨i, hi⟩ = none then
          some ((state.setMutex ⟨i, hi⟩ (some thread)).setCall thread (.locking (i + 1)))
        else none
      else some (state.setCall thread (.copying 0 .empty))
  | .copying i res =>
      if hi : i < numBuckets then
        some (state.setCall thread (.copying (i + 1) ((state.buckets ⟨i, hi⟩).foldl insertNew res)))
      else some (state.setCall thread (.unlocking res))
  | .unlocking _ =>
      if ∀ i, state.mutex i ≠ some thread then some (state.setCall thread .idle) else none

def step (state : State κ ν τ numBuckets) :
    Label κ ν τ numBuckets → Option (State κ ν τ numBuckets)
  | .valueFor key _ => if state.mutex (bucketIndex hasher key) = none then some state else none
  | .addOrUpdateMapping key value =>
      let i := bucketIndex hasher key
      state.setBucket i ((state.buckets i).addOrUpdateMapping key value)
  | .removeMapping key =>
      let i := bucketIndex hasher key
      state.setBucket i ((state.buckets i).removeMapping key)
  | .getMap thread =>
      match state.calls thread with
      | .idle => some (state.setCall thread (.locking 0))
      | _ => none
  | .next thread => state.getMapStep thread
  | .unlock thread i =>
      match state.calls thread with
      | .unlocking _ => if state.mutex i = some thread then some (state.setMutex i none) else none
      | _ => none

end State

/-- The table, from its constructor on. -/
def table (κ ν τ : Type) [LinearOrder κ] [DecidableEq τ] (numBuckets : ℕ) [NeZero numBuckets]
    (hasher : κ → ℕ) : TransitionSystem (State κ ν τ numBuckets) (Label κ ν τ numBuckets) where
  initial state := state = ⟨fun _ => [], fun _ => none, fun _ => .idle⟩
  step := State.step hasher

/-! ## What the calls tell -/

/-- What callers see, and the moment at which a call of `get_map` holds all locks. -/
inductive Event (κ ν τ : Type) [LinearOrder κ]
  | read (key : κ) (default result : ν)
  | updated (key : κ) (value : ν)
  | removed (key : κ)
  | held (thread : τ)
  | returned (thread : τ) (res : OrderedMap κ ν)

/-- What a step reports. -/
def report (state : State κ ν τ numBuckets) : Label κ ν τ numBuckets → List (Event κ ν τ)
  | .valueFor key default =>
      [.read key default ((state.buckets (bucketIndex hasher key)).valueFor key default)]
  | .addOrUpdateMapping key value => [.updated key value]
  | .removeMapping key => [.removed key]
  | .next thread =>
      match state.calls thread with
      | .locking i => if i < numBuckets then [] else [.held thread]
      | .unlocking res => [.returned thread res]
      | _ => []
  | _ => []

/-- The finite map that a table stands for: what each event makes of it. -/
def Event.apply (map : κ → Option ν) : Event κ ν τ → κ → Option ν
  | .updated key value => Function.update map key (some value)
  | .removed key => Function.update map key none
  | .read _ _ _ | .held _ | .returned _ _ => map

/-- The map after some events. -/
def mapAfter (events : List (Event κ ν τ)) : κ → Option ν := events.foldl Event.apply fun _ => none

end CppProjects.LookupTable
