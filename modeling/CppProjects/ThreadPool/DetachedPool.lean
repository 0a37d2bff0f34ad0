import CppProjects.ThreadPool.ThreadPoll

/-!
# The pool of `threadpool.h`

The threads are detached and share a `Pool` with the `ThreadPool`.  A thread holds `mtx`
except while it waits and while it executes a task, so that one round under the lock is
one step.  The threads and the calls of `AddTask` are at the same places as those of
`ThreadPoll.hpp`; here `AddTask` does not look at `isClosed`, and nothing is joined.

A task does not throw, and no call of `AddTask` is under way when the `ThreadPool` is
destroyed or begins after that.
-/

namespace CppProjects

namespace DetachedPool

open ThreadPoll (CallPc WorkerPc)

/-- What it does, and how many had been accepted before. -/
abbrev Task (τ : Type) := ThreadPoll.Task τ

/-- Where the destructor of `ThreadPool` is. -/
inductive DestroyerPc
  | absent
  /-- About to lock `mtx` and to set `isClosed`. -/
  | locking
  /-- About to call `notify_all`. -/
  | notifying
  | done
deriving DecidableEq, Repr

/-- The pool and its threads, with histories as in `ThreadPoll.hpp`. -/
structure State (τ : Type) where
  tasks : List (Task τ)
  isClosed : Bool
  threadCount : ℕ
  workers : List (WorkerPc τ)
  callers : List (CallPc τ)
  destroyer : DestroyerPc
  accepted : List (Task τ)
  taken : List (Task τ)
  executed : List (Task τ)

/-- Where `AddTask` is called: in a thread of the program, or in the task a thread of the
pool executes. -/
inductive Site
  | caller (p : ℕ)
  | task (i : ℕ)
deriving DecidableEq, Repr

variable {τ : Type}

namespace State

def setWorker (s : State τ) (i : ℕ) (pc : WorkerPc τ) : State τ :=
  { s with workers := s.workers.set i pc }

def callAt (s : State τ) : Site → Option (CallPc τ)
  | .caller p => s.callers[p]?
  | .task i =>
      match s.workers[i]? with
      | some (.running _ call) => some call
      | _ => none

def setCall (s : State τ) (site : Site) (call : CallPc τ) : State τ :=
  match site with
  | .caller p => { s with callers := s.callers.set p call }
  | .task i =>
      match s.workers[i]? with
      | some (.running task _) => s.setWorker i (.running task call)
      | _ => s

/-- `cond.notify_one()` wakes a thread that waits, if there is one. -/
def notifyOne (s : State τ) : Option ℕ → Option (State τ)
  | some i =>
      match s.workers[i]? with
      | some .waiting => some (s.setWorker i .woken)
      | _ => none
  | none => if s.workers.any (· matches .waiting) then none else some s

/-- `cond.notify_all()`. -/
def notifyAll (s : State τ) : State τ :=
  { s with workers := s.workers.map fun pc => if pc matches .waiting then .woken else pc }

/-- What `AddTask` does under the lock. -/
def addTask (s : State τ) (body : τ) : State τ :=
  { s with
    tasks := s.tasks ++ [⟨s.accepted.length, body⟩]
    accepted := s.accepted ++ [⟨s.accepted.length, body⟩] }

/-- A step of a call of `AddTask`. -/
def call (s : State τ) (site : Site) (wake : Option ℕ) : Option (State τ) :=
  match s.callAt site with
  | some (.locking body) => some ((s.addTask body).setCall site .notifying)
  | some .notifying => (s.setCall site .idle).notifyOne wake
  | some .idle | none => none

/-- A round of a thread that holds the lock. -/
def workerRound (s : State τ) (i : ℕ) : State τ :=
  match s.tasks with
  | task :: rest =>
      { s with tasks := rest, taken := s.taken ++ [task] }.setWorker i (.running task .idle)
  | [] => if s.isClosed then s.setWorker i .returned else s.setWorker i .waiting

def worker (s : State τ) (i : ℕ) : Option (State τ) :=
  match s.workers[i]? with
  | some .loop | some .woken => some (s.workerRound i)
  | some (.running task .idle) =>
      some ({ s with executed := s.executed ++ [task] }.setWorker i .loop)
  | some (.running _ _) | some .waiting | some .returned | none => none

/-- `ThreadPool(threadCount)`, before its first thread. -/
def initial (threadCount callers : ℕ) : State τ where
  tasks := []
  isClosed := false
  threadCount := threadCount
  workers := []
  callers := List.replicate callers .idle
  destroyer := .absent
  accepted := []
  taken := []
  executed := []

/-- The loop of the constructor starts and detaches the next thread. -/
def construct (s : State τ) : Option (State τ) :=
  if s.workers.length < s.threadCount then some { s with workers := s.workers ++ [.loop] } else none

/-- `~ThreadPool`. -/
def destroy (s : State τ) : Option (State τ) :=
  match s.destroyer with
  | .locking => some { s with isClosed := true, destroyer := .notifying }
  | .notifying => some { s.notifyAll with destroyer := .done }
  | .absent | .done => none

/-- No call of `AddTask` is under way. -/
def noCalls (s : State τ) : Bool :=
  s.callers.all (· matches .idle) &&
    s.workers.all fun pc => match pc with
      | .running _ .idle => true
      | .running _ _ => false
      | _ => true

end State

/-! ## The system -/

inductive Thread
  | creator
  | worker (i : ℕ)
  | call (site : Site)
  | destroyer
deriving DecidableEq, Repr

/-- What happens next: a thread takes its step, and its `notify_one`, if there is one,
wakes `wake`; a call of `AddTask` begins; the destructor begins; a wait ends without a
notification. -/
inductive Action (τ : Type)
  | run (thread : Thread) (wake : Option ℕ)
  | addTask (site : Site) (body : τ)
  | destroy
  | spurious (i : ℕ)
deriving DecidableEq, Repr

namespace State

def runThread (s : State τ) (wake : Option ℕ) : Thread → Option (State τ)
  | .creator => s.construct
  | .worker i => s.worker i
  | .call site => s.call site wake
  | .destroyer => s.destroy

def step (s : State τ) : Action τ → Option (State τ)
  | .run thread wake => s.runThread wake thread
  | .addTask site body =>
      if s.workers.length = s.threadCount ∧ s.destroyer = .absent then
        match s.callAt site with
        | some .idle => some (s.setCall site (.locking body))
        | _ => none
      else none
  | .destroy =>
      if s.workers.length = s.threadCount ∧ s.destroyer = .absent ∧ s.noCalls then
        some { s with destroyer := .locking }
      else none
  | .spurious i => s.notifyOne (some i)

end State

/-- A `ThreadPool`, used by any number of threads.  Its constructor asserts that there is a
thread. -/
def system (τ : Type) : TransitionSystem (State τ) (Action τ) where
  initial s := ∃ threadCount callers, 0 < threadCount ∧ s = State.initial threadCount callers
  step := State.step

end DetachedPool

end CppProjects
