import CppProjects.Core.TransitionSystem

/-!
# The pool of `ThreadPoll.hpp`

Tasks are queued and taken under `queue_mutex`, and the destructor sets `stop`
under it, so each of these regions is one step.  A task may call `enqueue` while
it is executed; what it throws ends up in its future.
-/

namespace CppProjects

namespace ThreadPoll

/-- A task in the queue: what it does, and how many had been accepted before. -/
structure Task (τ : Type) where
  ticket : ℕ
  body : τ
deriving DecidableEq, Repr

/-- Where a call of `enqueue` is. -/
inductive CallPc (τ : Type)
  | idle
  /-- About to lock `queue_mutex`. -/
  | locking (body : τ)
  /-- About to call `notify_one`. -/
  | notifying
deriving DecidableEq, Repr

/-- Where a worker is. -/
inductive WorkerPc (τ : Type)
  /-- At the head of its loop, about to lock `queue_mutex`. -/
  | loop
  /-- Blocked in `condition.wait`. -/
  | waiting
  /-- Notified, about to lock `queue_mutex` again. -/
  | woken
  /-- Executing a task, which may be in a call of `enqueue`. -/
  | running (task : Task τ) (call : CallPc τ)
  | returned
deriving DecidableEq, Repr

/-- Where the destructor is. -/
inductive DestroyerPc
  | absent
  | locking
  | notifying
  | joining (j : ℕ)
  | joined
deriving DecidableEq, Repr

/-- The pool and its threads.  `accepted`, `taken` and `executed` are histories:
the tasks `enqueue` has queued, those that have left the queue, and those that
have been executed to the end. -/
structure State (τ : Type) where
  tasks : List (Task τ)
  stop : Bool
  threads : ℕ
  workers : List (WorkerPc τ)
  callers : List (CallPc τ)
  destroyer : DestroyerPc
  accepted : List (Task τ)
  taken : List (Task τ)
  executed : List (Task τ)

variable {τ : Type}

namespace State

def setWorker (s : State τ) (i : ℕ) (pc : WorkerPc τ) : State τ :=
  { s with workers := s.workers.set i pc }

def setCaller (s : State τ) (p : ℕ) (pc : CallPc τ) : State τ :=
  { s with callers := s.callers.set p pc }

/-- `condition.notify_one()` wakes a thread that waits, if there is one. -/
def notifyOne (s : State τ) : Option ℕ → Option (State τ)
  | some i =>
      match s.workers[i]? with
      | some .waiting => some (s.setWorker i .woken)
      | _ => none
  | none => if s.workers.any (· matches .waiting) then none else some s

/-- `condition.notify_all()`. -/
def notifyAll (s : State τ) : State τ :=
  { s with workers := s.workers.map fun pc => if pc matches .waiting then .woken else pc }

/-- The region of `enqueue`, and where the call is then. -/
def enqueue (s : State τ) (body : τ) : State τ × CallPc τ :=
  if s.stop then (s, .idle)
  else
    let task := ⟨s.accepted.length, body⟩
    ({ s with tasks := s.tasks ++ [task], accepted := s.accepted ++ [task] }, .notifying)

/-- A step of a call of `enqueue`. -/
def call (s : State τ) (wake : Option ℕ) : CallPc τ → Option (State τ × CallPc τ)
  | .idle => none
  | .locking body => some (s.enqueue body)
  | .notifying => (s.notifyOne wake).map fun s' => (s', .idle)

/-- The region of a worker, from the test of its wait on. -/
def workerRegion (s : State τ) (i : ℕ) : State τ :=
  match s.tasks with
  | [] => if s.stop then s.setWorker i .returned else s.setWorker i .waiting
  | task :: rest =>
      { s with tasks := rest, taken := s.taken ++ [task] }.setWorker i (.running task .idle)

def worker (s : State τ) (i : ℕ) (wake : Option ℕ) : Option (State τ) :=
  match s.workers[i]? with
  | some .loop | some .woken => some (s.workerRegion i)
  | some (.running task .idle) =>
      some ({ s with executed := s.executed ++ [task] }.setWorker i .loop)
  | some (.running task pc) =>
      (s.call wake pc).map fun (s', pc') => s'.setWorker i (.running task pc')
  | some .waiting | some .returned | none => none

def caller (s : State τ) (p : ℕ) (wake : Option ℕ) : Option (State τ) :=
  match s.callers[p]? with
  | some pc => (s.call wake pc).map fun (s', pc') => s'.setCaller p pc'
  | none => none

/-- `ThreadPool(threads)`, before its first thread. -/
def initial (threads callers : ℕ) : State τ where
  tasks := []
  stop := false
  threads := threads
  workers := []
  callers := List.replicate callers .idle
  destroyer := .absent
  accepted := []
  taken := []
  executed := []

def construct (s : State τ) : Option (State τ) :=
  if s.workers.length < s.threads then some { s with workers := s.workers ++ [.loop] } else none

/-- `~ThreadPool`. -/
def destroy (s : State τ) : Option (State τ) :=
  match s.destroyer with
  | .locking => some { s with stop := true, destroyer := .notifying }
  | .notifying => some { s.notifyAll with destroyer := .joining 0 }
  | .joining j =>
      match s.workers[j]? with
      | some .returned => some { s with destroyer := .joining (j + 1) }
      | some _ => none
      | none => some { s with destroyer := .joined }
  | .absent | .joined => none

end State

/-! ## The system -/

inductive Thread
  | creator
  | worker (i : ℕ)
  | caller (p : ℕ)
  | destroyer
deriving DecidableEq, Repr

/-- What happens next: a thread takes its step, and its `notify_one`, if there is
one, wakes `wake`; a call of `enqueue` begins, in a thread of the program or in
the task a worker executes; the destructor begins; a wait ends without a
notification. -/
inductive Action (τ : Type)
  | run (thread : Thread) (wake : Option ℕ)
  | enqueue (p : ℕ) (body : τ)
  | enqueueFrom (i : ℕ) (body : τ)
  | destroy
  | spurious (i : ℕ)
deriving DecidableEq, Repr

namespace State

def runThread (s : State τ) (wake : Option ℕ) : Thread → Option (State τ)
  | .creator => s.construct
  | .worker i => s.worker i wake
  | .caller p => s.caller p wake
  | .destroyer => s.destroy

def perform (s : State τ) : Action τ → Option (State τ)
  | .run thread wake => s.runThread wake thread
  | .enqueue p body =>
      match s.callers[p]? with
      | some .idle =>
          if s.workers.length = s.threads then some (s.setCaller p (.locking body)) else none
      | _ => none
  | .enqueueFrom i body =>
      match s.workers[i]? with
      | some (.running task .idle) => some (s.setWorker i (.running task (.locking body)))
      | _ => none
  | .destroy =>
      if s.workers.length = s.threads ∧ s.destroyer = .absent then
        some { s with destroyer := .locking }
      else none
  | .spurious i => s.notifyOne (some i)

/-- One step.  After the joins the pool is destroyed. -/
def step (s : State τ) (action : Action τ) : Option (State τ) :=
  if s.destroyer = .joined then none else s.perform action

end State

/-- A `ThreadPool(threads)`, used by any number of threads. -/
def system (τ : Type) (threads : ℕ) : TransitionSystem (State τ) (Action τ) where
  initial s := ∃ callers, s = State.initial threads callers
  step := State.step

end ThreadPoll

end CppProjects
