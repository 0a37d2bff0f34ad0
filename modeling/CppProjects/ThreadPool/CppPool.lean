import CppProjects.Core.CInt
import CppProjects.Core.TransitionSystem

/-!
# The C++ thread pool

The pool of `threadPool.cpp` over the queue of `TaskQueue.cpp`.  `addTask` pushes
under the queue's own mutex and signals without `mutexPool`, so `mutexPool` has
an owner here: a worker that tests the queue keeps it until it waits or unlocks.
The other regions under a mutex are one step each.

Allocations and thread creations succeed.
-/

namespace CppProjects

open CInt

namespace CppPool

/-- `NUMBER`: how many threads the manager starts or stops at a time. -/
def NUMBER : ℤ := 2

/-- A task; the one of the default constructor has null pointers. -/
structure Task where
  function : ℕ
  arg : ℕ
deriving DecidableEq, Repr

/-- `TaskQueue::takeTask`. -/
def takeTask : List Task → Task × List Task
  | [] => (⟨0, 0⟩, [])
  | task :: rest => (task, rest)

/-- Where a worker is. -/
inductive WorkerPc
  /-- At the head of its loop, about to lock `mutexPool`. -/
  | loop
  /-- With `mutexPool`, about to test `taskNumber()` and `shutdown`. -/
  | testing
  /-- With `mutexPool`, about to call `pthread_cond_wait`. -/
  | blocking
  /-- Blocked in `pthread_cond_wait` on `notEmpty`. -/
  | waiting
  /-- Woken, about to lock `mutexPool` again. -/
  | woken
  /-- With `mutexPool`, behind the wait loop. -/
  | passed
  | running (task : Task)
  /-- Done with its task, before `busyNum` is decremented. -/
  | ending
  /-- Out of its loop, in `threadExit`. -/
  | leaving
  | exited
deriving DecidableEq, Repr

/-- Where the manager is, with the values it has read. -/
inductive ManagerPc
  | test
  | asleep
  | grow (queueSize liveNum busyNum : ℤ)
  | shrink (liveNum busyNum : ℤ)
  | signalling (i : ℤ)
  | exited
deriving DecidableEq, Repr

/-- Where a thread that calls `ThreadPool::addTask` is. -/
inductive ProducerPc
  | idle
  /-- About to look at `shutdown`. -/
  | calling (task : Task)
  /-- About to push under the mutex of the queue. -/
  | pushing (task : Task)
  | signalling
deriving DecidableEq, Repr

/-- Where the constructor is. -/
inductive CreatorPc
  | creating (i : ℤ)
  | returned
deriving DecidableEq, Repr

/-- Where the destructor is. -/
inductive DestroyerPc
  | absent
  | joining
  | signalling (i : ℤ)
  | freed
deriving DecidableEq, Repr

/-- The pool and its threads.  `mutexPool` is the worker that keeps it from one
step to the next. -/
structure State where
  taskQ : List Task
  threadIDs : ℕ → ℕ
  minNum : ℤ
  maxNum : ℤ
  busyNum : ℤ
  liveNum : ℤ
  exitNum : ℤ
  mutexPool : Option ℕ
  shutdown : Bool
  workers : List WorkerPc
  manager : ManagerPc
  producers : List ProducerPc
  creator : CreatorPc
  destroyer : DestroyerPc

namespace State

def setWorker (s : State) (i : ℕ) (pc : WorkerPc) : State :=
  { s with workers := s.workers.set i pc }

def setProducer (s : State) (p : ℕ) (pc : ProducerPc) : State :=
  { s with producers := s.producers.set p pc }

/-- `pthread_cond_signal(&notEmpty)` wakes a thread that waits, if there is one. -/
def signalNotEmpty (s : State) : Option ℕ → Option State
  | some i => if s.workers[i]? = some .waiting then some (s.setWorker i .woken) else none
  | none => if .waiting ∈ s.workers then none else some s

/-- `pthread_create(&threadIDs[slot], NULL, worker, pool)`: worker `i` has the
identifier `i + 1`. -/
def createWorker (s : State) (slot : ℕ) : State :=
  { s with
    workers := s.workers ++ [.loop]
    threadIDs := Function.update s.threadIDs slot (s.workers.length + 1) }

/-! ## Workers -/

/-- Behind the wait, with `mutexPool`. -/
def workerWoken (s : State) (i : ℕ) : State :=
  if 0 < s.exitNum then
    if s.minNum < s.liveNum then
      { s with exitNum := s.exitNum - 1, liveNum := s.liveNum - 1 }.setWorker i .leaving
    else
      { s with exitNum := s.exitNum - 1, mutexPool := some i }.setWorker i .testing
  else
    { s with mutexPool := some i }.setWorker i .testing

/-- Behind the wait loop. -/
def workerPassed (s : State) (i : ℕ) : State :=
  if s.shutdown then { s with mutexPool := none }.setWorker i .leaving
  else
    let (task, rest) := takeTask s.taskQ
    { s with
      taskQ := rest
      busyNum := s.busyNum + 1
      mutexPool := none }.setWorker i (.running task)

/-- The first slot that holds the thread's identifier is cleared, without a
lock. -/
def threadExit (s : State) (i : ℕ) : State :=
  match (List.range s.maxNum.toNat).find? fun slot => s.threadIDs slot = i + 1 with
  | some slot => { s with threadIDs := Function.update s.threadIDs slot 0 }.setWorker i .exited
  | none => s.setWorker i .exited

def worker (s : State) (i : ℕ) : Option State :=
  match s.workers[i]? with
  | some .loop =>
      if s.mutexPool = none then some ({ s with mutexPool := some i }.setWorker i .testing)
      else none
  | some .testing =>
      if s.taskQ = [] ∧ s.shutdown = false then some (s.setWorker i .blocking)
      else some (s.setWorker i .passed)
  | some .blocking => some ({ s with mutexPool := none }.setWorker i .waiting)
  | some .woken => if s.mutexPool = none then some (s.workerWoken i) else none
  | some .passed => some (s.workerPassed i)
  | some (.running _) => some (s.setWorker i .ending)
  | some .ending =>
      if s.mutexPool = none then some ({ s with busyNum := s.busyNum - 1 }.setWorker i .loop)
      else none
  | some .leaving => some (s.threadExit i)
  | some .waiting | some .exited | none => none

/-! ## Manager -/

/-- The loop that starts threads, from slot `i` on with `counter` started and
`slots` left to look at. -/
def growLoop (s : State) (counter : ℤ) (i : ℕ) : ℕ → State
  | 0 => s
  | slots + 1 =>
      if counter < NUMBER ∧ s.liveNum < s.maxNum then
        if s.threadIDs i = 0 then
          growLoop { s.createWorker i with liveNum := s.liveNum + 1 } (counter + 1) (i + 1) slots
        else
          growLoop s counter (i + 1) slots
      else s

def managerStep (s : State) (wake : Option ℕ) : Option State :=
  match s.manager with
  | .test => some { s with manager := if s.shutdown then .exited else .asleep }
  | .asleep =>
      if s.mutexPool = none then
        some { s with manager := .grow (toInt s.taskQ.length) s.liveNum s.busyNum }
      else none
  | .grow queueSize liveNum busyNum =>
      if queueSize > liveNum ∧ liveNum < s.maxNum then
        if s.mutexPool = none then
          some { s.growLoop 0 0 s.maxNum.toNat with manager := .shrink liveNum busyNum }
        else none
      else
        some { s with manager := .shrink liveNum busyNum }
  | .shrink liveNum busyNum =>
      if busyNum * 2 < liveNum ∧ liveNum > s.minNum then
        if s.mutexPool = none then some { s with exitNum := NUMBER, manager := .signalling 0 }
        else none
      else
        some { s with manager := .test }
  | .signalling i =>
      if i < NUMBER then { s with manager := .signalling (i + 1) }.signalNotEmpty wake
      else some { s with manager := .test }
  | .exited => none

/-! ## Producers -/

/-- `ThreadPool::addTask`. -/
def addTask (s : State) (p : ℕ) (wake : Option ℕ) : Option State :=
  match s.producers[p]? with
  | some (.calling task) =>
      if s.shutdown then some (s.setProducer p .idle) else some (s.setProducer p (.pushing task))
  | some (.pushing task) =>
      some ({ s with taskQ := s.taskQ ++ [task] }.setProducer p .signalling)
  | some .signalling => (s.setProducer p .idle).signalNotEmpty wake
  | some .idle | none => none

/-! ## Creation and destruction -/

/-- The pool as the constructor has filled it in, with the manager started and no
worker yet, and the threads that will call `addTask`. -/
def initial (minNum maxNum : ℤ) (producers : ℕ) : State where
  taskQ := []
  threadIDs := fun _ => 0
  minNum := minNum
  maxNum := maxNum
  busyNum := 0
  liveNum := minNum
  exitNum := 0
  mutexPool := none
  shutdown := false
  workers := []
  manager := .test
  producers := List.replicate producers .idle
  creator := .creating 0
  destroyer := .absent

def construct (s : State) : Option State :=
  match s.creator with
  | .creating i =>
      if i < s.minNum then some { s.createWorker i.toNat with creator := .creating (i + 1) }
      else some { s with creator := .returned }
  | .returned => none

/-- `~ThreadPool`, after `shutdown = true`. -/
def destroy (s : State) (wake : Option ℕ) : Option State :=
  match s.destroyer with
  | .joining => if s.manager = .exited then some { s with destroyer := .signalling 0 } else none
  | .signalling i =>
      if i < s.liveNum then { s with destroyer := .signalling (i + 1) }.signalNotEmpty wake
      else some { s with destroyer := .freed }
  | .absent | .freed => none

end State

/-! ## The system -/

inductive Thread
  | creator
  | manager
  | worker (i : ℕ)
  | producer (p : ℕ)
  | destroyer
deriving DecidableEq, Repr

/-- What happens next: a thread takes its step, and its signal, if there is one,
wakes `wake`; a call of `addTask` or of the destructor begins; a wait ends
without a signal. -/
inductive Action
  | run (thread : Thread) (wake : Option ℕ)
  | add (p : ℕ) (task : Task)
  | destroy
  | spurious (i : ℕ)
deriving DecidableEq, Repr

namespace State

def runThread (s : State) (wake : Option ℕ) : Thread → Option State
  | .creator => s.construct
  | .manager => s.managerStep wake
  | .worker i => s.worker i
  | .producer p => s.addTask p wake
  | .destroyer => s.destroy wake

def perform (s : State) : Action → Option State
  | .run thread wake => s.runThread wake thread
  | .add p task =>
      if s.creator = .returned ∧ s.producers[p]? = some .idle then
        some (s.setProducer p (.calling task))
      else none
  | .destroy =>
      if s.creator = .returned ∧ s.destroyer = .absent then
        some { s with shutdown := true, destroyer := .joining }
      else none
  | .spurious i => if s.workers[i]? = some .waiting then s.signalNotEmpty i else none

/-- One step.  What follows the release of the pool is not determined. -/
def step (s : State) (action : Action) : Option State :=
  if s.destroyer = .freed then none else s.perform action

end State

/-- A `ThreadPool(minNum, maxNum)`, used by any number of producers. -/
def system (minNum maxNum : ℤ) : TransitionSystem State Action where
  initial s := ∃ producers, s = State.initial minNum maxNum producers
  step := State.step

end CppPool

end CppProjects
