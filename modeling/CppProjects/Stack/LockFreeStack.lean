import CppProjects.Core.LinkedHeap
import CppProjects.Core.TransitionSystem

/-!
# `LockFreeStack`

The stack of `atomic_no_lock_demo09.cpp` and of `线程栈CAS.cpp`.  Each atomic load
and exchange, each access to a field of a node, each allocation and each `delete`
is one step.  An allocation may return any address that is not in use.

The stack starts empty.
-/

namespace CppProjects

namespace LockFreeStack

structure Node (α : Type) where
  value : α
  next : Option ℕ
deriving DecidableEq, Repr

/-- Where a thread is. -/
inductive Pc (α : Type)
  | idle
  /-- In `push`, about to allocate. -/
  | pushing (value : α)
  /-- About to load `head`. -/
  | allocated (value : α) (new : ℕ)
  /-- About to store `new_node->next`. -/
  | loaded (value : α) (new : ℕ) (next : Option ℕ)
  /-- About to exchange `new_node->next` for `new_node`. -/
  | linking (value : α) (new : ℕ)
  /-- In `pop`, about to load `head`. -/
  | popping
  /-- About to test `old_head` and to read `old_head->next`. -/
  | holding (old : Option ℕ)
  /-- About to exchange `old_head` for what was read. -/
  | comparing (old : ℕ) (next : Option ℕ)
  /-- About to read `old_head->value`. -/
  | unlinked (old : ℕ)
  /-- About to delete `old_head` and to return. -/
  | deleting (old : ℕ) (value : α)
deriving DecidableEq, Repr

/-- The nodes that are allocated, and the threads.  `pushed` and `popped` are
histories: the values `push` was called with and the ones `pop` has returned. -/
structure State (α : Type) where
  nodes : ℕ → Option (Node α)
  head : Option ℕ
  threads : List (Pc α)
  pushed : List α
  popped : List α

/-- A thread begins a call or takes its next step.  An allocation returns
`address`; an exchange of `compare_exchange_weak` fails if it is `spurious`. -/
inductive Action (α : Type)
  | push (t : ℕ) (value : α)
  | pop (t : ℕ)
  | run (t : ℕ) (address : ℕ) (spurious : Bool)
deriving DecidableEq, Repr

variable {α : Type}

namespace State

def setThread (s : State α) (t : ℕ) (pc : Pc α) : State α :=
  { s with threads := s.threads.set t pc }

def setNode (s : State α) (addr : ℕ) (node : Option (Node α)) : State α :=
  { s with nodes := Function.update s.nodes addr node }

/-- The loop of `push`: `spurious` makes the exchange fail. -/
def link (s : State α) (t : ℕ) (value : α) (new : ℕ) (spurious : Bool) : Option (State α) :=
  match s.nodes new with
  | none => none
  | some node =>
      if s.head = node.next ∧ spurious = false then
        some ({ s with head := some new }.setThread t .idle)
      else
        some ((s.setNode new (some { node with next := s.head })).setThread t (.linking value new))

/-- The exchange in the loop of `pop`. -/
def unlink (s : State α) (t old : ℕ) (next : Option ℕ) (spurious : Bool) : State α :=
  if s.head = some old ∧ spurious = false then
    { s with head := next }.setThread t (.unlinked old)
  else
    s.setThread t (.holding s.head)

/-- The step of a thread.  There is no state after an access to a node that is
not allocated. -/
def runThread (s : State α) (t address : ℕ) (spurious : Bool) : Option (Option (State α)) :=
  match s.threads[t]? with
  | some (.pushing value) =>
      if s.nodes address = none then
        some (some ((s.setNode address (some ⟨value, none⟩)).setThread t (.allocated value address)))
      else none
  | some (.allocated value new) => some (some (s.setThread t (.loaded value new s.head)))
  | some (.loaded value new next) =>
      some ((s.nodes new).map fun node =>
        (s.setNode new (some { node with next := next })).setThread t (.linking value new))
  | some (.linking value new) => some (s.link t value new spurious)
  | some .popping => some (some (s.setThread t (.holding s.head)))
  | some (.holding none) => some (some (s.setThread t .idle))
  | some (.holding (some old)) =>
      some ((s.nodes old).map fun node => s.setThread t (.comparing old node.next))
  | some (.comparing old next) => some (some (s.unlink t old next spurious))
  | some (.unlinked old) =>
      some ((s.nodes old).map fun node => s.setThread t (.deleting old node.value))
  | some (.deleting old value) =>
      some ((s.nodes old).map fun _ =>
        { s.setNode old none with popped := s.popped ++ [value] }.setThread t .idle)
  | some .idle | none => none

def initial (threads : ℕ) : State α where
  nodes := fun _ => none
  head := none
  threads := List.replicate threads .idle
  pushed := []
  popped := []

/-- One step.  Only the exchanges of `compare_exchange_weak` fail spuriously. -/
def step (weak : Bool) (s : State α) : Action α → Option (Option (State α))
  | .push t value =>
      if s.threads[t]? matches some .idle then
        some (some ({ s with pushed := s.pushed ++ [value] }.setThread t (.pushing value)))
      else none
  | .pop t => if s.threads[t]? matches some .idle then some (some (s.setThread t .popping)) else none
  | .run t address spurious => s.runThread t address (weak && spurious)

end State

/-- Any number of threads that use one stack.  There is no state once a node that
is not allocated has been read. -/
def system (α : Type) (weak : Bool) : TransitionSystem (Option (State α)) (Action α) where
  initial state := ∃ threads, state = some (State.initial threads)
  step state a := state.bind fun s => s.step weak a

/-- The `next` of a node. -/
def State.follow (s : State α) (addr : ℕ) : Option (Option ℕ) := (s.nodes addr).map Node.next

def State.valueAt (s : State α) (addr : ℕ) : Option α := (s.nodes addr).map Node.value

/-- The value an operation in progress holds: the argument of a `push`, or the one
in the node that a `pop` has unlinked. -/
def State.held (s : State α) : Pc α → Option α
  | .pushing value | .allocated value _ | .loaded value _ _ | .linking value _
  | .deleting _ value => some value
  | .unlinked old => s.valueAt old
  | .idle | .popping | .holding _ | .comparing _ _ => none

/-- The chain from `head` goes through allocated nodes and ends; the values pushed
are those popped, those in the chain and those held. -/
def State.Conserved (s : State α) : Prop :=
  ∃ addrs, LinkedHeap.Walk s.follow s.head addrs ∧
    s.pushed.Perm (s.popped ++ addrs.filterMap s.valueAt ++ s.threads.filterMap s.held)

/-- No freed node has been read, and nothing is lost or duplicated. -/
def Intact (state : Option (State α)) : Prop := ∃ s, state = some s ∧ s.Conserved

end LockFreeStack

end CppProjects
