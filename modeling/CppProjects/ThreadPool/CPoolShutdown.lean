import CppProjects.ThreadPool.CPoolQueue

/-!
# Adding to a C pool that is shut down

`threadPoolAdd` unlocks `mutexPool` when it sees `shutdown`, and does not return: the steps
behind that store the task and unlock once more.  They are all that a closed pool's queue
has to fear, since its workers take nothing any more.
-/

namespace CppProjects

namespace CPool

namespace State

variable {s s' : State} {p : ℕ} {wake : Option ℕ}

/-- The queue as `threadPoolAdd` found it. -/
structure Unchanged (s s' : State) : Prop where
  taskQ : s'.taskQ = s.taskQ
  queueSize : s'.queueSize = s.queueSize
  queueFront : s'.queueFront = s.queueFront
  queueRear : s'.queueRear = s.queueRear

/-- A producer that has seen `shutdown` goes on: it writes over another task, moves the rear,
counts its task, or signals and unlocks again. -/
def GoesOn (s : State) (a : Action) : Prop :=
  ∃ p wake, a = .run (.producer p) wake ∧
    match s.producers[p]? with
    | some (.lateStore task) => s.taskQ s.queueRear ≠ some task
    | some .lateRear => (s.queueRear + 1).tmod s.queueCapacity ≠ s.queueRear
    | some .lateSize | some .lateSignal => True
    | some (.idle) | some (.adding _) | some (.waiting _) | some (.woken _) | none => False

/-- The queue holds no more than its array. -/
def Within (s : State) : Prop := s.queueSize ≤ s.queueCapacity

end State

/-! ## The runs that reject -/

variable {minNum maxNum capacity : ℤ}

end CPool

end CppProjects
