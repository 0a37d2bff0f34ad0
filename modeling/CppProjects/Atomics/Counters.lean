import CppProjects.Core.CasLoop
import CppProjects.Core.GuardedUpdates

/-!
# Counters that threads share

The counter under the lock of `自旋锁CAS.cpp`, the one under the `std::atomic_flag` of
`atomic_test_and_set_demo07.cpp`, and the counters of `原子CAS.cpp` and
`atomic_counter_demo08.cpp`, which are exchanged.  Each load, store and exchange is one step,
and the threads take their steps in any order.
-/

namespace CppProjects

namespace Counters

/-- `++shared_data`, and the `expected + 1` of an exchange. -/
def next (_ : Unit) (value : ℤ) : ℤ := value + 1

/-- So many threads that add one so many times. -/
def programs (threads rounds : ℕ) : List (List Unit) :=
  List.replicate threads (List.replicate rounds ())

theorem sum_programs (threads rounds : ℕ) :
    ((programs threads rounds).map List.length).sum = threads * rounds := by
  rw [programs, List.map_replicate, List.length_replicate, List.sum_replicate, smul_eq_mul]

/-! ## Under a lock -/

/-- A turn of the loop of `SpinLock::lock`, which has set `expected` to `false`: whether the
loop ends, and `locked`. -/
def spinLockTurn (locked spurious : Bool) : Bool × Bool :=
  let (exchanged, locked, _) := CasLoop.compareExchangeWeak locked false true spurious
  (exchanged, locked)

/-- What the flag was, and what it is then. -/
def testAndSet (flag : Bool) : Bool × Bool := (flag, true)

/-- A turn of the loop around `lock.test_and_set`. -/
def atomicFlagTurn (flag : Bool) (_ : Bool) : Bool × Bool :=
  let (before, flag) := testAndSet flag
  (!before, flag)

/-- The lock that guards `shared_data`. -/
inductive Lock
  | spinLock
  | atomicFlag
deriving DecidableEq, Repr

namespace Lock

def turn : Lock → Bool → Bool → Bool × Bool
  | .spinLock => spinLockTurn
  | .atomicFlag => atomicFlagTurn

/-- How often `worker` and `increment` add one. -/
def rounds : Lock → ℕ
  | .spinLock => 1
  | .atomicFlag => 1000

theorem locks (lock : Lock) : Guarded.Locks lock.turn := by
  cases lock
  · exact ⟨rfl, .inr rfl, by decide⟩
  · exact ⟨rfl, .inl rfl, by decide⟩

/-- Any number of threads that run `worker` or `increment`. -/
def workers (lock : Lock) (threads : ℕ) : TransitionSystem (Guarded.State Unit ℤ) (ℕ × Bool) :=
  Guarded.system lock.turn next 0 (programs threads lock.rounds)

end Lock

/-- At most one thread is between `lock` and `unlock`, no increment of `shared_data` is lost,
and from every state all threads can finish. -/
theorem shared_data_exact {lock : Lock} {threads : ℕ} {s : Guarded.State Unit ℤ}
    (hreach : (lock.workers threads).Reachable s) :
    s.threads.countP Guarded.Pc.inside ≤ 1 ∧
    s.object = s.did.length ∧ s.did.length ≤ threads * lock.rounds ∧
    (Guarded.Finished s → s.object = threads * lock.rounds) ∧
    ∃ labels s', (lock.workers threads).execute s labels = some s' ∧ Guarded.Finished s' := by
  have hinv := Guarded.inv_of_reachable lock.locks hreach
  have hobject : s.object = s.did.length := by
    rw [hinv.serial.eq_add_length fun _ _ => rfl, zero_add]
  have hsum := sum_programs threads lock.rounds
  refine ⟨?_, hobject, ?_, fun hfinished => ?_, Guarded.leads_finished lock.locks s hreach⟩
  · rw [hinv.exclusive]
    split_ifs <;> omega
  · have hcount := hinv.serial.count
    omega
  · have hdone : ∀ rest ∈ s.threads.map Guarded.Pc.left, rest = [] := by
      simp only [List.mem_map]
      rintro _ ⟨pc, hmem, rfl⟩
      rw [hfinished pc hmem, Guarded.Pc.left]
    rw [hobject, hinv.serial.length_of_finished hdone, hsum]
    push_cast
    rfl

/-- Two workers; the second one finds the lock taken, and then fails once for no reason. -/
def twoWorkers : List (ℕ × Bool) :=
  [(0, false), (1, false), (0, false), (0, false), (1, false), (0, false), (1, true), (1, false)]

theorem shared_data_exact_twoWorkers : ∃ s, (Lock.spinLock.workers 2).Reachable s ∧
    s.object = 1 ∧ s.locked = true ∧ s.threads.countP Guarded.Pc.inside ≤ 1 := by
  have hfields : ((Lock.spinLock.workers 2).execute
      ⟨false, 0, (programs 2 1).map .outside, []⟩ twoWorkers).map
      (fun s => (s.object, s.locked)) = some (1, true) := by
    decide +kernel
  obtain ⟨s, hs, heq⟩ := Option.map_eq_some_iff.mp hfields
  obtain ⟨hobject, hlocked⟩ := Prod.mk.inj heq
  have hinitial : (Lock.spinLock.workers 2).initial ⟨false, 0, (programs 2 1).map .outside, []⟩ := rfl
  have hreach := (TransitionSystem.Reachable.initial hinitial).execute hs
  exact ⟨s, hreach, hobject, hlocked, (shared_data_exact hreach).1⟩

/-! ## By exchange -/

/-- Any number of threads that add one by `compare_exchange_weak`.  `increment_counter` of
`原子CAS.cpp` loads the counter once more after a failure; `increment` of
`atomic_counter_demo08.cpp` goes on with what the exchange has found. -/
def counter (reload : Bool) (threads : ℕ) : TransitionSystem (CasLoop.State Unit ℤ) (ℕ × Bool) :=
  CasLoop.system reload next 0 (programs threads 1)

/-- No increment is lost; one that succeeds makes every other thread fail once at most, apart
from failures for no reason; and from every state all threads can finish. -/
theorem counter_exact {reload : Bool} {threads : ℕ} {s : CasLoop.State Unit ℤ}
    (hreach : (counter reload threads).Reachable s) :
    s.object = s.did.length ∧ s.did.length ≤ threads ∧
    s.failed ≤ s.did.length * (threads - 1) ∧
    (CasLoop.Finished s → s.object = threads) ∧
    ∃ labels s', (counter reload threads).execute s labels = some s' ∧ CasLoop.Finished s' := by
  have hinv := CasLoop.inv_of_reachable hreach
  have hobject : s.object = s.did.length := by
    rw [hinv.serial.eq_add_length fun _ _ => rfl, zero_add]
  have hsum := sum_programs threads 1
  rw [mul_one] at hsum
  refine ⟨hobject, ?_, ?_, fun hfinished => ?_, CasLoop.leads_finished s hreach⟩
  · have hcount := hinv.serial.count
    omega
  · have hfailures := hinv.failures
    rw [programs, List.length_replicate] at hfailures
    exact (Nat.le_add_right _ _).trans hfailures
  · have hdone : ∀ rest ∈ s.threads.map CasLoop.Pc.left, rest = [] := by
      simp only [List.mem_map]
      rintro _ ⟨pc, hmem, rfl⟩
      rw [hfinished pc hmem, CasLoop.Pc.left]
    rw [hobject, hinv.serial.length_of_finished hdone, hsum]

/-- Both threads load zero, and the second one fails once. -/
def twoIncrements : List (ℕ × Bool) := [(0, false), (1, false), (0, false), (1, false), (1, false)]

theorem counter_exact_twoIncrements : ∃ s, (counter false 2).Reachable s ∧
    s.did.length = 2 ∧ s.failed = 1 ∧ s.object = s.did.length := by
  have hfields : ((counter false 2).execute ⟨0, (programs 2 1).map .loading, [], 0⟩ twoIncrements).map
      (fun s => (s.did.length, s.failed)) = some (2, 1) := by
    decide +kernel
  obtain ⟨s, hs, heq⟩ := Option.map_eq_some_iff.mp hfields
  obtain ⟨hlength, hfailed⟩ := Prod.mk.inj heq
  have hinitial : (counter false 2).initial ⟨0, (programs 2 1).map .loading, [], 0⟩ := rfl
  have hreach := (TransitionSystem.Reachable.initial hinitial).execute hs
  exact ⟨s, hreach, hlength, hfailed, (counter_exact hreach).1⟩

end Counters

end CppProjects
