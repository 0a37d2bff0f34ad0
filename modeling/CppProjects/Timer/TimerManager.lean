import CppProjects.Core.Multimap
import CppProjects.Core.Program

/-!
# Timers

`TimerManager` (version 02) keeps its timers in a `multimap` under the times they are
due at.  `update` calls the due ones, and erases and inserts entries of the map it
iterates.  A callback is a value of `φ` that does not touch the manager; its calls are
recorded.  Times do not overflow.
-/

namespace CppProjects

open Program

structure Timer (φ : Type) where
  mTime : ℤ
  /-- An empty `std::function` is none. -/
  mFunc : Option φ
  mPeriod : ℤ
  mRepeat : ℤ
deriving DecidableEq, Repr

/-- `calls` is a history: each call with the time it was scheduled for. -/
structure TimerManager (φ : Type) where
  mTimers : Multimap ℤ (Timer φ)
  calls : List (φ × ℤ)

namespace TimerManager

variable {φ : Type}

/-- `m_func()`. -/
def call (func : φ) (time : ℤ) (s : TimerManager φ) : TimerManager φ :=
  { s with calls := s.calls ++ [(func, time)] }

def erase (it : ℕ) (s : TimerManager φ) : TimerManager φ :=
  { s with mTimers := s.mTimers.erase it }

/-- `m_timers.insert(std::make_pair(t.m_time, t))`. -/
def insert (t : Timer φ) (s : TimerManager φ) : TimerManager φ :=
  { s with mTimers := (s.mTimers.insert t.mTime t).1 }

/-- `on_timer`, with the timer as it leaves it. -/
def onTimer (t : Timer φ) : Program Empty (TimerManager φ) (Timer φ) :=
  match t.mFunc with
  | none => pure t
  | some func => do
      if t.mRepeat = 0 then return t
      modify (call func t.mTime)
      return { t with
        mTime := t.mTime + t.mPeriod
        mRepeat := if t.mRepeat > 0 then t.mRepeat - 1 else t.mRepeat }

/-- `schedule` at the system time `now`. -/
def schedule (now milliseconds repeats : ℤ) (func : φ) (s : TimerManager φ) : TimerManager φ :=
  s.insert ⟨now, some func, milliseconds, repeats⟩

/-- The entry at `it` goes, and its timer goes in again if it has rounds left. -/
def rearm (it : ℕ) (t : Timer φ) : Program Empty (TimerManager φ) ℕ := do
  modify (erase it)
  if t.mRepeat = 0 then return it
  let s ← get
  modify (insert t)
  let newIt := (s.mTimers.insert t.mTime t).2
  match s.mTimers.entries[it]? with
  | none => return newIt
  | some entry =>
      -- an iterator stays at its entry, wherever the new one went
      return if t.mTime < entry.1 then newIt else if newIt ≤ it then it + 1 else it

/-- One turn of the loop of `update`: the next iterator, or none where it returns. -/
def turn (now : ℤ) (it : ℕ) : Program Empty (TimerManager φ) (Option ℕ) := do
  let s ← get
  match s.mTimers.entries[it]? with
  | none => return none
  | some (first, second) =>
      if first > now then return none
      let t ← onTimer second
      let next ← rearm it t
      return some next

/-- `update` at the system time `now`. -/
def update (fuel : ℕ) (now : ℤ) : Program Empty (TimerManager φ) Unit := do
  let s ← get
  if s.mTimers.entries.length = 0 then return
  let _ ← loop (turn now) fuel 0

end TimerManager

end CppProjects
