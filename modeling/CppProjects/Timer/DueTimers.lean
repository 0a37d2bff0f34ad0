import CppProjects.Timer.TimerManager

/-!
# The firings of a due timer

How often a timer fires until a given time, at which times, and what is left of it
then.  A turn of `update` makes one of these firings.
-/

namespace CppProjects

namespace Timer

variable {φ : Type} {now : ℤ} {t : Timer φ}

/-- How often the timer is due up to `now`. -/
def dueCount (now : ℤ) (t : Timer φ) : ℕ := ((now - t.mTime) / t.mPeriod + 1).toNat

/-- How often it fires: `m_repeat` is a limit where it is not negative. -/
def fireCount (now : ℤ) (t : Timer φ) : ℕ :=
  if 0 ≤ t.mRepeat then min (t.dueCount now) t.mRepeat.toNat else t.dueCount now

def firings (now : ℤ) (t : Timer φ) : List (φ × ℤ) :=
  match t.mFunc with
  | none => []
  | some func => (List.range (t.fireCount now)).map fun i : ℕ => (func, t.mTime + i * t.mPeriod)

/-- What is left of the timer after `now`. -/
def remaining (now : ℤ) (t : Timer φ) : Option (Timer φ) :=
  if now < t.mTime then some t
  else if t.mRepeat < 0 then some { t with mTime := t.mTime + t.fireCount now * t.mPeriod }
  else if t.fireCount now < t.mRepeat then
    some { t with
      mTime := t.mTime + t.fireCount now * t.mPeriod
      mRepeat := t.mRepeat - t.fireCount now }
  else none

/-- The timer after its callback. -/
def fired (t : Timer φ) : Timer φ :=
  { t with
    mTime := t.mTime + t.mPeriod
    mRepeat := if t.mRepeat > 0 then t.mRepeat - 1 else t.mRepeat }

/-- A timer that can be updated: it has a callback, and its times grow. -/
structure Ready (t : Timer φ) : Prop where
  mFunc_isSome : t.mFunc.isSome
  mPeriod_pos : 1 ≤ t.mPeriod

theorem Ready.fired (hready : t.Ready) : t.fired.Ready := ⟨hready.1, hready.2⟩

theorem dueCount_of_lt (hready : t.Ready) (hlt : now < t.mTime) : t.dueCount now = 0 := by
  have hneg : (now - t.mTime) / t.mPeriod < 0 :=
    Int.ediv_neg_of_neg_of_pos (sub_neg.mpr hlt) hready.mPeriod_pos
  exact Int.toNat_of_nonpos (Int.add_one_le_of_lt hneg)

theorem dueCount_of_le (hready : t.Ready) (hle : t.mTime ≤ now) :
    t.dueCount now = t.fired.dueCount now + 1 := by
  have hpos : 0 < t.mPeriod := hready.mPeriod_pos
  have hsplit : now - t.mTime = now - (t.mTime + t.mPeriod) + 1 * t.mPeriod := by ring
  have hquot : (now - t.mTime) / t.mPeriod =
      (now - (t.mTime + t.mPeriod)) / t.mPeriod + 1 := by
    rw [hsplit, Int.add_mul_ediv_right _ _ hpos.ne']
  have hnonneg : 0 ≤ (now - t.mTime) / t.mPeriod :=
    Int.ediv_nonneg (sub_nonneg.mpr hle) hpos.le
  rw [hquot] at hnonneg
  calc t.dueCount now
      = ((now - (t.mTime + t.mPeriod)) / t.mPeriod + 1 + 1).toNat := by rw [dueCount, hquot]
    _ = ((now - (t.mTime + t.mPeriod)) / t.mPeriod + 1).toNat + 1 :=
      Int.toNat_add hnonneg zero_le_one

theorem fireCount_of_lt (hready : t.Ready) (hlt : now < t.mTime) : t.fireCount now = 0 := by
  rw [fireCount, dueCount_of_lt hready hlt, Nat.zero_min, ite_self]

theorem fireCount_of_le (hready : t.Ready) (hle : t.mTime ≤ now) (hrepeat : t.mRepeat ≠ 0) :
    t.fireCount now = t.fired.fireCount now + 1 := by
  rw [fireCount, fireCount, dueCount_of_le hready hle]
  by_cases hpos : t.mRepeat > 0
  · have hfired : t.fired.mRepeat = t.mRepeat - 1 := if_pos hpos
    have hnonneg : 0 ≤ t.mRepeat - 1 := Int.sub_nonneg_of_le hpos
    rw [hfired, if_pos hpos.le, if_pos hnonneg]
    omega
  · have hfired : t.fired.mRepeat = t.mRepeat := if_neg hpos
    rw [hfired, if_neg (by omega), if_neg (by omega)]

theorem firings_of_lt (hready : t.Ready) (hlt : now < t.mTime) : t.firings now = [] := by
  rw [firings, fireCount_of_lt hready hlt]
  cases t.mFunc <;> rfl

theorem firings_of_zero (hrepeat : t.mRepeat = 0) : t.firings now = [] := by
  have hcount : t.fireCount now = 0 := by
    rw [fireCount, hrepeat]
    exact Nat.min_zero _
  rw [firings, hcount]
  cases t.mFunc <;> rfl

theorem firings_of_le (hready : t.Ready) (hle : t.mTime ≤ now) (hrepeat : t.mRepeat ≠ 0) {func : φ}
    (hfunc : t.mFunc = some func) :
    t.firings now = (func, t.mTime) :: t.fired.firings now := by
  have hfunc' : t.fired.mFunc = some func := hfunc
  rw [firings, firings, hfunc, hfunc', fireCount_of_le hready hle hrepeat]
  simp only [List.range_succ_eq_map, List.map_cons, List.map_map, Nat.cast_zero, zero_mul, add_zero]
  congr 1
  apply List.map_congr_left
  intro i _
  have htime : t.fired.mTime = t.mTime + t.mPeriod := rfl
  have hperiod : t.fired.mPeriod = t.mPeriod := rfl
  rw [Function.comp_apply, htime, hperiod, Nat.cast_succ]
  congr 1
  ring

theorem remaining_of_lt (hlt : now < t.mTime) : t.remaining now = some t := if_pos hlt

/-- A timer without rounds left goes. -/
theorem remaining_of_zero (hle : t.mTime ≤ now) (hrepeat : t.mRepeat = 0) :
    t.remaining now = none := by
  rw [remaining, if_neg hle.not_gt, if_neg (by omega), if_neg (by omega)]

theorem remaining_of_last (hready : t.Ready) (hle : t.mTime ≤ now) (hrepeat : t.mRepeat ≠ 0)
    (hfired : t.fired.mRepeat = 0) : t.remaining now = none := by
  have hone : t.mRepeat = 1 := by
    rw [fired] at hfired
    dsimp only at hfired
    split_ifs at hfired with hpos
    · exact sub_eq_zero.mp hfired
    · exact absurd hfired hrepeat
  have hcount : 1 ≤ t.fireCount now := by
    rw [fireCount_of_le hready hle hrepeat]
    exact Nat.le_add_left _ _
  rw [remaining, if_neg hle.not_gt, if_neg (by omega), if_neg (by omega)]

theorem remaining_of_le (hready : t.Ready) (hle : t.mTime ≤ now) (hrepeat : t.mRepeat ≠ 0)
    (hfired : t.fired.mRepeat ≠ 0) : t.remaining now = t.fired.remaining now := by
  have hcount := fireCount_of_le hready hle hrepeat
  have htime : t.fired.mTime = t.mTime + t.mPeriod := rfl
  have hshift : t.mTime + (t.fireCount now : ℤ) * t.mPeriod =
      t.fired.mTime + (t.fired.fireCount now : ℤ) * t.fired.mPeriod := by
    rw [hcount, htime, Nat.cast_succ]
    change _ = t.mTime + t.mPeriod + (t.fired.fireCount now : ℤ) * t.mPeriod
    ring
  rw [remaining, if_neg hle.not_gt, hshift]
  by_cases hdue : now < t.fired.mTime
  · have hnone : t.fired.fireCount now = 0 := fireCount_of_lt hready.fired hdue
    rw [remaining_of_lt hdue, hcount, hnone]
    by_cases hpos : t.mRepeat > 0
    · have hrepeats : t.fired.mRepeat = t.mRepeat - 1 := if_pos hpos
      rw [if_neg (by omega), if_pos (by omega)]
      simp [fired, hpos]
    · rw [if_pos (by omega)]
      simp [fired, hpos]
  · rw [remaining, if_neg hdue, hcount]
    by_cases hpos : t.mRepeat > 0
    · have hrepeats : t.fired.mRepeat = t.mRepeat - 1 := if_pos hpos
      have hnonneg : ¬ t.fired.mRepeat < 0 := by omega
      rw [if_neg (by omega), if_neg hnonneg]
      refine if_congr (by omega) ?_ rfl
      rw [hrepeats, Nat.cast_succ, sub_sub, add_comm (1 : ℤ)]
      rfl
    · have hrepeats : t.fired.mRepeat = t.mRepeat := if_neg hpos
      rw [if_pos (by omega), if_pos (by omega)]
      simp [fired, hpos]

end Timer

end CppProjects
