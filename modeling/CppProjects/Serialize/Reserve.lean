import CppProjects.Serialize.DataStream

/-!
# The `int`s of `reserve`

`reserve` converts the size and the capacity of the buffer to `int` and doubles in `int`.
Which lengths it can make room for, for every size and every capacity.
-/

namespace CppProjects

open CInt

namespace DataStream

/-- The doubling loop, for any value that `int cap` may have.  `none` is a signed overflow. -/
def growInt (need cap : ℤ) : Option ℤ :=
  if need > cap then
    if cap = 0 then growInt need 1
    else if FitsInt (cap * 2) then growInt need (cap * 2)
    else none
  else some cap
termination_by (if cap < 0 then cap + 2 ^ 31 else 2 ^ 31 - cap).toNat
decreasing_by
  · split_ifs <;> omega
  · simp only [FitsInt] at *
    split_ifs <;> omega

/-- `reserve(len)`: the capacity it asks the buffer for, if it does not find enough room.
There is no outcome where `size + len` or the loop overflows. -/
def reserveInt (stream : DataStream) (len : ℤ) : Option (Option ℤ) :=
  let size := toInt stream.mBuf.length
  let cap := toInt stream.capacity
  if FitsInt (size + len) then
    if size + len > cap then (growInt (size + len) cap).map some else some none
  else none

variable {need cap grown : ℤ}

/-! ## The loop -/

theorem growInt_ge (hgrown : growInt need cap = some grown) : need ≤ grown := by
  fun_induction growInt need cap with
  | case1 hmore ih => exact ih hgrown
  | case2 cap hmore hzero hfits ih => exact ih hgrown
  | case3 => cases hgrown
  | case4 cap hmore =>
      obtain rfl := Option.some.inj hgrown
      exact not_lt.mp hmore

/-- A negative capacity is doubled until it overflows. -/
theorem growInt_of_neg (hneed : 0 ≤ need) (hneg : cap < 0) : growInt need cap = none := by
  fun_induction growInt need cap with
  | case1 hmore ih => omega
  | case2 cap hmore hzero hfits ih => exact ih (by omega)
  | case3 => rfl
  | case4 cap hmore => omega

/-- The loop ends when one of the doublings is large enough and still an `int`. -/
theorem growInt_isSome_iff (hpos : 0 < cap) (hint : cap ≤ intMax) :
    (growInt need cap).isSome ↔ ∃ turns : ℕ, need ≤ cap * 2 ^ turns ∧ cap * 2 ^ turns ≤ intMax := by
  fun_induction growInt need cap with
  | case1 hmore ih => omega
  | case2 cap hmore hzero hfits ih =>
      rw [ih (by omega) (by simp only [FitsInt, intMax] at *; omega)]
      constructor
      · rintro ⟨turns, hneed, hle⟩
        refine ⟨turns + 1, ?_, ?_⟩ <;> rwa [pow_succ', ← mul_assoc]
      · rintro ⟨turns, hneed, hle⟩
        -- no turn at all is not enough
        cases turns with
        | zero =>
            rw [pow_zero, mul_one] at hneed
            omega
        | succ turns =>
            rw [pow_succ', ← mul_assoc] at hneed hle
            exact ⟨turns, hneed, hle⟩
  | case3 cap hmore hzero hover =>
      refine iff_of_false (by simp) ?_
      rintro ⟨turns, hneed, hle⟩
      cases turns with
      | zero =>
          rw [pow_zero, mul_one] at hneed
          omega
      | succ turns =>
          have hone : (1 : ℤ) ≤ 2 ^ turns := one_le_pow₀ (by decide)
          have hdouble : cap * 2 ≤ cap * 2 ^ (turns + 1) := by
            rw [pow_succ', ← mul_assoc]
            exact le_mul_of_one_le_right (by omega) hone
          simp only [FitsInt, intMax] at *
          omega
  | case4 cap hmore =>
      refine iff_of_true rfl ⟨0, ?_, ?_⟩
      · rw [pow_zero, mul_one]
        exact not_lt.mp hmore
      · rwa [pow_zero, mul_one]

/-! ## The request -/

/-- Doubled often enough, the capacity is at least `need` and at most `INT_MAX`; a capacity of
zero is doubled as if it were one. -/
def Doubles (need cap : ℤ) : Prop :=
  ∃ turns : ℕ, need ≤ max cap 1 * 2 ^ turns ∧ max cap 1 * 2 ^ turns ≤ intMax

theorem growInt_isSome_iff_doubles (hcap : 0 ≤ cap) (hint : cap ≤ intMax) (hmore : cap < need) :
    (growInt need cap).isSome ↔ Doubles need cap := by
  rcases hcap.eq_or_lt with rfl | hpos
  · rw [growInt, if_pos hmore, if_pos rfl]
    exact growInt_isSome_iff (by decide) (by decide)
  · have hsame : max cap 1 = cap := max_eq_left hpos
    rw [Doubles, hsame]
    exact growInt_isSome_iff hpos hint

/-- What `reserve` comes to where the new size is an `int`. -/
theorem reserveInt_of_fits (stream : DataStream) {len : ℤ} (hlen : 0 ≤ len)
    (hfits : stream.mBuf.length + len ≤ intMax) :
    stream.reserveInt len =
      if stream.mBuf.length + len > toInt stream.capacity then
        (growInt (stream.mBuf.length + len) (toInt stream.capacity)).map some
      else some none := by
  have hsize : toInt stream.mBuf.length = stream.mBuf.length :=
    toInt_eq_self ⟨by omega, by simp only [intMax] at hfits; omega⟩
  have hsum : FitsInt (stream.mBuf.length + len) := ⟨by omega, by simp only [intMax] at hfits; omega⟩
  rw [reserveInt, hsize, if_pos hsum]

/-- The `int` of a capacity is not more than the capacity. -/
theorem toInt_le (n : ℕ) : toInt n ≤ n := by
  obtain ⟨⟨-, hlt⟩, turns, hturns⟩ := toInt_spec n
  omega

/-- What is asked for is enough. -/
theorem reserveInt_ge {stream : DataStream} {len : ℤ} (hlen : 0 ≤ len)
    (hfits : stream.mBuf.length + len ≤ intMax) {request : Option ℤ}
    (hrequest : stream.reserveInt len = some request) :
    stream.mBuf.length + len ≤ request.getD stream.capacity := by
  rw [reserveInt_of_fits stream hlen hfits] at hrequest
  split_ifs at hrequest with hmore
  · obtain ⟨cap, hcap, rfl⟩ := Option.map_eq_some_iff.mp hrequest
    exact growInt_ge hcap
  · obtain rfl := Option.some.inj hrequest
    exact (not_lt.mp hmore).trans (toInt_le _)

theorem reserveInt_isSome_iff (stream : DataStream) {len : ℤ} (hlen : 0 ≤ len)
    (hfits : stream.mBuf.length + len ≤ intMax) :
    (stream.reserveInt len).isSome ↔
      0 ≤ toInt stream.capacity ∧ Doubles (stream.mBuf.length + len) (toInt stream.capacity) := by
  have hint : toInt stream.capacity ≤ intMax := by
    have hlt := (toInt_spec stream.capacity).1.2
    simp only [intMax]
    omega
  rw [reserveInt_of_fits stream hlen hfits]
  split_ifs with hmore
  · rw [Option.isSome_map]
    rcases lt_or_ge (toInt stream.capacity) 0 with hneg | hcap
    · rw [growInt_of_neg (by omega) hneg]
      exact iff_of_false Bool.false_ne_true fun hdoubles => absurd hneg (not_lt.mpr hdoubles.1)
    · rw [growInt_isSome_iff_doubles hcap hint hmore, and_iff_right hcap]
  · refine iff_of_true rfl ⟨by omega, 0, ?_, ?_⟩
    · rw [pow_zero, mul_one]
      exact (not_lt.mp hmore).trans (le_max_left _ _)
    · rw [pow_zero, mul_one]
      exact max_le hint (by decide)

/-- From a capacity that is an `int` the loop of `reserve` is this one. -/
theorem growInt_natCast (need cap : ℕ) (hcap : cap ≤ intMax) :
    growInt need cap = (growCap need cap).map (Nat.cast : ℕ → ℤ) := by
  fun_induction growCap need cap with
  | case1 hgrow ih =>
      rw [growInt, if_pos (by omega), if_pos Nat.cast_zero]
      exact ih (by decide)
  | case2 cap hgrow hzero hfits ih =>
      have hdouble : ((cap : ℤ) * 2) = (2 * cap : ℕ) := by omega
      have hint : FitsInt (2 * cap : ℕ) := ⟨by omega, by simp only [intMax] at hfits; omega⟩
      rw [growInt, if_pos (by omega), if_neg (by omega), hdouble, if_pos hint]
      exact ih hfits
  | case3 cap hgrow hzero hover =>
      have hint : ¬ FitsInt ((cap : ℤ) * 2) := fun hint => by
        have hlt := hint.2
        simp only [intMax] at hover
        omega
      rw [growInt, if_pos (by omega), if_neg (by omega), if_neg hint]
      rfl
  | case4 cap hgrow =>
      rw [growInt, if_neg (by omega)]
      rfl

/-- While the capacity is an `int`, `reserve` does with the buffer what is asked for here. -/
theorem reserve_eq_reserveInt (stream : DataStream) (len : ℕ) (hcapacity : stream.capacity ≤ intMax)
    (hsize : stream.mBuf.length ≤ stream.capacity) :
    stream.reserve len = (stream.reserveInt len).map fun request =>
      { stream with capacity := (request.getD stream.capacity).toNat } := by
  have hcap : toInt stream.capacity = stream.capacity :=
    toInt_eq_self ⟨by omega, by simp only [intMax] at hcapacity; omega⟩
  rw [reserve]
  by_cases hover : stream.mBuf.length + len > intMax
  · have hsum : ¬ FitsInt (toInt stream.mBuf.length + len) := by
      rw [toInt_eq_self ⟨by omega, by simp only [intMax] at *; omega⟩]
      intro hint
      have hlt := hint.2
      simp only [intMax] at hover
      omega
    rw [if_pos hover, reserveInt, if_neg hsum]
    rfl
  · rw [if_neg hover, reserveInt_of_fits stream (by omega) (by omega), hcap]
    split_ifs with hmore hless hless
    · have hneed : ((stream.mBuf.length : ℤ) + len) = (stream.mBuf.length + len : ℕ) := by omega
      rw [hneed, growInt_natCast _ _ hcapacity]
      cases growCap (stream.mBuf.length + len) stream.capacity <;> rfl
    · omega
    · omega
    · rfl

/-- For a length of zero or more, and a new size that is an `int`, the loop of `reserve` ends
without overflow and with room enough exactly if the `int` of the capacity is not negative
and comes by doubling to an `int` that is large enough. -/
theorem reserve_sound_iff (stream : DataStream) {len : ℤ} (hlen : 0 ≤ len)
    (hfits : stream.mBuf.length + len ≤ intMax) :
    (∃ request, stream.reserveInt len = some request ∧
        stream.mBuf.length + len ≤ request.getD stream.capacity) ↔
      0 ≤ toInt stream.capacity ∧ Doubles (stream.mBuf.length + len) (toInt stream.capacity) := by
  rw [← reserveInt_isSome_iff stream hlen hfits, Option.isSome_iff_exists]
  refine exists_congr fun request => and_iff_left_of_imp ?_
  exact reserveInt_ge hlen hfits

/-- Five bytes for a new stream, whose capacity goes from `0` to `8`. -/
theorem reserve_sound_fresh :
    ∃ request, fresh.reserveInt 5 = some request ∧
      (fresh.mBuf.length : ℤ) + 5 ≤ request.getD fresh.capacity :=
  (reserve_sound_iff fresh (by decide) (by decide)).mpr ⟨by decide, 3, by decide, by decide⟩

/-- No power of two is more than `2^30` and an `int`. -/
theorem not_doubles : ¬ Doubles (2 ^ 30 + 1) 0 := by
  rintro ⟨turns, hneed, hle⟩
  rw [max_eq_right (by decide), one_mul] at hneed hle
  rcases Nat.lt_or_ge 30 turns with hmany | hfew
  · have hpow : (2 : ℤ) ^ 31 ≤ 2 ^ turns := pow_le_pow_right₀ (by decide) hmany
    simp only [intMax] at hle
    omega
  · have hpow : (2 : ℤ) ^ turns ≤ 2 ^ 30 := pow_le_pow_right₀ (by decide) hfew
    omega

/-- `2^30 + 1` bytes for a new stream: the capacity `2^30` is doubled. -/
theorem reserve_overflows :
    fresh.reserveInt (2 ^ 30 + 1) = none ∧
    ¬ ∀ (stream : DataStream) (len : ℤ), 0 ≤ len → stream.mBuf.length + len ≤ intMax →
      ∃ request, stream.reserveInt len = some request ∧
        stream.mBuf.length + len ≤ request.getD stream.capacity := by
  have hfits : (fresh.mBuf.length : ℤ) + (2 ^ 30 + 1) ≤ intMax := by
    norm_num [fresh, intMax]
  have hnone : fresh.reserveInt (2 ^ 30 + 1) = none := by
    have hsize : (fresh.mBuf.length : ℤ) = 0 := rfl
    have hcap : toInt fresh.capacity = 0 := by decide
    rw [← Option.not_isSome_iff_eq_none, reserveInt_isSome_iff fresh (by omega) hfits, hsize, hcap,
      zero_add]
    exact fun hdoubles => not_doubles hdoubles.2
  refine ⟨hnone, fun hall => ?_⟩
  obtain ⟨request, hrequest, -⟩ := hall fresh (2 ^ 30 + 1) (by omega) hfits
  rw [hnone] at hrequest
  cases hrequest

end DataStream

end CppProjects
