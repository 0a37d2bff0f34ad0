import CppProjects.Vector.MyVectorSequence

/-!
# When the sizing calls of `myVector` end

`assign`, `resize` and `reserve` double the capacity until it reaches their `int`
argument as a `size_t`.  A negative argument is a size above `2^63`, which no
doubling from zero gets to.
-/

namespace CppProjects

open CInt Program

namespace MyVector

variable {ι α : Type}

/-! ## The loop -/

/-- Some left shift of the 64 bits of the capacity is at least `needed`. -/
def ShiftReaches (needed capacity : ℕ) : Prop :=
  ∃ places < 64, needed ≤ capacity * 2 ^ places % 2 ^ 64

instance (needed capacity : ℕ) : Decidable (ShiftReaches needed capacity) :=
  inferInstanceAs (Decidable (∃ places < 64, _))

theorem doubled_mod {capacity : ℕ} (hpos : 0 < capacity) :
    doubled capacity = capacity * 2 % 2 ^ 64 := by
  rw [doubled, if_neg (by omega), toSize]
  omega

theorem doubled_lt (capacity : ℕ) : doubled capacity < 2 ^ 64 := by
  rcases Nat.eq_zero_or_pos capacity with rfl | hpos
  · decide
  · rw [doubled_mod hpos]
    exact Nat.mod_lt _ (by decide)

/-- A shift of the doubled capacity is a shift by one place more. -/
theorem doubled_shift {capacity : ℕ} (hpos : 0 < capacity) (places : ℕ) :
    doubled capacity * 2 ^ places % 2 ^ 64 = capacity * 2 ^ (places + 1) % 2 ^ 64 := by
  rw [doubled_mod hpos, Nat.mod_mul_mod, mul_assoc, ← pow_succ']

theorem ShiftReaches.of_le {needed capacity : ℕ} (hcapacity : capacity < 2 ^ 64)
    (hle : needed ≤ capacity) : ShiftReaches needed capacity :=
  ⟨0, by decide, by rwa [pow_zero, mul_one, Nat.mod_eq_of_lt hcapacity]⟩

/-- What no shift of the capacity reaches, no shift of the doubled one does. -/
theorem not_shiftReaches_doubled {needed capacity : ℕ} (hlarge : 2 ^ 63 < needed)
    (hnot : ¬ ShiftReaches needed capacity) : ¬ ShiftReaches needed (doubled capacity) := by
  rintro ⟨places, hplaces, hreach⟩
  rcases Nat.eq_zero_or_pos capacity with rfl | hpos
  · have hone : doubled 0 = 1 := rfl
    have hpow : 2 ^ places ≤ 2 ^ 63 := Nat.pow_le_pow_right (by decide) (by omega)
    have hmod : 1 * 2 ^ places % 2 ^ 64 ≤ 1 * 2 ^ places := Nat.mod_le _ _
    rw [hone] at hreach
    omega
  · rw [doubled_shift hpos] at hreach
    rcases Nat.lt_or_ge (places + 1) 64 with hlt | hge
    · exact hnot ⟨places + 1, hlt, hreach⟩
    · -- The last shift leaves no bit.
      have hlast : places + 1 = 64 := by omega
      rw [hlast, Nat.mul_mod_left] at hreach
      omega

/-- Then the loop goes on for ever. -/
theorem growTo_eq_none {needed capacity : ℕ} (hlarge : 2 ^ 63 < needed)
    (hcapacity : capacity < 2 ^ 64) (hnot : ¬ ShiftReaches needed capacity) (fuel : ℕ) :
    growTo needed fuel capacity = none := by
  induction fuel generalizing capacity with
  | zero => rfl
  | succ fuel ih =>
      have hlt : capacity < needed := by
        by_contra hge
        exact hnot (.of_le hcapacity (by omega))
      rw [growTo, if_pos hlt]
      exact ih (doubled_lt capacity) (not_shiftReaches_doubled hlarge hnot)

/-- A shift that reaches the size is reached by as many turns. -/
theorem growTo_isSome_of_shift {needed capacity places fuel : ℕ} (hpos : 0 < needed)
    (hreach : needed ≤ capacity * 2 ^ places % 2 ^ 64) (hfuel : places < fuel) :
    (growTo needed fuel capacity).isSome := by
  induction places generalizing capacity fuel with
  | zero =>
      obtain ⟨fuel, rfl⟩ : ∃ rest, fuel = rest + 1 := ⟨fuel - 1, by omega⟩
      have hle : needed ≤ capacity := by
        rw [pow_zero, mul_one] at hreach
        exact hreach.trans (Nat.mod_le _ _)
      rw [growTo, if_neg (by omega)]
      rfl
  | succ places ih =>
      obtain ⟨fuel, rfl⟩ : ∃ rest, fuel = rest + 1 := ⟨fuel - 1, by omega⟩
      rw [growTo]
      split_ifs
      · have hcapacity : 0 < capacity := by
          rcases Nat.eq_zero_or_pos capacity with rfl | h
          · rw [zero_mul, Nat.zero_mod] at hreach
            omega
          · exact h
        exact ih (by rwa [doubled_shift hcapacity]) (by omega)
      · rfl

theorem growTo_isSome_iff {needed capacity : ℕ} (hlarge : 2 ^ 63 < needed)
    (hcapacity : capacity < 2 ^ 64) :
    (growTo needed (2 ^ 64 + 1) capacity).isSome ↔ ShiftReaches needed capacity := by
  constructor
  · intro hsome
    by_contra hnot
    rw [growTo_eq_none hlarge hcapacity hnot] at hsome
    cases hsome
  · rintro ⟨places, hplaces, hreach⟩
    exact growTo_isSome_of_shift (by omega) hreach (by omega)

/-- A size that is not above `INT_MAX` is always reached. -/
theorem growTo_isSome_of_small {needed : ℕ} (hneeded : needed < 2 ^ 31) (capacity : ℕ) :
    (growTo needed (2 ^ 64 + 1) capacity).isSome := by
  rcases Nat.lt_or_ge capacity (2 ^ 32) with hlt | hge
  · have henough : needed - capacity < 2 ^ 64 + 1 := by omega
    obtain ⟨grown, hgrown, -⟩ := growTo_eq_some hneeded hlt henough
    rw [hgrown]
    rfl
  · rw [growTo, if_neg (by omega)]
    rfl

/-- A negative `int` as a `size_t`. -/
theorem lt_toSize_of_neg {n : ℤ} (hn : FitsInt n) (hneg : n < 0) : 2 ^ 63 < toSize n := by
  have hlow := hn.1
  rw [toSize]
  omega

theorem toSize_of_nonneg {n : ℤ} (hn : FitsInt n) (hnonneg : 0 ≤ n) : toSize n < 2 ^ 31 := by
  have hhigh := hn.2
  rw [toSize]
  omega

theorem growTo_toSize_iff {n : ℤ} (hn : FitsInt n) {capacity : ℕ} (hcapacity : capacity < 2 ^ 64) :
    (growTo (toSize n) (2 ^ 64 + 1) capacity).isSome ↔ 0 ≤ n ∨ ShiftReaches (toSize n) capacity := by
  rcases lt_or_ge n 0 with hneg | hnonneg
  · rw [growTo_isSome_iff (lt_toSize_of_neg hn hneg) hcapacity]
    exact ⟨.inr, fun h => h.resolve_left (by omega)⟩
  · exact iff_of_true (growTo_isSome_of_small (toSize_of_nonneg hn hnonneg) capacity) (.inl hnonneg)

/-- From zero the loop reaches no negative `int`. -/
theorem growTo_zero_iff {n : ℤ} (hn : FitsInt n) :
    (growTo (toSize n) (2 ^ 64 + 1) 0).isSome ↔ 0 ≤ n := by
  rw [growTo_toSize_iff hn (by decide)]
  refine ⟨?_, .inl⟩
  rintro (hnonneg | ⟨places, -, hreach⟩)
  · exact hnonneg
  · by_contra hneg
    have hlarge := lt_toSize_of_neg hn (not_le.mp hneg)
    rw [zero_mul, Nat.zero_mod] at hreach
    omega

/-! ## The calls up to the end of their loops -/

section Loops

variable [DecidableEq ι]

/-- `assign` up to the end of its loop, with the fields it began with, and whether
it has passed the loop by. -/
def assignLoop (v : ι) (n : ℤ) : M ι α (MyVector × Bool) := do
  let this ← self v
  if toSize n ≤ this.mCapacity then return (this, true)
  else
    discard v
    growCapacity v (toSize n)
    return (this, false)

def resizeLoop (v : ι) (n : ℤ) : M ι α (MyVector × Bool) := do
  let this ← self v
  if toSize n < this.mSize then return (this, true)
  else if toSize n < this.mCapacity then return (this, true)
  else
    growCapacity v (toSize n)
    return (this, false)

def reserveLoop (v : ι) (n : ℤ) : M ι α (MyVector × Bool) := do
  let this ← self v
  if toSize n < this.mCapacity then return (this, true)
  else
    growCapacity v (toSize n)
    return (this, false)

/-- `assign` is its loop and the rest. -/
theorem assign_eq (v : ι) (n : ℤ) (val : Arg α) : assign v n val = (do
    let (this, passed) ← assignLoop v n
    if passed then
      forUp (fun i => do store this.mData i (← val.get)) 0 n.toNat
      update v fun this => { this with mSize := toSize n }
    else
      let data ← newArray (← self v).mCapacity
      update v fun this => { this with mData := some data }
      forUp (fun i => do store data i (← val.get)) 0 n.toNat
      update v fun this => { this with mSize := toSize n }) := by
  simp only [assign, assignLoop, bind_assoc]
  congr 1
  funext this
  split_ifs <;> simp

theorem resize_eq (v : ι) (n : ℤ) (val : Arg α) : resize v n val = (do
    let (this, passed) ← resizeLoop v n
    if passed then
      if toSize n < this.mSize then
        update v fun this => { this with mSize := toSize n }
      else
        forUp (fun i => do store this.mData i (← val.get))
          (toInt this.mSize) (n - toInt this.mSize).toNat
        update v fun this => { this with mSize := toSize n }
    else
      let data ← newArray (← self v).mCapacity
      forUp (fun i => do store data i (← load this.mData i)) 0 this.mSize
      forUp (fun i => do store data i (← val.get))
        (toInt this.mSize) (n - toInt this.mSize).toNat
      release v
      update v fun this => { this with mSize := toSize n }
      update v fun this => { this with mData := some data }) := by
  simp only [resize, resizeLoop, bind_assoc]
  congr 1
  funext this
  split_ifs <;> simp [*]

theorem reserve_eq (v : ι) (n : ℤ) : reserve (α := α) v n = (do
    let (this, passed) ← reserveLoop v n
    if passed then pure ()
    else
      let data ← newArray (← self v).mCapacity
      forUp (fun i => do store data i (← load this.mData i)) 0 this.mSize
      release v
      update v fun this => { this with mData := some data }) := by
  simp only [reserve, reserveLoop, bind_assoc]
  congr 1
  funext this
  split_ifs <;> simp

variable {s : Store ι α} {v : ι}

theorem returns_growCapacity_iff {needed : ℕ} :
    (∃ u t, Returns (growCapacity v needed) s u t) ↔
      (growTo needed (2 ^ 64 + 1) (s.vectors v).mCapacity).isSome := by
  rcases hgrown : growTo needed (2 ^ 64 + 1) (s.vectors v).mCapacity with _ | grown
  · refine iff_of_false ?_ (by simp)
    rintro ⟨u, t, hgrow⟩
    exact ((returns_self rfl).bind_stuck (stuck_defined hgrown s).bind).not_returns hgrow
  · refine iff_of_true ?_ rfl
    exact ⟨_, _, (returns_self rfl).bind ((returns_defined hgrown s).bind (returns_update rfl _))⟩

/-- A call that has found what it needs and goes on to its loop. -/
theorem returns_loop_iff {needed : ℕ} {result : MyVector × Bool} :
    (∃ found t, Returns (do
        growCapacity v needed
        return result) s found t) ↔
      (growTo needed (2 ^ 64 + 1) (s.vectors v).mCapacity).isSome := by
  rw [← returns_growCapacity_iff]
  constructor
  · rintro ⟨found, t, hloop⟩
    obtain ⟨u, t', hgrow, -⟩ := hloop.bind_inv
    exact ⟨u, t', hgrow⟩
  · rintro ⟨u, t, hgrow⟩
    exact ⟨result, t, hgrow.bind (returns_pure result t)⟩

theorem reserveLoop_iff {n : ℤ} (hn : FitsInt n) (hcapacity : (s.vectors v).mCapacity < 2 ^ 64) :
    (∃ found t, Returns (reserveLoop v n) s found t) ↔
      0 ≤ n ∨ ShiftReaches (toSize n) (s.vectors v).mCapacity := by
  rw [reserveLoop, Returns.exists_bind_iff (returns_self rfl)]
  split_ifs with hroom
  · exact iff_of_true ⟨_, _, returns_pure _ s⟩ (.inr (.of_le hcapacity hroom.le))
  · rw [returns_loop_iff, growTo_toSize_iff hn hcapacity]

theorem resizeLoop_iff {n : ℤ} (hn : FitsInt n) (hcapacity : (s.vectors v).mCapacity < 2 ^ 64) :
    (∃ found t, Returns (resizeLoop v n) s found t) ↔
      0 ≤ n ∨ toSize n < (s.vectors v).mSize ∨
        ShiftReaches (toSize n) (s.vectors v).mCapacity := by
  rw [resizeLoop, Returns.exists_bind_iff (returns_self rfl)]
  split_ifs with hcut hroom
  · exact iff_of_true ⟨_, _, returns_pure _ s⟩ (.inr (.inl hcut))
  · exact iff_of_true ⟨_, _, returns_pure _ s⟩ (.inr (.inr (.of_le hcapacity hroom.le)))
  · rw [returns_loop_iff, growTo_toSize_iff hn hcapacity, or_iff_right hcut]

theorem assignLoop_iff {n : ℤ} (hn : FitsInt n) (hcapacity : (s.vectors v).mCapacity < 2 ^ 64)
    (hbuffer : (s.heap.cellsAt (s.vectors v).mData).isSome) :
    (∃ found t, Returns (assignLoop v n) s found t) ↔
      0 ≤ n ∨ toSize n ≤ (s.vectors v).mCapacity ∨
        (s.vectors v).mData = none ∧ ShiftReaches (toSize n) (s.vectors v).mCapacity := by
  rw [assignLoop, Returns.exists_bind_iff (returns_self rfl)]
  split_ifs with hroom
  · exact iff_of_true ⟨_, _, returns_pure _ s⟩ (.inr (.inl hroom))
  · rw [or_iff_right hroom]
    cases hdata : (s.vectors v).mData with
    | none =>
        have hdiscard : Returns (discard v) s () s := by
          refine (returns_self rfl).bind ?_
          rw [hdata]
          exact returns_pure () s
        rw [Returns.exists_bind_iff hdiscard, returns_loop_iff, growTo_toSize_iff hn hcapacity]
        simp
    | some addr =>
        -- Without its buffer the vector has no capacity.
        obtain ⟨cells, hcells⟩ := Option.isSome_iff_exists.mp hbuffer
        rw [hdata] at hcells
        rw [Returns.exists_bind_iff (returns_discard_some rfl hdata hcells), returns_loop_iff,
          Store.vectors_withVector, growTo_zero_iff hn]
        simp

end Loops

/-! ## When they end -/

/-- The loops of the three calls end for every `int` that is not negative.  For a
negative one they end if the call passes its loop by, or if the loop starts with a
capacity that some left shift of its bits takes up to the size. -/
theorem sizing_loops_end_iff [DecidableEq ι] {s : Store ι α} {v : ι} {n : ℤ} (hn : FitsInt n)
    (hcapacity : (s.vectors v).mCapacity < 2 ^ 64)
    (hbuffer : (s.heap.cellsAt (s.vectors v).mData).isSome) :
    ((∃ found t, Returns (assignLoop v n) s found t) ↔
      0 ≤ n ∨ toSize n ≤ (s.vectors v).mCapacity ∨
        (s.vectors v).mData = none ∧ ShiftReaches (toSize n) (s.vectors v).mCapacity) ∧
    ((∃ found t, Returns (resizeLoop v n) s found t) ↔
      0 ≤ n ∨ toSize n < (s.vectors v).mSize ∨
        ShiftReaches (toSize n) (s.vectors v).mCapacity) ∧
    ((∃ found t, Returns (reserveLoop v n) s found t) ↔
      0 ≤ n ∨ ShiftReaches (toSize n) (s.vectors v).mCapacity) :=
  ⟨assignLoop_iff hn hcapacity hbuffer, resizeLoop_iff hn hcapacity, reserveLoop_iff hn hcapacity⟩

/-- `v.reserve(5)` on a new vector. -/
theorem sizing_loops_end_iff_reserve :
    ∃ found t, Returns (reserveLoop () 5)
      (⟨.empty, fun _ => ⟨none, 0, 0⟩, fun _ => false⟩ : Store Unit ℕ) found t :=
  (sizing_loops_end_iff (by decide) (by decide) rfl).2.2.mpr (.inl (by decide))

/-- `v.reserve(-1)` on a new vector doubles its capacity for ever, however many turns
it is given. -/
theorem sizing_loop_never_ends :
    (∀ fuel, growTo (toSize (-1)) fuel 0 = none) ∧
    Stuck (reserve () (-1))
      (⟨.empty, fun _ => ⟨none, 0, 0⟩, fun _ => false⟩ : Store Unit ℕ) ∧
    ¬ ∀ (s : Store Unit ℕ) (n : ℤ), FitsInt n → (s.vectors ()).mCapacity < 2 ^ 64 →
      (s.heap.cellsAt (s.vectors ()).mData).isSome →
      ∃ found t, Returns (reserveLoop () n) s found t := by
  have hnot : ¬ ShiftReaches (toSize (-1)) 0 := by decide
  have hloop : ∀ fuel, growTo (toSize (-1)) fuel 0 = none :=
    growTo_eq_none (by decide) (by decide) hnot
  refine ⟨hloop, ?_, fun hall => ?_⟩
  · rw [reserve_eq]
    refine Stuck.bind ((returns_self rfl).bind_stuck ?_)
    rw [if_neg (by decide)]
    exact Stuck.bind ((returns_self rfl).bind_stuck (stuck_defined (hloop _) _).bind)
  · have hends := hall ⟨.empty, fun _ => ⟨none, 0, 0⟩, fun _ => false⟩ (-1) (by decide) (by decide) rfl
    rw [reserveLoop_iff (by decide) (by decide)] at hends
    rcases hends with hnonneg | hreach
    · exact absurd hnonneg (by decide)
    · exact hnot hreach

end MyVector

end CppProjects
