import CppProjects.Core.CInt

/-!
# Programs over a state

A program runs in a state, returns a value or throws an exception, and has no
outcome where the behaviour of the source is undefined.  `Returns` is the total
statement that a program comes to an end normally, with its rules for sequences
and counted loops.
-/

namespace CppProjects

open CInt

/-- A program that may throw an `ε`, over the states `σ`. -/
abbrev Program (ε σ : Type) := ExceptT ε (StateT σ Option)

namespace Program

variable {ε σ α β : Type}

/-- No outcome: undefined behaviour, or a loop that does not end. -/
def undefined : Program ε σ α := ExceptT.mk fun _ => none

/-- A value that has to be there. -/
def defined : Option α → Program ε σ α
  | some value => pure value
  | none => undefined

/-- The value of an `int` expression; overflow is undefined. -/
def intExpr (value : ℤ) : Program ε σ ℤ := if FitsInt value then pure value else undefined

/-- `for (int i = start; ...; i++)`, with the number of times its test holds. -/
def forUp (body : ℤ → Program ε σ Unit) (start : ℤ) : ℕ → Program ε σ Unit
  | 0 => pure ()
  | count + 1 => do
      body start
      let next ← intExpr (start + 1)
      forUp body next count

/-- `for (int i = start; ...; i--)`. -/
def forDown (body : ℤ → Program ε σ Unit) (start : ℤ) : ℕ → Program ε σ Unit
  | 0 => pure ()
  | count + 1 => do
      body start
      let next ← intExpr (start - 1)
      forDown body next count

/-- `count` places from `start` on, in order. -/
def forEach (body : ℕ → Program ε σ Unit) (start : ℕ) : ℕ → Program ε σ Unit
  | 0 => pure ()
  | count + 1 => do
      body start
      forEach body (start + 1) count

/-- The same places, the last one first. -/
def forEachDown (body : ℕ → Program ε σ Unit) (start : ℕ) : ℕ → Program ε σ Unit
  | 0 => pure ()
  | count + 1 => do
      body (start + count)
      forEachDown body start count

/-- `while`: the body gives the next loop variables, or none when the test fails.
A loop that takes more steps than its fuel is one that does not end. -/
def loop (body : α → Program ε σ (Option α)) : ℕ → α → Program ε σ α
  | 0, _ => undefined
  | fuel + 1, x => do
      match ← body x with
      | none => pure x
      | some y => loop body fuel y

/-- From `s` the program returns `value` in `s'`. -/
def Returns (program : Program ε σ α) (s : σ) (value : α) (s' : σ) : Prop :=
  program.run.run s = some (.ok value, s')

/-- From `s` the program throws `error` in `s'`. -/
def Throws (program : Program ε σ α) (s : σ) (error : ε) (s' : σ) : Prop :=
  program.run.run s = some (.error error, s')

/-- From `s` the program has no outcome. -/
def Stuck (program : Program ε σ α) (s : σ) : Prop := program.run.run s = none

variable {program : Program ε σ α} {next : α → Program ε σ β} {s s' s'' : σ} {value : α}
  {result : β}

theorem returns_pure (value : α) (s : σ) :
    Returns (pure value : Program ε σ α) s value s := rfl

theorem returns_get (s : σ) : Returns (get : Program ε σ σ) s s s := rfl

theorem returns_modify (f : σ → σ) (s : σ) :
    Returns (modify f : Program ε σ PUnit) s ⟨⟩ (f s) := rfl

theorem returns_defined {option : Option α} (hoption : option = some value) (s : σ) :
    Returns (defined option : Program ε σ α) s value s := by
  rw [hoption]
  rfl

theorem returns_intExpr {value : ℤ} (hfits : FitsInt value) (s : σ) :
    Returns (intExpr value : Program ε σ ℤ) s value s := by
  rw [intExpr, if_pos hfits]
  rfl

theorem Returns.bind (hprogram : Returns program s value s')
    (hnext : Returns (next value) s' result s'') :
    Returns (program >>= next) s result s'' := by
  change (program >>= next).run.run s = _
  rw [ExceptT.run_bind, StateT.run_bind, hprogram]
  exact hnext

theorem Throws.bind {error : ε} (hprogram : Throws program s error s') :
    Throws (program >>= next) s error s' := by
  change (program >>= next).run.run s = _
  rw [ExceptT.run_bind, StateT.run_bind, hprogram]
  rfl

theorem Returns.bind_throws {error : ε} (hprogram : Returns program s value s')
    (hnext : Throws (next value) s' error s'') : Throws (program >>= next) s error s'' := by
  change (program >>= next).run.run s = _
  rw [ExceptT.run_bind, StateT.run_bind, hprogram]
  exact hnext

theorem exists_bind {Q : σ → Prop} (hprogram : Returns program s value s')
    (h : ∃ s'', Returns (next value) s' result s'' ∧ Q s'') :
    ∃ s'', Returns (program >>= next) s result s'' ∧ Q s'' := by
  obtain ⟨s'', hnext, hs''⟩ := h
  exact ⟨s'', hprogram.bind hnext, hs''⟩

/-- A program whose value is not used. -/
theorem exists_discard {Q : σ → Prop} (h : ∃ value s', Returns program s value s' ∧ Q s')
    (result : β) :
    ∃ s', Returns (do
      let _ ← program
      pure result) s result s' ∧ Q s' := by
  obtain ⟨value, s', hprogram, hs'⟩ := h
  exact ⟨s', hprogram.bind (returns_pure result s'), hs'⟩

theorem stuck_undefined (s : σ) : Stuck (undefined : Program ε σ α) s := rfl

theorem stuck_defined {option : Option α} (hoption : option = none) (s : σ) :
    Stuck (defined option : Program ε σ α) s := by
  rw [hoption]
  rfl

theorem stuck_intExpr {value : ℤ} (hfits : ¬ FitsInt value) (s : σ) :
    Stuck (intExpr value : Program ε σ ℤ) s := by
  rw [intExpr, if_neg hfits]
  rfl

theorem Stuck.bind (hprogram : Stuck program s) : Stuck (program >>= next) s := by
  change (program >>= next).run.run s = _
  rw [ExceptT.run_bind, StateT.run_bind, hprogram]
  rfl

theorem Returns.bind_stuck (hprogram : Returns program s value s')
    (hnext : Stuck (next value) s') : Stuck (program >>= next) s := by
  change (program >>= next).run.run s = _
  rw [ExceptT.run_bind, StateT.run_bind, hprogram]
  exact hnext

/-- A program has at most one outcome. -/
theorem Returns.unique {value' : α} (h : Returns program s value s')
    (h' : Returns program s value' s'') : value = value' ∧ s' = s'' := by
  rw [Returns, h, Option.some.injEq, Prod.mk.injEq, Except.ok.injEq] at h'
  exact h'

/-! ## What a program that returned has done -/

theorem Returns.bind_inv (h : Returns (program >>= next) s result s'') :
    ∃ value s', Returns program s value s' ∧ Returns (next value) s' result s'' := by
  change (program >>= next).run.run s = _ at h
  rw [ExceptT.run_bind, StateT.run_bind] at h
  rcases hrun : program.run.run s with _ | ⟨_ | value, s'⟩
  · rw [hrun] at h
    cases h
  · rw [hrun] at h
    cases h
  · rw [hrun] at h
    exact ⟨value, s', hrun, h⟩

/-- Once the first part has returned, the rest decides. -/
theorem Returns.exists_bind_iff (hprogram : Returns program s value s') :
    (∃ result t, Returns (program >>= next) s result t) ↔
      ∃ result t, Returns (next value) s' result t := by
  constructor
  · rintro ⟨result, t, hrun⟩
    obtain ⟨value', s₁, hfirst, hrest⟩ := hrun.bind_inv
    obtain ⟨rfl, rfl⟩ := hprogram.unique hfirst
    exact ⟨result, t, hrest⟩
  · rintro ⟨result, t, hrest⟩
    exact ⟨result, t, hprogram.bind hrest⟩

theorem Returns.pure_inv {value' : α} (h : Returns (pure value : Program ε σ α) s value' s') :
    value' = value ∧ s' = s := by
  obtain ⟨hvalue, hs⟩ := h.unique (returns_pure value s)
  exact ⟨hvalue, hs⟩

theorem Returns.intExpr_inv {value value' : ℤ}
    (h : Returns (intExpr value : Program ε σ ℤ) s value' s') :
    FitsInt value ∧ value' = value ∧ s' = s := by
  rw [intExpr] at h
  split_ifs at h with hfits
  · exact ⟨hfits, h.pure_inv⟩
  · cases h

theorem Returns.defined_inv {option : Option α}
    (h : Returns (defined option : Program ε σ α) s value s') : option = some value ∧ s' = s := by
  cases option with
  | none => cases h
  | some given =>
      obtain ⟨hvalue, hs⟩ := h.pure_inv
      exact ⟨by rw [hvalue], hs⟩

theorem Returns.get_inv {t : σ} (h : Returns (get : Program ε σ σ) s t s') : t = s ∧ s' = s :=
  h.unique (returns_get s)

theorem Throws.not_stuck {error : ε} (h : Throws program s error s') : ¬ Stuck program s := by
  intro hstuck
  cases Eq.trans hstuck.symm h

theorem Stuck.bind_inv (h : Stuck (program >>= next) s) :
    Stuck program s ∨ ∃ value s', Returns program s value s' ∧ Stuck (next value) s' := by
  change (program >>= next).run.run s = _ at h
  rw [ExceptT.run_bind, StateT.run_bind] at h
  rcases hrun : program.run.run s with _ | ⟨error | value, s'⟩
  · exact .inl hrun
  · rw [hrun] at h
    cases h
  · rw [hrun] at h
    exact .inr ⟨value, s', hrun, h⟩

theorem Stuck.not_returns (h : Stuck program s) : ¬ Returns program s value s' := by
  intro hreturns
  rw [Stuck, hreturns] at h
  cases h

/-- Whenever the program returns, `P` still holds if it did before. -/
def Preserves (program : Program ε σ α) (P : σ → Prop) : Prop :=
  ∀ s value s', P s → Returns program s value s' → P s'

section Preserves

variable {P : σ → Prop}

theorem preserves_pure (value : α) (P : σ → Prop) :
    Preserves (pure value : Program ε σ α) P := by
  intro s value' s' hs hreturns
  rwa [hreturns.pure_inv.2]

theorem preserves_defined (option : Option α) (P : σ → Prop) :
    Preserves (defined option : Program ε σ α) P := by
  cases option with
  | none =>
      intro s value s' _ hreturns
      cases hreturns
  | some value => exact preserves_pure value P

theorem preserves_intExpr (value : ℤ) (P : σ → Prop) :
    Preserves (intExpr value : Program ε σ ℤ) P := by
  intro s value' s' hs hreturns
  rwa [hreturns.intExpr_inv.2.2]

theorem preserves_get (P : σ → Prop) : Preserves (get : Program ε σ σ) P := by
  intro s value s' hs hreturns
  rwa [(hreturns.unique (returns_get s)).2]

theorem Preserves.bind (hprogram : Preserves program P) (hnext : ∀ value, Preserves (next value) P) :
    Preserves (program >>= next) P := by
  intro s result s'' hs hreturns
  obtain ⟨value, s', hfirst, hsecond⟩ := hreturns.bind_inv
  exact hnext value s' result s'' (hprogram s value s' hs hfirst) hsecond

theorem Preserves.ite {c : Prop} [Decidable c] {other : Program ε σ α} (hfirst : Preserves program P)
    (hsecond : Preserves other P) : Preserves (if c then program else other) P := by
  split_ifs
  · exact hfirst
  · exact hsecond

theorem preserves_loop {body : α → Program ε σ (Option α)} (hbody : ∀ x, Preserves (body x) P)
    (fuel : ℕ) (x : α) : Preserves (loop body fuel x) P := by
  induction fuel generalizing x with
  | zero =>
      intro s value s' _ hreturns
      cases hreturns
  | succ fuel ih =>
      refine (hbody x).bind fun next => ?_
      cases next with
      | none => exact preserves_pure x P
      | some y => exact ih y

theorem preserves_forUp {body : ℤ → Program ε σ Unit} (hbody : ∀ i, Preserves (body i) P)
    (start : ℤ) (count : ℕ) : Preserves (forUp body start count) P := by
  induction count generalizing start with
  | zero => exact preserves_pure () P
  | succ count ih =>
      exact (hbody start).bind fun _ => (preserves_intExpr _ P).bind fun next => ih next

end Preserves

/-! ## Exceptions -/

theorem throws_throw (error : ε) (s : σ) : Throws (throw error : Program ε σ α) s error s := rfl

theorem Throws.unique {error error' : ε} (h : Throws program s error s')
    (h' : Throws program s error' s'') : error = error' ∧ s' = s'' := by
  have hsame := Option.some.inj (Eq.trans h.symm h')
  exact ⟨Except.error.inj (congrArg Prod.fst hsame), congrArg Prod.snd hsame⟩

theorem Throws.not_returns {error : ε} (h : Throws program s error s') :
    ¬ Returns program s value s'' := by
  intro hreturns
  cases Eq.trans h.symm hreturns

theorem Throws.throw_inv {error error' : ε}
    (h : Throws (throw error : Program ε σ α) s error' s') : error' = error ∧ s' = s := by
  obtain ⟨rfl, rfl⟩ := h.unique (throws_throw error s)
  exact ⟨rfl, rfl⟩

/-- What throws in a sequence is the first part, or the second where the first has
led. -/
theorem Throws.bind_inv {error : ε} (h : Throws (program >>= next) s error s'') :
    Throws program s error s'' ∨
      ∃ value s', Returns program s value s' ∧ Throws (next value) s' error s'' := by
  change (program >>= next).run.run s = _ at h
  rw [ExceptT.run_bind, StateT.run_bind] at h
  rcases hrun : program.run.run s with _ | ⟨thrown | value, s'⟩
  · rw [hrun] at h
    cases h
  · rw [hrun] at h
    have hthrown : (Except.error thrown : Except ε β) = .error error ∧ s' = s'' :=
      Prod.mk.inj (Option.some.inj h)
    obtain ⟨herror, rfl⟩ := hthrown
    obtain rfl := Except.error.inj herror
    exact .inl hrun
  · rw [hrun] at h
    exact .inr ⟨value, s', hrun, h⟩

/-- No run of the program throws. -/
def NeverThrows (program : Program ε σ α) : Prop := ∀ s error s', ¬ Throws program s error s'

section NeverThrows

theorem neverThrows_pure (value : α) : NeverThrows (pure value : Program ε σ α) := by
  intro s error s' hthrows
  cases hthrows

theorem neverThrows_undefined : NeverThrows (undefined : Program ε σ α) := by
  intro s error s' hthrows
  cases hthrows

theorem neverThrows_defined (option : Option α) :
    NeverThrows (defined option : Program ε σ α) := by
  cases option with
  | none => exact neverThrows_undefined
  | some value => exact neverThrows_pure value

theorem neverThrows_get : NeverThrows (get : Program ε σ σ) := by
  intro s error s' hthrows
  cases hthrows

theorem neverThrows_set (t : σ) : NeverThrows (set t : Program ε σ PUnit) := by
  intro s error s' hthrows
  cases hthrows

theorem neverThrows_modify (f : σ → σ) : NeverThrows (modify f : Program ε σ PUnit) := by
  intro s error s' hthrows
  cases hthrows

theorem NeverThrows.bind (hprogram : NeverThrows program)
    (hnext : ∀ value, NeverThrows (next value)) : NeverThrows (program >>= next) := by
  intro s error s'' hthrows
  rcases hthrows.bind_inv with hfirst | ⟨value, s', -, hsecond⟩
  · exact hprogram s error s'' hfirst
  · exact hnext value s' error s'' hsecond

theorem NeverThrows.ite {c : Prop} [Decidable c] {other : Program ε σ α}
    (hfirst : NeverThrows program) (hsecond : NeverThrows other) :
    NeverThrows (if c then program else other) := by
  split_ifs
  · exact hfirst
  · exact hsecond

theorem neverThrows_intExpr (value : ℤ) : NeverThrows (intExpr value : Program ε σ ℤ) :=
  .ite (neverThrows_pure value) neverThrows_undefined

theorem neverThrows_forUp {body : ℤ → Program ε σ Unit} (hbody : ∀ i, NeverThrows (body i))
    (start : ℤ) (count : ℕ) : NeverThrows (forUp body start count) := by
  induction count generalizing start with
  | zero => exact neverThrows_pure ()
  | succ count ih => exact (hbody start).bind fun _ => (neverThrows_intExpr _).bind ih

theorem neverThrows_forDown {body : ℤ → Program ε σ Unit} (hbody : ∀ i, NeverThrows (body i))
    (start : ℤ) (count : ℕ) : NeverThrows (forDown body start count) := by
  induction count generalizing start with
  | zero => exact neverThrows_pure ()
  | succ count ih => exact (hbody start).bind fun _ => (neverThrows_intExpr _).bind ih

theorem neverThrows_forEach {body : ℕ → Program ε σ Unit} (hbody : ∀ i, NeverThrows (body i))
    (start count : ℕ) : NeverThrows (forEach body start count) := by
  induction count generalizing start with
  | zero => exact neverThrows_pure ()
  | succ count ih => exact (hbody start).bind fun _ => ih (start + 1)

theorem neverThrows_forEachDown {body : ℕ → Program ε σ Unit} (hbody : ∀ i, NeverThrows (body i))
    (start count : ℕ) : NeverThrows (forEachDown body start count) := by
  induction count with
  | zero => exact neverThrows_pure ()
  | succ count ih => exact (hbody (start + count)).bind fun _ => ih

/-- A sequence whose first part never throws. -/
theorem Throws.of_bind {error : ε} (h : Throws (program >>= next) s error s'')
    (hprogram : NeverThrows program) :
    ∃ value s', Returns program s value s' ∧ Throws (next value) s' error s'' :=
  h.bind_inv.resolve_left (hprogram s error s'')

/-- A sequence whose second part never throws. -/
theorem Throws.first {error : ε} (h : Throws (program >>= next) s error s'')
    (hnext : ∀ value, NeverThrows (next value)) : Throws program s error s'' := by
  rcases h.bind_inv with hfirst | ⟨value, s', -, hsecond⟩
  · exact hfirst
  · exact absurd hsecond (hnext value s' error s'')

end NeverThrows

section Loop

variable {body : α → Program ε σ (Option α)} {fuel : ℕ} {x y z : α}

theorem Returns.loop_exit (hbody : Returns (body x) s none s') :
    Returns (loop body (fuel + 1) x) s x s' :=
  hbody.bind (returns_pure x s')

theorem Returns.loop_next (hbody : Returns (body x) s (some y) s')
    (hrest : Returns (loop body fuel y) s' z s'') : Returns (loop body (fuel + 1) x) s z s'' :=
  hbody.bind hrest

theorem Returns.loop_inv (h : Returns (loop body fuel x) s z s') :
    ∃ fuel' next s₁, fuel = fuel' + 1 ∧ Returns (body x) s next s₁ ∧
      match next with
      | none => z = x ∧ s' = s₁
      | some y => Returns (loop body fuel' y) s₁ z s' := by
  cases fuel with
  | zero => cases h
  | succ fuel =>
      obtain ⟨next, s₁, hbody, hrest⟩ := h.bind_inv
      refine ⟨fuel, next, s₁, rfl, hbody, ?_⟩
      cases next with
      | none => exact hrest.pure_inv
      | some y => exact hrest

/-- A loop with an invariant that says how many turns are left. -/
theorem exists_loop {P : ℕ → α → σ → Prop} {Q : α → σ → Prop}
    (hnext : ∀ k x s, P (k + 1) x s → ∃ y s', Returns (body x) s (some y) s' ∧ P k y s')
    (hexit : ∀ x s, P 0 x s → ∃ s', Returns (body x) s none s' ∧ Q x s') {k : ℕ}
    (hfuel : k < fuel) (hstart : P k x s) :
    ∃ z s', Returns (loop body fuel x) s z s' ∧ Q z s' := by
  obtain ⟨fuel, rfl⟩ : ∃ rest, fuel = rest + 1 := ⟨fuel - 1, by omega⟩
  induction k generalizing fuel x s with
  | zero =>
      obtain ⟨s', hbody, hpost⟩ := hexit x s hstart
      exact ⟨x, s', hbody.loop_exit, hpost⟩
  | succ k ih =>
      obtain ⟨y, s', hbody, hrest⟩ := hnext k x s hstart
      obtain ⟨fuel, rfl⟩ : ∃ rest, fuel = rest + 1 := ⟨fuel - 1, by omega⟩
      obtain ⟨z, s'', hloop, hpost⟩ := ih hrest fuel (by omega)
      exact ⟨z, s'', hbody.loop_next hloop, hpost⟩

/-- A loop with an invariant and a measure that every turn lowers. -/
theorem exists_loop_of_lt {P Q : α → σ → Prop} (measure : α → σ → ℕ)
    (hturn : ∀ x s, P x s → (∃ s', Returns (body x) s none s' ∧ Q x s') ∨
      ∃ y s', Returns (body x) s (some y) s' ∧ P y s' ∧ measure y s' < measure x s)
    (hfuel : measure x s < fuel) (hstart : P x s) :
    ∃ z s', Returns (loop body fuel x) s z s' ∧ Q z s' := by
  induction fuel generalizing x s with
  | zero => exact absurd hfuel (Nat.not_lt_zero _)
  | succ fuel ih =>
      rcases hturn x s hstart with ⟨s', hbody, hpost⟩ | ⟨y, s', hbody, hinv, hlt⟩
      · exact ⟨x, s', hbody.loop_exit, hpost⟩
      · obtain ⟨z, s'', hloop, hpost⟩ := ih (hlt.trans_le (Nat.le_of_lt_succ hfuel)) hinv
        exact ⟨z, s'', hbody.loop_next hloop, hpost⟩

/-- What the turns of a loop keep holds when it has returned. -/
theorem Returns.loop_invariant {P : α → σ → Prop} {Q : σ → Prop}
    (hexit : ∀ x s s', P x s → Returns (body x) s none s' → Q s')
    (hturn : ∀ x s y s', P x s → Returns (body x) s (some y) s' → P y s')
    (h : Returns (loop body fuel x) s z s') (hstart : P x s) : Q s' := by
  induction fuel generalizing x s with
  | zero => cases h
  | succ fuel ih =>
      obtain ⟨fuel', next, s₁, hfuel, hbody, hrest⟩ := h.loop_inv
      obtain rfl : fuel = fuel' := by omega
      cases next with
      | none =>
          obtain ⟨-, rfl⟩ := hrest
          exact hexit x s s' hstart hbody
      | some y => exact ih hrest (hturn x s y s₁ hstart hbody)

/-- A loop whose turns all go on does not return. -/
theorem not_returns_loop {P : α → σ → Prop}
    (hturn : ∀ x s, P x s → ∃ y s', Returns (body x) s (some y) s' ∧ P y s')
    (hstart : P x s) : ¬ Returns (loop body fuel x) s z s' := by
  induction fuel generalizing x s with
  | zero => exact fun hloop => nomatch hloop
  | succ fuel ih =>
      intro hloop
      obtain ⟨y, s₁, hbody, hinv⟩ := hturn x s hstart
      obtain ⟨fuel', next, s₂, hfuel, hbody', hrest⟩ := hloop.loop_inv
      obtain rfl : fuel = fuel' := by omega
      obtain ⟨rfl, rfl⟩ := hbody.unique hbody'
      exact ih hinv hrest

theorem Returns.loop_stuck (hbody : Returns (body x) s (some y) s')
    (hrest : Stuck (loop body fuel y) s') : Stuck (loop body (fuel + 1) x) s :=
  hbody.bind_stuck hrest

theorem Stuck.loop (hbody : Stuck (body x) s) : Stuck (Program.loop body (fuel + 1) x) s :=
  Stuck.bind hbody

end Loop

/-- A counted loop, with the states it passes through. -/
theorem returns_forUp {body : ℤ → Program ε σ Unit} {start : ℤ} {count : ℕ} (states : ℕ → σ)
    (hlow : 0 ≤ start) (hhigh : start + count < 2 ^ 31)
    (hbody : ∀ k < count, Returns (body (start + k)) (states k) () (states (k + 1))) :
    Returns (forUp body start count) (states 0) () (states count) := by
  induction count generalizing start states with
  | zero => exact returns_pure () _
  | succ count ih =>
      have hhead := hbody 0 (by omega)
      rw [Nat.cast_zero, add_zero] at hhead
      refine hhead.bind ((returns_intExpr ⟨by omega, by push_cast at hhigh; omega⟩ _).bind ?_)
      refine ih (fun k => states (k + 1)) (by omega) (by push_cast at hhigh ⊢; omega) ?_
      intro k hk
      have hstep := hbody (k + 1) (by omega)
      rwa [Nat.cast_add, Nat.cast_one, add_comm (k : ℤ) 1, ← add_assoc] at hstep

/-- A counted loop with an invariant. -/
theorem exists_forUp {body : ℤ → Program ε σ Unit} {start : ℤ} {count : ℕ} {P : ℕ → σ → Prop}
    (hlow : 0 ≤ start) (hhigh : start + count < 2 ^ 31)
    (hbody : ∀ k < count, ∀ s, P k s →
      ∃ s', Returns (body (start + k)) s () s' ∧ P (k + 1) s') (hstart : P 0 s) :
    ∃ s', Returns (forUp body start count) s () s' ∧ P count s' := by
  induction count generalizing start s P with
  | zero => exact ⟨s, returns_pure () s, hstart⟩
  | succ count ih =>
      obtain ⟨s', hhead, hrest⟩ := hbody 0 (by omega) s hstart
      rw [Nat.cast_zero, add_zero] at hhead
      push_cast at hhigh
      obtain ⟨s'', hloop, hpost⟩ := ih (P := fun k => P (k + 1)) (show 0 ≤ start + 1 by omega)
        (by omega) (fun k hk s hP => by
          have hturn := hbody (k + 1) (by omega) s hP
          rwa [Nat.cast_add, Nat.cast_one, add_comm (k : ℤ) 1, ← add_assoc] at hturn) hrest
      exact ⟨s'', hhead.bind ((returns_intExpr ⟨by omega, by omega⟩ _).bind hloop), hpost⟩

/-- Every turn of a counted loop that returned has returned, and the loop variable
has come to its last value. -/
theorem Returns.forUp_inv {body : ℤ → Program ε σ Unit} {start : ℤ} {count : ℕ} {u : Unit}
    (h : Returns (forUp body start (count + 1)) s u s') :
    FitsInt (start + (count + 1 : ℕ)) ∧ ∃ t t', Returns (body (start + count)) t () t' := by
  induction count generalizing start s with
  | zero =>
      obtain ⟨_, t, hbody, hrest⟩ := h.bind_inv
      obtain ⟨next, t', hnext, -⟩ := hrest.bind_inv
      refine ⟨by simpa using hnext.intExpr_inv.1, s, t, ?_⟩
      rwa [Nat.cast_zero, add_zero]
  | succ count ih =>
      obtain ⟨_, t, -, hrest⟩ := h.bind_inv
      obtain ⟨next, t', hnext, hloop⟩ := hrest.bind_inv
      obtain ⟨-, rfl, -⟩ := hnext.intExpr_inv
      obtain ⟨hfits, hlast⟩ := ih hloop
      have hshift : ∀ k : ℕ, start + 1 + (k : ℤ) = start + ((k + 1 : ℕ) : ℤ) := fun k => by
        push_cast
        ring
      rw [hshift] at hfits hlast
      exact ⟨hfits, hlast⟩

theorem returns_forDown {body : ℤ → Program ε σ Unit} {start : ℤ} {count : ℕ} (states : ℕ → σ)
    (hlow : 0 ≤ start - count) (hhigh : start < 2 ^ 31)
    (hbody : ∀ k < count, Returns (body (start - k)) (states k) () (states (k + 1))) :
    Returns (forDown body start count) (states 0) () (states count) := by
  induction count generalizing start states with
  | zero => exact returns_pure () _
  | succ count ih =>
      have hhead := hbody 0 (by omega)
      rw [Nat.cast_zero, sub_zero] at hhead
      push_cast at hlow
      refine hhead.bind ((returns_intExpr ⟨by omega, by omega⟩ _).bind ?_)
      refine ih (fun k => states (k + 1)) (by omega) (by omega) ?_
      intro k hk
      have hstep := hbody (k + 1) (by omega)
      rwa [Nat.cast_add, Nat.cast_one, add_comm (k : ℤ) 1, ← sub_sub] at hstep

/-- A visit of one place after another, with the states it passes through. -/
theorem returns_forEach {body : ℕ → Program ε σ Unit} {start count : ℕ} (states : ℕ → σ)
    (hbody : ∀ k < count, Returns (body (start + k)) (states k) () (states (k + 1))) :
    Returns (forEach body start count) (states 0) () (states count) := by
  induction count generalizing start states with
  | zero => exact returns_pure () _
  | succ count ih =>
      refine (hbody 0 (Nat.succ_pos count)).bind (ih (fun k => states (k + 1)) fun k hk => ?_)
      have hstep := hbody (k + 1) (Nat.succ_lt_succ hk)
      rwa [Nat.add_comm k 1, ← Nat.add_assoc, Nat.add_comm 1 k] at hstep

theorem returns_forEachDown {body : ℕ → Program ε σ Unit} {start count : ℕ} (states : ℕ → σ)
    (hbody : ∀ k < count, Returns (body (start + k)) (states (k + 1)) () (states k)) :
    Returns (forEachDown body start count) (states count) () (states 0) := by
  induction count with
  | zero => exact returns_pure () _
  | succ count ih =>
      exact (hbody count (Nat.lt_succ_self count)).bind
        (ih fun k hk => hbody k (Nat.lt_succ_of_lt hk))

/-! ## Programs with the same outcome -/

/-- What the two programs do from `s` on is the same. -/
def SameRun (program other : Program ε σ α) (s : σ) : Prop := program.run.run s = other.run.run s

section SameRun

variable {other : Program ε σ α} {next' : α → Program ε σ β}

theorem SameRun.refl (program : Program ε σ α) (s : σ) : SameRun program program s := rfl

theorem SameRun.symm (h : SameRun program other s) : SameRun other program s := Eq.symm h

theorem SameRun.trans {third : Program ε σ α} (h : SameRun program other s) (h' : SameRun other third s) :
    SameRun program third s := Eq.trans h h'

theorem Returns.sameRun (h : Returns program s value s') (h' : Returns other s value s') :
    SameRun program other s := h.trans h'.symm

theorem SameRun.returns (hsame : SameRun program other s) (h : Returns program s value s') :
    Returns other s value s' := Eq.trans hsame.symm h

theorem Stuck.sameRun (h : Stuck program s) (h' : Stuck other s) : SameRun program other s :=
  h.trans h'.symm

theorem Stuck.not_sameRun (h : Stuck program s) (h' : Returns other s value s') :
    ¬ SameRun program other s :=
  fun hsame => h.not_returns (Eq.trans hsame h')

/-- The continuations have to agree only where the first parts have led. -/
theorem SameRun.bind (hprogram : SameRun program other s)
    (hnext : ∀ value s', Returns program s value s' → SameRun (next value) (next' value) s') :
    SameRun (program >>= next) (other >>= next') s := by
  rw [SameRun, ExceptT.run_bind, ExceptT.run_bind, StateT.run_bind, StateT.run_bind, ← hprogram]
  cases hrun : program.run.run s with
  | none => rfl
  | some outcome =>
      obtain ⟨result, s'⟩ := outcome
      cases result with
      | error error => rfl
      | ok value => exact hnext value s' hrun

/-- A common first part that returns makes no difference. -/
theorem Returns.sameRun_bind (hprogram : Returns program s value s') :
    SameRun (program >>= next) (program >>= next') s ↔ SameRun (next value) (next' value) s' := by
  rw [SameRun, ExceptT.run_bind, ExceptT.run_bind, StateT.run_bind, StateT.run_bind, hprogram]
  rfl

/-- A first part that changes nothing can be left out. -/
theorem Returns.sameRun_next (hprogram : Returns program s value s) :
    SameRun (program >>= next) (next value) s := by
  rw [SameRun, ExceptT.run_bind, StateT.run_bind, hprogram]
  rfl

/-- Where the common first part throws, what follows makes no difference. -/
theorem Throws.sameRun_bind {error : ε} (hprogram : Throws program s error s') :
    SameRun (program >>= next) (program >>= next') s :=
  (Throws.bind hprogram).trans (Throws.bind hprogram).symm

/-- Loops whose bodies agree wherever `P` holds, which every turn keeps. -/
theorem sameRun_forUp {P : σ → Prop} {body body' : ℤ → Program ε σ Unit}
    (hbody : ∀ i s, P s → SameRun (body i) (body' i) s) (hkeeps : ∀ i, Preserves (body i) P)
    (start : ℤ) (count : ℕ) (hs : P s) : SameRun (forUp body start count) (forUp body' start count) s := by
  induction count generalizing start s with
  | zero => rfl
  | succ count ih =>
      refine (hbody start s hs).bind fun _ s₁ hturn => ?_
      refine (SameRun.refl _ _).bind fun next s₂ hnext => ?_
      obtain ⟨-, -, rfl⟩ := hnext.intExpr_inv
      exact ih next (hkeeps start s _ _ hs hturn)

end SameRun

end Program

end CppProjects
