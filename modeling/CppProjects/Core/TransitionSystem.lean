import Mathlib.Tactic

/-!
# Labelled transition systems

A system has initial states and one partial step for each label.  The rules
below carry a step lemma over to every reachable state, and to every state and
step of a run.
-/

namespace CppProjects

/-- Initial states, and what a label does where it is enabled. -/
structure TransitionSystem (σ α : Type*) where
  initial : σ → Prop
  step : σ → α → Option σ

namespace TransitionSystem

variable {σ α : Type*} (system : TransitionSystem σ α)

inductive Reachable : σ → Prop
  | initial {s : σ} (hinitial : system.initial s) : Reachable s
  | step {s s' : σ} {a : α} (hreach : Reachable s) (hstep : system.step s a = some s') :
      Reachable s'

/-- A run that is in `s` now, with the states it left and the labels it left
them by. -/
inductive Run : List (σ × α) → σ → Prop
  | initial {s : σ} (hinitial : system.initial s) : Run [] s
  | step {visited : List (σ × α)} {s s' : σ} {a : α} (hrun : Run visited s)
      (hstep : system.step s a = some s') : Run (visited ++ [(s, a)]) s'

/-- What the steps of a run report, in order. -/
def history {β : Type*} (report : σ → α → List β) (visited : List (σ × α)) : List β :=
  visited.flatMap fun taken => report taken.1 taken.2

@[simp] theorem history_nil {β : Type*} (report : σ → α → List β) : history report [] = [] := rfl

@[simp] theorem history_concat {β : Type*} (report : σ → α → List β) (visited : List (σ × α))
    (s : σ) (a : α) : history report (visited ++ [(s, a)]) = history report visited ++ report s a := by
  rw [history, List.flatMap_append, List.flatMap_singleton, history]

/-- The state a list of labels leads to, if each of them is enabled. -/
def execute (s : σ) (labels : List α) : Option σ := labels.foldlM system.step s

variable {system} {P Q : σ → Prop}

theorem execute_cons (s : σ) (a : α) (labels : List α) : system.execute s (a :: labels) =
    (system.step s a).bind fun s' => system.execute s' labels := rfl

theorem execute_singleton (s : σ) (a : α) : system.execute s [a] = system.step s a :=
  Option.bind_fun_some _

/-- What holds at the start and is kept by every step holds of every reachable
state. -/
theorem Reachable.invariant (hinitial : ∀ s, system.initial s → P s)
    (hstep : ∀ s a s', P s → system.step s a = some s' → P s') {s : σ}
    (hreach : system.Reachable s) : P s := by
  induction hreach with
  | initial h => exact hinitial _ h
  | step hreach h ih => exact hstep _ _ _ ih h

theorem Run.reachable {visited : List (σ × α)} {s : σ} (hrun : system.Run visited s) :
    system.Reachable s := by
  induction hrun with
  | initial h => exact .initial h
  | step hrun h ih => exact ih.step h

/-- What holds of the start and an empty history, and is kept by every step with what it
reports, holds of every run. -/
theorem Run.history_invariant {β : Type*} {report : σ → α → List β} {R : List β → σ → Prop}
    (hinitial : ∀ s, system.initial s → R [] s)
    (hstep : ∀ told s a s', R told s → system.step s a = some s' → R (told ++ report s a) s')
    {visited : List (σ × α)} {s : σ} (hrun : system.Run visited s) : R (history report visited) s := by
  induction hrun with
  | initial h => exact hinitial _ h
  | @step visited s s' a _ h ih =>
      rw [history_concat]
      exact hstep _ s a s' ih h

/-- The states that a run has left are reachable. -/
theorem Run.reachable_of_mem {visited : List (σ × α)} {s : σ} (hrun : system.Run visited s)
    {before : σ × α} (hmem : before ∈ visited) : system.Reachable before.1 := by
  induction hrun with
  | initial h => cases hmem
  | @step visited s s' a hrun _ ih =>
      rcases List.mem_append.mp hmem with hearlier | hlast
      · exact ih hearlier
      · obtain rfl : before = (s, a) := by simpa using hlast
        exact hrun.reachable

/-- The labels of a run were enabled. -/
theorem Run.enabled {visited : List (σ × α)} {s : σ} (hrun : system.Run visited s) :
    ∀ taken ∈ visited, ∃ s', system.step taken.1 taken.2 = some s' := by
  induction hrun with
  | initial h => simp
  | @step visited s s' a _ h ih =>
      intro taken hmem
      rcases List.mem_append.mp hmem with hearlier | hlast
      · exact ih taken hearlier
      · obtain rfl : taken = (s, a) := by simpa using hlast
        exact ⟨s', h⟩

/-- What every step that is not in `B` keeps holds in all states of a run
without a step in `B`. -/
theorem Run.forall_of_forall_not {B : σ → α → Prop} (hinitial : ∀ s, system.initial s → Q s)
    (hgood : ∀ s a s', Q s → system.step s a = some s' → ¬ B s a → Q s')
    {visited : List (σ × α)} {s : σ} (hrun : system.Run visited s)
    (hnone : ∀ taken ∈ visited, ¬ B taken.1 taken.2) : (∀ before ∈ visited, Q before.1) ∧ Q s := by
  induction hrun with
  | initial h => exact ⟨by simp, hinitial _ h⟩
  | @step visited s s' a _ h ih =>
      obtain ⟨hbefore, hs⟩ := ih fun taken hmem => hnone taken (by simp [hmem])
      refine ⟨?_, hgood s a s' hs h (hnone (s, a) (by simp))⟩
      intro before hmem
      rcases List.mem_append.mp hmem with hearlier | hlast
      · exact hbefore before hearlier
      · obtain rfl : before = (s, a) := by simpa using hlast
        exact hs

/-- Let `Q` be kept by every step that is not in `B`, let it imply `P`, and let
a step in `B` from `Q` violate `P`.  The runs that stay in `P` are then those
without a step in `B`. -/
theorem Run.forall_iff {B : σ → α → Prop} (himplies : ∀ s, Q s → P s)
    (hinitial : ∀ s, system.initial s → Q s)
    (hgood : ∀ s a s', Q s → system.step s a = some s' → ¬ B s a → Q s')
    (hbad : ∀ s a s', Q s → system.step s a = some s' → B s a → ¬ P s')
    {visited : List (σ × α)} {s : σ} (hrun : system.Run visited s) :
    ((∀ before ∈ visited, P before.1) ∧ P s) ↔ ∀ taken ∈ visited, ¬ B taken.1 taken.2 := by
  constructor
  · intro hall
    induction hrun with
    | initial h => simp
    | @step visited s s' a hrun h ih =>
        have hearlier := ih ⟨fun before hmem => hall.1 before (by simp [hmem]),
          hall.1 (s, a) (by simp)⟩
        intro taken hmem
        rcases List.mem_append.mp hmem with hbefore | hlast
        · exact hearlier taken hbefore
        · obtain rfl : taken = (s, a) := by simpa using hlast
          have hs := (hrun.forall_of_forall_not hinitial hgood hearlier).2
          exact fun hviolates => hbad s a s' hs h hviolates hall.2
  · intro hnone
    obtain ⟨hbefore, hs⟩ := hrun.forall_of_forall_not hinitial hgood hnone
    exact ⟨fun before hmem => himplies _ (hbefore before hmem), himplies _ hs⟩

/-- Labels that are enabled one after another extend a run. -/
theorem Run.execute {visited : List (σ × α)} {s s' : σ} (hrun : system.Run visited s)
    {labels : List α} (hexecute : system.execute s labels = some s') :
    ∃ visited', system.Run visited' s' := by
  induction labels generalizing visited s with
  | nil =>
      obtain rfl : s = s' := by simpa [TransitionSystem.execute] using hexecute
      exact ⟨visited, hrun⟩
  | cons a labels ih =>
      obtain ⟨middle, hmiddle, hrest⟩ := Option.bind_eq_some_iff.mp hexecute
      exact ih (hrun.step hmiddle) hrest

/-! ## What can follow -/

/-- From every state with `P` some labels lead to a state with `Q`. -/
def Leads (system : TransitionSystem σ α) (P Q : σ → Prop) : Prop :=
  ∀ s, P s → ∃ labels s', system.execute s labels = some s' ∧ Q s'

theorem Leads.of_imp (himplies : ∀ s, P s → Q s) : system.Leads P Q :=
  fun s hs => ⟨[], s, rfl, himplies s hs⟩

theorem Leads.of_step (hstep : ∀ s, P s → ∃ a s', system.step s a = some s' ∧ Q s') :
    system.Leads P Q := by
  intro s hs
  obtain ⟨a, s', hs', hQ⟩ := hstep s hs
  refine ⟨[a], s', ?_, hQ⟩
  rw [execute, List.foldlM_cons, hs']
  rfl

theorem Leads.trans {R : σ → Prop} (hfirst : system.Leads P Q) (hsecond : system.Leads Q R) :
    system.Leads P R := by
  intro s hs
  obtain ⟨labels, s', hlabels, hs'⟩ := hfirst s hs
  obtain ⟨labels', s'', hlabels', hs''⟩ := hsecond s' hs'
  refine ⟨labels ++ labels', s'', ?_, hs''⟩
  rw [execute, List.foldlM_append, ← execute, hlabels]
  exact hlabels'

theorem Leads.exists {ι : Sort*} {stage : ι → σ → Prop} (hstage : ∀ x, system.Leads (stage x) Q) :
    system.Leads (fun s => ∃ x, stage x s) Q :=
  fun s ⟨x, hs⟩ => hstage x s hs

theorem Leads.or {R : σ → Prop} (hfirst : system.Leads P R) (hsecond : system.Leads Q R) :
    system.Leads (fun s => P s ∨ Q s) R :=
  fun s hs => hs.elim (hfirst s) (hsecond s)

/-- A loop that counts up to a bound and goes on to `Q` behind it. -/
theorem Leads.loop (stage : ℤ → σ → Prop) (bound : ℤ)
    (hturn : ∀ i, i < bound → system.Leads (stage i) (stage (i + 1)))
    (hdone : ∀ i, ¬ i < bound → system.Leads (stage i) Q) (i : ℤ) : system.Leads (stage i) Q := by
  have hcount : ∀ (n : ℕ) (i : ℤ), bound - i ≤ n → system.Leads (stage i) Q := by
    intro n
    induction n with
    | zero => exact fun i hn => hdone i (by omega)
    | succ n ih =>
        intro i hn
        by_cases hlt : i < bound
        · exact (hturn i hlt).trans (ih (i + 1) (by omega))
        · exact hdone i hlt
  exact hcount (bound - i).toNat i (Int.self_le_toNat _)

/-- Where something is left to do, some steps leave less of it. -/
theorem Leads.of_measure (measure : σ → ℕ)
    (hless : ∀ s, P s → Q s ∨ ∃ labels s', system.execute s labels = some s' ∧ P s' ∧
      measure s' < measure s) : system.Leads P Q := by
  intro s hs
  induction hmeasure : measure s using Nat.strong_induction_on generalizing s with
  | _ n ih =>
      rcases hless s hs with hdone | ⟨first, s₁, h, hs₁, hlt⟩
      · exact ⟨[], s, rfl, hdone⟩
      · obtain ⟨labels, s', hlabels, hs'⟩ := ih _ (hmeasure ▸ hlt) s₁ hs₁ rfl
        refine ⟨first ++ labels, s', ?_, hs'⟩
        rw [execute, List.foldlM_append, ← execute, h]
        exact hlabels

theorem Reachable.execute {s s' : σ} (hreach : system.Reachable s) {labels : List α}
    (hlabels : system.execute s labels = some s') : system.Reachable s' := by
  induction labels generalizing s with
  | nil =>
      obtain rfl : s = s' := by simpa [TransitionSystem.execute] using hlabels
      exact hreach
  | cons a labels ih =>
      obtain ⟨middle, hmiddle, hrest⟩ := Option.bind_eq_some_iff.mp hlabels
      exact ih (hreach.step hmiddle) hrest

/-! ## Coming to rest -/

/-- No label of the kind is enabled. -/
def Rests (system : TransitionSystem σ α) (kind : α → Prop) (s : σ) : Prop :=
  ∀ a, kind a → system.step s a = none

section Rests

variable {kind : α → Prop} (measure : σ → ℕ)

/-- Where each label of a kind lowers a measure, no more of them follow one another than it
says. -/
theorem length_le_of_execute (hkeep : ∀ s a s', P s → system.step s a = some s' → P s')
    (hfalls : ∀ s a s', P s → kind a → system.step s a = some s' → measure s' < measure s)
    {s s' : σ} {labels : List α} (hs : P s) (hkind : ∀ a ∈ labels, kind a)
    (hlabels : system.execute s labels = some s') : labels.length + measure s' ≤ measure s := by
  induction labels generalizing s with
  | nil =>
      obtain rfl : s = s' := by simpa [TransitionSystem.execute] using hlabels
      simp
  | cons a labels ih =>
      obtain ⟨middle, hmiddle, hrest⟩ := Option.bind_eq_some_iff.mp hlabels
      obtain ⟨ha, hkind⟩ := List.forall_mem_cons.mp hkind
      have hlt := hfalls _ _ _ hs ha hmiddle
      have hle := ih (hkeep _ _ _ hs hmiddle) hkind hrest
      rw [List.length_cons]
      omega

/-- Labels of the kind then lead to a state where none of them is enabled. -/
theorem exists_rests (hkeep : ∀ s a s', P s → system.step s a = some s' → P s')
    (hfalls : ∀ s a s', P s → kind a → system.step s a = some s' → measure s' < measure s)
    {s : σ} (hs : P s) :
    ∃ labels s', (∀ a ∈ labels, kind a) ∧ system.execute s labels = some s' ∧
      system.Rests kind s' := by
  induction hmeasure : measure s using Nat.strong_induction_on generalizing s with
  | _ n ih =>
      by_cases hrests : system.Rests kind s
      · exact ⟨[], s, by simp, rfl, hrests⟩
      · simp only [Rests, not_forall, ← ne_eq, Option.ne_none_iff_exists'] at hrests
        obtain ⟨a, ha, s₁, hstep⟩ := hrests
        obtain ⟨labels, s', hkind, hlabels, hs'⟩ :=
          ih _ (hmeasure ▸ hfalls s a s₁ hs ha hstep) (hkeep s a s₁ hs hstep) rfl
        exact ⟨a :: labels, s', List.forall_mem_cons.mpr ⟨ha, hkind⟩,
          by rw [execute_cons, hstep, Option.bind_some, hlabels], hs'⟩

end Rests

/-! ## Runs that stay within a predicate -/

section Restrict

variable (system)

/-- The states that satisfy `R`, and the steps between them. -/
def restrict (R : σ → Prop) [DecidablePred R] : TransitionSystem σ α where
  initial s := system.initial s ∧ R s
  step s a := (system.step s a).filter fun s' => R s'

variable {system} {R : σ → Prop} [DecidablePred R]

theorem step_restrict {s s' : σ} {a : α} :
    (system.restrict R).step s a = some s' ↔ system.step s a = some s' ∧ R s' := by
  rw [restrict, Option.filter_eq_some_iff, decide_eq_true_eq]

/-- A run of the restricted system is a run whose states satisfy `R`. -/
theorem run_restrict {visited : List (σ × α)} {s : σ} :
    (system.restrict R).Run visited s ↔
      system.Run visited s ∧ (∀ before ∈ visited, R before.1) ∧ R s := by
  constructor
  · intro hrun
    induction hrun with
    | initial h => exact ⟨.initial h.1, by simp, h.2⟩
    | @step visited s s' a _ h ih =>
        obtain ⟨hrun, hbefore, hs⟩ := ih
        obtain ⟨hstep, hs'⟩ := step_restrict.mp h
        refine ⟨hrun.step hstep, ?_, hs'⟩
        intro before hmem
        rcases List.mem_append.mp hmem with hearlier | hlast
        · exact hbefore before hearlier
        · obtain rfl : before = (s, a) := by simpa using hlast
          exact hs
  · rintro ⟨hrun, hbefore, hs⟩
    induction hrun with
    | initial h => exact .initial ⟨h, hs⟩
    | @step visited s s' a _ h ih =>
        have hearlier := ih (fun before hmem => hbefore before (by simp [hmem]))
          (hbefore (s, a) (by simp))
        exact hearlier.step (step_restrict.mpr ⟨h, hs⟩)

end Restrict

end TransitionSystem

end CppProjects
