import CppProjects.ConnectPool.Lending

/-!
# What the recycler deletes

A connection is pushed at the moment it becomes idle, so the queue is ordered by those
moments and a pass may stop at the first young connection.  A pass goes wrong only in how it
counts: the queue may be empty below a negative minimum, and its length may not be an `int`.
-/

namespace CppProjects

namespace ConnectPool

open CInt

theorem toInt_natCast_le (n : ℕ) : toInt n ≤ n := by
  obtain ⟨⟨hlow, hhigh⟩, turns, hturns⟩ := toInt_spec n
  omega

namespace State

variable {s s' : State} {conn : Connection}

/-- The queue runs from the connection that has been idle for longest to the one that
became idle last. -/
structure Ordered (s : State) : Prop where
  pairwise : s.mConnectQ.Pairwise fun earlier later => s.mAlivetime earlier ≤ s.mAlivetime later
  past : ∀ conn ∈ s.mConnectQ, s.mAlivetime conn ≤ s.clock

/-- What a pass is for: it deletes old connections from the front, keeps `m_minSize`, and
leaves no old connection above that number. -/
structure Recycled (s s' : State) : Prop where
  defined : s'.undefined = false
  complete : (s'.mConnectQ.length : ℤ) ≤ s.mMinSize ∨
    ∀ conn ∈ s'.mConnectQ, s'.getAliveTime conn < s.mMaxIdTime
  kept : min (s.mConnectQ.length : ℤ) s.mMinSize ≤ s'.mConnectQ.length
  deleted : ∃ gone, s.mConnectQ = gone ++ s'.mConnectQ ∧ s'.deleted = s.deleted ++ gone ∧
    ∀ conn ∈ gone, ∃ moment ≤ s'.clock,
      s.mMaxIdTime ≤ (moment - s.mAlivetime conn).tdiv 1000000

/-- The front connection goes. -/
def deleteFront (s : State) (elapsed : ℕ) (conn : Connection) (rest : List Connection) : State :=
  { s.now elapsed with mConnectQ := rest, deleted := s.deleted ++ [conn] }

/-- The recycler comes, past connections that are old enough to go, to the front of an empty
queue, or to a length which is no `int` and looks small enough while the front is old. -/
inductive Miscounts (elapsed : ℕ → ℕ) : ℕ → State → Prop
  | empty {turns : ℕ} {s : State} (hqueue : s.mConnectQ = []) (hmin : s.mMinSize < 0) :
      Miscounts elapsed (turns + 1) s
  | wraps {turns : ℕ} {s : State} {conn : Connection} {rest : List Connection}
      (hqueue : s.mConnectQ = conn :: rest) (hsize : s.size ≤ s.mMinSize)
      (hmany : s.mMinSize < s.mConnectQ.length) (hold : s.mMaxIdTime ≤ s.getAliveTime conn) :
      Miscounts elapsed (turns + 1) s
  | delete {turns : ℕ} {s : State} {conn : Connection} {rest : List Connection}
      (hqueue : s.mConnectQ = conn :: rest) (hsize : s.mMinSize < s.size)
      (hold : s.mMaxIdTime ≤ (s.now (elapsed turns)).getAliveTime conn)
      (hrest : Miscounts elapsed turns (s.deleteFront (elapsed turns) conn rest)) :
      Miscounts elapsed (turns + 1) s

/-- A pass of the recycler that miscounts. -/
def RecyclesWrong (s : State) (a : Action) : Prop :=
  ∃ elapsed, a = .recycleConnection elapsed ∧ s.Miscounts elapsed (s.mConnectQ.length + 1)

theorem Ordered.deleteFront (hordered : s.Ordered) {rest : List Connection}
    (hqueue : s.mConnectQ = conn :: rest) (elapsed : ℕ) :
    (s.deleteFront elapsed conn rest).Ordered := by
  obtain ⟨hpairwise, hpast⟩ := hordered
  rw [hqueue] at hpairwise hpast
  refine ⟨(List.pairwise_cons.mp hpairwise).2, fun other hother => ?_⟩
  have hle := hpast other (List.mem_cons_of_mem _ hother)
  change s.mAlivetime other ≤ s.clock + elapsed
  omega

/-- Who became idle later has been idle for less. -/
theorem getAliveTime_le {other : Connection} (hle : s.mAlivetime conn ≤ s.mAlivetime other)
    (hpast : s.mAlivetime other ≤ s.clock) : s.getAliveTime other ≤ s.getAliveTime conn := by
  rw [getAliveTime, getAliveTime, Int.tdiv_eq_ediv_of_nonneg (by omega),
    Int.tdiv_eq_ediv_of_nonneg (by omega)]
  exact Int.ediv_le_ediv (by decide) (by omega)

/-- With a young front, every connection is young. -/
theorem Ordered.young (hordered : s.Ordered) {rest : List Connection}
    (hqueue : s.mConnectQ = conn :: rest) (hyoung : s.getAliveTime conn < s.mMaxIdTime) :
    ∀ other ∈ s.mConnectQ, s.getAliveTime other < s.mMaxIdTime := by
  intro other hother
  have hpast := hordered.past other hother
  have hpairwise := hordered.pairwise
  rw [hqueue] at hother hpairwise
  rcases List.mem_cons.mp hother with rfl | hrest
  · exact hyoung
  · exact (getAliveTime_le ((List.pairwise_cons.mp hpairwise).1 other hrest) hpast).trans_lt hyoung

theorem Ordered.now (hordered : s.Ordered) (elapsed : ℕ) : (s.now elapsed).Ordered := by
  refine ⟨hordered.pairwise, fun conn hconn => ?_⟩
  have hle := hordered.past conn hconn
  change s.mAlivetime conn ≤ s.clock + elapsed
  omega

/-- The clock goes on in a pass, and the times of the connections stay. -/
theorem recycleLoop_clock (elapsed : ℕ → ℕ) (turns : ℕ) (s : State) :
    s.clock ≤ (s.recycleLoop elapsed turns).clock ∧
      (s.recycleLoop elapsed turns).mAlivetime = s.mAlivetime := by
  induction turns generalizing s with
  | zero => exact ⟨le_refl _, rfl⟩
  | succ turns ih =>
      rw [recycleLoop]
      split_ifs
      · split
        · exact ⟨le_refl _, rfl⟩
        next conn rest hqueue =>
          have hclock : s.clock ≤ (s.now (elapsed turns)).clock := by
            change s.clock ≤ s.clock + _
            omega
          dsimp only
          split_ifs
          · obtain ⟨hlater, hsame⟩ := ih (s.deleteFront (elapsed turns) conn rest)
            exact ⟨hclock.trans hlater, hsame⟩
          · exact ⟨hclock, rfl⟩
      · exact ⟨le_refl _, rfl⟩

theorem Ordered.recycleLoop (hordered : s.Ordered) (elapsed : ℕ → ℕ) (turns : ℕ) :
    (s.recycleLoop elapsed turns).Ordered := by
  induction turns generalizing s with
  | zero => exact hordered
  | succ turns ih =>
      rw [State.recycleLoop]
      split_ifs
      · split
        · exact ⟨hordered.pairwise, hordered.past⟩
        next conn rest hqueue =>
          dsimp only
          split_ifs
          · exact ih (hordered.deleteFront hqueue (elapsed turns))
          · exact hordered.now (elapsed turns)
      · exact hordered

/-- However it counts, a pass deletes from the front what is old enough. -/
theorem recycleLoop_deleted (elapsed : ℕ → ℕ) (turns : ℕ) (s : State) :
    ∃ gone, s.mConnectQ = gone ++ (s.recycleLoop elapsed turns).mConnectQ ∧
      (s.recycleLoop elapsed turns).deleted = s.deleted ++ gone ∧
      ∀ conn ∈ gone, ∃ moment ≤ (s.recycleLoop elapsed turns).clock,
        s.mMaxIdTime ≤ (moment - s.mAlivetime conn).tdiv 1000000 := by
  have hnone : ∀ deleted : List Connection, deleted = deleted ++ [] :=
    fun deleted => (List.append_nil deleted).symm
  induction turns generalizing s with
  | zero => exact ⟨[], rfl, hnone _, fun _ hmem => nomatch hmem⟩
  | succ turns ih =>
      rw [recycleLoop]
      split_ifs
      · split
        · exact ⟨[], rfl, hnone _, fun _ hmem => nomatch hmem⟩
        next conn rest hqueue =>
          dsimp only
          split_ifs with hold
          · obtain ⟨gone, hrest, hdeleted, hgone⟩ := ih (s.deleteFront (elapsed turns) conn rest)
            have hclock := (recycleLoop_clock elapsed turns
              (s.deleteFront (elapsed turns) conn rest)).1
            refine ⟨conn :: gone, hqueue.trans (congrArg (conn :: ·) hrest), ?_, ?_⟩
            · exact hdeleted.trans (by simp [deleteFront])
            · intro other hother
              rcases List.mem_cons.mp hother with rfl | hother
              · exact ⟨_, hclock, hold⟩
              · exact hgone other hother
          · exact ⟨[], rfl, hnone _, fun _ hmem => nomatch hmem⟩
      · exact ⟨[], rfl, hnone _, fun _ hmem => nomatch hmem⟩

/-- A length is never counted as more than it is. -/
theorem size_le (s : State) : s.size ≤ s.mConnectQ.length := toInt_natCast_le _

/-- However it counts, a pass does not go below `m_minSize`. -/
theorem recycleLoop_kept (elapsed : ℕ → ℕ) (turns : ℕ) (s : State) :
    min (s.mConnectQ.length : ℤ) s.mMinSize ≤ (s.recycleLoop elapsed turns).mConnectQ.length := by
  induction turns generalizing s with
  | zero => exact min_le_left _ _
  | succ turns ih =>
      rw [recycleLoop]
      split_ifs with hmore
      · split
        · exact min_le_left _ _
        next conn rest hqueue =>
          dsimp only
          split_ifs
          · refine le_trans ?_ (ih (s.deleteFront (elapsed turns) conn rest))
            have hlength := s.size_le
            rw [hqueue, List.length_cons] at hlength ⊢
            change min _ s.mMinSize ≤ min (rest.length : ℤ) s.mMinSize
            push_cast at hlength ⊢
            omega
          · exact min_le_left _ _
      · exact min_le_left _ _

theorem miscounts_iff_of_old {elapsed : ℕ → ℕ} {turns : ℕ} {rest : List Connection}
    (hqueue : s.mConnectQ = conn :: rest) (hsize : s.mMinSize < s.size)
    (hold : s.mMaxIdTime ≤ (s.now (elapsed turns)).getAliveTime conn) :
    s.Miscounts elapsed (turns + 1) ↔
      (s.deleteFront (elapsed turns) conn rest).Miscounts elapsed turns := by
  constructor
  · intro hwrong
    cases hwrong with
    | empty hempty _ =>
        rw [hqueue] at hempty
        cases hempty
    | wraps _ hsmall _ _ => exact absurd hsize (not_lt.mpr hsmall)
    | delete hqueue' _ _ hrest =>
        rw [hqueue, List.cons.injEq] at hqueue'
        obtain ⟨rfl, rfl⟩ := hqueue'
        exact hrest
  · exact .delete hqueue hsize hold

/-- A pass is defined and leaves no old connection above the minimum, unless it
miscounts. -/
theorem recycleLoop_complete_iff (hordered : s.Ordered) (hdefined : s.undefined = false)
    (elapsed : ℕ → ℕ) {turns : ℕ} (hturns : s.mConnectQ.length < turns) :
    ((s.recycleLoop elapsed turns).undefined = false ∧
      (((s.recycleLoop elapsed turns).mConnectQ.length : ℤ) ≤ s.mMinSize ∨
        ∀ conn ∈ (s.recycleLoop elapsed turns).mConnectQ,
          (s.recycleLoop elapsed turns).getAliveTime conn < s.mMaxIdTime)) ↔
      ¬ s.Miscounts elapsed turns := by
  induction turns generalizing s with
  | zero => exact absurd hturns (Nat.not_lt_zero _)
  | succ turns ih =>
      rw [State.recycleLoop]
      split_ifs with hmore
      · split
        next hqueue =>
          refine iff_of_false (fun hall => Bool.false_ne_true hall.1.symm) (not_not.mpr ?_)
          refine .empty hqueue ?_
          simpa [size, hqueue, toInt] using hmore
        next conn rest hqueue =>
          dsimp only
          split_ifs with hold
          · rw [miscounts_iff_of_old hqueue hmore hold]
            rw [hqueue, List.length_cons] at hturns
            exact ih (hordered.deleteFront hqueue (elapsed turns)) hdefined
              (Nat.lt_of_succ_lt_succ hturns)
          · refine iff_of_true ⟨hdefined, .inr ?_⟩ fun hwrong => ?_
            · exact (hordered.now (elapsed turns)).young hqueue (not_le.mp hold)
            · cases hwrong with
              | empty hempty _ =>
                  rw [hqueue] at hempty
                  cases hempty
              | wraps _ hsmall _ _ => exact absurd hmore (not_lt.mpr hsmall)
              | delete hqueue' _ hold' _ =>
                  rw [hqueue, List.cons.injEq] at hqueue'
                  obtain ⟨rfl, rfl⟩ := hqueue'
                  exact hold hold'
      · have hsmall : s.size ≤ s.mMinSize := not_lt.mp hmore
        constructor
        · rintro ⟨-, hcomplete⟩ hwrong
          cases hwrong with
          | empty hempty hmin =>
              have hzero : s.size = 0 := by simp [size, hempty, toInt]
              omega
          | wraps hqueue _ hmany hold =>
              rcases hcomplete with hfew | hyoung
              · exact absurd hmany (not_lt.mpr hfew)
              · exact absurd hold (not_le.mpr (hyoung _ (hqueue ▸ List.mem_cons_self)))
          | delete _ hsize _ _ => exact absurd hsize hmore
        · intro hright
          refine ⟨hdefined, ?_⟩
          by_cases hfew : (s.mConnectQ.length : ℤ) ≤ s.mMinSize
          · exact .inl hfew
          · right
            cases hqueue : s.mConnectQ with
            | nil =>
                intro conn hmem
                cases hmem
            | cons conn rest =>
                rw [← hqueue]
                refine hordered.young hqueue (not_le.mp fun hold => hright ?_)
                exact .wraps hqueue hsmall (not_le.mp hfew) hold

/-- A pass recycles as it should exactly when it does not miscount. -/
theorem recycled_iff (hordered : s.Ordered) (hdefined : s.undefined = false)
    (elapsed : ℕ → ℕ) :
    s.Recycled (s.recycleConnection elapsed) ↔
      ¬ s.Miscounts elapsed (s.mConnectQ.length + 1) := by
  rw [recycleConnection, ← recycleLoop_complete_iff hordered hdefined elapsed (Nat.lt_succ_self _)]
  constructor
  · exact fun hrecycled => ⟨hrecycled.defined, hrecycled.complete⟩
  · rintro ⟨hdefined', hcomplete⟩
    exact ⟨hdefined', hcomplete, recycleLoop_kept elapsed _ s, recycleLoop_deleted elapsed _ s⟩

/-- With a minimum that is not negative, an `int` counts the queue rightly. -/
theorem not_miscounts (hmin : 0 ≤ s.mMinSize) (hfits : s.mConnectQ.length ≤ intMax)
    (elapsed : ℕ → ℕ) (turns : ℕ) : ¬ s.Miscounts elapsed turns := by
  induction turns generalizing s with
  | zero => exact fun hwrong => nomatch hwrong
  | succ turns ih =>
      intro hwrong
      cases hwrong with
      | empty _ hnegative => exact absurd hmin (not_le.mpr hnegative)
      | wraps _ hsize hmany _ =>
          rw [intMax] at hfits
          rw [size, toInt_eq_self ⟨by omega, by omega⟩] at hsize
          exact absurd hmany (not_lt.mpr hsize)
      | delete hqueue _ _ hrest =>
          rw [hqueue, List.length_cons] at hfits
          refine ih ?_ ?_ hrest
          · exact hmin
          · exact Nat.le_of_succ_le hfits

/-! ## The order of the queue -/

/-- The connection that becomes idle now joins at the back. -/
theorem Ordered.push (hordered : s.Ordered) (elapsed : ℕ) (hnew : conn ∉ s.mConnectQ) :
    (((s.now elapsed).refreshAliveTime conn).push conn).Ordered := by
  have halive : ∀ other ∈ s.mConnectQ,
      Function.update s.mAlivetime conn (s.clock + elapsed) other = s.mAlivetime other := by
    intro other hother
    have hne : other ≠ conn := fun hsame => hnew (hsame ▸ hother)
    exact Function.update_of_ne hne _ _
  have hlast : Function.update s.mAlivetime conn (s.clock + elapsed) conn = s.clock + elapsed :=
    Function.update_self _ _ _
  have hpast : ∀ other ∈ s.mConnectQ, s.mAlivetime other ≤ s.clock + elapsed := by
    intro other hother
    have hle := hordered.past other hother
    omega
  constructor
  · change (s.mConnectQ ++ [conn]).Pairwise fun earlier later =>
      Function.update s.mAlivetime conn (s.clock + elapsed) earlier ≤
        Function.update s.mAlivetime conn (s.clock + elapsed) later
    refine List.pairwise_append.mpr ⟨?_, List.pairwise_singleton _ _, ?_⟩
    · refine hordered.pairwise.imp_of_mem fun hearlier hlater hle => ?_
      rwa [halive _ hearlier, halive _ hlater]
    · intro earlier hearlier later hlater
      rw [List.mem_singleton.mp hlater, halive earlier hearlier, hlast]
      exact hpast earlier hearlier
  · change ∀ other ∈ s.mConnectQ ++ [conn],
      Function.update s.mAlivetime conn (s.clock + elapsed) other ≤ s.clock + elapsed
    intro other hother
    rcases List.mem_append.mp hother with hold | hnew'
    · rw [halive other hold]
      exact hpast other hold
    · rw [List.mem_singleton.mp hnew', hlast]

theorem Ordered.addConnection (hordered : s.Ordered) (elapsed : ℕ)
    (hnew : s.created ∉ s.mConnectQ) : (s.addConnection elapsed).Ordered := by
  have hordered' : ({ s with created := s.created + 1 } : State).Ordered :=
    ⟨hordered.pairwise, hordered.past⟩
  exact hordered'.push elapsed hnew

theorem ordered_connectPool (config : Config) (clock : ℤ) (clients : ℕ) (elapsed : ℕ → ℕ) :
    (connectPool config clock clients elapsed).Ordered := by
  have hcount : ∀ count : ℕ,
      let s := (List.range count).foldl (fun s i => s.addConnection (elapsed i))
        (empty config clock clients)
      s.Ordered ∧ ∀ conn ∈ s.mConnectQ, conn < s.created := by
    intro count
    induction count with
    | zero => exact ⟨⟨List.Pairwise.nil, fun _ hmem => nomatch hmem⟩, fun _ hmem => nomatch hmem⟩
    | succ count ih =>
        rw [List.range_succ, List.foldl_append, List.foldl_cons, List.foldl_nil]
        obtain ⟨hordered, hbelow⟩ := ih
        refine ⟨hordered.addConnection _ fun hmem => (hbelow _ hmem).false, fun conn hconn => ?_⟩
        rcases List.mem_append.mp hconn with hold | hnew
        · exact (hbelow conn hold).trans (Nat.lt_succ_self _)
        · exact (List.mem_singleton.mp hnew).trans_lt (Nat.lt_succ_self _)
  exact (hcount config.mMinSize.toNat).1

theorem Ordered.tail (hordered : s.Ordered) {rest : List Connection}
    (hqueue : s.mConnectQ = conn :: rest) :
    rest.Pairwise (fun earlier later => s.mAlivetime earlier ≤ s.mAlivetime later) ∧
      ∀ other ∈ rest, s.mAlivetime other ≤ s.clock := by
  obtain ⟨hpairwise, hpast⟩ := hordered
  rw [hqueue] at hpairwise hpast
  exact ⟨(List.pairwise_cons.mp hpairwise).2,
    fun other hother => hpast other (List.mem_cons_of_mem _ hother)⟩

/-- Every step keeps the order: what is pushed was not in the queue. -/
theorem Ordered.step (hordered : s.Ordered) (hexclusive : s.ledger.Exclusive) {a : Action}
    (hstep : s.step a = some s') : s'.Ordered := by
  rw [State.step] at hstep
  split_ifs at hstep
  have hsame := hordered
  obtain ⟨hpairwise, hpast⟩ := hsame
  cases a with
  | produceConnection elapsed =>
      rw [perform] at hstep
      split_ifs at hstep
      obtain rfl := Option.some.inj hstep
      rw [produceConnection]
      split_ifs
      · exact ⟨hpairwise, hpast⟩
      · have hnew : s.created ∉ s.mConnectQ := by
          intro hmem
          have hplace : s.created ∈ s.ledger.places :=
            List.mem_append_left _ (List.mem_append_left _ hmem)
          exact (List.mem_range.mp (hexclusive.mem_iff.mp hplace)).false
        have hadded := hordered.addConnection elapsed hnew
        exact ⟨hadded.pairwise, hadded.past⟩
  | recycleConnection elapsed =>
      rw [perform] at hstep
      obtain rfl := Option.some.inj hstep
      exact hordered.recycleLoop elapsed _
  | call client =>
      rw [perform] at hstep
      split_ifs at hstep
      obtain rfl := Option.some.inj hstep
      exact ⟨hpairwise, hpast⟩
  | getConnection client =>
      rw [perform] at hstep
      split_ifs at hstep
      obtain rfl := Option.some.inj hstep
      rw [getConnection]
      split
      · exact ⟨hpairwise, hpast⟩
      next conn rest hqueue =>
        obtain ⟨hpairwise', hpast'⟩ := hordered.tail hqueue
        exact ⟨hpairwise', hpast'⟩
  | release client conn elapsed =>
      rw [perform] at hstep
      split_ifs at hstep with hlent
      obtain rfl := Option.some.inj hstep
      have hnew : conn ∉ s.mConnectQ := fun hmem =>
        (hexclusive.of_idle hmem).1 (List.mem_map.mpr ⟨(client, conn), hlent, rfl⟩)
      have hordered' : ({ s with lent := s.lent.erase (client, conn) } : State).Ordered :=
        ⟨hpairwise, hpast⟩
      exact hordered'.push elapsed hnew
  | wakeProducer =>
      rw [perform] at hstep
      split_ifs at hstep
      obtain rfl := Option.some.inj hstep
      exact ⟨hpairwise, hpast⟩
  | wakeClient client =>
      rw [perform] at hstep
      split_ifs at hstep
      obtain rfl := Option.some.inj hstep
      exact ⟨hpairwise, hpast⟩

end State

/-! ## Whole runs -/

variable {config : Config} {s : State}

theorem ordered_of_reachable (hreach : (system config).Reachable s) : s.Ordered := by
  have hboth : (system config).Reachable s ∧ s.Ordered := by
    induction hreach with
    | initial h =>
        refine ⟨.initial h, ?_⟩
        obtain ⟨clock, clients, elapsed, rfl⟩ := h
        exact State.ordered_connectPool config clock clients elapsed
    | step hreach hstep ih =>
        exact ⟨hreach.step hstep, ih.2.step (exclusive_of_reachable hreach).1 hstep⟩
  exact hboth.2

/-- In every run the queue is ordered by the moments at which its connections became idle,
and all passes recycle as they should exactly when none of them miscounts. -/
theorem recycles_iff {visited : List (State × Action)} (hrun : (system config).Run visited s) :
    ((∀ taken ∈ visited, taken.1.Ordered) ∧ s.Ordered) ∧
      ((∀ before elapsed, (before, Action.recycleConnection elapsed) ∈ visited →
          before.Recycled (before.recycleConnection elapsed)) ↔
        ∀ taken ∈ visited, ¬ taken.1.RecyclesWrong taken.2) := by
  have hordered : ∀ taken ∈ visited, taken.1.Ordered := fun taken hmem =>
    ordered_of_reachable (hrun.reachable_of_mem hmem)
  have hdefined : ∀ taken ∈ visited, taken.1.undefined = false := by
    intro taken hmem
    obtain ⟨s', hstep⟩ := hrun.enabled taken hmem
    simp only [system, State.step] at hstep
    split_ifs at hstep with hundefined
    simpa using hundefined
  refine ⟨⟨hordered, ordered_of_reachable hrun.reachable⟩, ?_, ?_⟩
  · rintro hall taken hmem ⟨elapsed, haction, hwrong⟩
    have hmem' : (taken.1, Action.recycleConnection elapsed) ∈ visited := by
      rw [← haction]
      exact hmem
    exact (State.recycled_iff (hordered taken hmem) (hdefined taken hmem) elapsed).mp
      (hall taken.1 elapsed hmem') hwrong
  · intro hnone before elapsed hmem
    refine (State.recycled_iff (hordered _ hmem) (hdefined _ hmem) elapsed).mpr fun hwrong => ?_
    exact hnone _ hmem ⟨elapsed, rfl, hwrong⟩

/-- The only connection is kept. -/
theorem recycles_iff_kept : ∃ visited s, (system ⟨1, 4, 5000, 1000⟩).Run visited s ∧
    visited.length = 1 ∧ s.Ordered ∧
    ∀ before elapsed, (before, Action.recycleConnection elapsed) ∈ visited →
      before.Recycled (before.recycleConnection elapsed) := by
  let start := State.connectPool ⟨1, 4, 5000, 1000⟩ 0 1 fun _ => 1
  have hstart : (system ⟨1, 4, 5000, 1000⟩).Run [] start := .initial ⟨0, 1, fun _ => 1, rfl⟩
  have hrun := hstart.step (a := .recycleConnection fun _ => 1) rfl
  refine ⟨_, _, hrun, rfl, (recycles_iff hrun).1.2, (recycles_iff hrun).2.mpr ?_⟩
  rintro taken hmem ⟨elapsed, -, hwrong⟩
  obtain rfl := List.mem_singleton.mp hmem
  exact State.not_miscounts (by decide) (by decide) elapsed _ hwrong

/-- With `minSize` set to -1 the first pass asks an empty queue for its front. -/
theorem recycles_empty : ∃ s s', (system ⟨-1, 4, 5000, 1000⟩).initial s ∧
    (system ⟨-1, 4, 5000, 1000⟩).step s (.recycleConnection fun _ => 0) = some s' ∧
    s.mConnectQ = [] ∧ s'.undefined = true :=
  ⟨State.connectPool ⟨-1, 4, 5000, 1000⟩ 0 1 fun _ => 0, _, ⟨0, 1, fun _ => 0, rfl⟩, rfl, rfl, rfl⟩

end ConnectPool

end CppProjects
