import CppProjects.ConnectPool.ConnectPool
import CppProjects.Core.ListUpdate

/-!
# Where each connection is

A ledger says which connections are idle, lent and deleted.  Every step of the pool
makes one entry in it, and no entry puts a connection in two places.
-/

namespace CppProjects

namespace ConnectPool

open CInt

/-- The places of the connections created so far. -/
structure Ledger where
  idle : List Connection
  lent : List (ℕ × Connection)
  deleted : List Connection
  created : ℕ

namespace Ledger

/-- What a step may enter. -/
inductive Step : Ledger → Ledger → Prop
  | same {ledger : Ledger} : Step ledger ledger
  | add {ledger : Ledger} :
      Step ledger { ledger with
        idle := ledger.idle ++ [ledger.created]
        created := ledger.created + 1 }
  | lend {ledger : Ledger} (client : ℕ) {conn : Connection} {rest : List Connection}
      (hidle : ledger.idle = conn :: rest) :
      Step ledger { ledger with idle := rest, lent := ledger.lent ++ [(client, conn)] }
  | giveBack {ledger : Ledger} {client : ℕ} {conn : Connection}
      (hlent : (client, conn) ∈ ledger.lent) :
      Step ledger { ledger with
        idle := ledger.idle ++ [conn]
        lent := ledger.lent.erase (client, conn) }
  | recycle {ledger : Ledger} {gone rest : List Connection} (hidle : ledger.idle = gone ++ rest) :
      Step ledger { ledger with idle := rest, deleted := ledger.deleted ++ gone }

/-- The connections of a ledger, place by place. -/
def places (ledger : Ledger) : List Connection :=
  ledger.idle ++ ledger.lent.map Prod.snd ++ ledger.deleted

/-- Every connection ever created is in exactly one place. -/
def Exclusive (ledger : Ledger) : Prop := ledger.places.Perm (List.range ledger.created)

variable {ledger ledger' : Ledger}

theorem Exclusive.nodup (hexclusive : ledger.Exclusive) : ledger.places.Nodup :=
  hexclusive.nodup_iff.mpr List.nodup_range

/-- An idle connection is neither lent nor deleted. -/
theorem Exclusive.of_idle (hexclusive : ledger.Exclusive) {conn : Connection}
    (hidle : conn ∈ ledger.idle) :
    conn ∉ ledger.lent.map Prod.snd ∧ conn ∉ ledger.deleted := by
  have hnodup := hexclusive.nodup
  rw [places, List.append_assoc] at hnodup
  have hapart := (List.nodup_append'.mp hnodup).2.2 hidle
  exact ⟨fun hlent => hapart (List.mem_append_left _ hlent),
    fun hdeleted => hapart (List.mem_append_right _ hdeleted)⟩

theorem Exclusive.step (hexclusive : ledger.Exclusive) (hstep : ledger.Step ledger') :
    ledger'.Exclusive := by
  have hcount := List.perm_iff_count.mp hexclusive
  apply List.perm_iff_count.mpr
  intro conn
  specialize hcount conn
  simp only [places, List.count_append] at hcount ⊢
  cases hstep with
  | same => exact hcount
  | add =>
      rw [List.range_succ]
      simp only [List.count_append]
      omega
  | lend client hidle =>
      rw [hidle] at hcount
      simp only [List.map_append, List.map_cons, List.map_nil, List.count_append,
        List.count_cons, List.count_nil] at hcount ⊢
      omega
  | giveBack hlent =>
      have hreturned := ((List.perm_cons_erase hlent).map Prod.snd).count_eq conn
      simp only [List.map_cons, List.count_append, List.count_cons, List.count_nil] at hreturned ⊢
      omega
  | recycle hidle =>
      rw [hidle] at hcount
      simp only [List.count_append] at hcount ⊢
      omega

/-- Only an idle connection is lent or deleted. -/
theorem Exclusive.step_apart (hexclusive : ledger.Exclusive) (hstep : ledger.Step ledger') :
    (∀ lease ∈ ledger'.lent, lease ∉ ledger.lent → lease.2 ∈ ledger.idle ∧
      lease.2 ∉ ledger.lent.map Prod.snd ∧ lease.2 ∉ ledger.deleted) ∧
    ∀ conn ∈ ledger'.deleted, conn ∉ ledger.deleted → conn ∉ ledger.lent.map Prod.snd := by
  have hkept : ∀ {α : Type} {x : α} {l : List α} {p : Prop}, x ∈ l → x ∉ l → p :=
    fun hmem hnew => absurd hmem hnew
  cases hstep with
  | same => exact ⟨fun _ => hkept, fun _ => hkept⟩
  | add => exact ⟨fun _ => hkept, fun _ => hkept⟩
  | lend client hidle =>
      refine ⟨fun lease hmem hnew => ?_, fun _ => hkept⟩
      rcases List.mem_append.mp hmem with hold | hlent
      · exact absurd hold hnew
      · obtain rfl := List.mem_singleton.mp hlent
        have hmem : (client, _).2 ∈ ledger.idle := hidle ▸ List.mem_cons_self
        exact ⟨hmem, hexclusive.of_idle hmem⟩
  | giveBack hlent =>
      exact ⟨fun _ hmem hnew => absurd (List.mem_of_mem_erase hmem) hnew, fun _ => hkept⟩
  | recycle hidle =>
      refine ⟨fun _ => hkept, fun conn hmem hnew => ?_⟩
      rcases List.mem_append.mp hmem with hold | hgone
      · exact absurd hold hnew
      · exact (hexclusive.of_idle (hidle ▸ List.mem_append_left _ hgone)).1

/-- How many connections are neither deleted nor still to be created. -/
def live (ledger : Ledger) : ℕ := ledger.idle.length + ledger.lent.length

theorem live_step (hstep : ledger.Step ledger') :
    ledger'.live ≤ ledger.live ∨
      ledger'.created ≠ ledger.created ∧ ledger'.live = ledger.live + 1 := by
  cases hstep with
  | same => exact .inl le_rfl
  | add => exact .inr ⟨Nat.succ_ne_self _, by simp [live]; omega⟩
  | lend client hidle => exact .inl (by simp [live, hidle]; omega)
  | giveBack hlent =>
      have hlength := List.length_erase_of_mem hlent
      have hpos := List.length_pos_of_mem hlent
      exact .inl (by simp only [live, List.length_append, List.length_singleton, hlength]; omega)
  | recycle hidle => exact .inl (by simp [live, hidle])

end Ledger

/-! ## The pool makes one entry at a step -/

namespace State

variable {s s' : State}

def ledger (s : State) : Ledger := ⟨s.mConnectQ, s.lent, s.deleted, s.created⟩

/-- The recycler takes connections off the front of the queue, and asks for a front
only where the queue holds more than `m_minSize`. -/
theorem recycleLoop_cases (elapsed : ℕ → ℕ) (turns : ℕ) (s : State) :
    (∃ gone, s.mConnectQ = gone ++ (s.recycleLoop elapsed turns).mConnectQ ∧
      (s.recycleLoop elapsed turns).ledger =
        ⟨(s.recycleLoop elapsed turns).mConnectQ, s.lent, s.deleted ++ gone, s.created⟩) ∧
    (s.recycleLoop elapsed turns).toConfig = s.toConfig ∧
    (0 ≤ s.mMinSize → (s.recycleLoop elapsed turns).undefined = s.undefined) := by
  have hstop : ∀ clock, (∃ gone, s.mConnectQ = gone ++ ({ s with clock := clock } : State).mConnectQ ∧
      ({ s with clock := clock } : State).ledger =
        ⟨s.mConnectQ, s.lent, s.deleted ++ gone, s.created⟩) :=
    fun _ => ⟨[], rfl, by rw [List.append_nil]; rfl⟩
  induction turns generalizing s with
  | zero => exact ⟨hstop s.clock, rfl, fun _ => rfl⟩
  | succ turns ih =>
      rw [recycleLoop]
      split_ifs with hmore
      · split
        next hqueue =>
          refine ⟨⟨[], rfl, by rw [List.append_nil]; rfl⟩, rfl, fun hmin => ?_⟩
          have hpositive : (0 : ℤ) > s.mMinSize := by
            simpa [size, hqueue, toInt] using hmore
          exact absurd hmin (not_le.mpr hpositive)
        next conn rest hqueue =>
          dsimp only
          split_ifs
          · obtain ⟨⟨gone, hrest, hledger⟩, hconfig, hdefined⟩ := ih
              { s.now (elapsed turns) with
                mConnectQ := rest
                deleted := s.deleted ++ [conn] } fun _ => ⟨[], rfl, by rw [List.append_nil]; rfl⟩
            refine ⟨⟨conn :: gone, ?_, ?_⟩, hconfig, hdefined⟩
            · exact hqueue.trans (congrArg (conn :: ·) hrest)
            · rw [List.append_assoc] at hledger
              exact hledger
          · exact ⟨hstop _, rfl, fun _ => rfl⟩
      · exact ⟨hstop s.clock, rfl, fun _ => rfl⟩

/-- The producer finds fewer idle connections than it should. -/
def Refills (s : State) (a : Action) : Prop :=
  ∃ elapsed, a = .produceConnection elapsed ∧ s.size < s.mMinSize

/-- Every step is an entry in the ledger, and leaves the configuration as it is. -/
theorem ledgerStep_step {a : Action} (hstep : s.step a = some s') :
    s.ledger.Step s'.ledger ∧ s'.toConfig = s.toConfig ∧
      (0 ≤ s.mMinSize → s'.undefined = false) ∧ (s.Refills a ∨ s'.created = s.created) := by
  rw [step] at hstep
  split_ifs at hstep with hundefined
  have hdefined : s.undefined = false := by simpa using hundefined
  cases a with
  | produceConnection elapsed =>
      rw [perform] at hstep
      split_ifs at hstep
      obtain rfl := Option.some.inj hstep
      rw [produceConnection]
      split_ifs with hfew
      · exact ⟨.same, rfl, fun _ => hdefined, .inr rfl⟩
      · exact ⟨.add, rfl, fun _ => hdefined, .inl ⟨elapsed, rfl, not_le.mp hfew⟩⟩
  | recycleConnection elapsed =>
      rw [perform, recycleConnection] at hstep
      obtain ⟨⟨gone, hqueue, hledger⟩, hconfig, hkept⟩ :=
        recycleLoop_cases elapsed (s.mConnectQ.length + 1) s
      rw [Option.some.inj hstep] at hqueue hledger hconfig hkept
      refine ⟨?_, hconfig, fun hmin => (hkept hmin).trans hdefined, .inr ?_⟩
      · rw [hledger]
        exact .recycle hqueue
      · exact congrArg Ledger.created hledger
  | call client =>
      rw [perform] at hstep
      split_ifs at hstep
      obtain rfl := Option.some.inj hstep
      exact ⟨.same, rfl, fun _ => hdefined, .inr rfl⟩
  | getConnection client =>
      rw [perform] at hstep
      split_ifs at hstep
      obtain rfl := Option.some.inj hstep
      rw [getConnection]
      split
      · exact ⟨.same, rfl, fun _ => hdefined, .inr rfl⟩
      next conn rest hqueue => exact ⟨.lend client hqueue, rfl, fun _ => hdefined, .inr rfl⟩
  | release client conn elapsed =>
      rw [perform] at hstep
      split_ifs at hstep with hlent
      obtain rfl := Option.some.inj hstep
      exact ⟨.giveBack hlent, rfl, fun _ => hdefined, .inr rfl⟩
  | wakeProducer =>
      rw [perform] at hstep
      split_ifs at hstep
      obtain rfl := Option.some.inj hstep
      exact ⟨.same, rfl, fun _ => hdefined, .inr rfl⟩
  | wakeClient client =>
      rw [perform] at hstep
      split_ifs at hstep
      obtain rfl := Option.some.inj hstep
      exact ⟨.same, rfl, fun _ => hdefined, .inr rfl⟩

/-- What the constructor leaves. -/
theorem ledger_connectPool (config : Config) (clock : ℤ) (clients : ℕ) (elapsed : ℕ → ℕ) :
    (connectPool config clock clients elapsed).ledger =
      ⟨List.range config.mMinSize.toNat, [], [], config.mMinSize.toNat⟩ ∧
    (connectPool config clock clients elapsed).toConfig = config ∧
    (connectPool config clock clients elapsed).undefined = false := by
  rw [connectPool]
  induction config.mMinSize.toNat with
  | zero => exact ⟨rfl, rfl, rfl⟩
  | succ count ih =>
      rw [List.range_succ, List.foldl_append, List.foldl_cons, List.foldl_nil]
      generalize (List.range count).foldl (fun s i => State.addConnection s (elapsed i))
        (empty config clock clients) = s at ih ⊢
      obtain ⟨hledger, hconfig, hdefined⟩ := ih
      refine ⟨?_, hconfig, hdefined⟩
      simp only [ledger, Ledger.mk.injEq] at hledger
      obtain ⟨hidle, hlent, hdeleted, hcreated⟩ := hledger
      simp [ledger, addConnection, push, refreshAliveTime, now, hidle, hlent, hdeleted, hcreated]

end State

/-! ## Exclusive lending -/

variable {config : Config} {s : State}

theorem exclusive_of_reachable (hreach : (system config).Reachable s) :
    s.ledger.Exclusive ∧ s.toConfig = config ∧ (0 ≤ config.mMinSize → s.undefined = false) := by
  apply hreach.invariant
  · rintro _ ⟨clock, clients, elapsed, rfl⟩
    obtain ⟨hledger, hconfig, hdefined⟩ := State.ledger_connectPool config clock clients elapsed
    refine ⟨?_, hconfig, fun _ => hdefined⟩
    rw [hledger]
    simp [Ledger.Exclusive, Ledger.places]
  · rintro s a s' ⟨hexclusive, rfl, -⟩ hstep
    obtain ⟨hledger, hconfig, hdefined, -⟩ := State.ledgerStep_step hstep
    exact ⟨hexclusive.step hledger, hconfig, hdefined⟩

/-- Every connection ever created is in one place: idle, lent to one client, or deleted.
What a step hands out was neither lent nor deleted, what it deletes was not lent, and
no `front()` is taken of an empty queue. -/
theorem lends_exclusively (hreach : (system config).Reachable s) :
    (s.mConnectQ ++ s.lent.map Prod.snd ++ s.deleted).Perm (List.range s.created) ∧
      (∀ a s', s.step a = some s' →
        (∀ lease ∈ s'.lent, lease ∉ s.lent → lease.2 ∈ s.mConnectQ ∧
          lease.2 ∉ s.lent.map Prod.snd ∧ lease.2 ∉ s.deleted) ∧
        ∀ conn ∈ s'.deleted, conn ∉ s.deleted → conn ∉ s.lent.map Prod.snd) ∧
      (0 ≤ config.mMinSize → s.undefined = false) := by
  obtain ⟨hexclusive, -, hdefined⟩ := exclusive_of_reachable hreach
  exact ⟨hexclusive, fun a s' hstep => hexclusive.step_apart (State.ledgerStep_step hstep).1,
    hdefined⟩

/-- Two clients take the two connections, the producer makes two more, and the one
that comes back first is lent again. -/
theorem lends_exclusively_again : ∃ s, (system ⟨2, 4, 5000, 1000⟩).Reachable s ∧
    s.mConnectQ = [3] ∧ s.lent = [(1, 1), (1, 2), (1, 0)] ∧
      (s.mConnectQ ++ s.lent.map Prod.snd ++ s.deleted).Perm (List.range s.created) := by
  have hfields : ((system ⟨2, 4, 5000, 1000⟩).execute
      (State.connectPool ⟨2, 4, 5000, 1000⟩ 0 2 fun _ => 1)
      [.call 0, .getConnection 0, .call 1, .getConnection 1, .produceConnection 1,
        .release 0 0 1, .call 1, .getConnection 1, .produceConnection 1, .call 1,
        .getConnection 1]).map (fun s => (s.mConnectQ, s.lent)) =
      some ([3], [(1, 1), (1, 2), (1, 0)]) := by
    decide +kernel
  obtain ⟨s, hs, heq⟩ := Option.map_eq_some_iff.mp hfields
  simp only [Prod.mk.injEq] at heq
  have hstart : (system ⟨2, 4, 5000, 1000⟩).Reachable _ := .initial ⟨0, 2, fun _ => 1, rfl⟩
  have hreach := hstart.execute hs
  exact ⟨s, hreach, heq.1, heq.2, (lends_exclusively hreach).1⟩

/-! ## The maximum -/

/-- The connections that clients hold or could be given. -/
def State.live (s : State) : ℕ := s.mConnectQ.length + s.lent.length

/-- The producer adds a connection to as many as there may be. -/
def State.Overfills (s : State) (a : Action) : Prop := s.Refills a ∧ s.mMaxSize ≤ s.live

/-- The pool overfills only where clients hold more than the difference of the sizes. -/
theorem lent_of_overfills {a : Action} (hoverfills : s.Overfills a)
    (hfits : FitsInt s.mConnectQ.length) : s.mMaxSize - s.mMinSize < s.lent.length := by
  obtain ⟨⟨elapsed, -, hfew⟩, hmax⟩ := hoverfills
  rw [State.size, toInt_eq_self hfits] at hfew
  rw [State.live, Nat.cast_add] at hmax
  omega

theorem live_connectPool (clock : ℤ) (clients : ℕ) (elapsed : ℕ → ℕ) :
    (State.connectPool config clock clients elapsed).live = config.mMinSize.toNat := by
  have hledger := (State.ledger_connectPool config clock clients elapsed).1
  calc (State.connectPool config clock clients elapsed).live
      = (State.connectPool config clock clients elapsed).ledger.live := rfl
    _ = config.mMinSize.toNat := by rw [hledger, Ledger.live]; simp

theorem live_of_refills {a : Action} {s' : State} (hrefills : s.Refills a)
    (hstep : s.step a = some s') : s'.live = s.live + 1 := by
  obtain ⟨elapsed, rfl, hfew⟩ := hrefills
  rw [State.step] at hstep
  split_ifs at hstep
  rw [State.perform] at hstep
  split_ifs at hstep
  obtain rfl := Option.some.inj hstep
  rw [State.produceConnection, if_neg (not_le.mpr hfew)]
  simp only [State.live, State.notifyAll, State.addConnection, State.push, State.refreshAliveTime,
    State.now, List.length_append, List.length_singleton]
  omega

/-- The runs that keep to `m_maxSize` are those in which the producer adds nothing to
as many connections, idle and lent, as there may be. -/
theorem within_maximum_iff (hsizes : config.mMinSize ≤ config.mMaxSize)
    {visited : List (State × Action)} (hrun : (system config).Run visited s) :
    ((∀ before ∈ visited, (before.1.live : ℤ) ≤ config.mMaxSize) ∧ (s.live : ℤ) ≤ config.mMaxSize) ↔
      0 ≤ config.mMaxSize ∧ ∀ taken ∈ visited, ¬ taken.1.Overfills taken.2 := by
  by_cases hnonneg : 0 ≤ config.mMaxSize
  · rw [and_iff_right hnonneg]
    apply hrun.forall_iff (P := fun s => (s.live : ℤ) ≤ config.mMaxSize)
      (Q := fun s => s.toConfig = config ∧ (s.live : ℤ) ≤ config.mMaxSize)
    · exact fun _ h => h.2
    · rintro _ ⟨clock, clients, elapsed, rfl⟩
      refine ⟨(State.ledger_connectPool config clock clients elapsed).2.1, ?_⟩
      rw [live_connectPool]
      omega
    · rintro s a s' ⟨rfl, hlive⟩ hstep hfits
      obtain ⟨hledger, hconfig, -, hcreated⟩ := State.ledgerStep_step hstep
      refine ⟨hconfig, ?_⟩
      rcases Ledger.live_step hledger with hless | ⟨hnew, hmore⟩
      · exact (Nat.cast_le.mpr hless).trans hlive
      · have hrefills := hcreated.resolve_right hnew
        have hroom : ¬ s.mMaxSize ≤ s.live := fun hfull => hfits ⟨hrefills, hfull⟩
        have hlive' : (s'.live : ℤ) = s.live + 1 := by exact_mod_cast hmore
        omega
    · rintro s a s' ⟨rfl, -⟩ hstep ⟨hrefills, hfull⟩ hlive
      rw [live_of_refills hrefills hstep, Nat.cast_add] at hlive
      omega
  · exact iff_of_false (fun hall => hnonneg ((Nat.cast_nonneg _).trans hall.2))
      fun hall => hnonneg hall.1

/-- One client takes the only connection, the producer makes another, and that is one
more than the maximum. -/
theorem exists_exceeding : ∃ visited s, (system ⟨1, 1, 5000, 1000⟩).Run visited s ∧ s.live = 2 := by
  have hfields : ((system ⟨1, 1, 5000, 1000⟩).execute
      (State.connectPool ⟨1, 1, 5000, 1000⟩ 0 1 fun _ => 0)
      [.call 0, .getConnection 0, .produceConnection 0]).map State.live = some 2 := by
    decide +kernel
  obtain ⟨s, hs, heq⟩ := Option.map_eq_some_iff.mp hfields
  have hstart : (system ⟨1, 1, 5000, 1000⟩).Run [] _ := .initial ⟨0, 1, fun _ => 0, rfl⟩
  obtain ⟨visited, hrun⟩ := hstart.execute hs
  exact ⟨visited, s, hrun, heq⟩

theorem within_maximum_iff_exceeded : ∃ visited s, (system ⟨1, 1, 5000, 1000⟩).Run visited s ∧
    ∃ taken ∈ visited, taken.1.Overfills taken.2 := by
  obtain ⟨visited, s, hrun, hlive⟩ := exists_exceeding
  refine ⟨visited, s, hrun, ?_⟩
  by_contra hnone
  have hkept := ((within_maximum_iff (by decide) hrun).mpr ⟨by decide,
    fun taken hmem hoverfills => hnone ⟨taken, hmem, hoverfills⟩⟩).2
  rw [hlive] at hkept
  exact absurd hkept (by decide)

theorem exceeds_maximum : ¬ ∀ visited s, (system ⟨1, 1, 5000, 1000⟩).Run visited s →
    (s.live : ℤ) ≤ 1 := by
  intro hkept
  obtain ⟨visited, s, hrun, hlive⟩ := exists_exceeding
  have hle := hkept visited s hrun
  rw [hlive] at hle
  exact absurd hle (by decide)

end ConnectPool

end CppProjects
