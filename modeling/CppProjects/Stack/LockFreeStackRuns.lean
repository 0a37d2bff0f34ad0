import CppProjects.Stack.LockFreeStackSafety

/-!
# When a run of `LockFreeStack` conserves the values

A `pop` holds the address of the first node and then reads its `next`.  Another
thread may have deleted that node before the read, and it may have been allocated
and linked again between the read and the exchange.
-/

namespace CppProjects

namespace LockFreeStack

variable {α : Type}

namespace State

/-- The thread reads `old_head->next`, and the node has been deleted. -/
def ReadsFreed (s : State α) (t : ℕ) : Prop :=
  ∃ old, s.threads[t]? = some (.holding (some old)) ∧ s.nodes old = none

/-- `head` is `old_head` again, and what the thread read is not its `next` any
more. -/
def Outdated (s : State α) (t : ℕ) : Prop :=
  ∃ old next, s.threads[t]? = some (.comparing old next) ∧ s.head = some old ∧
    s.follow old ≠ some next

variable {s s' : State α} {t address : ℕ} {spurious weak : Bool} {addrs : List ℕ}
  {result : Option (State α)}

theorem Inv.link_cases {value : α} {new : ℕ} (hinv : s.Inv addrs)
    (hget : s.threads[t]? = some (.linking value new)) :
    ∃ s' addrs', s.link t value new spurious = some s' ∧ s'.Inv addrs' := by
  obtain ⟨node, hnode⟩ := hinv.exists_node hget rfl
  rw [State.link, hnode]
  by_cases hdone : s.head = node.next ∧ spurious = false
  · have hnext : s.follow new = some s.head := by
      rw [follow, hnode, hdone.1]
      rfl
    exact ⟨_, _, if_pos hdone, hinv.link hget hnext⟩
  · exact ⟨_, _, if_neg hdone, hinv.store hget rfl hnode s.head rfl rfl⟩

theorem Inv.unlink_cases {old : ℕ} {next : Option ℕ} (hinv : s.Inv addrs)
    (hget : s.threads[t]? = some (.comparing old next))
    (houtdated : spurious = false → ¬ s.Outdated t) :
    ∃ addrs', (s.unlink t old next spurious).Inv addrs' := by
  rw [State.unlink]
  split_ifs with hdone
  · have hnext : s.follow old = some next := by
      by_contra hchanged
      exact houtdated hdone.2 ⟨old, next, hget, hdone.1, hchanged⟩
    have hwalk := hinv.walk
    rw [hdone.1] at hwalk
    rcases hwalk with _ | ⟨hfollow, hrest⟩
    rw [hnext, Option.some.injEq] at hfollow
    exact ⟨_, hinv.unlink hget (hfollow ▸ hrest)⟩
  · exact ⟨addrs, hinv.move hget rfl rfl rfl rfl rfl rfl (fun _ => rfl) fun _ _ => rfl⟩

/-- The step of a thread that does not go wrong. -/
theorem Inv.runThread (hinv : s.Inv addrs) (hfreed : ¬ s.ReadsFreed t)
    (houtdated : spurious = false → ¬ s.Outdated t)
    (hstep : s.runThread t address spurious = some result) :
    ∃ s' addrs', result = some s' ∧ s'.Inv addrs' := by
  rw [State.runThread] at hstep
  split at hstep
  next value hget =>
    split_ifs at hstep with hfree
    obtain rfl := Option.some.inj hstep
    exact ⟨_, _, rfl, hinv.allocate hget hfree⟩
  next value new hget =>
    obtain rfl := Option.some.inj hstep
    exact ⟨_, _, rfl, hinv.move hget rfl rfl rfl rfl rfl rfl (fun _ => rfl) fun _ _ => rfl⟩
  next value new next hget =>
    obtain ⟨node, hnode⟩ := hinv.exists_node hget rfl
    obtain rfl := Option.some.inj hstep
    rw [hnode]
    exact ⟨_, _, rfl, hinv.store hget rfl hnode next rfl rfl⟩
  next value new hget =>
    obtain rfl := Option.some.inj hstep
    exact hinv.link_cases hget
  next hget =>
    obtain rfl := Option.some.inj hstep
    exact ⟨_, _, rfl, hinv.move hget rfl rfl rfl rfl rfl rfl (fun _ => rfl) fun _ _ => rfl⟩
  next hget =>
    obtain rfl := Option.some.inj hstep
    exact ⟨_, _, rfl, hinv.move hget rfl rfl rfl rfl rfl rfl (fun _ => rfl) fun _ _ => rfl⟩
  next old hget =>
    obtain rfl := Option.some.inj hstep
    rcases hnode : s.nodes old with _ | node
    · exact absurd ⟨old, hget, hnode⟩ hfreed
    · exact ⟨_, _, rfl, hinv.move hget rfl rfl rfl rfl rfl rfl (fun _ => rfl) fun _ _ => rfl⟩
  next old next hget =>
    obtain rfl := Option.some.inj hstep
    obtain ⟨addrs', hinv'⟩ := hinv.unlink_cases hget houtdated
    exact ⟨_, addrs', rfl, hinv'⟩
  next old hget =>
    obtain ⟨node, hnode⟩ := hinv.exists_node hget rfl
    obtain rfl := Option.some.inj hstep
    rw [hnode]
    have hheld : s.valueAt old = some node.value := congrArg (Option.map Node.value) hnode
    exact ⟨_, _, rfl, hinv.move hget rfl rfl hheld.symm rfl rfl rfl (fun _ => rfl) fun _ _ => rfl⟩
  next old value hget =>
    obtain ⟨node, hnode⟩ := hinv.exists_node hget rfl
    obtain rfl := Option.some.inj hstep
    rw [hnode]
    exact ⟨_, _, rfl, hinv.delete hget⟩
  all_goals cases hstep

/-! ## What goes wrong with an outdated successor -/

end State

/-! ## Runs -/

/-- A thread takes one of the two steps. -/
def GoesWrong (weak : Bool) (state : Option (State α)) (a : Action α) : Prop :=
  ∃ s t address spurious, state = some s ∧ a = .run t address spurious ∧
    (s.ReadsFreed t ∨ s.Outdated t ∧ (weak && spurious) = false)

def Invariant (state : Option (State α)) : Prop := ∃ s addrs, state = some s ∧ s.Inv addrs

variable {state result : Option (State α)} {a : Action α} {weak : Bool}

theorem Invariant.intact (hinv : Invariant state) : Intact state := by
  obtain ⟨s, addrs, rfl, hs⟩ := hinv
  exact ⟨s, rfl, addrs, hs.walk, hs.conserved⟩

theorem Invariant.step (hinv : Invariant state) (hstep : (system α weak).step state a = some result)
    (hright : ¬ GoesWrong weak state a) : Invariant result := by
  obtain ⟨s, addrs, rfl, hs⟩ := hinv
  have hstep : s.step weak a = some result := hstep
  cases a with
  | push t value =>
      rw [State.step] at hstep
      split_ifs at hstep with hidle
      obtain rfl := Option.some.inj hstep
      split at hidle
      next hget => exact ⟨_, _, rfl, hs.push hget value⟩
      next => cases hidle
  | pop t =>
      rw [State.step] at hstep
      split_ifs at hstep with hidle
      obtain rfl := Option.some.inj hstep
      split at hidle
      next hget =>
        exact ⟨_, _, rfl, hs.move hget rfl rfl rfl rfl rfl rfl (fun _ => rfl) fun _ _ => rfl⟩
      next => cases hidle
  | run t address spurious =>
      obtain ⟨s', addrs', rfl, hs'⟩ := hs.runThread
        (fun hfreed => hright ⟨s, t, address, spurious, rfl, rfl, .inl hfreed⟩)
        (fun hexact houtdated =>
          hright ⟨s, t, address, spurious, rfl, rfl, .inr ⟨houtdated, hexact⟩⟩) hstep
      exact ⟨s', addrs', rfl, hs'⟩

end LockFreeStack

end CppProjects
