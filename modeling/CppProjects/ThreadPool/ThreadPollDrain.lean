import CppProjects.Core.ListUpdate
import CppProjects.ThreadPool.ThreadPoll

/-!
# `ThreadPoll.hpp` drains

Every accepted task is in the queue, in the hands of one worker, or executed.  A
worker returns only from an empty queue after `stop`, and from then on nothing is
accepted.
-/

namespace CppProjects

namespace ThreadPoll

variable {τ : Type}

/-- The task a worker executes. -/
def WorkerPc.hand : WorkerPc τ → Option (Task τ)
  | .running task _ => some task
  | .loop | .waiting | .woken | .returned => none

/-- The workers have the same tasks in their hands, and the same ones have
returned. -/
def Alike : List (WorkerPc τ) → List (WorkerPc τ) → Prop :=
  List.Forall₂ fun pc pc' => pc'.hand = pc.hand ∧ (pc' = .returned ↔ pc = .returned)

namespace Alike

variable {workers workers' workers'' : List (WorkerPc τ)} {pc pc' : WorkerPc τ} {i : ℕ}

theorem refl (workers : List (WorkerPc τ)) : Alike workers workers :=
  List.forall₂_same.mpr fun _ _ => ⟨rfl, Iff.rfl⟩

theorem set (halike : Alike workers workers') (hget : workers'[i]? = some pc)
    (hhand : pc'.hand = pc.hand) (hreturned : pc' = .returned ↔ pc = .returned) :
    Alike workers (workers'.set i pc') := by
  induction halike generalizing i with
  | nil => exact refl []
  | @cons first second rest rest' hfirst hrest ih =>
      cases i with
      | zero =>
          obtain rfl : second = pc := by simpa using hget
          exact .cons ⟨hhand.trans hfirst.1, hreturned.trans hfirst.2⟩ hrest
      | succ i => exact .cons hfirst (ih (by simpa using hget))

theorem map {wake : WorkerPc τ → WorkerPc τ} (workers : List (WorkerPc τ))
    (hwake : ∀ pc, (wake pc).hand = pc.hand ∧ (wake pc = .returned ↔ pc = .returned)) :
    Alike workers (workers.map wake) := by
  rw [Alike, List.forall₂_map_right_iff]
  exact List.forall₂_same.mpr fun pc _ => hwake pc

theorem filterMap_hand (halike : Alike workers workers') :
    workers'.filterMap WorkerPc.hand = workers.filterMap WorkerPc.hand := by
  induction halike with
  | nil => rfl
  | cons hfirst _ ih => rw [List.filterMap_cons, List.filterMap_cons, hfirst.1, ih]

theorem length_eq (halike : Alike workers workers') : workers'.length = workers.length :=
  (List.Forall₂.length_eq halike).symm

theorem getElem?_returned (halike : Alike workers workers') :
    workers'[i]? = some .returned ↔ workers[i]? = some .returned := by
  induction halike generalizing i with
  | nil => exact Iff.rfl
  | cons hfirst _ ih =>
      cases i with
      | zero => simpa using hfirst.2
      | succ i => simpa using ih

theorem returned_mem (halike : Alike workers workers') (hmem : .returned ∈ workers') :
    .returned ∈ workers := by
  obtain ⟨i, hget⟩ := List.getElem?_of_mem hmem
  exact List.mem_of_getElem? (halike.getElem?_returned.mp hget)

end Alike

/-! ## The steps -/

namespace State

variable {s s' s'' : State τ} {wake : Option ℕ} {i : ℕ} {pc pc' : WorkerPc τ} {call call' : CallPc τ}

def accept (s : State τ) (body : τ) : State τ :=
  { s with
    tasks := s.tasks ++ [⟨s.accepted.length, body⟩]
    accepted := s.accepted ++ [⟨s.accepted.length, body⟩] }

/-- The states differ in where calls of `enqueue` are and in who waits. -/
structure Quiet (s s' : State τ) : Prop where
  tasks : s'.tasks = s.tasks
  stop : s'.stop = s.stop
  threads : s'.threads = s.threads
  destroyer : s'.destroyer = s.destroyer
  accepted : s'.accepted = s.accepted
  taken : s'.taken = s.taken
  executed : s'.executed = s.executed
  workers : Alike s.workers s'.workers

theorem Quiet.refl (s : State τ) : s.Quiet s := ⟨rfl, rfl, rfl, rfl, rfl, rfl, rfl, .refl _⟩

theorem Quiet.setWorker (hquiet : s.Quiet s') (hget : s'.workers[i]? = some pc)
    (hhand : pc'.hand = pc.hand) (hreturned : pc' = .returned ↔ pc = .returned) :
    s.Quiet (s'.setWorker i pc') :=
  { hquiet with workers := hquiet.workers.set hget hhand hreturned }

theorem Quiet.setCaller (hquiet : s.Quiet s') (p : ℕ) (call : CallPc τ) :
    s.Quiet (s'.setCaller p call) :=
  { hquiet with }

/-- What a step does. -/
inductive Effect (s s' : State τ) : Prop
  | quiet (hquiet : s.Quiet s')
  | accept (body : τ) (hopen : s.stop = false) (hquiet : (s.accept body).Quiet s')
  | take (i : ℕ) {pc : WorkerPc τ} {task : Task τ} {rest : List (Task τ)}
      (hget : s.workers[i]? = some pc) (hhand : pc.hand = none) (hpc : pc ≠ .returned)
      (htasks : s.tasks = task :: rest)
      (hs' : s' = { s with tasks := rest, taken := s.taken ++ [task] }.setWorker i
        (.running task .idle))
  | finish (i : ℕ) {task : Task τ} (hget : s.workers[i]? = some (.running task .idle))
      (hs' : s' = { s with executed := s.executed ++ [task] }.setWorker i .loop)
  | leave (i : ℕ) {pc : WorkerPc τ} (hget : s.workers[i]? = some pc) (hhand : pc.hand = none)
      (hpc : pc ≠ .returned) (htasks : s.tasks = []) (hstop : s.stop = true)
      (hs' : s' = s.setWorker i .returned)
  | hire (hlt : s.workers.length < s.threads) (hs' : s' = { s with workers := s.workers ++ [.loop] })
  | close (hlength : s.workers.length = s.threads) (habsent : s.destroyer = .absent)
      (hs' : s' = { s with destroyer := .locking })
  | stop (hlocking : s.destroyer = .locking)
      (hs' : s' = { s with stop := true, destroyer := .notifying })
  | notify (hnotifying : s.destroyer = .notifying)
      (hquiet : State.Quiet { s with destroyer := .joining 0 } s')
  | join (j : ℕ) (hjoining : s.destroyer = .joining j) (hget : s.workers[j]? = some .returned)
      (hs' : s' = { s with destroyer := .joining (j + 1) })
  | joined (j : ℕ) (hjoining : s.destroyer = .joining j) (hget : s.workers[j]? = none)
      (hs' : s' = { s with destroyer := .joined })

/-- Who executes a task still does, at the same place. -/
def KeepsRunning (s s' : State τ) : Prop :=
  ∀ (i : ℕ) (task : Task τ) (call : CallPc τ), s.workers[i]? = some (.running task call) →
    s'.workers[i]? = some (.running task call)

theorem quiet_notifyOne (hnotify : s.notifyOne wake = some s') :
    s.Quiet s' ∧ s.KeepsRunning s' := by
  cases wake with
  | none =>
      rw [notifyOne] at hnotify
      split_ifs at hnotify
      obtain rfl := Option.some.inj hnotify
      exact ⟨.refl s, fun _ _ _ hget => hget⟩
  | some j =>
      rw [notifyOne] at hnotify
      split at hnotify
      next hwaiting =>
        obtain rfl := Option.some.inj hnotify
        refine ⟨(Quiet.refl s).setWorker hwaiting rfl (by simp), fun i task call hget => ?_⟩
        have hne : (.running task call : WorkerPc τ) ≠ .waiting := nofun
        exact getElem?_set_of_ne hwaiting hne hget _
      next => cases hnotify

/-- A step of a call of `enqueue` accepts a task or changes nothing that
matters. -/
theorem call_cases (hcall : s.call wake call = some (s', call')) :
    (s.Quiet s' ∨ ∃ body, s.stop = false ∧ (s.accept body).Quiet s') ∧ s.KeepsRunning s' := by
  cases call with
  | idle => cases hcall
  | locking body =>
      rw [State.call, enqueue] at hcall
      split_ifs at hcall with hstop
      · obtain ⟨rfl, rfl⟩ := Prod.mk.inj (Option.some.inj hcall)
        exact ⟨.inl (.refl s), fun _ _ _ hget => hget⟩
      · obtain ⟨rfl, rfl⟩ := Prod.mk.inj (Option.some.inj hcall)
        exact ⟨.inr ⟨body, by simpa using hstop, .refl _⟩, fun _ _ _ hget => hget⟩
  | notifying =>
      obtain ⟨s₁, hnotify, heq⟩ := Option.map_eq_some_iff.mp hcall
      obtain ⟨rfl, rfl⟩ := Prod.mk.inj heq
      exact ⟨.inl (quiet_notifyOne hnotify).1, (quiet_notifyOne hnotify).2⟩

theorem effect_workerRegion (hget : s.workers[i]? = some pc) (hhand : pc.hand = none)
    (hpc : pc ≠ .returned) : s.Effect (s.workerRegion i) := by
  rw [workerRegion]
  split
  next htasks =>
    split_ifs with hstop
    · exact .leave i hget hhand hpc htasks hstop rfl
    · exact .quiet ((Quiet.refl s).setWorker hget hhand.symm (by simp [hpc]))
  next task rest htasks => exact .take i hget hhand hpc htasks rfl

theorem effect_worker (hstep : s.worker i wake = some s') : s.Effect s' := by
  rw [worker] at hstep
  split at hstep
  next hget =>
    obtain rfl := Option.some.inj hstep
    exact effect_workerRegion hget rfl (by simp)
  next hget =>
    obtain rfl := Option.some.inj hstep
    exact effect_workerRegion hget rfl (by simp)
  next task hget =>
    obtain rfl := Option.some.inj hstep
    exact .finish i hget rfl
  next task call hidle hget =>
    obtain ⟨⟨s₁, call'⟩, hcall, rfl⟩ := Option.map_eq_some_iff.mp hstep
    obtain ⟨hquiet | ⟨body, hopen, hquiet⟩, hkept⟩ := call_cases hcall
    · exact .quiet (hquiet.setWorker (hkept i task call hget) rfl (by simp))
    · exact .accept body hopen (hquiet.setWorker (hkept i task call hget) rfl (by simp))
  all_goals cases hstep

theorem effect_caller {p : ℕ} (hstep : s.caller p wake = some s') : s.Effect s' := by
  rw [caller] at hstep
  split at hstep
  · obtain ⟨⟨s₁, call'⟩, hcall, rfl⟩ := Option.map_eq_some_iff.mp hstep
    obtain ⟨hquiet | ⟨body, hopen, hquiet⟩, -⟩ := call_cases hcall
    · exact .quiet (hquiet.setCaller p call')
    · exact .accept body hopen (hquiet.setCaller p call')
  · cases hstep

theorem effect_destroy (hstep : s.destroy = some s') : s.Effect s' := by
  rw [destroy] at hstep
  split at hstep
  next hlocking =>
    obtain rfl := Option.some.inj hstep
    exact .stop hlocking rfl
  next hnotifying =>
    obtain rfl := Option.some.inj hstep
    refine .notify hnotifying ⟨rfl, rfl, rfl, rfl, rfl, rfl, rfl, Alike.map s.workers fun pc => ?_⟩
    cases pc <;> simp [WorkerPc.hand]
  next j hjoining =>
    split at hstep
    next hget =>
      obtain rfl := Option.some.inj hstep
      exact .join j hjoining hget rfl
    next => cases hstep
    next hget =>
      obtain rfl := Option.some.inj hstep
      exact .joined j hjoining hget rfl
  all_goals cases hstep

/-- Every step has one of these effects. -/
theorem effect_step {a : Action τ} (hstep : s.step a = some s') : s.Effect s' := by
  rw [step] at hstep
  split_ifs at hstep
  cases a with
  | run thread wake =>
      cases thread with
      | creator =>
          have hconstruct : s.construct = some s' := hstep
          rw [construct] at hconstruct
          split_ifs at hconstruct with hlt
          exact .hire hlt (Option.some.inj hconstruct).symm
      | worker i => exact effect_worker hstep
      | caller p => exact effect_caller hstep
      | destroyer => exact effect_destroy hstep
  | enqueue p body =>
      rw [perform] at hstep
      split at hstep
      · split_ifs at hstep
        obtain rfl := Option.some.inj hstep
        exact .quiet ((Quiet.refl s).setCaller p _)
      · cases hstep
  | enqueueFrom i body =>
      rw [perform] at hstep
      split at hstep
      next task hget =>
        obtain rfl := Option.some.inj hstep
        exact .quiet ((Quiet.refl s).setWorker hget rfl (by simp))
      next => cases hstep
  | destroy =>
      rw [perform] at hstep
      split_ifs at hstep with hready
      exact .close hready.1 hready.2 (Option.some.inj hstep).symm
  | spurious i =>
      have hnotify : s.notifyOne (some i) = some s' := hstep
      exact .quiet (quiet_notifyOne hnotify).1

end State

/-! ## The tasks -/

namespace State

variable {s s' : State τ} {i : ℕ} {pc pc' : WorkerPc τ}

/-- The tasks that are being executed. -/
def inHand (s : State τ) : List (Task τ) := s.workers.filterMap WorkerPc.hand

/-- Tasks leave the queue in order; the ones that have left are executed or in
hand; who has returned did so after `stop` from an empty queue. -/
structure Accounted (s : State τ) : Prop where
  fifo : s.taken ++ s.tasks = s.accepted
  tickets : s.accepted.map Task.ticket = List.range s.accepted.length
  taken : (s.executed ++ s.inHand).Perm s.taken
  drained : .returned ∈ s.workers → s.stop = true ∧ s.tasks = []

theorem Accounted.quiet (haccounted : s.Accounted) (hquiet : s.Quiet s') : s'.Accounted where
  fifo := by rw [hquiet.taken, hquiet.tasks, hquiet.accepted, haccounted.fifo]
  tickets := by rw [hquiet.accepted, haccounted.tickets]
  taken := by
    rw [hquiet.executed, hquiet.taken, inHand, hquiet.workers.filterMap_hand]
    exact haccounted.taken
  drained := by
    intro hmem
    rw [hquiet.stop, hquiet.tasks]
    exact haccounted.drained (hquiet.workers.returned_mem hmem)

theorem Accounted.accept (haccounted : s.Accounted) (body : τ) (hopen : s.stop = false) :
    (s.accept body).Accounted where
  fifo := by
    change s.taken ++ (s.tasks ++ _) = s.accepted ++ _
    rw [← List.append_assoc, haccounted.fifo]
  tickets := by
    change (s.accepted ++ _).map Task.ticket = List.range (s.accepted ++ _).length
    rw [List.map_append, haccounted.tickets, List.length_append, List.length_singleton,
      List.range_succ]
    rfl
  taken := haccounted.taken
  drained := by
    intro hmem
    rw [(haccounted.drained hmem).1] at hopen
    cases hopen

/-- What a worker takes in hand and puts down, over the whole list. -/
theorem inHand_setWorker (hget : s.workers[i]? = some pc) (pc' : WorkerPc τ) :
    (pc.hand.toList ++ (s.setWorker i pc').inHand).Perm (pc'.hand.toList ++ s.inHand) :=
  filterMap_set_perm WorkerPc.hand hget pc'

theorem returned_mem_set (hpc' : pc' ≠ .returned) (hmem : .returned ∈ (s.setWorker i pc').workers) :
    .returned ∈ s.workers :=
  (List.mem_or_eq_of_mem_set hmem).resolve_right fun heq => hpc' heq.symm

theorem Accounted.take (haccounted : s.Accounted) (hget : s.workers[i]? = some pc)
    (hhand : pc.hand = none) {task : Task τ} {rest : List (Task τ)} (htasks : s.tasks = task :: rest) :
    ({ s with tasks := rest, taken := s.taken ++ [task] }.setWorker i
      (.running task .idle)).Accounted where
  fifo := by
    change s.taken ++ [task] ++ rest = s.accepted
    rw [List.append_assoc, List.singleton_append, ← htasks, haccounted.fifo]
  tickets := haccounted.tickets
  taken := by
    have hhands := inHand_setWorker hget (.running task .idle)
    rw [hhand, Option.toList_none, List.nil_append] at hhands
    calc List.Perm _ (s.executed ++ ([task] ++ s.inHand)) := hhands.append_left _
      List.Perm _ (s.executed ++ s.inHand ++ [task]) := by
        rw [List.append_assoc]
        exact List.perm_append_comm.append_left _
      List.Perm _ (s.taken ++ [task]) := haccounted.taken.append_right _
  drained := by
    intro hmem
    have hempty := (haccounted.drained (returned_mem_set (by simp) hmem)).2
    rw [htasks] at hempty
    cases hempty

theorem Accounted.finish (haccounted : s.Accounted) {task : Task τ}
    (hget : s.workers[i]? = some (.running task .idle)) :
    ({ s with executed := s.executed ++ [task] }.setWorker i .loop).Accounted where
  fifo := haccounted.fifo
  tickets := haccounted.tickets
  taken := by
    have hhands := inHand_setWorker hget .loop
    calc List.Perm _ (s.executed ++ ([task] ++ (s.setWorker i .loop).inHand)) := by
          rw [← List.append_assoc]
          exact .refl _
      List.Perm _ (s.executed ++ s.inHand) := hhands.append_left _
      List.Perm _ s.taken := haccounted.taken
  drained := fun hmem => haccounted.drained (returned_mem_set (by simp) hmem)

theorem Accounted.leave (haccounted : s.Accounted) (hget : s.workers[i]? = some pc)
    (hhand : pc.hand = none) (htasks : s.tasks = []) (hstop : s.stop = true) :
    (s.setWorker i .returned).Accounted where
  fifo := haccounted.fifo
  tickets := haccounted.tickets
  taken := by
    have hhands := inHand_setWorker hget .returned
    rw [hhand, Option.toList_none, List.nil_append] at hhands
    exact (hhands.append_left _).trans haccounted.taken
  drained := fun _ => ⟨hstop, htasks⟩

theorem Accounted.step (haccounted : s.Accounted) (heffect : s.Effect s') : s'.Accounted := by
  cases heffect with
  | quiet hquiet => exact haccounted.quiet hquiet
  | accept body hopen hquiet => exact (haccounted.accept body hopen).quiet hquiet
  | take i hget hhand _ htasks hs' => exact hs' ▸ haccounted.take hget hhand htasks
  | finish i hget hs' => exact hs' ▸ haccounted.finish hget
  | leave i hget hhand _ htasks hstop hs' => exact hs' ▸ haccounted.leave hget hhand htasks hstop
  | hire _ hs' =>
      subst hs'
      refine ⟨haccounted.fifo, haccounted.tickets, ?_, fun hmem => haccounted.drained ?_⟩
      · rw [inHand, List.filterMap_append, show [WorkerPc.loop].filterMap WorkerPc.hand = [] from rfl,
          List.append_nil]
        exact haccounted.taken
      · simpa using hmem
  | close _ _ hs' =>
      subst hs'
      exact ⟨haccounted.fifo, haccounted.tickets, haccounted.taken, haccounted.drained⟩
  | stop _ hs' =>
      subst hs'
      exact ⟨haccounted.fifo, haccounted.tickets, haccounted.taken,
        fun hmem => ⟨rfl, (haccounted.drained hmem).2⟩⟩
  | notify _ hquiet =>
      have hnotified : State.Accounted { s with destroyer := .joining 0 } :=
        ⟨haccounted.fifo, haccounted.tickets, haccounted.taken, haccounted.drained⟩
      exact hnotified.quiet hquiet
  | join j _ _ hs' =>
      subst hs'
      exact ⟨haccounted.fifo, haccounted.tickets, haccounted.taken, haccounted.drained⟩
  | joined j _ _ hs' =>
      subst hs'
      exact ⟨haccounted.fifo, haccounted.tickets, haccounted.taken, haccounted.drained⟩

/-! ## The joins -/

/-- Who has been joined has returned; all threads have been started before the
destructor begins. -/
structure Joins (s : State τ) : Prop where
  hired : s.workers.length ≤ s.threads
  all : s.destroyer ≠ .absent → s.workers.length = s.threads
  joining : ∀ j : ℕ, s.destroyer = .joining j → ∀ k < j, s.workers[k]? = some .returned
  joined : s.destroyer = .joined → ∀ k < s.workers.length, s.workers[k]? = some .returned

theorem Joins.of_workers (hjoins : s.Joins) (hdestroyer : s'.destroyer = s.destroyer)
    (hthreads : s'.threads = s.threads) (hlength : s'.workers.length = s.workers.length)
    (hkept : ∀ k : ℕ, s.workers[k]? = some .returned → s'.workers[k]? = some .returned) :
    s'.Joins where
  hired := by rw [hlength, hthreads]; exact hjoins.hired
  all := by rw [hdestroyer, hlength, hthreads]; exact hjoins.all
  joining := by
    intro j hj k hk
    exact hkept k (hjoins.joining j (hdestroyer ▸ hj) k hk)
  joined := by
    intro hj k hk
    exact hkept k (hjoins.joined (hdestroyer ▸ hj) k (hlength ▸ hk))

theorem Joins.quiet (hjoins : s.Joins) (hquiet : s.Quiet s') : s'.Joins :=
  hjoins.of_workers hquiet.destroyer hquiet.threads hquiet.workers.length_eq
    fun _ => hquiet.workers.getElem?_returned.mpr

theorem Joins.setWorker (hjoins : s.Joins) (hget : s.workers[i]? = some pc) (hpc : pc ≠ .returned)
    (hdestroyer : s'.destroyer = s.destroyer) (hthreads : s'.threads = s.threads)
    (hworkers : s'.workers = s.workers.set i pc') : s'.Joins := by
  refine hjoins.of_workers hdestroyer hthreads (by rw [hworkers, List.length_set]) fun k hk => ?_
  rw [hworkers]
  exact getElem?_set_of_ne hget hpc.symm hk _

theorem Joins.step (hjoins : s.Joins) (heffect : s.Effect s') : s'.Joins := by
  cases heffect with
  | quiet hquiet => exact hjoins.quiet hquiet
  | accept body _ hquiet =>
      have haccepted : (s.accept body).Joins := ⟨hjoins.hired, hjoins.all, hjoins.joining, hjoins.joined⟩
      exact haccepted.quiet hquiet
  | take i hget _ hpc _ hs' =>
      subst hs'
      exact hjoins.setWorker hget hpc rfl rfl rfl
  | finish i hget hs' =>
      subst hs'
      exact hjoins.setWorker hget (by simp) rfl rfl rfl
  | leave i hget _ hpc _ _ hs' =>
      subst hs'
      exact hjoins.setWorker hget hpc rfl rfl rfl
  | hire hlt hs' =>
      subst hs'
      have habsent : s.destroyer = .absent := by
        by_contra hne
        exact absurd (hjoins.all hne) hlt.ne
      refine ⟨?_, fun hne => absurd habsent hne, fun j hj => ?_, fun hj => ?_⟩
      · rw [List.length_append, List.length_singleton]
        exact hlt
      · rw [show s.destroyer = .joining j from hj] at habsent
        cases habsent
      · rw [show s.destroyer = .joined from hj] at habsent
        cases habsent
  | close hlength habsent hs' =>
      subst hs'
      exact ⟨hjoins.hired, fun _ => hlength, fun j hj => (by cases hj), fun hj => (by cases hj)⟩
  | stop hlocking hs' =>
      subst hs'
      have hall := hjoins.all (by rw [hlocking]; simp)
      exact ⟨hjoins.hired, fun _ => hall, fun j hj => (by cases hj), fun hj => (by cases hj)⟩
  | notify hnotifying hquiet =>
      have hall := hjoins.all (by rw [hnotifying]; simp)
      have hnotified : State.Joins { s with destroyer := .joining 0 } := by
        refine ⟨hjoins.hired, fun _ => hall, fun j hj k hk => ?_, fun hj => (by cases hj)⟩
        obtain rfl := DestroyerPc.joining.inj hj
        exact absurd hk (Nat.not_lt_zero k)
      exact hnotified.quiet hquiet
  | join j hjoining hget hs' =>
      subst hs'
      have hall := hjoins.all (by rw [hjoining]; simp)
      refine ⟨hjoins.hired, fun _ => hall, fun j' hj k hk => ?_, fun hj => (by cases hj)⟩
      obtain rfl := DestroyerPc.joining.inj hj
      rcases Nat.lt_succ_iff_lt_or_eq.mp hk with hlt | rfl
      · exact hjoins.joining j hjoining k hlt
      · exact hget
  | joined j hjoining hget hs' =>
      subst hs'
      have hall := hjoins.all (by rw [hjoining]; simp)
      refine ⟨hjoins.hired, fun _ => hall, fun j hj => (by cases hj), fun _ k hk => ?_⟩
      exact hjoins.joining j hjoining k (hk.trans_le (List.getElem?_eq_none_iff.mp hget))

/-- `enqueue` after `stop` accepts nothing. -/
theorem accepted_of_stop (hstop : s.stop = true) (heffect : s.Effect s') :
    s'.accepted = s.accepted := by
  cases heffect with
  | quiet hquiet => exact hquiet.accepted
  | accept body hopen hquiet =>
      rw [hstop] at hopen
      cases hopen
  | notify _ hquiet => exact hquiet.accepted
  | take _ _ _ _ _ hs' | finish _ _ hs' | leave _ _ _ _ _ _ hs' => rw [hs']; rfl
  | hire _ hs' | close _ _ hs' | stop _ hs' | join _ _ _ hs' | joined _ _ _ hs' => rw [hs']

theorem threads_of_effect (heffect : s.Effect s') : s'.threads = s.threads := by
  cases heffect with
  | quiet hquiet | notify _ hquiet => exact hquiet.threads
  | accept body _ hquiet => exact hquiet.threads
  | take _ _ _ _ _ hs' | finish _ _ hs' | leave _ _ _ _ _ _ hs' => rw [hs']; rfl
  | hire _ hs' | close _ _ hs' | stop _ hs' | join _ _ _ hs' | joined _ _ _ hs' => rw [hs']

/-- No task is accepted, executed or in hand twice. -/
theorem Accounted.nodup (haccounted : s.Accounted) :
    s.accepted.Nodup ∧ (s.executed ++ s.inHand).Nodup := by
  have haccepted : s.accepted.Nodup := by
    apply List.Nodup.of_map Task.ticket
    rw [haccounted.tickets]
    exact List.nodup_range
  refine ⟨haccepted, haccounted.taken.nodup_iff.mpr ?_⟩
  rw [← haccounted.fifo] at haccepted
  exact haccepted.of_append_left

/-- When all workers have been joined nothing is queued or in hand. -/
theorem Accounted.drain (haccounted : s.Accounted) (hjoins : s.Joins) (hthreads : 1 ≤ s.threads)
    (hjoined : s.destroyer = .joined) : s.tasks = [] ∧ s.executed.Perm s.accepted := by
  have hlength := hjoins.all (by rw [hjoined]; simp)
  have hall := hjoins.joined hjoined
  have hreturned : .returned ∈ s.workers := List.mem_of_getElem? (hall 0 (by omega))
  have htasks := (haccounted.drained hreturned).2
  have hhands : s.inHand = [] := by
    rw [inHand, List.filterMap_eq_nil_iff]
    intro pc hmem
    obtain ⟨k, hk⟩ := List.getElem?_of_mem hmem
    rw [hall k (List.getElem?_eq_some_iff.mp hk).1] at hk
    rw [← Option.some.inj hk, WorkerPc.hand]
  have htaken := haccounted.taken
  have hfifo := haccounted.fifo
  rw [hhands, List.append_nil] at htaken
  rw [htasks, List.append_nil] at hfifo
  exact ⟨htasks, hfifo ▸ htaken⟩

end State

/-! ## Reachable states -/

variable {threads : ℕ} {s : State τ}

theorem accounted_of_reachable (hreach : (system τ threads).Reachable s) : s.Accounted := by
  apply hreach.invariant
  · rintro _ ⟨callers, rfl⟩
    exact ⟨rfl, rfl, .refl _, fun hmem => (by cases hmem)⟩
  · exact fun s a s' haccounted hstep => haccounted.step (State.effect_step hstep)

theorem joins_of_reachable (hreach : (system τ threads).Reachable s) :
    s.Joins ∧ s.threads = threads := by
  apply hreach.invariant
  · rintro _ ⟨callers, rfl⟩
    have habsent : (State.initial threads callers : State τ).destroyer = .absent := rfl
    exact ⟨⟨Nat.zero_le _, fun hne => absurd habsent hne, fun j hj => (by cases hj),
      fun hj => (by cases hj)⟩, rfl⟩
  · rintro s a s' ⟨hjoins, hthreads⟩ hstep
    have heffect := State.effect_step hstep
    exact ⟨hjoins.step heffect, (State.threads_of_effect heffect).trans hthreads⟩

/-- Tasks leave the queue in the order in which they were accepted, none is
executed twice, nothing is accepted after `stop`, and once the destructor has
joined the workers all accepted tasks have been executed. -/
theorem drains (hthreads : 1 ≤ threads) (hreach : (system τ threads).Reachable s) :
    s.taken ++ s.tasks = s.accepted ∧ s.accepted.Nodup ∧ (s.executed ++ s.inHand).Nodup ∧
      (s.stop = true → ∀ a s', s.step a = some s' → s'.accepted = s.accepted) ∧
      (s.destroyer = .joined → s.tasks = [] ∧ s.executed.Perm s.accepted) := by
  have haccounted := accounted_of_reachable hreach
  obtain ⟨hjoins, hnumber⟩ := joins_of_reachable hreach
  obtain ⟨haccepted, hexecuted⟩ := haccounted.nodup
  refine ⟨haccounted.fifo, haccepted, hexecuted, fun hstop a s' hstep => ?_, fun hjoined => ?_⟩
  · exact State.accepted_of_stop hstop (State.effect_step hstep)
  · exact haccounted.drain hjoins (hnumber ▸ hthreads) hjoined

/-- One worker executes a task that enqueues another one; both are executed before
the destructor is done. -/
def taskFromTask : List (Action ℕ) :=
  [.run .creator none, .enqueue 0 1, .run (.caller 0) none, .run (.caller 0) none,
    .run (.worker 0) none, .enqueueFrom 0 2, .run (.worker 0) none, .destroy, .run .destroyer none,
    .run (.worker 0) none, .run (.worker 0) none, .run (.worker 0) none, .run (.worker 0) none,
    .run (.worker 0) none, .run .destroyer none, .run .destroyer none, .run .destroyer none]

theorem drains_taskFromTask :
    ∃ s : State ℕ, (system ℕ 1).Reachable s ∧ s.destroyer = .joined ∧
      s.accepted = [⟨0, 1⟩, ⟨1, 2⟩] ∧ s.executed.Perm s.accepted := by
  have hfields : ((system ℕ 1).execute (.initial 1 1) taskFromTask).map
      (fun s => (s.destroyer, s.accepted)) = some (.joined, [⟨0, 1⟩, ⟨1, 2⟩]) := by
    decide +kernel
  obtain ⟨s, hs, heq⟩ := Option.map_eq_some_iff.mp hfields
  simp only [Prod.mk.injEq] at heq
  have hstart : (system ℕ 1).Reachable (.initial 1 1) := .initial ⟨1, rfl⟩
  have hreach := hstart.execute hs
  exact ⟨s, hreach, heq.1, heq.2, ((drains le_rfl hreach).2.2.2.2 heq.1).2⟩

end ThreadPoll

end CppProjects
