import CppProjects.Core.ListUpdate
import CppProjects.ThreadPool.DetachedPool
import CppProjects.ThreadPool.ThreadPollDrain

/-!
# `threadpool.h` drains

No notification is lost: while a task is queued, some thread is on its way to the queue or
a call of `AddTask` is about to wake one.  Left to itself the pool comes to rest, and then
every accepted task has been executed.
-/

namespace CppProjects

namespace DetachedPool

open ThreadPoll (CallPc WorkerPc)

variable {τ : Type}

/-- The thread will look at the queue without being woken. -/
def awake : WorkerPc τ → Bool
  | .loop | .woken | .running _ _ => true
  | .waiting | .returned => false

/-- The thread is about to lock `mtx`. -/
def atLock : WorkerPc τ → Bool
  | .loop | .woken => true
  | .waiting | .running _ _ | .returned => false

/-- The task the thread executes is in a call of `AddTask`. -/
def calling : WorkerPc τ → Bool
  | .running _ .idle => false
  | .running _ _ => true
  | .loop | .woken | .waiting | .returned => false

namespace State

variable {s s' s₁ : State τ} {i : ℕ} {pc pc' : WorkerPc τ} {call call' : CallPc τ} {site : Site}
  {wake : Option ℕ} {task : Task τ} {rest : List (Task τ)}

/-! ## The steps -/

/-- A call of `AddTask` goes on. -/
inductive CallMove (s : State τ) (call call' : CallPc τ) : State τ → Prop
  | caller (p : ℕ) (hget : s.callers[p]? = some call) :
      CallMove s call call' { s with callers := s.callers.set p call' }
  | task (i : ℕ) (task : Task τ) (hget : s.workers[i]? = some (.running task call)) :
      CallMove s call call' (s.setWorker i (.running task call'))

/-- What the step of a thread does. -/
inductive Progress (s s' : State τ) : Prop
  | hire (hlt : s.workers.length < s.threadCount) (hs' : s' = { s with workers := s.workers ++ [.loop] })
  | take (i : ℕ) {pc : WorkerPc τ} {task : Task τ} {rest : List (Task τ)}
      (hget : s.workers[i]? = some pc) (hpc : atLock pc) (htasks : s.tasks = task :: rest)
      (hs' : s' = { s with tasks := rest, taken := s.taken ++ [task] }.setWorker i
        (.running task .idle))
  | leave (i : ℕ) {pc : WorkerPc τ} (hget : s.workers[i]? = some pc) (hpc : atLock pc)
      (htasks : s.tasks = []) (hclosed : s.isClosed = true) (hs' : s' = s.setWorker i .returned)
  | wait (i : ℕ) {pc : WorkerPc τ} (hget : s.workers[i]? = some pc) (hpc : atLock pc)
      (htasks : s.tasks = []) (hopen : s.isClosed = false) (hs' : s' = s.setWorker i .waiting)
  | finish (i : ℕ) {task : Task τ} (hget : s.workers[i]? = some (.running task .idle))
      (hs' : s' = { s with executed := s.executed ++ [task] }.setWorker i .loop)
  | accept (body : τ) (hmove : (s.addTask body).CallMove (.locking body) .notifying s')
  | notify {s₁ : State τ} {wake : Option ℕ} (hmove : s.CallMove .notifying .idle s₁)
      (hnotify : s₁.notifyOne wake = some s')
  | close (hlocking : s.destroyer = .locking)
      (hs' : s' = { s with isClosed := true, destroyer := .notifying })
  | notifyAll (hnotifying : s.destroyer = .notifying)
      (hs' : s' = { s.notifyAll with destroyer := .done })

/-- What a step does: a thread goes on, the program asks for something, or a wait ends. -/
inductive Effect (s s' : State τ) : Prop
  | progress (hprogress : s.Progress s')
  | begins (body : τ) (hall : s.workers.length = s.threadCount) (habsent : s.destroyer = .absent)
      (hmove : s.CallMove .idle (.locking body) s')
  | destroy (hquiet : s.noCalls) (habsent : s.destroyer = .absent)
      (hs' : s' = { s with destroyer := .locking })
  | wakes (i : ℕ) (hnotify : s.notifyOne (some i) = some s')

theorem callMove_setCall (hcall : s.callAt site = some call) :
    s.CallMove call call' (s.setCall site call') := by
  cases site with
  | caller p => exact .caller p hcall
  | task i =>
      rw [callAt] at hcall
      split at hcall
      next task other hget =>
        obtain rfl := Option.some.inj hcall
        rw [setCall, hget]
        exact .task i task hget
      next => cases hcall

theorem progress_workerRound (hget : s.workers[i]? = some pc) (hpc : atLock pc) :
    s.Progress (s.workerRound i) := by
  rw [workerRound]
  split
  next task rest htasks => exact .take i hget hpc htasks rfl
  next htasks =>
    split_ifs with hclosed
    · exact .leave i hget hpc htasks hclosed rfl
    · exact .wait i hget hpc htasks (by simpa using hclosed) rfl

theorem progress_worker (hstep : s.worker i = some s') : s.Progress s' := by
  rw [worker] at hstep
  split at hstep
  next hget => exact Option.some.inj hstep ▸ progress_workerRound hget rfl
  next hget => exact Option.some.inj hstep ▸ progress_workerRound hget rfl
  next task hget => exact .finish i hget (Option.some.inj hstep).symm
  all_goals cases hstep

theorem progress_call (hstep : s.call site wake = some s') : s.Progress s' := by
  rw [State.call] at hstep
  split at hstep
  next body hcall =>
    obtain rfl := Option.some.inj hstep
    have hcall' : (s.addTask body).callAt site = some (.locking body) := by
      rw [← hcall]
      rfl
    exact .accept body (callMove_setCall hcall')
  next hcall => exact .notify (callMove_setCall hcall) hstep
  all_goals cases hstep

theorem progress_runThread {thread : Thread} (hstep : s.runThread wake thread = some s') :
    s.Progress s' := by
  cases thread with
  | creator =>
      rw [runThread, construct, Option.ite_none_right_eq_some] at hstep
      exact .hire hstep.1 (Option.some.inj hstep.2).symm
  | worker i => exact progress_worker hstep
  | call site => exact progress_call hstep
  | destroyer =>
      rw [runThread, State.destroy] at hstep
      split at hstep
      next hlocking => exact .close hlocking (Option.some.inj hstep).symm
      next hnotifying => exact .notifyAll hnotifying (Option.some.inj hstep).symm
      all_goals cases hstep

theorem effect_step {a : Action τ} (hstep : s.step a = some s') : s.Effect s' := by
  cases a with
  | run thread wake => exact .progress (progress_runThread hstep)
  | addTask site body =>
      rw [step, Option.ite_none_right_eq_some] at hstep
      obtain ⟨⟨hall, habsent⟩, hstep⟩ := hstep
      split at hstep
      next hcall => exact .begins body hall habsent (Option.some.inj hstep ▸ callMove_setCall hcall)
      next => cases hstep
  | destroy =>
      rw [step, Option.ite_none_right_eq_some] at hstep
      exact .destroy hstep.1.2.2 hstep.1.2.1 (Option.some.inj hstep.2).symm
  | spurious i => exact .wakes i hstep

/-- A notification wakes a thread that waits, or none does. -/
theorem notifyOne_cases (hnotify : s.notifyOne wake = some s') :
    (∃ i, s.workers[i]? = some .waiting ∧ s' = s.setWorker i .woken) ∨
      (.waiting ∉ s.workers ∧ s' = s) := by
  cases wake with
  | some i =>
      rw [notifyOne] at hnotify
      split at hnotify
      next hget => exact .inl ⟨i, hget, (Option.some.inj hnotify).symm⟩
      next => cases hnotify
  | none =>
      rw [notifyOne, Option.ite_none_left_eq_some] at hnotify
      refine .inr ⟨fun hmem => hnotify.1 (List.any_eq_true.mpr ⟨_, hmem, rfl⟩), ?_⟩
      exact (Option.some.inj hnotify.2).symm

/-! ## Where the tasks are -/

def inHand (s : State τ) : List (Task τ) := s.workers.filterMap WorkerPc.hand

/-- Every accepted task is in the queue, in the hands of one thread, or executed. -/
structure Accounted (s : State τ) : Prop where
  fifo : s.taken ++ s.tasks = s.accepted
  tickets : s.accepted.map ThreadPoll.Task.ticket = List.range s.accepted.length
  hands : (s.executed ++ s.inHand).Perm s.taken

theorem inHand_setWorker (hget : s.workers[i]? = some pc) (pc' : WorkerPc τ) :
    (pc.hand.toList ++ (s.setWorker i pc').inHand).Perm (pc'.hand.toList ++ s.inHand) :=
  filterMap_set_perm WorkerPc.hand hget pc'

/-- A thread moves on with the same task, or none, in its hands. -/
theorem Accounted.setWorker (haccounted : s.Accounted) (hget : s.workers[i]? = some pc)
    (hhand : pc'.hand = pc.hand) : (s.setWorker i pc').Accounted where
  fifo := haccounted.fifo
  tickets := haccounted.tickets
  hands := by
    have hhands := inHand_setWorker hget pc'
    rw [hhand, List.perm_append_left_iff] at hhands
    exact (hhands.append_left _).trans haccounted.hands

theorem Accounted.callMove (haccounted : s.Accounted) (hmove : s.CallMove call call' s') :
    s'.Accounted := by
  cases hmove with
  | caller p hget => exact ⟨haccounted.fifo, haccounted.tickets, haccounted.hands⟩
  | task i task hget => exact haccounted.setWorker hget rfl

theorem Accounted.addTask (haccounted : s.Accounted) (body : τ) : (s.addTask body).Accounted where
  fifo := by
    change s.taken ++ (s.tasks ++ _) = s.accepted ++ _
    rw [← List.append_assoc, haccounted.fifo]
  tickets := by
    change (s.accepted ++ _).map ThreadPoll.Task.ticket = List.range (s.accepted ++ _).length
    rw [List.map_append, haccounted.tickets, List.length_append, List.length_singleton,
      List.range_succ]
    rfl
  hands := haccounted.hands

theorem Accounted.notifyOne (haccounted : s.Accounted) (hnotify : s.notifyOne wake = some s') :
    s'.Accounted := by
  rcases notifyOne_cases hnotify with ⟨i, hget, rfl⟩ | ⟨-, rfl⟩
  · exact haccounted.setWorker hget rfl
  · exact haccounted

theorem hand_of_atLock (hpc : atLock pc) : pc.hand = none := by
  cases pc <;> simp_all [atLock, WorkerPc.hand]

theorem Accounted.take (haccounted : s.Accounted) (hget : s.workers[i]? = some pc)
    (hpc : atLock pc) (htasks : s.tasks = task :: rest) :
    ({ s with tasks := rest, taken := s.taken ++ [task] }.setWorker i
      (.running task .idle)).Accounted where
  fifo := by
    change s.taken ++ [task] ++ rest = s.accepted
    rw [List.append_assoc, List.singleton_append, ← htasks, haccounted.fifo]
  tickets := haccounted.tickets
  hands := by
    have hhands := inHand_setWorker hget (.running task .idle)
    rw [hand_of_atLock hpc, Option.toList_none, List.nil_append] at hhands
    calc List.Perm _ (s.executed ++ ([task] ++ s.inHand)) := hhands.append_left _
      List.Perm _ (s.executed ++ s.inHand ++ [task]) := by
        rw [List.append_assoc]
        exact List.perm_append_comm.append_left _
      List.Perm _ (s.taken ++ [task]) := haccounted.hands.append_right _

theorem Accounted.finish (haccounted : s.Accounted)
    (hget : s.workers[i]? = some (.running task .idle)) :
    ({ s with executed := s.executed ++ [task] }.setWorker i .loop).Accounted where
  fifo := haccounted.fifo
  tickets := haccounted.tickets
  hands := by
    have hhands := inHand_setWorker hget .loop
    calc List.Perm _ (s.executed ++ ([task] ++ (s.setWorker i .loop).inHand)) := by
          rw [← List.append_assoc]
          exact .refl _
      List.Perm _ (s.executed ++ s.inHand) := hhands.append_left _
      List.Perm _ s.taken := haccounted.hands

theorem inHand_notifyAll (s : State τ) : s.notifyAll.inHand = s.inHand := by
  rw [inHand, inHand, State.notifyAll, List.filterMap_map]
  refine List.filterMap_congr fun pc _ => ?_
  cases pc <;> rfl

theorem Accounted.progress (haccounted : s.Accounted) (hprogress : s.Progress s') :
    s'.Accounted := by
  cases hprogress with
  | hire _ hs' =>
      subst hs'
      refine ⟨haccounted.fifo, haccounted.tickets, ?_⟩
      rw [inHand, List.filterMap_append, show [WorkerPc.loop].filterMap WorkerPc.hand = [] from rfl,
        List.append_nil]
      exact haccounted.hands
  | take i hget hpc htasks hs' => exact hs' ▸ haccounted.take hget hpc htasks
  | leave i hget hpc _ _ hs' | wait i hget hpc _ _ hs' =>
      exact hs' ▸ haccounted.setWorker hget (hand_of_atLock hpc).symm
  | finish i hget hs' => exact hs' ▸ haccounted.finish hget
  | accept body hmove => exact (haccounted.addTask body).callMove hmove
  | notify hmove hnotify => exact (haccounted.callMove hmove).notifyOne hnotify
  | close _ hs' => exact hs' ▸ ⟨haccounted.fifo, haccounted.tickets, haccounted.hands⟩
  | notifyAll _ hs' =>
      subst hs'
      refine ⟨haccounted.fifo, haccounted.tickets, ?_⟩
      change (s.executed ++ s.notifyAll.inHand).Perm s.taken
      rw [inHand_notifyAll]
      exact haccounted.hands

theorem Accounted.step (haccounted : s.Accounted) (heffect : s.Effect s') : s'.Accounted := by
  cases heffect with
  | progress hprogress => exact haccounted.progress hprogress
  | begins body _ _ hmove => exact haccounted.callMove hmove
  | destroy _ _ hs' => exact hs' ▸ ⟨haccounted.fifo, haccounted.tickets, haccounted.hands⟩
  | wakes i hnotify => exact haccounted.notifyOne hnotify

/-- No task is accepted, executed or in hand twice. -/
theorem Accounted.nodup (haccounted : s.Accounted) :
    s.accepted.Nodup ∧ (s.executed ++ s.inHand).Nodup := by
  have haccepted : s.accepted.Nodup := by
    apply List.Nodup.of_map ThreadPoll.Task.ticket
    rw [haccounted.tickets]
    exact List.nodup_range
  refine ⟨haccepted, haccounted.hands.nodup_iff.mpr ?_⟩
  rw [← haccounted.fifo] at haccepted
  exact haccepted.of_append_left

/-! ## Who is on the way to the queue -/

/-- A call of `AddTask` is under way. -/
def Busy (s : State τ) : Prop := (∃ call ∈ s.callers, call ≠ .idle) ∨ ∃ pc ∈ s.workers, calling pc

/-- While a task is queued, a thread is going to look at the queue or a call is about to
wake one. -/
structure Manned (s : State τ) : Prop where
  threads : 0 < s.threadCount
  calls : s.Busy → s.workers.length = s.threadCount ∧ s.destroyer = .absent
  closed : s.isClosed = true ↔ s.destroyer = .notifying ∨ s.destroyer = .done
  alert : s.tasks ≠ [] → (∃ pc ∈ s.workers, awake pc) ∨ .notifying ∈ s.callers
  left : .returned ∈ s.workers → s.isClosed = true ∧ s.tasks = []
  woken : s.destroyer = .done → .waiting ∉ s.workers

theorem not_busy_of_noCalls (hquiet : s.noCalls) : ¬ s.Busy := by
  simp only [noCalls, Bool.and_eq_true, List.all_eq_true] at hquiet
  rintro (⟨call, hmem, hcall⟩ | ⟨pc, hmem, hpc⟩)
  · have := hquiet.1 call hmem
    cases call <;> simp_all
  · have := hquiet.2 pc hmem
    unfold calling at hpc
    split at hpc <;> simp_all

theorem busy_of_callMove (hmove : s.CallMove call call' s') (hcall : call ≠ .idle) : s.Busy := by
  cases hmove with
  | caller p hget => exact .inl ⟨call, List.mem_of_getElem? hget, hcall⟩
  | task i task hget =>
      refine .inr ⟨_, List.mem_of_getElem? hget, ?_⟩
      cases call <;> simp_all [calling]

/-- A step after which no more threads wait and no more have returned. -/
theorem Manned.keep (hmanned : s.Manned) (hcount : s'.threadCount = s.threadCount)
    (hclosed : s'.isClosed = s.isClosed) (hdestroyer : s'.destroyer = s.destroyer)
    (htasks : .returned ∈ s.workers → s'.tasks = s.tasks)
    (hworkers : ∀ pc ∈ s'.workers, pc ∈ s.workers ∨ awake pc)
    (hbusy : s'.Busy → s'.workers.length = s.threadCount ∧ s.destroyer = .absent)
    (hawake : s'.tasks ≠ [] → (∃ pc ∈ s'.workers, awake pc) ∨ .notifying ∈ s'.callers) :
    s'.Manned where
  threads := hcount ▸ hmanned.threads
  calls hbusy' := by
    rw [hcount, hdestroyer]
    exact hbusy hbusy'
  closed := by rw [hclosed, hdestroyer, hmanned.closed]
  alert := hawake
  left hmem := by
    have hold := (hworkers _ hmem).resolve_right Bool.false_ne_true
    rw [hclosed, htasks hold]
    exact hmanned.left hold
  woken hdone hmem :=
    hmanned.woken (hdestroyer ▸ hdone) ((hworkers _ hmem).resolve_right Bool.false_ne_true)

theorem mem_setWorker (hmem : pc' ∈ (s.setWorker i pc).workers) : pc' ∈ s.workers ∨ pc' = pc :=
  List.mem_or_eq_of_mem_set hmem

theorem mem_setWorker_of_awake (hawake : awake pc) (hmem : pc' ∈ (s.setWorker i pc).workers) :
    pc' ∈ s.workers ∨ awake pc' :=
  (mem_setWorker hmem).imp_right fun heq => by rw [heq, hawake]

theorem mem_self_setWorker (hget : s.workers[i]? = some pc) (pc' : WorkerPc τ) :
    pc' ∈ (s.setWorker i pc').workers :=
  List.mem_set (List.getElem?_eq_some_iff.mp hget).1 pc'

/-- A thread is going to look at the queue, and it was not executing a task in a call. -/
theorem Manned.setWorker (hmanned : s.Manned) (pc' : WorkerPc τ) (hget : s.workers[i]? = some pc)
    (hawake : awake pc') (hcalling : calling pc' = false) : (s.setWorker i pc').Manned := by
  refine hmanned.keep rfl rfl rfl (fun _ => rfl) (fun pc hmem => ?_) (fun hbusy => ?_)
    fun _ => .inl ⟨pc', mem_self_setWorker hget pc', hawake⟩
  · exact mem_setWorker_of_awake hawake hmem
  · rw [State.setWorker, List.length_set]
    refine hmanned.calls (hbusy.imp_right ?_)
    rintro ⟨pc, hmem, hpc⟩
    rcases mem_setWorker hmem with hmem | rfl
    · exact ⟨pc, hmem, hpc⟩
    · rw [hcalling] at hpc
      cases hpc

theorem Manned.take (hmanned : s.Manned) (hget : s.workers[i]? = some pc)
    (htasks : s.tasks = task :: rest) :
    ({ s with tasks := rest, taken := s.taken ++ [task] }.setWorker i
      (.running task .idle)).Manned := by
  refine Manned.keep (hmanned.setWorker (.running task .idle) hget rfl rfl) rfl rfl rfl
    (fun hmem => ?_) (fun pc hmem => .inl hmem) ?_
    fun _ => .inl ⟨_, mem_self_setWorker hget _, rfl⟩
  · have hold : .returned ∈ s.workers := (mem_setWorker hmem).resolve_right nofun
    rw [(hmanned.left hold).2] at htasks
    cases htasks
  · exact (hmanned.setWorker (.running task .idle) hget rfl rfl).calls

/-- A thread at the lock finds no task. -/
theorem Manned.setWorker_of_empty (hmanned : s.Manned) (htasks : s.tasks = [])
    (hcalling : calling pc' = false) (hleft : pc' = .returned → s.isClosed = true)
    (hwaiting : pc' = .waiting → s.isClosed = false) : (s.setWorker i pc').Manned where
  threads := hmanned.threads
  calls hbusy := by
    change (s.workers.set i pc').length = s.threadCount ∧ _
    rw [List.length_set]
    refine hmanned.calls (hbusy.imp_right ?_)
    rintro ⟨pc, hmem, hpc⟩
    rcases mem_setWorker hmem with hmem | rfl
    · exact ⟨pc, hmem, hpc⟩
    · rw [hcalling] at hpc
      cases hpc
  closed := hmanned.closed
  alert hne := absurd htasks hne
  left hmem := by
    rcases mem_setWorker hmem with hmem | heq
    · exact hmanned.left hmem
    · exact ⟨hleft heq.symm, htasks⟩
  woken hdone hmem := by
    rcases mem_setWorker hmem with hmem | heq
    · exact hmanned.woken hdone hmem
    · have hclosed := hmanned.closed.mpr (.inr hdone)
      rw [hwaiting heq.symm] at hclosed
      cases hclosed

/-- While a call is under way no thread has returned. -/
theorem Manned.not_returned (hmanned : s.Manned) (habsent : s.destroyer = .absent) :
    .returned ∉ s.workers := by
  intro hmem
  rcases hmanned.closed.mp (hmanned.left hmem).1 with hlate | hlate
  all_goals
    rw [habsent] at hlate
    cases hlate

theorem Manned.begins {body : τ} (hmanned : s.Manned) (hall : s.workers.length = s.threadCount)
    (habsent : s.destroyer = .absent) (hmove : s.CallMove .idle (.locking body) s') : s'.Manned := by
  cases hmove with
  | caller p hget =>
      refine hmanned.keep rfl rfl rfl (fun _ => rfl) (fun pc hmem => .inl hmem)
        (fun _ => ⟨hall, habsent⟩) fun hne => (hmanned.alert hne).imp_right fun hmem => ?_
      obtain ⟨q, hq⟩ := List.getElem?_of_mem hmem
      have hne : (.notifying : CallPc τ) ≠ .idle := nofun
      exact List.mem_of_getElem? (getElem?_set_of_ne hget hne hq (.locking body))
  | task i task hget =>
      refine hmanned.keep rfl rfl rfl (fun _ => rfl) (fun pc hmem => ?_)
        (fun _ => ⟨(List.length_set ..).trans hall, habsent⟩)
        fun _ => .inl ⟨_, mem_self_setWorker hget _, rfl⟩
      exact mem_setWorker_of_awake rfl hmem

theorem Manned.accept {body : τ} (hmanned : s.Manned)
    (hmove : (s.addTask body).CallMove (.locking body) .notifying s') : s'.Manned := by
  have hbusy : (s.addTask body).Busy := busy_of_callMove hmove nofun
  obtain ⟨hall, habsent⟩ := hmanned.calls hbusy
  have hnone := hmanned.not_returned habsent
  cases hmove with
  | caller p hget =>
      exact hmanned.keep rfl rfl rfl (fun hmem => absurd hmem hnone) (fun pc hmem => .inl hmem)
        (fun _ => ⟨hall, habsent⟩)
        fun _ => .inr (List.mem_set (List.getElem?_eq_some_iff.mp hget).1 _)
  | task i task hget =>
      refine hmanned.keep rfl rfl rfl (fun hmem => absurd hmem hnone) (fun pc hmem => ?_)
        (fun _ => ⟨(List.length_set ..).trans hall, habsent⟩)
        fun _ => .inl ⟨_, mem_self_setWorker hget _, rfl⟩
      exact mem_setWorker_of_awake rfl hmem

/-- Where no thread waits and none has returned, one is on its way to the queue. -/
theorem Manned.exists_awake (hmanned : s.Manned) (hall : s.workers.length = s.threadCount)
    (hnone : .returned ∉ s.workers) (hwaiting : .waiting ∉ s.workers) : ∃ pc ∈ s.workers, awake pc := by
  obtain ⟨pc, hmem⟩ := List.exists_mem_of_length_pos (hall ▸ hmanned.threads)
  refine ⟨pc, hmem, ?_⟩
  cases pc with
  | waiting => exact absurd hmem hwaiting
  | returned => exact absurd hmem hnone
  | loop | woken | running => rfl

theorem Manned.notify (hmanned : s.Manned) (hmove : s.CallMove .notifying .idle s₁)
    (hnotify : s₁.notifyOne wake = some s') : s'.Manned := by
  obtain ⟨hall, habsent⟩ := hmanned.calls (busy_of_callMove hmove nofun)
  have hnone := hmanned.not_returned habsent
  cases hmove with
  | caller p hget =>
      rcases notifyOne_cases hnotify with ⟨i, hi, rfl⟩ | ⟨hwaiting, rfl⟩
      · refine hmanned.keep rfl rfl rfl (fun _ => rfl) (fun pc hmem => ?_)
          (fun _ => ⟨(List.length_set ..).trans hall, habsent⟩)
          fun _ => .inl ⟨_, mem_self_setWorker hi _, rfl⟩
        exact mem_setWorker_of_awake rfl hmem
      · exact hmanned.keep rfl rfl rfl (fun _ => rfl) (fun pc hmem => .inl hmem)
          (fun _ => ⟨hall, habsent⟩) fun _ => .inl (hmanned.exists_awake hall hnone hwaiting)
  | task i task hget =>
      have hmoved := hmanned.setWorker (.running task .idle) hget rfl rfl
      rcases notifyOne_cases hnotify with ⟨j, hj, rfl⟩ | ⟨-, rfl⟩
      · exact hmoved.setWorker .woken hj rfl rfl
      · exact hmoved

theorem mem_notifyAll (hmem : pc ∈ s.notifyAll.workers) :
    pc = .woken ∨ pc ∈ s.workers ∧ pc ≠ .waiting := by
  obtain ⟨old, hold, rfl⟩ := List.mem_map.mp hmem
  cases old <;> simp_all

theorem Manned.notifyAll (hmanned : s.Manned) (hnotifying : s.destroyer = .notifying) :
    State.Manned { s.notifyAll with destroyer := .done } where
  threads := hmanned.threads
  calls hbusy := by
    have hold : s.Busy := hbusy.imp_right fun ⟨pc, hmem, hpc⟩ => by
      rcases mem_notifyAll hmem with rfl | ⟨hmem, -⟩
      · cases hpc
      · exact ⟨pc, hmem, hpc⟩
    have habsent := (hmanned.calls hold).2
    rw [hnotifying] at habsent
    cases habsent
  closed := by simp [State.notifyAll, hmanned.closed, hnotifying]
  alert hne := by
    refine (hmanned.alert hne).imp_left fun ⟨pc, hmem, hpc⟩ => ⟨pc, ?_, hpc⟩
    refine List.mem_map.mpr ⟨pc, hmem, ?_⟩
    cases pc <;> simp_all [awake]
  left hmem := hmanned.left ((mem_notifyAll hmem).resolve_left nofun).1
  woken _ hmem := ((mem_notifyAll hmem).resolve_left nofun).2 rfl

theorem Manned.progress (hmanned : s.Manned) (hprogress : s.Progress s') : s'.Manned := by
  cases hprogress with
  | hire hlt hs' =>
      subst hs'
      have hquiet : ¬ s.Busy := fun hbusy => hlt.ne (hmanned.calls hbusy).1
      refine hmanned.keep rfl rfl rfl (fun _ => rfl) (fun pc hmem => ?_) (fun hbusy => ?_)
        fun _ => .inl ⟨.loop, by simp, rfl⟩
      · exact (List.mem_append.mp hmem).imp_right fun hmem => by rw [List.mem_singleton.mp hmem, awake]
      · refine absurd (hbusy.imp_right ?_) hquiet
        rintro ⟨pc, hmem, hpc⟩
        rcases List.mem_append.mp hmem with hmem | hmem
        · exact ⟨pc, hmem, hpc⟩
        · rw [List.mem_singleton.mp hmem] at hpc
          cases hpc
  | take i hget _ htasks hs' => exact hs' ▸ hmanned.take hget htasks
  | leave i hget _ htasks hclosed hs' =>
      exact hs' ▸ hmanned.setWorker_of_empty htasks rfl (fun _ => hclosed) nofun
  | wait i hget _ htasks hopen hs' =>
      exact hs' ▸ hmanned.setWorker_of_empty htasks rfl nofun fun _ => hopen
  | finish i hget hs' =>
      have hmoved := hmanned.setWorker .loop hget rfl rfl
      exact hs' ▸ ⟨hmoved.threads, hmoved.calls, hmoved.closed, hmoved.alert, hmoved.left, hmoved.woken⟩
  | accept body hmove => exact hmanned.accept hmove
  | notify hmove hnotify => exact hmanned.notify hmove hnotify
  | close hlocking hs' =>
      subst hs'
      refine ⟨hmanned.threads, fun hbusy => ?_, by simp, hmanned.alert,
        fun hmem => ⟨rfl, (hmanned.left hmem).2⟩, nofun⟩
      have habsent := (hmanned.calls hbusy).2
      rw [hlocking] at habsent
      cases habsent
  | notifyAll hnotifying hs' => exact hs' ▸ hmanned.notifyAll hnotifying

theorem Manned.step (hmanned : s.Manned) (heffect : s.Effect s') : s'.Manned := by
  cases heffect with
  | progress hprogress => exact hmanned.progress hprogress
  | begins body hall habsent hmove => exact hmanned.begins hall habsent hmove
  | destroy hquiet habsent hs' =>
      subst hs'
      have hopen := hmanned.closed
      rw [habsent] at hopen
      exact ⟨hmanned.threads, fun hbusy => absurd hbusy (not_busy_of_noCalls hquiet),
        by simpa using hopen, hmanned.alert, hmanned.left, nofun⟩
  | wakes i hnotify =>
      rcases notifyOne_cases hnotify with ⟨j, hj, rfl⟩ | ⟨-, rfl⟩
      · exact hmanned.setWorker .woken hj rfl rfl
      · exact hmanned

/-! ## The way to rest -/

def callWeight : CallPc τ → ℕ
  | .idle => 0
  | .notifying => 2
  | .locking _ => 5

def workerWeight : WorkerPc τ → ℕ
  | .waiting | .returned => 0
  | .loop | .woken => 1
  | .running _ call => 2 + callWeight call

def destroyerWeight (workers : ℕ) : DestroyerPc → ℕ
  | .absent | .done => 0
  | .notifying => workers + 1
  | .locking => workers + 2

/-- What the threads have still to do, as long as no new call begins. -/
def work (s : State τ) : ℕ :=
  3 * (s.threadCount - s.workers.length) + 2 * s.tasks.length + (s.workers.map workerWeight).sum +
    (s.callers.map callWeight).sum + destroyerWeight s.workers.length s.destroyer

theorem weight_of_atLock (hpc : atLock pc) : workerWeight pc = 1 := by
  cases pc <;> simp_all [atLock, workerWeight]

theorem work_setWorker (hget : s.workers[i]? = some pc) (pc' : WorkerPc τ) :
    (s.setWorker i pc').work + workerWeight pc = s.work + workerWeight pc' := by
  have hsum := sum_map_set_of_getElem? workerWeight hget pc'
  rw [work, work, State.setWorker]
  dsimp only
  rw [List.length_set]
  omega

theorem work_callMove (hmove : s.CallMove call call' s') :
    s'.work + callWeight call = s.work + callWeight call' := by
  cases hmove with
  | caller p hget =>
      have hsum := sum_map_set_of_getElem? callWeight hget call'
      rw [work, work]
      dsimp only
      omega
  | task i task hget =>
      have hsum := work_setWorker hget (.running task call')
      rw [workerWeight, workerWeight] at hsum
      omega

theorem work_notifyOne_le (hnotify : s.notifyOne wake = some s') : s'.work ≤ s.work + 1 := by
  rcases notifyOne_cases hnotify with ⟨i, hget, rfl⟩ | ⟨-, rfl⟩
  · have hsum := work_setWorker hget .woken
    rw [workerWeight, workerWeight] at hsum
    omega
  · omega

theorem sum_notifyAll_le (s : State τ) : (s.notifyAll.workers.map workerWeight).sum ≤
    (s.workers.map workerWeight).sum + s.workers.length := by
  rw [State.notifyAll]
  induction s.workers with
  | nil => simp
  | cons pc workers ih =>
      rw [List.map_map] at ih
      simp only [List.map_cons, List.sum_cons, List.length_cons, List.map_map]
      cases pc <;> simp [workerWeight] <;> omega

theorem work_notifyAll_lt (hnotifying : s.destroyer = .notifying) :
    State.work { s.notifyAll with destroyer := .done } < s.work := by
  have hsum := sum_notifyAll_le s
  have hlength : s.notifyAll.workers.length = s.workers.length := List.length_map ..
  rw [work, work, hnotifying, destroyerWeight]
  dsimp only
  rw [hlength, destroyerWeight]
  have htasks : s.notifyAll.tasks = s.tasks := rfl
  have hcount : s.notifyAll.threadCount = s.threadCount := rfl
  have hcallers : s.notifyAll.callers = s.callers := rfl
  rw [htasks, hcount, hcallers]
  omega

/-- Each step of a thread leaves less to do. -/
theorem work_lt (hprogress : s.Progress s') : s'.work < s.work := by
  cases hprogress with
  | hire hlt hs' =>
      subst hs'
      rw [work, work]
      simp only [List.length_append, List.length_singleton, List.map_append, List.sum_append,
        List.map_singleton, List.sum_singleton, workerWeight]
      cases s.destroyer <;> simp only [destroyerWeight] <;> omega
  | @take i pc task rest hget hpc htasks hs' =>
      subst hs'
      have hsum := @work_setWorker _ { s with tasks := rest, taken := s.taken ++ [task] } i pc hget
        (.running task .idle)
      have hshorter : State.work { s with tasks := rest, taken := s.taken ++ [task] } + 2 = s.work := by
        simp only [work, htasks, List.length_cons]
        omega
      rw [weight_of_atLock hpc, workerWeight, callWeight] at hsum
      omega
  | leave i hget hpc _ _ hs' =>
      subst hs'
      have hsum := work_setWorker hget .returned
      rw [weight_of_atLock hpc, workerWeight] at hsum
      omega
  | wait i hget hpc _ _ hs' =>
      subst hs'
      have hsum := work_setWorker hget .waiting
      rw [weight_of_atLock hpc, workerWeight] at hsum
      omega
  | finish i hget hs' =>
      subst hs'
      have hsum := work_setWorker hget .loop
      rw [workerWeight, workerWeight] at hsum
      change (s.setWorker i .loop).work < s.work
      omega
  | accept body hmove =>
      have hmoved := work_callMove hmove
      have hadded : (s.addTask body).work = s.work + 2 := by
        simp only [work, addTask, List.length_append, List.length_singleton]
        omega
      rw [callWeight, callWeight] at hmoved
      omega
  | notify hmove hnotify =>
      have hmoved := work_callMove hmove
      have hwoken := work_notifyOne_le hnotify
      rw [callWeight, callWeight] at hmoved
      omega
  | close hlocking hs' =>
      subst hs'
      simp only [work, hlocking, destroyerWeight]
      omega
  | notifyAll hnotifying hs' => exact hs' ▸ work_notifyAll_lt hnotifying

end State

/-! ## Rest -/

/-- A step that a thread takes by itself: no call begins, nothing is destroyed, and no wait
ends without a notification. -/
def Action.own : Action τ → Prop
  | .run _ _ => True
  | .addTask _ _ | .destroy | .spurious _ => False

/-- What holds in every state. -/
structure State.Sound (s : State τ) : Prop where
  accounted : s.Accounted
  manned : s.Manned

theorem sound_initial {threadCount : ℕ} (hthreads : 0 < threadCount) (callers : ℕ) :
    (State.initial threadCount callers : State τ).Sound where
  accounted := ⟨rfl, rfl, .refl _⟩
  manned := by
    refine ⟨hthreads, ?_, by simp [State.initial], fun hne => absurd rfl hne, nofun, nofun⟩
    rintro (⟨call, hmem, hcall⟩ | ⟨pc, hmem, -⟩)
    · exact absurd (List.eq_of_mem_replicate hmem) hcall
    · cases hmem

theorem State.Sound.step {s s' : State τ} {a : Action τ} (hsound : s.Sound)
    (hstep : s.step a = some s') : s'.Sound :=
  ⟨hsound.accounted.step (effect_step hstep), hsound.manned.step (effect_step hstep)⟩

theorem sound_of_reachable {s : State τ} (hreach : (system τ).Reachable s) : s.Sound := by
  refine hreach.invariant ?_ fun s a s' hsound hstep => hsound.step hstep
  rintro _ ⟨threadCount, callers, hthreads, rfl⟩
  exact sound_initial hthreads callers

/-- Where no thread can take a step, all have been started, none is at the lock or executes
a task, and no call and no destruction is under way. -/
structure State.Still (s : State τ) : Prop where
  workers : s.threadCount ≤ s.workers.length ∧ ∀ pc ∈ s.workers, pc = .waiting ∨ pc = .returned
  callers : ∀ call ∈ s.callers, call = .idle
  destroyer : s.destroyer = .absent ∨ s.destroyer = .done

theorem State.exists_notifyOne (s : State τ) : ∃ wake s', s.notifyOne wake = some s' := by
  by_cases hwaiting : .waiting ∈ s.workers
  · obtain ⟨i, hget⟩ := List.getElem?_of_mem hwaiting
    exact ⟨some i, _, by rw [notifyOne, hget]⟩
  · refine ⟨none, s, if_neg fun hany => ?_⟩
    obtain ⟨pc, hmem, hpc⟩ := List.any_eq_true.mp hany
    cases pc with
    | waiting => exact hwaiting hmem
    | loop | woken | running | returned => cases hpc

theorem State.exists_call {s : State τ} {site : Site} {call : CallPc τ}
    (hcall : s.callAt site = some call) (hbusy : call ≠ .idle) :
    ∃ wake s', s.call site wake = some s' := by
  cases call with
  | idle => exact absurd rfl hbusy
  | locking body => exact ⟨none, _, by rw [State.call, hcall]⟩
  | notifying =>
      obtain ⟨wake, s', hnotify⟩ := (s.setCall site .idle).exists_notifyOne
      exact ⟨wake, s', by rw [State.call, hcall]; exact hnotify⟩

theorem still_of_rests {s : State τ} (hrests : (system τ).Rests Action.own s) : s.Still := by
  have hrun : ∀ thread wake, s.runThread wake thread = none := fun thread wake =>
    hrests (.run thread wake) trivial
  have hidle : ∀ site call, s.callAt site = some call → call = .idle := by
    intro site call hcall
    by_contra hbusy
    obtain ⟨wake, s', hstep⟩ := State.exists_call hcall hbusy
    have hnone : s.call site wake = none := hrun (.call site) wake
    rw [hstep] at hnone
    cases hnone
  refine ⟨⟨?_, fun pc hmem => ?_⟩, fun call hmem => ?_, ?_⟩
  · have hnone : s.construct = none := hrun .creator none
    rw [State.construct] at hnone
    split_ifs at hnone with hlt
    omega
  · obtain ⟨i, hget⟩ := List.getElem?_of_mem hmem
    have hnone : s.worker i = none := hrun (.worker i) none
    rw [State.worker, hget] at hnone
    cases pc with
    | loop | woken => cases hnone
    | waiting => exact .inl rfl
    | returned => exact .inr rfl
    | running task call =>
        have hcall : call = .idle := hidle (.task i) call (by rw [State.callAt, hget])
        rw [hcall] at hnone
        cases hnone
  · obtain ⟨p, hget⟩ := List.getElem?_of_mem hmem
    exact hidle (.caller p) call hget
  · have hnone : s.destroy = none := hrun .destroyer none
    rw [State.destroy] at hnone
    cases hdestroyer : s.destroyer with
    | absent => exact .inl rfl
    | done => exact .inr rfl
    | locking | notifying =>
        rw [hdestroyer] at hnone
        cases hnone

/-- Where the threads rest nothing is left to do. -/
theorem State.Still.drained {s : State τ} (hstill : s.Still) (hsound : s.Sound) :
    s.tasks = [] ∧ s.executed.Perm s.accepted ∧
      ∀ pc ∈ s.workers, pc = if s.destroyer = .done then .returned else .waiting := by
  have htasks : s.tasks = [] := by
    by_contra hne
    rcases hsound.manned.alert hne with ⟨pc, hmem, hpc⟩ | hmem
    · rcases hstill.workers.2 pc hmem with rfl | rfl <;> cases hpc
    · cases hstill.callers _ hmem
  refine ⟨htasks, ?_, fun pc hmem => ?_⟩
  · have hhands : s.inHand = [] := by
      rw [State.inHand, List.filterMap_eq_nil_iff]
      intro pc hmem
      rcases hstill.workers.2 pc hmem with rfl | rfl <;> rfl
    have hfifo := hsound.accounted.fifo
    have htaken := hsound.accounted.hands
    rw [htasks, List.append_nil] at hfifo
    rw [hhands, List.append_nil] at htaken
    exact hfifo ▸ htaken
  · split_ifs with hdone
    · refine (hstill.workers.2 pc hmem).resolve_left fun hwaiting => ?_
      exact hsound.manned.woken hdone (hwaiting ▸ hmem)
    · refine (hstill.workers.2 pc hmem).resolve_right fun hreturned => ?_
      exact hsound.manned.not_returned (hstill.destroyer.resolve_right hdone) (hreturned ▸ hmem)

/-- Tasks are taken in the order in which they were accepted and none is executed twice.  If
no new call begins, the threads come to rest, within a number of steps that is known; and
where they rest every accepted task has been executed, and all threads wait for more, or
have returned if the `ThreadPool` is gone. -/
theorem pool_drains {s : State τ} (hreach : (system τ).Reachable s) :
    (s.taken ++ s.tasks = s.accepted ∧ s.accepted.Nodup ∧ (s.executed ++ s.inHand).Nodup) ∧
    (∃ labels s', (∀ a ∈ labels, a.own) ∧ (system τ).execute s labels = some s' ∧
      (system τ).Rests Action.own s') ∧
    ∀ labels s', (∀ a ∈ labels, a.own) → (system τ).execute s labels = some s' →
      labels.length ≤ s.work ∧ ((system τ).Rests Action.own s' →
        s'.tasks = [] ∧ s'.executed.Perm s'.accepted ∧
          ∀ pc ∈ s'.workers, pc = if s'.destroyer = .done then .returned else .waiting) := by
  have hsound := sound_of_reachable hreach
  have hkeep : ∀ (s : State τ) a s', s.Sound → (system τ).step s a = some s' → s'.Sound :=
    fun s a s' hsound hstep => hsound.step hstep
  have hfalls : ∀ (s : State τ) a s', s.Sound → a.own → (system τ).step s a = some s' →
      s'.work < s.work := by
    intro s a s' _ hown hstep
    cases a with
    | run thread wake => exact State.work_lt (State.progress_runThread hstep)
    | addTask | destroy | spurious => cases hown
  refine ⟨⟨hsound.accounted.fifo, hsound.accounted.nodup⟩,
    TransitionSystem.exists_rests State.work hkeep hfalls hsound, fun labels s' hown hlabels => ?_⟩
  have hle := TransitionSystem.length_le_of_execute State.work hkeep hfalls hsound hown hlabels
  exact ⟨(Nat.le_add_right _ _).trans hle, fun hrests =>
    (still_of_rests hrests).drained (sound_of_reachable (hreach.execute hlabels))⟩

/-- A task adds another one, and the `ThreadPool` is destroyed while a third is queued. -/
def taskAddsTask : List (Action ℕ) :=
  [.run .creator none, .run .creator none, .addTask (.caller 0) 1, .run (.call (.caller 0)) none,
    .run (.call (.caller 0)) none, .run (.worker 0) none, .addTask (.task 0) 2,
    .run (.call (.task 0)) none, .run (.worker 1) none, .run (.call (.task 0)) none,
    .addTask (.caller 0) 3, .run (.call (.caller 0)) none, .run (.call (.caller 0)) none, .destroy]

theorem pool_drains_taskAddsTask : ∃ s : State ℕ, (system ℕ).Reachable s ∧
    s.accepted = [⟨0, 1⟩, ⟨1, 2⟩, ⟨2, 3⟩] ∧ s.executed = [] ∧
    ∃ labels s', (∀ a ∈ labels, a.own) ∧ (system ℕ).execute s labels = some s' ∧
      (system ℕ).Rests Action.own s' := by
  have hfields : ((system ℕ).execute (.initial 2 1) taskAddsTask).map
      (fun s => (s.accepted, s.executed)) = some ([⟨0, 1⟩, ⟨1, 2⟩, ⟨2, 3⟩], []) := by
    decide +kernel
  obtain ⟨s, hs, heq⟩ := Option.map_eq_some_iff.mp hfields
  obtain ⟨haccepted, hexecuted⟩ := Prod.mk.inj heq
  have hinitial : (system ℕ).initial (.initial 2 1) := ⟨2, 1, by decide, rfl⟩
  have hreach := (TransitionSystem.Reachable.initial hinitial).execute hs
  exact ⟨s, hreach, haccepted, hexecuted, (pool_drains hreach).2.1⟩

end DetachedPool

end CppProjects
