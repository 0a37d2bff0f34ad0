import CppProjects.Epoll.Slots

/-!
# Every client has a slot

As long as no connection is accepted while all slots are in use, the slots with status 1
account for the open descriptors.  A connection that is accepted then is neither stored
nor closed.
-/

namespace CppProjects.Epoll

open LittleEndian

namespace State

variable {state state' : State} {ev : Index} {slot : Slot}

/-! ## The steps of the main loop -/

/-- What each step needs, and what it leads to. -/
inductive Turn (state : State) : Label → State → Prop
  | start (now : ℤ) (hcontrol : state.control = .top) :
      Turn state (.start now) { state with control := .testing now 100 }
  | test (now : ℤ) (left : ℕ) (hcontrol : state.control = .testing now (left + 1)) :
      Turn state .next { state.testSlot now with control := .testing now left }
  | poll (now : ℤ) (hcontrol : state.control = .testing now 0) :
      Turn state .next { state with control := .polling }
  | again (hcontrol : state.control = .dispatching []) :
      Turn state .next { state with control := .top }
  | wait (reports : List Report) (hcontrol : state.control = .polling)
      (hreturns : state.Returns reports) : Turn state (.wait reports) { state with
        control := .dispatching (reports.map fun report => (report.ev, report.events)) }
  | fail (hcontrol : state.control = .polling) :
      Turn state .waitFails { state with control := .exited }
  | serve (ev : Index) (events : Events) (rest : List (Index × Events)) (first second : Answer)
      (served : State) (hcontrol : state.control = .dispatching ((ev, events) :: rest))
      (hdispatch : state.dispatch ev events first second = some served) :
      Turn state (.serve first second) { served with control := .dispatching rest }

theorem turn_of_step {label : Label} (hstep : state.step label = some state') :
    state.Turn label state' := by
  cases label with
  | start now =>
      cases hcontrol : state.control <;> simp only [step, hcontrol, reduceCtorEq] at hstep
      obtain rfl := Option.some.inj hstep
      exact .start now hcontrol
  | next =>
      cases hcontrol : state.control with
      | testing now left =>
          cases left <;> simp only [step, hcontrol] at hstep <;> obtain rfl := Option.some.inj hstep
          · exact .poll now hcontrol
          · exact .test now _ hcontrol
      | dispatching events =>
          cases events <;> simp only [step, hcontrol, reduceCtorEq] at hstep
          obtain rfl := Option.some.inj hstep
          exact .again hcontrol
      | _ => simp only [step, hcontrol, reduceCtorEq] at hstep
  | wait reports =>
      cases hcontrol : state.control <;> simp only [step, hcontrol, reduceCtorEq] at hstep
      split_ifs at hstep with hreturns
      obtain rfl := Option.some.inj hstep
      exact .wait reports hcontrol hreturns
  | waitFails =>
      cases hcontrol : state.control <;> simp only [step, hcontrol, reduceCtorEq] at hstep
      obtain rfl := Option.some.inj hstep
      exact .fail hcontrol
  | serve first second =>
      cases hcontrol : state.control with
      | dispatching events =>
          cases events <;> simp only [step, hcontrol, reduceCtorEq] at hstep
          obtain ⟨served, hdispatch, rfl⟩ := Option.map_eq_some_iff.mp hstep
          exact .serve _ _ _ first second served hcontrol hdispatch
      | _ => simp only [step, hcontrol, reduceCtorEq] at hstep

/-- A turn of the timeout test moves on, and may release a client's slot. -/
theorem testSlot_cases (now : ℤ) : ∃ pos, pos ≠ listening ∧
    (state.testSlot now = { state with checkpos := pos + 1 } ∨
      ((state.gEvents pos).status = true ∧
        state.testSlot now = ({ state with checkpos := pos + 1 } : State).release pos)) := by
  have hzero : (0 : Index) ≠ listening := by
    rw [Ne, Fin.ext_iff]
    simp [listening, maxEvents]
  refine ⟨if state.checkpos = listening then 0 else state.checkpos, ?_, ?_⟩
  · split_ifs with hlast
    · exact hzero
    · exact hlast
  · rw [testSlot]
    generalize (if state.checkpos = listening then 0 else state.checkpos) = pos
    split_ifs with htimeout
    · have hstatus : (({ state with checkpos := pos + 1 } : State).gEvents pos).status = true := htimeout.1
      exact .inr ⟨hstatus, eventdel_close hstatus⟩
    · exact .inl rfl

/-! ## What every step keeps -/

namespace Wired

/-- The place of the main loop does not matter. -/
theorem moved (hwired : state.Wired) (checkpos : Index) (control : Control) :
    ({ state with checkpos := checkpos, control := control } : State).Wired :=
  ⟨hwired.listens, hwired.serves, hwired.distinct, hwired.open_of_client, hwired.registered,
    hwired.asked⟩

theorem testSlot (hwired : state.Wired) (now : ℤ) : (state.testSlot now).Wired := by
  obtain ⟨pos, hpos, htest | ⟨hstatus, htest⟩⟩ := state.testSlot_cases now
  · rw [htest]
    exact hwired.moved (pos + 1) state.control
  · rw [htest]
    exact (hwired.moved (pos + 1) state.control).release hpos hstatus

theorem of_served (hwired : state.Wired) (hstatus : (state.gEvents ev).status = true)
    {events : Events} {first second : Answer} (hserved : state.Served ev events first second state') :
    state'.Wired := by
  cases hserved with
  | idle => exact hwired
  | refused cfd _ _ _ hnew => exact hwired.enroll hnew
  | seated cfd i _ hnew hfree =>
      obtain ⟨hi, hunused⟩ := firstFree_spec hfree
      apply Wired.setConversation
      refine (hwired.enroll hnew).install hi (Finset.mem_insert_self _ _) (fun ev' hactive hfd => ?_)
        (fun hactive => ?_) rfl rfl (.inl ⟨rfl, rfl⟩)
      · exact absurd hfd (hwired.fd_ne hnew hactive)
      · exact absurd hactive (Bool.eq_false_iff.mp hunused)
  | gone hev => exact hwired.release hev hstatus
  | silent hev => exact (hwired.setConversation _).release hev hstatus
  | heard data hev =>
      apply Wired.setConversation
      exact hwired.reinstall hev hstatus rfl rfl rfl (.inr ⟨rfl, rfl⟩)
  | answered len hev =>
      apply Wired.setConversation
      exact hwired.reinstall hev hstatus rfl rfl rfl (.inl ⟨rfl, rfl⟩)

end Wired

/-- An event changes no other slot that is in use. -/
theorem Served.others {events : Events} {first second : Answer}
    (hstatus : (state.gEvents ev).status = true)
    (hserved : state.Served ev events first second state') {ev' : Index} (hne : ev' ≠ ev)
    (hactive : (state.gEvents ev').status = true) : state'.gEvents ev' = state.gEvents ev' := by
  cases hserved with
  | idle | refused => rfl
  | seated cfd i _ _ hfree =>
      have hi : ev' ≠ i := by
        rintro rfl
        rw [(firstFree_spec hfree).2] at hactive
        cases hactive
      exact Function.update_of_ne hi _ _
  | gone =>
      rw [release_eq hstatus]
      exact Function.update_of_ne hne _ _
  | silent =>
      have hactive' : ((state.setConversation ev (state.fallSilent ev)).gEvents ev).status = true := hstatus
      rw [release_eq hactive']
      exact Function.update_of_ne hne _ _
  | heard | answered => exact Function.update_of_ne hne _ _

/-- Events that `epoll_wait` has returned: of different slots, and what they wait for. -/
structure Pending (state : State) (events : List (Index × Events)) : Prop where
  nodup : (events.map Prod.fst).Nodup
  waiting : ∀ event ∈ events, (state.gEvents event.1).status = true ∧
    event.2.Within (state.gEvents event.1).events

theorem start_eq (others : Finset ℕ) (lfd : ℕ) (time : ℤ) : State.start others lfd time =
    State.install ⟨fun _ => .zero, 0, .top, insert lfd others, fun _ => none, ∅, fun _ => .fresh⟩
      listening (armed .zero listening lfd .acceptconn .input time) :=
  arm_eq .acceptconn .input time

theorem start_listening (others : Finset ℕ) (lfd : ℕ) (time : ℤ) :
    (State.start others lfd time).gEvents listening =
      armed .zero listening lfd .acceptconn .input time := by
  rw [start_eq, install_self]

theorem start_status (others : Finset ℕ) (lfd : ℕ) (time : ℤ) (ev : Index)
    (hstatus : ((State.start others lfd time).gEvents ev).status = true) : ev = listening := by
  by_contra hev
  rw [start_eq, install_of_ne _ _ hev] at hstatus
  cases hstatus

/-- What the main loop can rely on. -/
structure Sound (state : State) : Prop where
  wired : state.Wired
  pending : ∀ events, state.control = .dispatching events → state.Pending events

/-- The reports of `epoll_wait` are about different slots. -/
theorem Wired.pending_of_returns (hwired : state.Wired) {reports : List Report}
    (hreturns : state.Returns reports) :
    state.Pending (reports.map fun report => (report.ev, report.events)) := by
  obtain ⟨hnodup, -, hasks⟩ := hreturns
  have hreport : ∀ report ∈ reports, (state.gEvents report.ev).status = true ∧
      (state.gEvents report.ev).fd = report.fd ∧
      report.events.Within (state.gEvents report.ev).events := by
    intro report hmem
    obtain ⟨⟨ev, asked⟩, hasked, hboth⟩ := (Option.any_eq_true _ _).mp (hasks report hmem)
    obtain ⟨hev, hwithin⟩ := of_decide_eq_true hboth
    obtain ⟨hstatus, hfd, hevents⟩ := hwired.registered _ _ _ hasked
    rw [hev, hevents]
    exact ⟨hstatus, hfd, hwithin⟩
  constructor
  · have hfds : reports.map Report.fd =
        ((reports.map fun report => (report.ev, report.events)).map Prod.fst).map
          fun ev => (state.gEvents ev).fd := by
      rw [List.map_map, List.map_map]
      exact List.map_congr_left fun report hmem => (hreport report hmem).2.1.symm
    rw [hfds] at hnodup
    exact hnodup.of_map _
  · intro event hmem
    obtain ⟨report, hreported, rfl⟩ := List.mem_map.mp hmem
    exact ⟨(hreport report hreported).1, (hreport report hreported).2.2⟩

namespace Sound

/-- The event that comes next. -/
theorem head (hsound : state.Sound) {events : Events} {rest : List (Index × Events)}
    (hcontrol : state.control = .dispatching ((ev, events) :: rest)) {first second : Answer}
    {served : State} (hdispatch : state.dispatch ev events first second = some served) :
    (state.gEvents ev).status = true ∧ state.Served ev events first second served := by
  obtain ⟨hstatus, hwithin⟩ := (hsound.pending _ hcontrol).waiting _ List.mem_cons_self
  exact ⟨hstatus, hsound.wired.served hstatus hwithin hdispatch⟩

/-- Outside a batch nothing is pending. -/
theorem moved (hsound : state.Sound) {control : Control}
    (hidle : ∀ events, control ≠ .dispatching events) :
    ({ state with control := control } : State).Sound :=
  ⟨hsound.wired.moved state.checkpos control, fun events hcontrol => absurd hcontrol (hidle events)⟩

theorem step (hsound : state.Sound) {label : Label} (hstep : state.step label = some state') :
    state'.Sound := by
  cases turn_of_step hstep with
  | start | poll | again | fail => exact hsound.moved fun events => by simp
  | test now left =>
      exact ⟨(hsound.wired.testSlot now).moved _ _, fun events hcontrol => by simp at hcontrol⟩
  | wait reports _ hreturns =>
      refine ⟨hsound.wired.moved state.checkpos _, fun events hcontrol => ?_⟩
      cases hcontrol
      obtain ⟨hnodup, hwaiting⟩ := hsound.wired.pending_of_returns hreturns
      exact ⟨hnodup, hwaiting⟩
  | serve ev events rest first second served hcontrol hdispatch =>
      obtain ⟨hstatus, hserved⟩ := hsound.head hcontrol hdispatch
      obtain ⟨hnodup, hwaiting⟩ := hsound.pending _ hcontrol
      obtain ⟨hout, hrest⟩ := List.nodup_cons.mp hnodup
      refine ⟨(hsound.wired.of_served hstatus hserved).moved _ _, fun events hcontrol' => ?_⟩
      cases hcontrol'
      refine ⟨hrest, fun event hmem => ?_⟩
      have hne : event.1 ≠ ev := by
        intro hsame
        have hlater : event.1 ∈ rest.map Prod.fst := List.mem_map_of_mem hmem
        rw [hsame] at hlater
        exact hout hlater
      obtain ⟨hactive, hwithin⟩ := hwaiting event (List.mem_cons_of_mem _ hmem)
      change (served.gEvents event.1).status = true ∧ event.2.Within (served.gEvents event.1).events
      rw [hserved.others hstatus hne hactive]
      exact ⟨hactive, hwithin⟩

theorem start (others : Finset ℕ) (lfd : ℕ) (time : ℤ) : (State.start others lfd time).Sound := by
  have hlistens := start_listening others lfd time
  have honly := start_status others lfd time
  constructor
  · refine ⟨?_, ?_, ?_, ?_, ?_, ?_⟩
    · rw [hlistens]
      exact ⟨rfl, rfl, rfl, Finset.mem_insert_self _ _, Finset.notMem_empty _⟩
    · exact fun ev hev hstatus => absurd (honly ev hstatus) hev
    · exact fun ev ev' hev hev' _ => (honly ev hev).trans (honly ev' hev').symm
    · exact fun fd hfd => absurd hfd (Finset.notMem_empty _)
    · intro fd ev events hasked
      rw [start_eq] at hasked
      dsimp only [State.install, armed] at hasked
      by_cases hfd : fd = lfd
      · subst hfd
        rw [Function.update_self] at hasked
        cases hasked
        rw [hlistens]
        exact ⟨rfl, rfl, rfl⟩
      · rw [Function.update_of_ne hfd] at hasked
        cases hasked
    · intro ev hstatus
      rw [honly ev hstatus, hlistens, start_eq]
      exact Function.update_self _ _ _
  · intro events hcontrol
    cases hcontrol

end Sound

/-! ## Clients without a slot -/

/-- A slot holds each descriptor of a client. -/
def Covered (state : State) : Prop :=
  ∀ fd ∈ state.clients, ∃ ev, (state.gEvents ev).status = true ∧ (state.gEvents ev).fd = fd

/-- `accept` returns a connection while all slots for clients are in use. -/
def Refuses (state : State) (label : Label) : Prop :=
  ∃ events rest first second cfd, state.control = .dispatching ((listening, events) :: rest) ∧
    label = .serve first second ∧ events.epollin = true ∧ first.accept = some cfd ∧
    ∀ ev, ev ≠ listening → (state.gEvents ev).status = true

namespace Covered

theorem release (hcovered : state.Covered) (hstatus : (state.gEvents ev).status = true) :
    (state.release ev).Covered := by
  intro fd hfd
  rw [release_eq hstatus] at hfd ⊢
  obtain ⟨hne, hclient⟩ := Finset.mem_erase.mp hfd
  obtain ⟨ev', hactive, hev'⟩ := hcovered fd hclient
  have hother : ev' ≠ ev := by
    rintro rfl
    exact hne hev'.symm
  refine ⟨ev', ?_⟩
  dsimp only
  rw [Function.update_of_ne hother]
  exact ⟨hactive, hev'⟩

/-- Arming a slot keeps what the slots held. -/
theorem install (hcovered : ∀ fd ∈ state.clients, fd ≠ slot.fd →
      ∃ ev', ev' ≠ ev ∧ (state.gEvents ev').status = true ∧ (state.gEvents ev').fd = fd)
    (hstatus : slot.status = true) : (state.install ev slot).Covered := by
  intro fd hfd
  by_cases hnew : fd = slot.fd
  · exact ⟨ev, by rw [install_self]; exact ⟨hstatus, hnew.symm⟩⟩
  · obtain ⟨ev', hother, hactive⟩ := hcovered fd hfd hnew
    refine ⟨ev', ?_⟩
    rw [install_of_ne _ _ hother]
    exact hactive

/-- A slot that holds a descriptor is armed with it again. -/
theorem reinstall (hcovered : state.Covered) (hfd : slot.fd = (state.gEvents ev).fd)
    (hstatus : slot.status = true) : (state.install ev slot).Covered := by
  refine install (fun fd hclient hne => ?_) hstatus
  obtain ⟨ev', hactive, hev'⟩ := hcovered fd hclient
  refine ⟨ev', ?_, hactive, hev'⟩
  rintro rfl
  exact hne (hev'.symm.trans hfd.symm)

/-- Every event keeps it, but for the connection that is refused. -/
theorem of_served (hcovered : state.Covered) (hstatus : (state.gEvents ev).status = true)
    {events : Events} {first second : Answer} (hserved : state.Served ev events first second state')
    (hroom : ev = listening → events.epollin = true → first.accept ≠ none → state.firstFree ≠ none) :
    state'.Covered := by
  cases hserved with
  | idle => exact hcovered
  | refused cfd hev hin haccept _ hfull =>
      exact absurd hfull (hroom hev hin (by simp [haccept]))
  | seated cfd i _ hnew hfree =>
      have hactive : (state.seated i cfd first.time).status = true := rfl
      change ((state.enroll cfd).install i (state.seated i cfd first.time)).Covered
      refine install (fun fd hclient hne => ?_) hactive
      obtain ⟨ev', hother, hev'⟩ := hcovered fd ((Finset.mem_insert.mp hclient).resolve_left hne)
      refine ⟨ev', ?_, hother, hev'⟩
      rintro rfl
      rw [(firstFree_spec hfree).2] at hother
      cases hother
  | gone hev => exact hcovered.release hstatus
  | silent hev =>
      have hsame : (state.setConversation ev (state.fallSilent ev)).Covered := hcovered
      exact hsame.release hstatus
  | heard | answered => exact hcovered.reinstall rfl rfl

theorem step (hcovered : state.Covered) (hsound : state.Sound) {label : Label}
    (hstep : state.step label = some state') (hroom : ¬ state.Refuses label) : state'.Covered := by
  cases turn_of_step hstep with
  | start | poll | again | fail | wait => exact hcovered
  | test now left =>
      obtain ⟨pos, -, htest | ⟨hstatus, htest⟩⟩ := state.testSlot_cases now
      · rw [htest]
        exact hcovered
      · rw [htest]
        have hsame : ({ state with checkpos := pos + 1 } : State).Covered := hcovered
        exact hsame.release hstatus
  | serve ev events rest first second served hcontrol hdispatch =>
      obtain ⟨hstatus, hserved⟩ := hsound.head hcontrol hdispatch
      apply hcovered.of_served hstatus hserved
      rintro rfl hin haccept hfull
      obtain ⟨cfd, hcfd⟩ := Option.ne_none_iff_exists'.mp haccept
      exact hroom ⟨events, rest, first, second, cfd, hcontrol, rfl, hin, hcfd,
        firstFree_eq_none_iff.mp hfull⟩

end Covered

/-- The slots account for the descriptors. -/
structure Accounted (state : State) : Prop where
  held : ∀ fd ∈ state.clients, ∃! ev, (state.gEvents ev).status = true ∧ (state.gEvents ev).fd = fd
  distinct : ∀ ev ev', (state.gEvents ev).status = true → (state.gEvents ev').status = true →
    (state.gEvents ev).fd = (state.gEvents ev').fd → ev = ev'
  opened : ∀ ev, (state.gEvents ev).status = true → (state.gEvents ev).fd ∈ state.opened
  listens : (state.gEvents listening).status = true

/-- No slot has been silent for a minute. -/
def Fresh (state : State) (now : ℤ) : Prop :=
  ∀ ev, (state.gEvents ev).status = true → now - (state.gEvents ev).lastActive < 60

theorem testSlot_of_fresh {now : ℤ} (hfresh : state.Fresh now) :
    ∃ checkpos, state.testSlot now = { state with checkpos := checkpos } := by
  rw [testSlot]
  generalize (if state.checkpos = listening then 0 else state.checkpos) = pos
  refine ⟨pos + 1, if_neg fun htimeout => ?_⟩
  exact absurd htimeout.2 (not_le.mpr (hfresh pos htimeout.1))

/-- The timeout test comes to `epoll_wait`. -/
theorem exists_run_polling {now : ℤ} (hfresh : state.Fresh now) (left : ℕ) (checkpos : Index)
    {visited : List (State × Label)} (hrun : server.Run visited
      { state with checkpos := checkpos, control := .testing now left }) :
    ∃ visited' checkpos', server.Run visited'
      { state with checkpos := checkpos', control := .polling } := by
  induction left generalizing checkpos visited with
  | zero => exact ⟨_, checkpos, hrun.step (a := .next) rfl⟩
  | succ left ih =>
      obtain ⟨checkpos', htest⟩ := testSlot_of_fresh
        (show Fresh { state with checkpos := checkpos, control := .testing now (left + 1) } now from hfresh)
      refine ih checkpos' (hrun.step (a := .next) ?_)
      change some { State.testSlot { state with
        checkpos := checkpos, control := .testing now (left + 1) } now with
        control := .testing now left } = _
      rw [htest]

/-- An event of a slot that waits for it. -/
theorem exists_run_event {visited : List (State × Label)} (hrun : server.Run visited state)
    (hsound : state.Sound) (htop : state.control = .top) {now : ℤ} (hfresh : state.Fresh now)
    (hstatus : (state.gEvents ev).status = true) (first second : Answer) :
    ∃ checkpos, ∀ served,
      dispatch { state with
        checkpos := checkpos, control := .dispatching [(ev, (state.gEvents ev).events)] } ev
          (state.gEvents ev).events first second = some served →
        ∃ visited', server.Run visited' { served with control := .top } := by
  have hstart : server.step state (.start now) = some { state with control := .testing now 100 } := by
    change state.step (.start now) = _
    simp only [step, htop]
  obtain ⟨visited', checkpos, hpolling⟩ := exists_run_polling hfresh 100 state.checkpos (hrun.step hstart)
  let reports : List Report := [⟨(state.gEvents ev).fd, ev, (state.gEvents ev).events⟩]
  have hreturns : ({ state with checkpos := checkpos, control := .polling } : State).Returns reports := by
    refine ⟨List.nodup_singleton _, Nat.succ_le_succ (Nat.zero_le _), fun report hmem => ?_⟩
    obtain rfl := List.mem_singleton.mp hmem
    rw [asks]
    dsimp only
    rw [hsound.wired.asked ev hstatus]
    exact decide_eq_true ⟨rfl, id, id⟩
  have hwait : server.step { state with checkpos := checkpos, control := .polling } (.wait reports) =
      some { state with
        checkpos := checkpos, control := .dispatching [(ev, (state.gEvents ev).events)] } :=
    if_pos hreturns
  refine ⟨checkpos, fun served hserved => ?_⟩
  have hserve : server.step { state with
      checkpos := checkpos, control := .dispatching [(ev, (state.gEvents ev).events)] }
      (.serve first second) = some { served with control := .dispatching [] } :=
    Option.map_eq_some_iff.mpr ⟨served, hserved, rfl⟩
  exact ⟨_, ((hpolling.step hwait).step hserve).step (a := .next) rfl⟩

/-- A connection is accepted. -/
theorem exists_run_accept {visited : List (State × Label)} (hrun : server.Run visited state)
    (hsound : state.Sound) (htop : state.control = .top) {now : ℤ} (hfresh : state.Fresh now)
    {cfd : ℕ} (hnew : cfd ∉ state.opened) : ∃ visited' checkpos,
      (state.firstFree = none ∧
        server.Run visited' { state.enroll cfd with checkpos := checkpos, control := .top }) ∨
      ∃ i, state.firstFree = some i ∧ server.Run visited'
        { ((state.enroll cfd).install i (state.seated i cfd now)).setConversation i .fresh with
          checkpos := checkpos, control := .top } := by
  obtain ⟨hstatus, hcallBack, hinput, -, -⟩ := hsound.wired.listens
  let first : Answer := ⟨some cfd, none, none, now⟩
  obtain ⟨checkpos, hevent⟩ := exists_run_event hrun hsound htop hfresh hstatus first first
  let reached : State := { state with
    checkpos := checkpos, control := .dispatching [(listening, (state.gEvents listening).events)] }
  have hreached : (reached.gEvents listening).events = .input := hinput
  have hlistens : (reached.gEvents listening).callBack = some .acceptconn := hcallBack
  have haccept : reached.dispatch listening (state.gEvents listening).events first first = _ :=
    (dispatch_of_input hreached).trans
      ((callBack_acceptconn hlistens first).trans (acceptconn_of_new rfl hnew))
  have hsame : reached.firstFree = state.firstFree := rfl
  rw [hsame] at haccept
  cases hfree : state.firstFree with
  | none =>
      rw [hfree] at haccept
      obtain ⟨visited', hafter⟩ := hevent _ haccept
      exact ⟨visited', checkpos, .inl ⟨rfl, hafter⟩⟩
  | some i =>
      rw [hfree] at haccept
      obtain ⟨visited', hafter⟩ := hevent _ haccept
      exact ⟨visited', checkpos, .inr ⟨i, rfl, hafter⟩⟩

theorem sound_of_run {visited : List (State × Label)} (hrun : server.Run visited state) :
    state.Sound := by
  refine hrun.reachable.invariant ?_ fun state label state' hsound hstep => hsound.step hstep
  rintro state ⟨others, lfd, time, rfl⟩
  exact .start others lfd time

/-- The slots for clients that are in use. -/
def used (state : State) : Finset Index :=
  Finset.univ.filter fun ev => ev ≠ listening ∧ (state.gEvents ev).status = true

theorem mem_used : ev ∈ state.used ↔ ev ≠ listening ∧ (state.gEvents ev).status = true := by
  rw [used, Finset.mem_filter, and_iff_right (Finset.mem_univ ev)]

/-- Where no slot is free, `MAX_EVENTS` of them are in use. -/
theorem card_used_of_full (hfull : state.firstFree = none) : state.used.card = maxEvents := by
  have hused : state.used = Finset.univ.erase listening := by
    ext ev
    rw [mem_used, Finset.mem_erase, and_iff_left (Finset.mem_univ ev)]
    exact and_iff_left_of_imp (firstFree_eq_none_iff.mp hfull ev)
  rw [hused, Finset.card_erase_of_mem (Finset.mem_univ _), Finset.card_fin]
  rfl

/-- The head of the main loop at time 0, after so many connections. -/
structure Crowd (count : ℕ) (state : State) : Prop where
  top : state.control = .top
  used : state.used.card = count
  opened : ∀ fd ∈ state.opened, fd < 5 + count
  fresh : state.Fresh 0

theorem Crowd.grow {count : ℕ} (hcrowd : state.Crowd count) (hroom : count < maxEvents)
    {visited : List (State × Label)} (hrun : server.Run visited state) :
    ∃ visited' state', server.Run visited' state' ∧ state'.Crowd (count + 1) := by
  have hnew : 5 + count ∉ state.opened := fun hmem => lt_irrefl _ (hcrowd.opened _ hmem)
  obtain ⟨visited', checkpos, ⟨hfull, -⟩ | ⟨i, hfree, hafter⟩⟩ :=
    exists_run_accept hrun (sound_of_run hrun) hcrowd.top hcrowd.fresh hnew
  · have hcard := card_used_of_full hfull
    rw [hcrowd.used] at hcard
    exact absurd hcard hroom.ne
  · obtain ⟨hi, hunused⟩ := firstFree_spec hfree
    refine ⟨visited', _, hafter, rfl, ?_, ?_, ?_⟩
    · have hinsert : State.used { ((state.enroll (5 + count)).install i (state.seated i (5 + count)
          0)).setConversation i .fresh with checkpos := checkpos, control := .top } =
          insert i state.used := by
        ext ev
        rw [Finset.mem_insert, mem_used, mem_used]
        change ev ≠ listening ∧ (((state.enroll (5 + count)).install i (state.seated i (5 + count)
          0)).gEvents ev).status = true ↔ _
        by_cases hev : ev = i
        · subst hev
          rw [install_self]
          exact iff_of_true ⟨hi, rfl⟩ (.inl rfl)
        · rw [install_of_ne _ _ hev]
          exact (or_iff_right hev).symm
      have hout : i ∉ state.used := by
        intro hmem
        rw [(mem_used.mp hmem).2] at hunused
        cases hunused
      rw [hinsert, Finset.card_insert_of_notMem hout, hcrowd.used]
    · intro fd hmem
      rcases Finset.mem_insert.mp hmem with rfl | hold
      · exact Nat.lt_succ_self _
      · exact (hcrowd.opened fd hold).trans (Nat.lt_succ_self _)
    · intro ev hstatus
      change (((state.enroll (5 + count)).install i (state.seated i (5 + count) 0)).gEvents ev).status =
        true at hstatus
      change 0 - (((state.enroll (5 + count)).install i (state.seated i (5 + count)
        0)).gEvents ev).lastActive < 60
      by_cases hev : ev = i
      · subst hev
        rw [install_self]
        exact (by norm_num : (0 : ℤ) - 0 < 60)
      · rw [install_of_ne _ _ hev] at hstatus ⊢
        exact hcrowd.fresh ev hstatus

end State

end CppProjects.Epoll
