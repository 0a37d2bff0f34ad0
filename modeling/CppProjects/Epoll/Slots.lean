import CppProjects.Epoll.Reactor

/-!
# Slots and descriptors

The slots with status 1 and the descriptors of the clients belong together.  What the
callbacks do to both comes down to three changes: a slot is armed, a slot gives its
descriptor up, and a descriptor is admitted.
-/

namespace CppProjects.Epoll

open LittleEndian

namespace State

variable {state state' : State} {ev : Index} {fd cfd : ℕ}

/-! ## The changes -/

/-- `eventset` and `eventadd`. -/
def arm (state : State) (ev : Index) (fd : ℕ) (callBack : Callback) (events : Events) (time : ℤ) :
    State :=
  (state.eventset ev fd callBack ev time).eventadd events ev

/-- A slot that is on the interest list. -/
def install (state : State) (ev : Index) (slot : Slot) : State := { state with
  gEvents := Function.update state.gEvents ev slot
  interest := Function.update state.interest slot.fd (some (ev, slot.events)) }

@[simp]
theorem install_self (state : State) (ev : Index) (slot : Slot) :
    (state.install ev slot).gEvents ev = slot :=
  Function.update_self _ _ _

theorem install_of_ne (state : State) {ev ev' : Index} (slot : Slot) (hne : ev' ≠ ev) :
    (state.install ev slot).gEvents ev' = state.gEvents ev' :=
  Function.update_of_ne hne _ _

/-- `eventdel` and `close`. -/
def release (state : State) (ev : Index) : State := (state.eventdel ev).close (state.gEvents ev).fd

/-- A slot while it waits for an event of its client. -/
def armed (slot : Slot) (ev : Index) (fd : ℕ) (callBack : Callback) (events : Events) (time : ℤ) :
    Slot :=
  { slot with
    fd := fd, callBack := some callBack, events := events, arg := some ev, status := true,
    lastActive := time }

theorem arm_eq (callBack : Callback) (events : Events) (time : ℤ) :
    state.arm ev fd callBack events time =
      state.install ev (armed (state.gEvents ev) ev fd callBack events time) := by
  simp [arm, eventset, eventadd, setSlot, epollCtl, armed, install]

theorem eventdel_eq (hstatus : (state.gEvents ev).status = true) :
    state.eventdel ev = { state with
      gEvents := Function.update state.gEvents ev { state.gEvents ev with status := false }
      interest := Function.update state.interest (state.gEvents ev).fd none } := by
  rw [eventdel]
  dsimp only
  rw [if_pos hstatus]
  rfl

theorem release_eq (hstatus : (state.gEvents ev).status = true) :
    state.release ev = { state with
      gEvents := Function.update state.gEvents ev { state.gEvents ev with status := false }
      interest := Function.update state.interest (state.gEvents ev).fd none
      opened := state.opened.erase (state.gEvents ev).fd
      clients := state.clients.erase (state.gEvents ev).fd } := by
  rw [release, eventdel_eq hstatus]
  simp [close, epollDel]

/-- The timeout test closes before it deletes. -/
theorem eventdel_close (hstatus : (state.gEvents ev).status = true) :
    (state.close (state.gEvents ev).fd).eventdel ev = state.release ev := by
  have hclosed : ((state.close (state.gEvents ev).fd).gEvents ev).status = true := hstatus
  rw [release_eq hstatus, eventdel_eq hclosed]
  simp [close, epollDel]

/-! ## Free slots -/

theorem firstFree_spec (hfree : state.firstFree = some ev) :
    ev ≠ listening ∧ (state.gEvents ev).status = false := by
  obtain ⟨i, -, hi⟩ := List.exists_of_findSome?_eq_some hfree
  split_ifs at hi with hstatus
  cases hi
  exact ⟨(Fin.castSucc_lt_last i).ne, Bool.not_eq_true _ ▸ hstatus⟩

/-- No slot is free: all slots for clients are in use. -/
theorem firstFree_eq_none_iff :
    state.firstFree = none ↔ ∀ ev, ev ≠ listening → (state.gEvents ev).status = true := by
  rw [firstFree, List.findSome?_eq_none_iff]
  constructor
  · intro hnone ev hev
    have hi := hnone (ev.castPred hev) (List.mem_finRange _)
    have hcast : (ev.castPred hev).castSucc = ev := Fin.castSucc_castPred ev hev
    rw [hcast] at hi
    split_ifs at hi with hstatus
    exact hstatus
  · intro hfull i _
    rw [if_pos (hfull i.castSucc (Fin.castSucc_lt_last i).ne)]

/-! ## Slots, descriptors and the interest list -/

/-- A client's slot waits for input to receive, or for room to send. -/
def Waits (slot : Slot) : Prop :=
  (slot.callBack = some .recvdata ∧ slot.events = .input) ∨
    (slot.callBack = some .senddata ∧ slot.events = .output)

/-- How the slots with status 1, the descriptors and the interest list fit together. -/
structure Wired (state : State) : Prop where
  listens : (state.gEvents listening).status = true ∧
    (state.gEvents listening).callBack = some .acceptconn ∧
    (state.gEvents listening).events = .input ∧
    (state.gEvents listening).fd ∈ state.opened ∧ (state.gEvents listening).fd ∉ state.clients
  serves : ∀ ev, ev ≠ listening → (state.gEvents ev).status = true →
    (state.gEvents ev).fd ∈ state.clients ∧ (state.gEvents ev).arg = some ev ∧
      Waits (state.gEvents ev)
  distinct : ∀ ev ev', (state.gEvents ev).status = true → (state.gEvents ev').status = true →
    (state.gEvents ev).fd = (state.gEvents ev').fd → ev = ev'
  open_of_client : ∀ fd ∈ state.clients, fd ∈ state.opened
  registered : ∀ fd ev events, state.interest fd = some (ev, events) →
    (state.gEvents ev).status = true ∧ (state.gEvents ev).fd = fd ∧
      (state.gEvents ev).events = events
  asked : ∀ ev, (state.gEvents ev).status = true →
    state.interest (state.gEvents ev).fd = some (ev, (state.gEvents ev).events)

namespace Wired

theorem open_of_status (hwired : state.Wired) (hstatus : (state.gEvents ev).status = true) :
    (state.gEvents ev).fd ∈ state.opened := by
  by_cases hev : ev = listening
  · rw [hev]
    exact hwired.listens.2.2.2.1
  · exact hwired.open_of_client _ (hwired.serves ev hev hstatus).1

/-- A new descriptor is in no slot. -/
theorem fd_ne (hwired : state.Wired) (hnew : cfd ∉ state.opened)
    (hstatus : (state.gEvents ev).status = true) : (state.gEvents ev).fd ≠ cfd := by
  rintro rfl
  exact hnew (hwired.open_of_status hstatus)

theorem enroll (hwired : state.Wired) (hnew : cfd ∉ state.opened) : (state.enroll cfd).Wired := by
  obtain ⟨hstatus, hcallBack, hevents, hopened, hclient⟩ := hwired.listens
  refine ⟨⟨hstatus, hcallBack, hevents, Finset.mem_insert_of_mem hopened, ?_⟩, ?_, hwired.distinct, ?_,
    hwired.registered, hwired.asked⟩
  · exact fun hmem => (Finset.mem_insert.mp hmem).elim (hwired.fd_ne hnew hstatus) hclient
  · intro ev hev hactive
    obtain ⟨hmem, hrest⟩ := hwired.serves ev hev hactive
    exact ⟨Finset.mem_insert_of_mem hmem, hrest⟩
  · intro fd hfd
    exact Finset.insert_subset_insert cfd hwired.open_of_client hfd

theorem setConversation (hwired : state.Wired) (conversation : Conversation) :
    (state.setConversation ev conversation).Wired :=
  ⟨hwired.listens, hwired.serves, hwired.distinct, hwired.open_of_client, hwired.registered,
    hwired.asked⟩

/-- A slot for clients is put on the interest list, with a client's descriptor that no
other slot holds. -/
theorem install (hwired : state.Wired) (hev : ev ≠ listening) {slot : Slot}
    (hclient : slot.fd ∈ state.clients) (hunique : ∀ ev', (state.gEvents ev').status = true →
      (state.gEvents ev').fd = slot.fd → ev' = ev)
    (hheld : (state.gEvents ev).status = true → (state.gEvents ev).fd = slot.fd)
    (hstatus : slot.status = true) (harg : slot.arg = some ev) (hwaits : Waits slot) :
    (state.install ev slot).Wired := by
  refine ⟨?_, ?_, ?_, hwired.open_of_client, ?_, ?_⟩ <;> dsimp only [State.install]
  · rw [Function.update_of_ne hev.symm]
    exact hwired.listens
  · intro ev' hev' hactive
    by_cases hsame : ev' = ev
    · subst hsame
      rw [Function.update_self]
      exact ⟨hclient, harg, hwaits⟩
    · rw [Function.update_of_ne hsame] at hactive ⊢
      exact hwired.serves ev' hev' hactive
  · intro left right hleft hright hfd
    by_cases hl : left = ev <;> by_cases hr : right = ev
    · rw [hl, hr]
    · subst hl
      rw [Function.update_of_ne hr] at hright hfd
      rw [Function.update_self] at hfd
      exact (hunique right hright hfd.symm).symm
    · subst hr
      rw [Function.update_of_ne hl] at hleft hfd
      rw [Function.update_self] at hfd
      exact hunique left hleft hfd
    · rw [Function.update_of_ne hl] at hleft hfd
      rw [Function.update_of_ne hr] at hright hfd
      exact hwired.distinct left right hleft hright hfd
  · intro fd ev' asked hasked
    by_cases hfd : fd = slot.fd
    · subst hfd
      rw [Function.update_self] at hasked
      cases hasked
      rw [Function.update_self]
      exact ⟨hstatus, rfl, rfl⟩
    · rw [Function.update_of_ne hfd] at hasked
      obtain ⟨hactive, hsame, hevents⟩ := hwired.registered fd ev' asked hasked
      have hne : ev' ≠ ev := by
        rintro rfl
        exact hfd (hsame.symm.trans (hheld hactive))
      rw [Function.update_of_ne hne]
      exact ⟨hactive, hsame, hevents⟩
  · intro ev' hactive
    by_cases hsame : ev' = ev
    · subst hsame
      rw [Function.update_self, Function.update_self]
    · rw [Function.update_of_ne hsame] at hactive ⊢
      rw [Function.update_of_ne fun hfd => hsame (hunique ev' hactive hfd)]
      exact hwired.asked ev' hactive

/-- A slot that waits already is put there again. -/
theorem reinstall (hwired : state.Wired) (hev : ev ≠ listening)
    (hactive : (state.gEvents ev).status = true) {slot : Slot}
    (hfd : slot.fd = (state.gEvents ev).fd) (hstatus : slot.status = true)
    (harg : slot.arg = some ev) (hwaits : Waits slot) : (state.install ev slot).Wired := by
  apply hwired.install hev _ _ (fun _ => hfd.symm) hstatus harg hwaits
  · rw [hfd]
    exact (hwired.serves ev hev hactive).1
  · intro ev' hactive' hsame
    exact hwired.distinct ev' ev hactive' hactive (hsame.trans hfd)

/-- A slot for clients gives its descriptor up. -/
theorem release (hwired : state.Wired) (hev : ev ≠ listening)
    (hstatus : (state.gEvents ev).status = true) : (state.release ev).Wired := by
  have hother : ∀ ev', ev' ≠ ev → (state.gEvents ev').status = true →
      (state.gEvents ev').fd ≠ (state.gEvents ev).fd :=
    fun ev' hne hactive hfd => hne (hwired.distinct ev' ev hactive hstatus hfd)
  rw [release_eq hstatus]
  refine ⟨?_, ?_, ?_, ?_, ?_, ?_⟩
  · obtain ⟨hactive, hcallBack, hevents, hopened, hclient⟩ := hwired.listens
    dsimp only
    rw [Function.update_of_ne hev.symm]
    exact ⟨hactive, hcallBack, hevents, Finset.mem_erase.mpr ⟨hother _ hev.symm hactive, hopened⟩,
      fun hmem => hclient (Finset.mem_of_mem_erase hmem)⟩
  · intro ev' hev' hactive
    dsimp only at hactive ⊢
    by_cases hsame : ev' = ev
    · subst hsame
      rw [Function.update_self] at hactive
      cases hactive
    · rw [Function.update_of_ne hsame] at hactive ⊢
      obtain ⟨hclient, hrest⟩ := hwired.serves ev' hev' hactive
      exact ⟨Finset.mem_erase.mpr ⟨hother ev' hsame hactive, hclient⟩, hrest⟩
  · intro left right hleft hright hfd
    dsimp only at hleft hright hfd
    by_cases hl : left = ev
    · subst hl
      rw [Function.update_self] at hleft
      cases hleft
    · by_cases hr : right = ev
      · subst hr
        rw [Function.update_self] at hright
        cases hright
      · rw [Function.update_of_ne hl] at hleft hfd
        rw [Function.update_of_ne hr] at hright hfd
        exact hwired.distinct left right hleft hright hfd
  · intro fd hfd
    obtain ⟨hne, hclient⟩ := Finset.mem_erase.mp hfd
    exact Finset.mem_erase.mpr ⟨hne, hwired.open_of_client fd hclient⟩
  · intro fd ev' asked hasked
    dsimp only at hasked ⊢
    have hne : fd ≠ (state.gEvents ev).fd := by
      rintro rfl
      rw [Function.update_self] at hasked
      cases hasked
    rw [Function.update_of_ne hne] at hasked
    obtain ⟨hactive, hfd, hevents⟩ := hwired.registered fd ev' asked hasked
    have hev' : ev' ≠ ev := by
      rintro rfl
      exact hne hfd.symm
    rw [Function.update_of_ne hev']
    exact ⟨hactive, hfd, hevents⟩
  · intro ev' hactive
    dsimp only at hactive ⊢
    by_cases hsame : ev' = ev
    · subst hsame
      rw [Function.update_self] at hactive
      cases hactive
    · rw [Function.update_of_ne hsame] at hactive ⊢
      rw [Function.update_of_ne (hother ev' hsame hactive)]
      exact hwired.asked ev' hactive

end Wired

/-! ## What an event does -/

/-- The slot after a `recv`. -/
def heard (state : State) (ev : Index) (data : List Byte) (time : ℤ) : Slot :=
  let slot := state.gEvents ev
  armed ({ slot with buf := slot.buf.fill data }.terminate data.length) ev slot.fd .senddata .output time

/-- The conversation after a `recv`. -/
def hear (state : State) (ev : Index) (data : List Byte) (time : ℤ) : Conversation :=
  let talk := state.conversations ev
  { talk with
    received := talk.received ++ data
    extent := max talk.extent (max (data.length + 1) ((state.heard ev data time).buf.strlen + 1)) }

/-- The slot after a `send`. -/
def answered (state : State) (ev : Index) (time : ℤ) : Slot :=
  armed (state.gEvents ev) ev (state.gEvents ev).fd .recvdata .input time

/-- The conversation after a `send` that has accepted `len` bytes. -/
def answer (state : State) (ev : Index) (len : ℕ) : Conversation :=
  let slot := state.gEvents ev
  let talk := state.conversations ev
  { talk with
    accepted := talk.accepted ++ slot.buf.bytes.take len
    extent := max talk.extent (max slot.len (slot.buf.strlen + 1)) }

/-- The conversation after a `send` that has failed. -/
def fallSilent (state : State) (ev : Index) : Conversation :=
  { state.conversations ev with
    extent := max (state.conversations ev).extent (state.gEvents ev).len }

/-- The slot of a new client. -/
def seated (state : State) (ev : Index) (cfd : ℕ) (time : ℤ) : Slot :=
  armed (state.gEvents ev) ev cfd .recvdata .input time

/-- What an event can lead to: nothing; a new client, with a slot or without one; the
end of a client, at a `recv` or at a `send`; bytes that are received, or accepted. -/
inductive Served (state : State) (ev : Index) (events : Events) (first second : Answer) :
    State → Prop
  | idle (haccept : ev = listening → events.epollin = true → first.accept = none)
      (hrecv : (state.gEvents ev).callBack = some .recvdata → events.epollin = false)
      (hsend : (state.gEvents ev).callBack = some .senddata → events.epollout = false) :
      Served state ev events first second state
  | refused (cfd : ℕ) (hev : ev = listening) (hin : events.epollin = true)
      (haccept : first.accept = some cfd) (hnew : cfd ∉ state.opened)
      (hfull : state.firstFree = none) : Served state ev events first second (state.enroll cfd)
  | seated (cfd : ℕ) (i : Index) (hev : ev = listening) (hnew : cfd ∉ state.opened)
      (hfree : state.firstFree = some i) : Served state ev events first second
        (((state.enroll cfd).install i (state.seated i cfd first.time)).setConversation i .fresh)
  | gone (hev : ev ≠ listening) (hcallBack : (state.gEvents ev).callBack = some .recvdata)
      (hrecv : first.recv = none ∨ first.recv = some []) :
      Served state ev events first second (state.release ev)
  | silent (hev : ev ≠ listening) (hcallBack : (state.gEvents ev).callBack = some .senddata)
      (hsend : second.send = none ∨ second.send = some 0) : Served state ev events first second
        ((state.setConversation ev (state.fallSilent ev)).release ev)
  | heard (data : List Byte) (hev : ev ≠ listening)
      (hcallBack : (state.gEvents ev).callBack = some .recvdata) (hin : events.epollin = true)
      (hrecv : first.recv = some data) (hdata : data ≠ []) (hlength : data.length ≤ bufLen) :
      Served state ev events first second
        ((state.install ev (state.heard ev data first.time)).setConversation ev
          (state.hear ev data first.time))
  | answered (len : ℕ) (hev : ev ≠ listening)
      (hcallBack : (state.gEvents ev).callBack = some .senddata) (hout : events.epollout = true)
      (hsend : second.send = some len) (hpos : 0 < len) (hlen : len ≤ (state.gEvents ev).len) :
      Served state ev events first second
        ((state.install ev (state.answered ev second.time)).setConversation ev (state.answer ev len))

section Callbacks

variable {events : Events} {first second : Answer}

/-- A new descriptor is seated where there is a free slot. -/
theorem acceptconn_of_new {answer : Answer} (hcfd : answer.accept = some cfd)
    (hnew : cfd ∉ state.opened) : state.acceptconn answer = match state.firstFree with
      | none => some (state.enroll cfd)
      | some i => some
          (((state.enroll cfd).install i (state.seated i cfd answer.time)).setConversation i .fresh) := by
  have hsame : (state.enroll cfd).firstFree = state.firstFree := rfl
  rw [acceptconn, hcfd]
  dsimp only
  rw [if_neg hnew, hsame]
  cases state.firstFree with
  | none => rfl
  | some i => exact congrArg some (arm_eq .recvdata .input answer.time)

theorem served_of_acceptconn (hev : ev = listening) (hin : events.epollin = true)
    (hcallBack : (state.gEvents ev).callBack = some .acceptconn)
    (haccept : state.acceptconn first = some state') : state.Served ev events first second state' := by
  cases hcfd : first.accept with
  | none =>
      rw [acceptconn, hcfd] at haccept
      obtain rfl := Option.some.inj haccept
      exact .idle (fun _ _ => hcfd) (by simp [hcallBack]) (by simp [hcallBack])
  | some cfd =>
      have hnew : cfd ∉ state.opened := by
        intro hopened
        rw [acceptconn, hcfd] at haccept
        dsimp only at haccept
        rw [if_pos hopened] at haccept
        cases haccept
      rw [acceptconn_of_new hcfd hnew] at haccept
      cases hfree : state.firstFree with
      | none =>
          rw [hfree] at haccept
          obtain rfl := Option.some.inj haccept
          exact .refused cfd hev hin hcfd hnew hfree
      | some i =>
          rw [hfree] at haccept
          obtain rfl := Option.some.inj haccept
          exact .seated cfd i hev hnew hfree

/-- Bytes that are received are in the slot, which waits to send them. -/
theorem recvdata_of_data {answer : Answer} {data : List Byte}
    (hstatus : (state.gEvents ev).status = true) (hrecv : answer.recv = some data) (hdata : data ≠ [])
    (hlength : data.length ≤ bufLen) : state.recvdata (state.gEvents ev).fd ev answer =
      some ((state.install ev (state.heard ev data answer.time)).setConversation ev
        (state.hear ev data answer.time)) := by
  rw [recvdata, hrecv]
  cases data with
  | nil => exact absurd rfl hdata
  | cons byte bytes =>
      dsimp only
      rw [if_pos hlength]
      by_cases hfits : (byte :: bytes).length < bufLen <;>
        simp [eventset, eventadd, setSlot, epollCtl, setConversation, install, State.heard, hear, armed,
          eventdel, epollDel, hstatus, Slot.terminate, -List.length_cons, hfits]

theorem served_of_recvdata (hev : ev ≠ listening) (hstatus : (state.gEvents ev).status = true)
    (hcallBack : (state.gEvents ev).callBack = some .recvdata) (hin : events.epollin = true)
    (hrecv : state.recvdata (state.gEvents ev).fd ev first = some state') :
    state.Served ev events first second state' := by
  cases hdata : first.recv with
  | none =>
      rw [recvdata, hdata] at hrecv
      obtain rfl := Option.some.inj hrecv
      exact .gone hev hcallBack (.inl hdata)
  | some data =>
      by_cases hempty : data = []
      · rw [recvdata, hdata, hempty] at hrecv
        obtain rfl := Option.some.inj hrecv
        exact .gone hev hcallBack (.inr (hdata.trans (congrArg some hempty)))
      · have hlength : data.length ≤ bufLen := by
          by_contra hlong
          cases data with
          | nil => exact hempty rfl
          | cons byte bytes =>
              rw [recvdata, hdata] at hrecv
              dsimp only at hrecv
              rw [if_neg hlong] at hrecv
              cases hrecv
        rw [recvdata_of_data hstatus hdata hempty hlength] at hrecv
        obtain rfl := Option.some.inj hrecv
        exact .heard data hev hcallBack hin hdata hempty hlength

theorem served_of_senddata (hev : ev ≠ listening) (hstatus : (state.gEvents ev).status = true)
    (hcallBack : (state.gEvents ev).callBack = some .senddata) (hout : events.epollout = true)
    (hsend : state.senddata (state.gEvents ev).fd ev second = some state') :
    state.Served ev events first second state' := by
  rw [senddata] at hsend
  dsimp only at hsend
  split at hsend
  · next hnone =>
      obtain rfl := Option.some.inj hsend
      exact .silent hev hcallBack (.inl hnone)
  · next hzero =>
      obtain rfl := Option.some.inj hsend
      exact .silent hev hcallBack (.inr hzero)
  · next len hpos hlen =>
      split_ifs at hsend with hle
      have hanswered : state' = (state.install ev (state.answered ev second.time)).setConversation ev
          (state.answer ev len) := by
        rw [← Option.some.inj hsend]
        simp [eventset, eventadd, setSlot, epollCtl, setConversation, install, State.answered, answer, armed,
          eventdel, epollDel, hstatus]
      rw [hanswered]
      exact .answered len hev hcallBack hout hlen (Nat.pos_of_ne_zero hpos) hle

theorem callBack_acceptconn (hcallBack : (state.gEvents ev).callBack = some .acceptconn)
    (answer : Answer) : state.callBack ev answer = state.acceptconn answer := by
  rw [callBack, hcallBack]

theorem callBack_recvdata (hcallBack : (state.gEvents ev).callBack = some .recvdata)
    (harg : (state.gEvents ev).arg = some ev) (answer : Answer) :
    state.callBack ev answer = state.recvdata (state.gEvents ev).fd ev answer := by
  rw [callBack, hcallBack, harg]

theorem callBack_senddata (hcallBack : (state.gEvents ev).callBack = some .senddata)
    (harg : (state.gEvents ev).arg = some ev) (answer : Answer) :
    state.callBack ev answer = state.senddata (state.gEvents ev).fd ev answer := by
  rw [callBack, hcallBack, harg]

theorem callFor_cases {bit : Events → Bool} {answer : Answer} (hwaits : bit (state.gEvents ev).events = true)
    (hcall : callFor bit state ev events answer = some state') :
    (bit events = false ∧ state' = state) ∨
      (bit events = true ∧ state.callBack ev answer = some state') := by
  rw [callFor, hwaits, Bool.and_true] at hcall
  split_ifs at hcall with hbit
  · exact .inr ⟨hbit, hcall⟩
  · exact .inl ⟨Bool.not_eq_true _ ▸ hbit, (Option.some.inj hcall).symm⟩

theorem callFor_of_not {bit : Events → Bool} (hnot : bit events = false) (answer : Answer) :
    callFor bit state ev events answer = some state := by
  rw [callFor, hnot, Bool.false_and, if_neg Bool.false_ne_true]

theorem callFor_of_both {bit : Events → Bool} {answer : Answer} (hwaits : bit (state.gEvents ev).events = true)
    (hbit : bit events = true) : callFor bit state ev events answer = state.callBack ev answer := by
  rw [callFor, hbit, hwaits, Bool.true_and, if_pos rfl]

theorem dispatch_of_input (hinput : (state.gEvents ev).events = .input) :
    state.dispatch ev (state.gEvents ev).events first second = state.callBack ev first := by
  have hone : (state.gEvents ev).events.epollin = true := by rw [hinput]; rfl
  have hnone : (state.gEvents ev).events.epollout = false := by rw [hinput]; rfl
  rw [dispatch, callFor_of_both hone hone]
  exact (Option.bind_congr fun served _ => callFor_of_not hnone second).trans (Option.bind_fun_some _)

/-- Of a slot that waits for input, the second test has nothing to do. -/
theorem dispatch_input (hinput : (state.gEvents ev).events = .input)
    (hwithin : events.Within (state.gEvents ev).events)
    (hdispatch : state.dispatch ev events first second = some state') :
    (events.epollin = false ∧ state' = state) ∨
      (events.epollin = true ∧ state.callBack ev first = some state') := by
  rw [hinput] at hwithin
  have hout : events.epollout = false :=
    Bool.eq_false_iff.mpr fun hout => Bool.noConfusion (hwithin.2 hout)
  obtain ⟨middle, hfirst, hsecond⟩ := Option.bind_eq_some_iff.mp hdispatch
  rw [callFor_of_not hout] at hsecond
  obtain rfl := Option.some.inj hsecond
  exact callFor_cases (by rw [hinput]; rfl) hfirst

/-- Of a slot that waits for room to send, the first test has nothing to do. -/
theorem dispatch_output (houtput : (state.gEvents ev).events = .output)
    (hwithin : events.Within (state.gEvents ev).events)
    (hdispatch : state.dispatch ev events first second = some state') :
    (events.epollout = false ∧ state' = state) ∨
      (events.epollout = true ∧ state.callBack ev second = some state') := by
  rw [houtput] at hwithin
  have hin : events.epollin = false :=
    Bool.eq_false_iff.mpr fun hin => Bool.noConfusion (hwithin.1 hin)
  obtain ⟨middle, hfirst, hsecond⟩ := Option.bind_eq_some_iff.mp hdispatch
  rw [callFor_of_not hin] at hfirst
  obtain rfl := Option.some.inj hfirst
  exact callFor_cases (by rw [houtput]; rfl) hsecond

/-- One event runs one callback at most, that of its slot. -/
theorem Wired.served (hwired : state.Wired) (hstatus : (state.gEvents ev).status = true)
    (hwithin : events.Within (state.gEvents ev).events)
    (hdispatch : state.dispatch ev events first second = some state') :
    state.Served ev events first second state' := by
  by_cases hev : ev = listening
  · obtain ⟨-, hcallBack, hinput, -, -⟩ := hwired.listens
    rw [← hev] at hcallBack hinput
    rcases dispatch_input hinput hwithin hdispatch with ⟨hin, rfl⟩ | ⟨hin, hcall⟩
    · exact .idle (fun _ htrue => by simp [hin] at htrue) (by simp [hcallBack]) (by simp [hcallBack])
    · rw [callBack_acceptconn hcallBack] at hcall
      exact served_of_acceptconn hev hin hcallBack hcall
  · obtain ⟨-, harg, ⟨hcallBack, hinput⟩ | ⟨hcallBack, houtput⟩⟩ := hwired.serves ev hev hstatus
    · rcases dispatch_input hinput hwithin hdispatch with ⟨hin, rfl⟩ | ⟨hin, hcall⟩
      · exact .idle (fun hlistens => absurd hlistens hev) (fun _ => hin) (by simp [hcallBack])
      · rw [callBack_recvdata hcallBack harg] at hcall
        exact served_of_recvdata hev hstatus hcallBack hin hcall
    · rcases dispatch_output houtput hwithin hdispatch with ⟨hout, rfl⟩ | ⟨hout, hcall⟩
      · exact .idle (fun hlistens => absurd hlistens hev) (by simp [hcallBack]) (fun _ => hout)
      · rw [callBack_senddata hcallBack harg] at hcall
        exact served_of_senddata hev hstatus hcallBack hout hcall

end Callbacks

end State

end CppProjects.Epoll
