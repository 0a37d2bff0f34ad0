import Mathlib.Data.List.TakeWhile
import CppProjects.Epoll.Accounts

/-!
# What is echoed

A client gets its own bytes back, in order, as long as no `recv` fills the whole buffer
and no `send` goes on behind bytes that an earlier one has left.  The terminator of a
full buffer is stored behind it, and what a `send` leaves is never sent again.
-/

namespace CppProjects.Epoll

open LittleEndian

/-! ## The buffer -/

/-- What may follow a prefix. -/
theorem append_prefix_iff {α : Type*} {xs ys zs : List α} (hstart : xs <+: ys) :
    xs ++ zs <+: ys ↔ zs = (ys.drop xs.length).take zs.length := by
  obtain ⟨rest, rfl⟩ := hstart
  rw [List.prefix_append_right_inj, List.drop_left, List.prefix_iff_eq_take]

/-- A buffer with a terminator is printed without leaving it. -/
theorem Buffer.strlen_lt {buf : Buffer} (hterminated : (0 : Byte) ∈ buf.bytes) :
    buf.strlen < bufLen := by
  have hstart := buf.bytes.takeWhile_prefix (· ≠ 0)
  refine lt_of_le_of_ne (buf.size ▸ hstart.length_le) fun hfull => ?_
  have hall := hstart.eq_of_length (hfull.trans buf.size.symm)
  simpa using List.takeWhile_eq_self_iff.mp hall 0 hterminated

namespace State

variable {state state' : State} {ev : Index} {data : List Byte}

/-- What has been received stands in front of the terminator. -/
theorem heard_of_lt (state : State) (ev : Index) (hlength : data.length < bufLen) (time : ℤ) :
    (state.heard ev data time).len = data.length ∧
      (state.heard ev data time).buf.bytes.take data.length = data ∧
      (0 : Byte) ∈ (state.heard ev data time).buf.bytes := by
  have hslot : state.heard ev data time =
      armed { state.gEvents ev with
        buf := ((state.gEvents ev).buf.fill data).set data.length 0, len := data.length }
        ev (state.gEvents ev).fd .senddata .output time := by
    simp only [heard, Slot.terminate, if_pos hlength]
  have hsize := ((state.gEvents ev).buf.fill data).size
  rw [hslot]
  refine ⟨rfl, ?_, ?_⟩
  · change (((state.gEvents ev).buf.fill data).bytes.set data.length 0).take data.length = data
    rw [List.take_set_of_le le_rfl]
    change ((data ++ _).take bufLen).take data.length = data
    rw [List.take_take, min_eq_left hlength.le, List.take_left]
  · exact List.mem_set (by rw [hsize]; exact hlength) 0

/-! ## The law of the echo -/

/-- The buffer is not left, and what has been accepted is in order. -/
def Faithful (state : State) : Prop :=
  ∀ ev, (state.conversations ev).extent ≤ bufLen ∧
    (state.conversations ev).accepted <+: (state.conversations ev).received

/-- A `recv` fills the whole buffer. -/
def Overfills (state : State) (label : Label) : Prop :=
  ∃ ev events rest first second data, state.control = .dispatching ((ev, events) :: rest) ∧
    label = .serve first second ∧ (state.gEvents ev).callBack = some .recvdata ∧
    events.epollin = true ∧ first.recv = some data ∧ data.length = bufLen

/-- A `send` has bytes accepted while bytes of an earlier one are left, and other bytes
than those. -/
def Skips (state : State) (label : Label) : Prop :=
  ∃ ev events rest first second len, state.control = .dispatching ((ev, events) :: rest) ∧
    label = .serve first second ∧ (state.gEvents ev).callBack = some .senddata ∧
    events.epollout = true ∧ second.send = some len ∧ 0 < len ∧
    (state.conversations ev).accepted.length + (state.gEvents ev).len <
      (state.conversations ev).received.length ∧
    (state.gEvents ev).buf.bytes.take len ≠
      ((state.conversations ev).received.drop (state.conversations ev).accepted.length).take len

/-- A slot and the conversation on it. -/
structure Echoes (slot : Slot) (talk : Conversation) : Prop where
  inside : talk.extent ≤ bufLen
  inOrder : talk.accepted <+: talk.received
  terminated : (0 : Byte) ∈ slot.buf.bytes
  offered : slot.status = true → slot.callBack = some .senddata → slot.len < bufLen ∧
    ∃ earlier, talk.received = earlier ++ slot.buf.bytes.take slot.len ∧ talk.accepted <+: earlier

namespace Echoes

variable {slot : Slot} {talk : Conversation}

theorem heard (hechoes : Echoes (state.gEvents ev) (state.conversations ev))
    (hlength : data.length < bufLen) (time : ℤ) :
    Echoes (state.heard ev data time) (state.hear ev data time) := by
  obtain ⟨hlen, hdata, hterminated⟩ := heard_of_lt state ev hlength time
  refine ⟨?_, ?_, hterminated, fun _ _ => ⟨hlen ▸ hlength, (state.conversations ev).received, ?_,
    hechoes.inOrder⟩⟩
  · exact max_le hechoes.inside (max_le hlength (Buffer.strlen_lt hterminated))
  · exact hechoes.inOrder.trans (List.prefix_append _ _)
  · rw [hlen, hdata]
    rfl

theorem answered (hechoes : Echoes (state.gEvents ev) (state.conversations ev)) (len : ℕ)
    (hlen : (state.gEvents ev).len ≤ bufLen)
    (hnext : (state.conversations ev).accepted ++ (state.gEvents ev).buf.bytes.take len <+:
      (state.conversations ev).received) (time : ℤ) :
    Echoes (state.answered ev time) (state.answer ev len) := by
  refine ⟨?_, hnext, hechoes.terminated, fun _ hcallBack => by cases hcallBack⟩
  exact max_le hechoes.inside (max_le hlen (Buffer.strlen_lt hechoes.terminated))

theorem seated (hechoes : Echoes (state.gEvents ev) talk) (cfd : ℕ) (time : ℤ) :
    Echoes (state.seated ev cfd time) .fresh :=
  ⟨Nat.zero_le _, List.nil_prefix, hechoes.terminated, fun _ hcallBack => by cases hcallBack⟩

/-- Of a slot that is not in use any more. -/
theorem freed (hechoes : Echoes slot talk) {extent : ℕ} (hextent : extent ≤ bufLen) :
    Echoes { slot with status := false } { talk with extent := extent } :=
  ⟨hextent, hechoes.inOrder, hechoes.terminated, fun hstatus => by cases hstatus⟩

/-- Bytes that skip nothing continue what has been accepted. -/
theorem next (hechoes : Echoes slot talk) (hstatus : slot.status = true)
    (hcallBack : slot.callBack = some .senddata) {len : ℕ} (hlen : len ≤ slot.len)
    (hskip : talk.accepted.length + slot.len < talk.received.length →
      slot.buf.bytes.take len = (talk.received.drop talk.accepted.length).take len) :
    talk.accepted ++ slot.buf.bytes.take len <+: talk.received := by
  obtain ⟨hfits, earlier, hreceived, hearlier⟩ := hechoes.offered hstatus hcallBack
  have hbytes : (slot.buf.bytes.take slot.len).length = slot.len := by
    rw [List.length_take, slot.buf.size]
    exact min_eq_left hfits.le
  by_cases hleft : talk.accepted.length + slot.len < talk.received.length
  · have htaken : (slot.buf.bytes.take len).length = len := by
      rw [List.length_take, slot.buf.size]
      exact min_eq_left (hlen.trans hfits.le)
    rw [append_prefix_iff hechoes.inOrder, htaken]
    exact hskip hleft
  · rw [hreceived, List.length_append, hbytes] at hleft
    have hall : talk.accepted = earlier :=
      hearlier.eq_of_length (le_antisymm hearlier.length_le (by omega))
    rw [hreceived, hall, List.prefix_append_right_inj]
    exact List.take_prefix_take_left hlen

end Echoes

/-! ## The steps -/

/-- All slots and the conversations on them. -/
def Echoing (state : State) : Prop :=
  ∀ ev, Echoes (state.gEvents ev) (state.conversations ev)

namespace Echoing

/-- One slot and its conversation are replaced. -/
theorem install (hechoing : state.Echoing) {slot : Slot} {talk : Conversation}
    (hnew : Echoes slot talk) : ((state.install ev slot).setConversation ev talk).Echoing := by
  intro ev'
  by_cases hev : ev' = ev
  · subst hev
    change Echoes ((state.install ev' slot).gEvents ev') (Function.update state.conversations ev' talk ev')
    rw [install_self, Function.update_self]
    exact hnew
  · change Echoes ((state.install ev slot).gEvents ev') (Function.update state.conversations ev talk ev')
    rw [install_of_ne _ _ hev, Function.update_of_ne hev]
    exact hechoing ev'

theorem release (hechoing : state.Echoing) (hstatus : (state.gEvents ev).status = true) {extent : ℕ}
    (hextent : extent ≤ bufLen) : State.Echoing ((state.setConversation ev
      { state.conversations ev with extent := extent }).release ev) := by
  have hactive : ((state.setConversation ev
    { state.conversations ev with extent := extent }).gEvents ev).status = true := hstatus
  rw [release_eq hactive]
  intro ev'
  change Echoes (Function.update state.gEvents ev { state.gEvents ev with status := false } ev')
    (Function.update state.conversations ev { state.conversations ev with extent := extent } ev')
  by_cases hev : ev' = ev
  · subst hev
    rw [Function.update_self, Function.update_self]
    exact (hechoing ev').freed hextent
  · rw [Function.update_of_ne hev, Function.update_of_ne hev]
    exact hechoing ev'

/-- A slot that is given up without a `send`. -/
theorem release_quiet (hechoing : state.Echoing) (hstatus : (state.gEvents ev).status = true) :
    (state.release ev).Echoing := by
  have hquiet := hechoing.release hstatus (hechoing ev).inside
  rw [setConversation, Function.update_eq_self] at hquiet
  exact hquiet

theorem of_served (hechoing : state.Echoing) (hstatus : (state.gEvents ev).status = true)
    {events : Events} {first second : Answer} (hserved : state.Served ev events first second state')
    (hfill : (state.gEvents ev).callBack = some .recvdata → events.epollin = true →
      ∀ data, first.recv = some data → data.length ≠ bufLen)
    (hskip : (state.gEvents ev).callBack = some .senddata → events.epollout = true →
      ∀ len, second.send = some len → 0 < len →
      (state.conversations ev).accepted.length + (state.gEvents ev).len <
        (state.conversations ev).received.length →
      (state.gEvents ev).buf.bytes.take len =
        ((state.conversations ev).received.drop (state.conversations ev).accepted.length).take len) :
    state'.Echoing := by
  cases hserved with
  | idle | refused => exact hechoing
  | seated cfd i _ _ _ =>
      have hadmitted : (state.enroll cfd).Echoing := hechoing
      exact hadmitted.install ((hechoing i).seated cfd first.time)
  | gone => exact hechoing.release_quiet hstatus
  | silent _ hcallBack =>
      have hlen := ((hechoing ev).offered hstatus hcallBack).1.le
      exact hechoing.release hstatus (max_le (hechoing ev).inside hlen)
  | heard data _ hcallBack hin hrecv _ hlength =>
      have hlt := lt_of_le_of_ne hlength (hfill hcallBack hin data hrecv)
      exact hechoing.install ((hechoing ev).heard hlt first.time)
  | answered len _ hcallBack hout hsend hpos hlen =>
      have hfits := ((hechoing ev).offered hstatus hcallBack).1.le
      have hnext := (hechoing ev).next hstatus hcallBack hlen (hskip hcallBack hout len hsend hpos)
      exact hechoing.install ((hechoing ev).answered len hfits hnext second.time)

theorem step (hechoing : state.Echoing) (hsound : state.Sound) {label : Label}
    (hstep : state.step label = some state') (hfill : ¬ state.Overfills label)
    (hskip : ¬ state.Skips label) : state'.Echoing := by
  cases turn_of_step hstep with
  | start | poll | again | fail | wait => exact hechoing
  | test now left =>
      obtain ⟨pos, -, htest | ⟨hstatus, htest⟩⟩ := state.testSlot_cases now
      · rw [htest]
        exact hechoing
      · rw [htest]
        have hsame : ({ state with checkpos := pos + 1 } : State).Echoing := hechoing
        exact hsame.release_quiet hstatus
  | serve ev events rest first second served hcontrol hdispatch =>
      obtain ⟨hstatus, hserved⟩ := hsound.head hcontrol hdispatch
      change served.Echoing
      refine hechoing.of_served hstatus hserved ?_ ?_
      · intro hcallBack hin data hrecv hfull
        exact hfill ⟨ev, events, rest, first, second, data, hcontrol, rfl, hcallBack, hin, hrecv, hfull⟩
      · intro hcallBack hout len hsend hpos hleft
        by_contra hother
        exact hskip ⟨ev, events, rest, first, second, len, hcontrol, rfl, hcallBack, hout, hsend, hpos,
          hleft, hother⟩

end Echoing

/-! ## What goes wrong -/

section Outcomes

variable {events : Events} {first second : Answer}

end Outcomes

theorem Echoing.start (others : Finset ℕ) (lfd : ℕ) (time : ℤ) :
    (State.start others lfd time).Echoing := by
  intro ev
  have hzero : (0 : Byte) ∈ Buffer.zero.bytes := by
    exact List.mem_replicate.mpr ⟨by decide, rfl⟩
  have hblank : Echoes .zero .fresh :=
    ⟨Nat.zero_le _, List.nil_prefix, hzero, fun hstatus => by cases hstatus⟩
  rw [start_eq]
  by_cases hev : ev = listening
  · subst hev
    rw [install_self]
    exact ⟨hblank.inside, hblank.inOrder, hblank.terminated, fun _ hcallBack => by cases hcallBack⟩
  · rw [install_of_ne _ _ hev]
    exact hblank

end State

end CppProjects.Epoll
