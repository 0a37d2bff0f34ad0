import CppProjects.Core.LittleEndian
import CppProjects.Core.TransitionSystem

/-!
# The echo server

`epoll/main.c` keeps one slot for each client and one, the last, for the listening
socket.  The main loop tests some slots for a timeout, waits, and calls back for each
event; the callbacks take turns on their slot.

The kernel is part of the state: the open descriptors and the interest list of the
epoll instance.  What the system calls return is up to it, as far as `accept` gives a
descriptor that is not open, `recv` fills no more than the buffer, `send` takes no more
than it is offered, and `epoll_wait` reports what the interest list asks for.
`epoll_ctl` and `fcntl` succeed.  What is printed to the terminal is left out, but for
the bytes of the buffer that `printf` looks at.
-/

namespace CppProjects.Epoll

open LittleEndian

/-- `MAX_EVENTS`. -/
def maxEvents : ℕ := 1024

/-- `BUFLEN`. -/
def bufLen : ℕ := 128

/-- A position in `g_events`, as an index or as a pointer. -/
abbrev Index := Fin (maxEvents + 1)

/-- The slot of the listening socket. -/
def listening : Index := Fin.last maxEvents

/-- The bits `EPOLLIN` and `EPOLLOUT`; nothing tests `EPOLLERR` and `EPOLLHUP`. -/
structure Events where
  epollin : Bool
  epollout : Bool
deriving DecidableEq, Repr

namespace Events

def none : Events := ⟨false, false⟩
def input : Events := ⟨true, false⟩
def output : Events := ⟨false, true⟩

/-- Only events that were asked for are reported. -/
def Within (reported asked : Events) : Prop :=
  (reported.epollin → asked.epollin) ∧ (reported.epollout → asked.epollout)

instance (reported asked : Events) : Decidable (reported.Within asked) :=
  inferInstanceAs (Decidable (_ ∧ _))

end Events

/-- What a `call_back` points to. -/
inductive Callback
  | acceptconn | recvdata | senddata
deriving DecidableEq, Repr

/-! ## The slots -/

/-- `char buf[BUFLEN]`. -/
structure Buffer where
  bytes : List Byte
  size : bytes.length = bufLen
deriving DecidableEq

namespace Buffer

def zero : Buffer := ⟨List.replicate bufLen 0, List.length_replicate⟩

/-- `recv` stores at the front. -/
def fill (buf : Buffer) (data : List Byte) : Buffer where
  bytes := (data ++ buf.bytes.drop data.length).take bufLen
  size := by
    rw [List.length_take, List.length_append, List.length_drop, buf.size]
    omega

def set (buf : Buffer) (index : ℕ) (byte : Byte) : Buffer where
  bytes := buf.bytes.set index byte
  size := by rw [List.length_set, buf.size]

/-- How many bytes `%s` prints.  The byte behind a full buffer ends it, too. -/
def strlen (buf : Buffer) : ℕ := (buf.bytes.takeWhile (· ≠ 0)).length

end Buffer

/-- `struct myevent_s`. -/
structure Slot where
  fd : ℕ
  events : Events
  arg : Option Index
  callBack : Option Callback
  status : Bool
  buf : Buffer
  len : ℕ
  lastActive : ℤ
deriving DecidableEq

namespace Slot

/-- A global is zero at first. -/
def zero : Slot := ⟨0, .none, none, none, false, .zero, 0, 0⟩

/-- `buf[len] = '\0'` with `len` stored before.  Behind the buffer lies the low byte of
`len`. -/
def terminate (slot : Slot) (len : ℕ) : Slot :=
  if len < bufLen then { slot with len := len, buf := slot.buf.set len 0 }
  else { slot with len := len / 256 * 256 }

end Slot

/-- What has been received from a client, what a `send` to it has accepted, and how far
into the buffer, or beyond it, the callbacks have reached. -/
structure Conversation where
  received : List Byte
  accepted : List Byte
  extent : ℕ
deriving DecidableEq, Repr

/-- Of a client that has just connected. -/
def Conversation.fresh : Conversation := ⟨[], [], 0⟩

/-- Where the main loop is: at its head, at the test of slots with so many to go, at
`epoll_wait`, or at the events that it has returned. -/
inductive Control
  | top
  | testing (now : ℤ) (left : ℕ)
  | polling
  | dispatching (events : List (Index × Events))
  | exited
deriving DecidableEq, Repr

/-- The globals, the locals of `main`, and the kernel.  `clients` are the descriptors
that `accept` has returned and nothing has closed. -/
structure State where
  gEvents : Index → Slot
  checkpos : Index
  control : Control
  opened : Finset ℕ
  interest : ℕ → Option (Index × Events)
  clients : Finset ℕ
  conversations : Index → Conversation

/-- What the system calls of a callback return.  `none` is `-1`. -/
structure Answer where
  accept : Option ℕ
  recv : Option (List Byte)
  send : Option ℕ
  time : ℤ
deriving DecidableEq, Repr

namespace State

def setSlot (state : State) (ev : Index) (slot : Slot) : State :=
  { state with gEvents := Function.update state.gEvents ev slot }

def setConversation (state : State) (ev : Index) (conversation : Conversation) : State :=
  { state with conversations := Function.update state.conversations ev conversation }

/-! ## The kernel -/

/-- `epoll_ctl` with `EPOLL_CTL_ADD` or `EPOLL_CTL_MOD`. -/
def epollCtl (state : State) (fd : ℕ) (ev : Index) (events : Events) : State :=
  { state with interest := Function.update state.interest fd (some (ev, events)) }

/-- `epoll_ctl` with `EPOLL_CTL_DEL`. -/
def epollDel (state : State) (fd : ℕ) : State :=
  { state with interest := Function.update state.interest fd none }

/-- A closed descriptor leaves the interest list. -/
def close (state : State) (fd : ℕ) : State :=
  { state.epollDel fd with opened := state.opened.erase fd, clients := state.clients.erase fd }

/-- `accept` returns a descriptor. -/
def enroll (state : State) (cfd : ℕ) : State :=
  { state with opened := insert cfd state.opened, clients := insert cfd state.clients }

/-! ## The callbacks -/

def eventset (state : State) (ev : Index) (fd : ℕ) (callBack : Callback) (arg : Index) (time : ℤ) :
    State :=
  state.setSlot ev { state.gEvents ev with
    fd := fd, callBack := some callBack, events := .none, arg := some arg, status := false,
    lastActive := time }

/-- The status decides between `EPOLL_CTL_ADD` and `EPOLL_CTL_MOD`, and is 1 behind
either. -/
def eventadd (state : State) (events : Events) (ev : Index) : State :=
  let slot := state.gEvents ev
  (state.setSlot ev { slot with events := events, status := true }).epollCtl slot.fd ev events

def eventdel (state : State) (ev : Index) : State :=
  let slot := state.gEvents ev
  if slot.status then (state.setSlot ev { slot with status := false }).epollDel slot.fd
  else state

/-- The first slot with status 0, of those in front of the listening one. -/
def firstFree (state : State) : Option Index :=
  (List.finRange maxEvents).findSome? fun i =>
    if (state.gEvents i.castSucc).status then none else some i.castSucc

def acceptconn (state : State) (answer : Answer) : Option State :=
  match answer.accept with
  | none => some state
  | some cfd =>
      if cfd ∈ state.opened then none
      else
        match (state.enroll cfd).firstFree with
        -- "max connect limit": the descriptor is neither stored nor closed
        | none => some (state.enroll cfd)
        | some i =>
            let state := (state.enroll cfd).setConversation i .fresh
            some ((state.eventset i cfd .recvdata i answer.time).eventadd .input i)

def recvdata (state : State) (fd : ℕ) (ev : Index) (answer : Answer) : Option State :=
  match answer.recv with
  | none | some [] => some ((state.eventdel ev).close (state.gEvents ev).fd)
  | some data =>
      if data.length ≤ bufLen then
        let slot := state.gEvents ev
        let state := (state.setSlot ev { slot with buf := slot.buf.fill data }).eventdel ev
        let slot := (state.gEvents ev).terminate data.length
        let talk := state.conversations ev
        let reach := max (data.length + 1) (slot.buf.strlen + 1)
        let state := (state.setSlot ev slot).setConversation ev { talk with
          received := talk.received ++ data, extent := max talk.extent reach }
        some ((state.eventset ev fd .senddata ev answer.time).eventadd .output ev)
      else none

def senddata (state : State) (fd : ℕ) (ev : Index) (answer : Answer) : Option State :=
  let slot := state.gEvents ev
  let talk := state.conversations ev
  match answer.send with
  | none | some 0 =>
      let state := state.setConversation ev { talk with extent := max talk.extent slot.len }
      some ((state.eventdel ev).close slot.fd)
  | some len =>
      if len ≤ slot.len then
        let reach := max slot.len (slot.buf.strlen + 1)
        let state := (state.eventdel ev).setConversation ev { talk with
          accepted := talk.accepted ++ slot.buf.bytes.take len, extent := max talk.extent reach }
        some ((state.eventset ev fd .recvdata ev answer.time).eventadd .input ev)
      else none

/-! ## The main loop -/

/-- `ev->call_back(ev->fd, events, ev->arg)`; a null pointer has no behaviour. -/
def callBack (state : State) (ev : Index) (answer : Answer) : Option State :=
  let slot := state.gEvents ev
  match slot.callBack, slot.arg with
  | some .acceptconn, _ => state.acceptconn answer
  | some .recvdata, some arg => state.recvdata slot.fd arg answer
  | some .senddata, some arg => state.senddata slot.fd arg answer
  | _, _ => none

/-- The callback runs if an event has happened and the slot waits for it. -/
def callFor (bit : Events → Bool) (state : State) (ev : Index) (events : Events) (answer : Answer) :
    Option State :=
  if bit events && bit (state.gEvents ev).events then state.callBack ev answer else some state

/-- One of the events that `epoll_wait` has returned: input first, then output. -/
def dispatch (state : State) (ev : Index) (events : Events) (first second : Answer) :
    Option State := do
  let state ← callFor Events.epollin state ev events first
  callFor Events.epollout state ev events second

/-- One turn of the timeout test. -/
def testSlot (state : State) (now : ℤ) : State :=
  let checkpos := if state.checkpos = listening then 0 else state.checkpos
  let slot := state.gEvents checkpos
  let state := { state with checkpos := checkpos + 1 }
  if slot.status ∧ 60 ≤ now - slot.lastActive then (state.close slot.fd).eventdel checkpos
  else state

/-- A report of `epoll_wait`: the descriptor it is about, the pointer that was stored
with it, and the events. -/
structure Report where
  fd : ℕ
  ev : Index
  events : Events
deriving DecidableEq, Repr

/-- The interest list asks for the report. -/
def asks (state : State) (report : Report) : Bool :=
  (state.interest report.fd).any fun entry =>
    decide (report.ev = entry.1 ∧ report.events.Within entry.2)

/-- A descriptor is reported once at most, and there is room for all slots. -/
def Returns (state : State) (reports : List Report) : Prop :=
  (reports.map Report.fd).Nodup ∧ reports.length ≤ maxEvents + 1 ∧
    ∀ report ∈ reports, state.asks report

instance (state : State) (reports : List Report) : Decidable (state.Returns reports) :=
  inferInstanceAs (Decidable (_ ∧ _ ∧ _))

end State

/-- The steps of the main loop. -/
inductive Label
  /-- `now = time(NULL)`. -/
  | start (now : ℤ)
  /-- The next turn of a loop, or what is behind the loop. -/
  | next
  | wait (reports : List State.Report)
  | waitFails
  /-- The next event, with what the system calls of its callbacks return. -/
  | serve (first second : Answer)
deriving DecidableEq, Repr

namespace State

def step (state : State) (label : Label) : Option State :=
  match label, state.control with
  | .start now, .top => some { state with control := .testing now 100 }
  | .next, .testing now (left + 1) => some { state.testSlot now with control := .testing now left }
  | .next, .testing _ 0 => some { state with control := .polling }
  | .next, .dispatching [] => some { state with control := .top }
  | .wait reports, .polling =>
      let events := reports.map fun report => (report.ev, report.events)
      if state.Returns reports then some { state with control := .dispatching events } else none
  | .waitFails, .polling => some { state with control := .exited }
  | .serve first second, .dispatching ((ev, events) :: rest) =>
      (state.dispatch ev events first second).map fun state =>
        { state with control := .dispatching rest }
  | _, _ => none

/-- Behind `initlistensocket`, with other descriptors open. -/
def start (others : Finset ℕ) (lfd : ℕ) (time : ℤ) : State :=
  let blank : State := {
    gEvents := fun _ => .zero
    checkpos := 0
    control := .top
    opened := insert lfd others
    interest := fun _ => none
    clients := ∅
    conversations := fun _ => .fresh }
  (blank.eventset listening lfd .acceptconn listening time).eventadd .input listening

end State

/-- The server. -/
def server : TransitionSystem State Label where
  initial state := ∃ others lfd time, state = State.start others lfd time
  step := State.step

end CppProjects.Epoll
