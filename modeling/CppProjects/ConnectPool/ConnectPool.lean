import CppProjects.Core.CInt
import CppProjects.Core.TransitionSystem

/-!
# The MySQL connection pool

`connectPool` keeps idle connections in a queue.  A connection is lent as a
`shared_ptr` whose deleter puts it back.  Each region under `m_mutexQ` is one step,
and a wait may end at any time: on a notification, on its time-out or spuriously.

A connection is the number of its creation.  The databases behind them are left out,
and the clock only moves forward.
-/

namespace CppProjects

namespace ConnectPool

open CInt

abbrev Connection := ℕ

/-- What `dbconf.json` says about the connections. -/
structure Config where
  mMinSize : ℤ
  mMaxSize : ℤ
  mMaxIdTime : ℤ
  mTimeout : ℤ

/-- Where a client is. -/
inductive ClientPc
  | idle
  /-- In `getConnection`, about to lock `m_mutexQ`. -/
  | locking
  /-- In `m_cond.wait_for`. -/
  | waiting
deriving DecidableEq, Repr

/-- The pool, its producer and its clients.  `lent` holds the `shared_ptr`s that have
not been released, `deleted` is a history, and `undefined` records a `front()` of an
empty queue. -/
structure State extends Config where
  mConnectQ : List Connection
  mAlivetime : Connection → ℤ
  clock : ℤ
  producerWaits : Bool
  clients : List ClientPc
  lent : List (ℕ × Connection)
  created : ℕ
  deleted : List Connection
  undefined : Bool

namespace State

/-- `steady_clock::now()`, in nanoseconds. -/
def now (s : State) (elapsed : ℕ) : State := { s with clock := s.clock + elapsed }

/-- `refreshAliveTime`. -/
def refreshAliveTime (s : State) (conn : Connection) : State :=
  { s with mAlivetime := Function.update s.mAlivetime conn s.clock }

/-- `getAliveTime`, in milliseconds. -/
def getAliveTime (s : State) (conn : Connection) : ℤ :=
  (s.clock - s.mAlivetime conn).tdiv 1000000

/-- `m_connectQ.size()` as an `int`. -/
def size (s : State) : ℤ := toInt s.mConnectQ.length

def push (s : State) (conn : Connection) : State := { s with mConnectQ := s.mConnectQ ++ [conn] }

def addConnection (s : State) (elapsed : ℕ) : State :=
  ({ s with created := s.created + 1 }.now elapsed |>.refreshAliveTime s.created).push s.created

/-- `m_cond.notify_all()`. -/
def notifyAll (s : State) : State :=
  { s with
    producerWaits := false
    clients := s.clients.map fun pc => if pc = .waiting then .locking else pc }

/-- The region of the producer's loop. -/
def produceConnection (s : State) (elapsed : ℕ) : State :=
  if s.size ≥ s.mMinSize then { s with producerWaits := true }
  else (s.addConnection elapsed).notifyAll

/-- The inner loop of the recycler. -/
def recycleLoop (elapsed : ℕ → ℕ) : ℕ → State → State
  | 0, s => s
  | turns + 1, s =>
      if s.size > s.mMinSize then
        match s.mConnectQ with
        | [] => { s with undefined := true }
        | conn :: rest =>
            let s := s.now (elapsed turns)
            if s.getAliveTime conn ≥ s.mMaxIdTime then
              recycleLoop elapsed turns { s with mConnectQ := rest, deleted := s.deleted ++ [conn] }
            else s
      else s

/-- The region of the recycler: its loop shortens the queue at every turn. -/
def recycleConnection (s : State) (elapsed : ℕ → ℕ) : State :=
  s.recycleLoop elapsed (s.mConnectQ.length + 1)

/-- The region of `getConnection`: the front is lent, or the client waits. -/
def getConnection (s : State) (client : ℕ) : State :=
  match s.mConnectQ with
  | [] => { s with clients := s.clients.set client .waiting }
  | conn :: rest =>
      { s with
        mConnectQ := rest
        lent := s.lent ++ [(client, conn)]
        clients := s.clients.set client .idle }.notifyAll

/-- The deleter of a lent `shared_ptr`. -/
def release (s : State) (client : ℕ) (conn : Connection) (elapsed : ℕ) : State :=
  ({ s with lent := s.lent.erase (client, conn) }.now elapsed |>.refreshAliveTime conn).push conn

end State

/-- A pass of the producer or of the recycler; a client calls `getConnection`, goes
through its region, or drops a connection it holds; a wait ends. -/
inductive Action
  | produceConnection (elapsed : ℕ)
  | recycleConnection (elapsed : ℕ → ℕ)
  | call (client : ℕ)
  | getConnection (client : ℕ)
  | release (client : ℕ) (conn : Connection) (elapsed : ℕ)
  | wakeProducer
  | wakeClient (client : ℕ)

namespace State

def perform (s : State) : Action → Option State
  | .produceConnection elapsed => if s.producerWaits then none else some (s.produceConnection elapsed)
  | .recycleConnection elapsed => some (s.recycleConnection elapsed)
  | .call client =>
      if s.clients[client]? = some .idle then
        some { s with clients := s.clients.set client .locking }
      else none
  | .getConnection client =>
      if s.clients[client]? = some .locking then some (s.getConnection client) else none
  | .release client conn elapsed =>
      if (client, conn) ∈ s.lent then some (s.release client conn elapsed) else none
  | .wakeProducer => if s.producerWaits then some { s with producerWaits := false } else none
  | .wakeClient client =>
      if s.clients[client]? = some .waiting then
        some { s with clients := s.clients.set client .locking }
      else none

/-- One step.  What follows an undefined `front()` is not determined. -/
def step (s : State) (action : Action) : Option State :=
  if s.undefined then none else s.perform action

/-- The members before the constructor fills the queue. -/
def empty (config : Config) (clock : ℤ) (clients : ℕ) : State where
  toConfig := config
  mConnectQ := []
  mAlivetime := fun _ => 0
  clock := clock
  producerWaits := false
  clients := List.replicate clients .idle
  lent := []
  created := 0
  deleted := []
  undefined := false

/-- The constructor, with a file that could be parsed. -/
def connectPool (config : Config) (clock : ℤ) (clients : ℕ) (elapsed : ℕ → ℕ) : State :=
  (List.range config.mMinSize.toNat).foldl (fun s i => s.addConnection (elapsed i))
    (empty config clock clients)

end State

/-- The pool of a configuration, used by any number of clients. -/
def system (config : Config) : TransitionSystem State Action where
  initial s := ∃ clock clients elapsed, s = State.connectPool config clock clients elapsed
  step := State.step

end ConnectPool

end CppProjects
