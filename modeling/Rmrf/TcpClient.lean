-- The TCP client: its member functions, and the steps of a run. The kernel answers
-- `recv` and `write`, the event loop calls `cb_ev`, and the owner calls `write_data`
-- and ends the client's life, also from inside `in_data_cb`.
import Rmrf.IoQueue
import Rmrf.Runs

namespace rmrf.net

/-! ## The event loop and the kernel -/

abbrev Events := BitVec 32

namespace ev

def READ : Events := 1#32
def WRITE : Events := 2#32
def ERROR : Events := 0x80000000#32

end ev

/-- The test `events & flag`. -/
def has (events flag : Events) : Bool := events &&& flag != 0#32

/-- `::ev.io`. Its `set(int)` replaces the event set and keeps the watcher started
or stopped. -/
structure EvIo where
  fd : Int
  events : Events
  active : Bool
deriving DecidableEq, Repr

abbrev Errno := Nat

def EINTR : Errno := 4
def EAGAIN : Errno := 11

/-- What the kernel does at the next `recv`: it has these bytes for the socket (none
at the end of the stream), or it fails. -/
inductive RecvResult
  | data (bytes : List UInt8)
  | fails (errno : Errno)
deriving DecidableEq, Repr

/-- What the kernel does at the next `write`: it takes `count` bytes, as far as the
buffer has them, or it fails. -/
inductive WriteResult
  | accepts (count : Nat)
  | fails (errno : Errno)
deriving DecidableEq, Repr

/-- `recv(fd, buffer, len, 0)`: its value, and what it put into the buffer. -/
def recv (len : Nat) : RecvResult → Int × List UInt8
  | .data bytes => ((bytes.take len).length, bytes.take len)
  | .fails _ => (-1, [])

/-- `write(fd, buf, n)` -/
def write (buf : List UInt8) : WriteResult → Int
  | .accepts count => min count buf.length
  | .fails _ => -1

/-- `errno` after the call, when the call failed. -/
def WriteResult.errno : WriteResult → Errno
  | .accepts _ => 0
  | .fails e => e

/-- The kernel takes bytes, or asks to try again later. -/
def WriteResult.Passes (result : WriteResult) : Prop := ∀ e, result = .fails e → e = EAGAIN

inductive ExitStatus
  | NO_ERROR
  | TIMEOUT
deriving DecidableEq, Repr

/-! ## The client and its run -/

structure TcpClient where
  /-- Whether `destructor_cb` holds a function. -/
  destructor_cb : Bool
  peer_address : String
  port : Nat
  net_socket : Int
  io : EvIo
  write_queue : IoQueue
deriving DecidableEq, Repr

/-- What the client does that others can see, and each use of its write queue. -/
inductive Effect
  | io_start (fd : Int) (events : Events)
  | io_set (events : Events)
  | io_stop
  | recv (received : Int)
  | in_data_cb (data : List UInt8)
  | write_queue
  | write (buffer : List UInt8) (written : Int)
  | destructor_cb (exit_status : ExitStatus)
  | close (fd : Int)
  | destroyed
deriving DecidableEq, Repr

inductive Exn
  | netio_exception (msg : String)
deriving DecidableEq, Repr

/-- A client in a run. `frames` holds the events of each `cb_ev` call that waits for
its `in_data_cb` to end, the innermost first. -/
structure World where
  client : TcpClient
  alive : Bool
  frames : List Events
  trace : List Effect
deriving DecidableEq, Repr

abbrev Handler := EStateM Exn World

def note (e : Effect) : Handler Unit := modify fun w => { w with trace := w.trace ++ [e] }

namespace TcpClient

def io_set (events : Events) : Handler Unit := do
  modify fun w => { w with client.io.events := events }
  note (.io_set events)

def io_stop : Handler Unit := do
  modify fun w => { w with client.io.active := false }
  note .io_stop

/-- `write_queue.empty()` -/
def queue_empty : Handler Bool := do
  note .write_queue
  return (← get).client.write_queue.empty

/-- `write_queue.push_back(...)` of a record that is moved in -/
def queue_push_back (data : IoRecord) : Handler Unit := do
  note .write_queue
  modify fun w => { w with client.write_queue := (w.client.write_queue.push_back data).1 }

/-- `write_queue.push_front(...)` of a record that is copied in -/
def queue_push_front (data : IoRecord) : Handler Unit := do
  note .write_queue
  modify fun w => { w with client.write_queue := w.client.write_queue.push_front data }

/-- `write_queue.pop_front()` -/
def queue_pop_front : Handler IoRecord := do
  note .write_queue
  let (front, rest) := (← get).client.write_queue.pop_front
  modify fun w => { w with client.write_queue := rest }
  return front

/-- The constructor for a socket that is connected. A constructor that connects one
itself leaves the same world, with no `destructor_cb`. -/
def of_socket (destructor_cb : Bool) (socket_fd : Int) (peer_address : String) (port : Nat) :
    World where
  client :=
    { destructor_cb, peer_address, port, net_socket := socket_fd,
      io := ⟨socket_fd, ev.READ, true⟩, write_queue := ⟨[]⟩ }
  alive := true
  frames := []
  trace := [.io_start socket_fd ev.READ]

/-- `~auto_fd` of `net_socket` -/
def close_socket : Handler Unit := do
  let fd := (← get).client.net_socket
  if fd ≥ 0 then
    note (.close fd)
  modify fun w => { w with client.net_socket := -1 }

def end_life : Handler Unit := do
  modify fun w => { w with alive := false }
  note .destroyed

/-- `~tcp_client`, and then the destructors of the members. The memory stays as it
is: what a later statement reads there, C++ leaves undefined. -/
def destruct : Handler Unit := do
  if (← get).client.destructor_cb then
    note (.destructor_cb .NO_ERROR)
  io_stop
  io_stop  -- `~io`
  close_socket
  end_life

def write_data (data : List UInt8) : Handler Unit := do
  queue_push_back (IoRecord.of_buffer data)
  io_set (ev.READ ||| ev.WRITE)

def push_write_queue (result : WriteResult) : Handler Unit := do
  if ← queue_empty then
    io_set ev.READ
  else
    let buffer ← queue_pop_front
    let written := write buffer.bytes result
    note (.write buffer.bytes written)
    if written ≥ 0 then
      queue_push_front (buffer.advance written.toNat)
    else if result.errno ≠ EAGAIN then
      throw (.netio_exception "Failed to write latest buffer content.")
    else
      queue_push_front buffer

/-- How a call stands when a step ends: `in_data_cb` runs, or the call is over. -/
inductive Outcome
  | in_data_cb
  | returned
  | threw
deriving DecidableEq, Repr

/-- The call of `in_data_cb` from a `cb_ev` call. -/
def enter_callback (events : Events) (data : List UInt8) : Handler Unit := do
  note (.in_data_cb data)
  modify fun w => { w with frames := events :: w.frames }

/-- `cb_ev` from its `WRITE` test to its end. -/
def cb_ev_rest (events : Events) (result : WriteResult) : Handler Unit := do
  if has events ev.WRITE then
    push_write_queue result
  if ← queue_empty then
    io_set ev.READ
  else
    io_set (ev.READ ||| ev.WRITE)

/-- `cb_ev` to its end, or to its call of `in_data_cb`. After `delete this` the
function goes on. -/
def cb_ev (events : Events) (received : RecvResult) (result : WriteResult) :
    Handler Outcome := do
  if has events ev.ERROR then
    return .returned
  else if has events ev.READ then
    let (n_read_bytes, buffer) := recv 1024 received
    note (.recv n_read_bytes)
    if n_read_bytes < 0 then
      throw (.netio_exception "Failed to read from network socket.")
    else if n_read_bytes = 0 then
      destruct
      cb_ev_rest events result
      return .returned
    else
      enter_callback events buffer
      return .in_data_cb
  else
    cb_ev_rest events result
    return .returned

/-! ## The steps of a run -/

/-- What can happen next to a client. `write_data` and `destroy` come from its owner,
outside or inside an `in_data_cb` call; `cb_ev` comes from the event loop, or from a
loop that runs inside `in_data_cb`. -/
inductive Step
  | write_data (data : List UInt8)
  | cb_ev (events : Events) (received : RecvResult) (result : WriteResult)
  | in_data_cb_returns (result : WriteResult)
  | in_data_cb_throws
  | destroy
deriving DecidableEq, Repr

/-- The call of a handler function, as its caller sees it. -/
def call (h : Handler Outcome) (w : World) : Outcome × World :=
  match h w with
  | .ok o w' => (o, w')
  | .error _ w' => (.threw, w')

/-- One step, when it can be taken: nobody calls a client that is destroyed, but a
`cb_ev` call that waits for `in_data_cb` goes on when that returns. -/
def step (w : World) : Step → Option (Outcome × World)
  | .write_data data =>
    if w.alive then some (call (do write_data data; return .returned) w) else none
  | .cb_ev events received result =>
    if w.alive then some (call (cb_ev events received result) w) else none
  | .in_data_cb_returns result =>
    match w.frames with
    | [] => none
    | events :: frames =>
      some (call (do cb_ev_rest events result; return .returned) { w with frames })
  | .in_data_cb_throws =>
    match w.frames with
    | [] => none
    | _ :: frames => some (.threw, { w with frames })
  | .destroy =>
    if w.alive then some (call (do destruct; return .returned) w) else none

/-- The world after a step. -/
def next (w : World) (s : Step) : Option World := (step w s).map Prod.snd

end TcpClient

end rmrf.net
