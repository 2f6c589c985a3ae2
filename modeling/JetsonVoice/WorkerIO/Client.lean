import JetsonVoice.Foundation.Collections
import JetsonVoice.Foundation.Json
import JetsonVoice.Foundation.TransitionSystem

/-!
# The client's multiplexer

`WorkerIO` writes request lines to a worker's stdin and hands the events the
worker writes to the queues of the requests in flight. A semaphore bounds the
requests in flight, `_inflight` maps an id to the queue of the request
registered under it, and a reader thread feeds the queues.

## Implementation notes

A request is a record in `requests` and is named by its index there, which also
names its queue. Its `phase` is the place of its code between two accesses to
what the requests share. A section under `_inflight_lock` or `_stdin_lock` is
one step.

A blocking acquire of `send_request` runs on an executor thread, so its phase
has two sides: how far the thread is (`Job`), and whether the asyncio future has
been cancelled (`abandoned`), has its result (`acquired`, `settling`) or is
pending (`acquiring`). A pending future is cancelled by cancelling the task. The
chained executor future is cancelled only in a later callback, and only while
the job is still queued.

An id is a string, as the annotations of the source have it; a payload of
`request` without one raises at `payload["id"]`.

A queue is kept as the list of everything ever put on it and the number of items
taken off. `since` and `written` are history variables, and so is the map kept
in an item.
-/

namespace JetsonVoice.WorkerIO

open Foundation

/-- The truth of a JSON value in Python. -/
def truthy : Json → Bool
  | .null => false
  | .bool b => b
  | .int n => n ≠ 0
  | .decimal m _ => m ≠ 0
  | .str s => s ≠ ""
  | .arr items => !items.isEmpty
  | .obj fields => !fields.isEmpty

/-- Whether a JSON value can be looked up in a `dict`. -/
def hashable : Json → Bool
  | .arr _ | .obj _ => false
  | _ => true

/-- `event.get("request_id") or event.get("id")`. -/
def rid (e : Json) : Option Json :=
  match e.field? "request_id" with
  | some v => if truthy v then some v else e.field? "id"
  | none => e.field? "id"

/-- The id an event is looked up under: the keys of `_inflight` are strings, and
a false `rid` is not looked up. -/
def key (e : Json) : Option String :=
  match rid e with
  | some (.str id) => if id = "" then none else some id
  | _ => none

/-- The reader's handling of an event raises: `get` on a value that is not an
object, or a lookup under a value that has no hash. -/
def raises (e : Json) : Bool := !e.isObject || (rid e).any fun v => truthy v && !hashable v

/-- `event.get("event")`. -/
def name (e : Json) : Option String := e.str? "event"

/-- The queue an event goes to: the one registered under its id, else the sole
queue when the event is an error. -/
def receiver (inflight : Table String Nat) (e : Json) : Option Nat :=
  match (key e).bind inflight.lookup with
  | some i => some i
  | none =>
      if name e = some "error" then
        match inflight.entries with
        | [entry] => some entry.2
        | _ => none
      else none

/-- The sentinel that tells a waiting request the worker is gone. -/
def workerExit : Json := .obj [("event", .str "_worker_exit")]

def cancelLine (id : String) : Json := .obj [("type", .str "cancel"), ("id", .str id)]

/-- `send_request` puts the id into a payload without one and refuses a payload
with another one. -/
def withId (id : String) (payload : Json) : Option Json :=
  match payload.field? "id" with
  | none => some (payload.setField "id" (.str id))
  | some v => if v = .str id then some payload else none

/-- What is put on a queue. -/
inductive Item where
  | sentinel
  /-- The line at position `pos` of stdout, looked up in `inflight`. -/
  | line (pos : Nat) (e : Json) (inflight : Table String Nat)
  deriving DecidableEq

def Item.event : Item → Json
  | .sentinel => workerExit
  | .line _ e _ => e

/-- How far the executor is with a `_sem.acquire`. -/
inductive Job where
  | queued
  | blocked
  /-- The permit is taken; the result has not reached the future yet. -/
  | granted
  deriving DecidableEq

/-- How a request ended. -/
inductive Exit where
  | returned
  | workerExit
  | timedOut
  | failed
  | abandoned
  deriving DecidableEq

inductive Phase where
  /-- Waiting for the permit. -/
  | acquiring (job : Job)
  /-- The future has its result and the task is about to resume. -/
  | acquired
  /-- The task was cancelled at the acquire, and the future with it. -/
  | abandoned (job : Job)
  /-- The acquire has returned to a cancelled future. -/
  | lost
  /-- The task was cancelled after the acquire; the done-callback is due. -/
  | settling
  | checking
  /-- Raising before the registration. -/
  | aborting (x : Exit)
  | registering
  | writing
  /-- In the `except` arm around the write. -/
  | unwriting (x : Exit)
  /-- At `q.get`. -/
  | awaiting
  | yielded (e : Json)
  /-- In `finally`. -/
  | popping (x : Exit)
  | releasing (x : Exit)
  | cancelling (x : Exit)
  | ended (x : Exit)
  deriving DecidableEq

structure Request where
  /-- Made by `request`, not by `send_request`. -/
  sync : Bool
  id : String
  payload : Json
  phase : Phase
  inbox : List Item
  taken : Nat
  /-- The reader's position when the queue was registered. -/
  since : Nat
  /-- The length of stdout when the line was written. -/
  written : Option Nat
  deriving DecidableEq

namespace Request

def push (r : Request) (item : Item) : Request := { r with inbox := r.inbox ++ [item] }

def moveTo (r : Request) (phase : Phase) : Request := { r with phase := phase }

/-- What is still on the queue. -/
def unread (r : Request) : List Item := r.inbox.drop r.taken

end Request

/-- The reader thread. -/
inductive Reader where
  | reading
  | putting (i : Nat) (item : Item)
  /-- Out of the loop, before its `finally`. -/
  | stopping
  | stopped
  deriving DecidableEq

/-- A call of `close`. -/
inductive Closer where
  | closing
  | draining
  | waking (targets : List Nat)
  deriving DecidableEq

structure State where
  sem : Nat
  closed : Bool
  inflight : Table String Nat
  requests : List Request
  /-- The lines written to the worker. -/
  stdin : List Json
  /-- The lines the worker has written; `none` is a line that is not JSON. -/
  stdout : List (Option Json)
  ended : Bool
  readPos : Nat
  reader : Reader
  closers : List Closer
  deriving DecidableEq

/-- What happens next. -/
inductive Label where
  | sendRequest (id : String) (payload : Json)
  | request (payload : Json)
  /-- The executor moves on with an acquire. -/
  | executor (i : Nat)
  /-- A cancelled future cancels its job. -/
  | revoke (i : Nat)
  /-- A request moves on; `ok` is the outcome of a write to stdin. -/
  | task (i : Nat) (ok : Bool)
  /-- A task is cancelled at an `await`, or a generator closed at its `yield`. -/
  | cancel (i : Nat)
  | timeout (i : Nat)
  | emit (line : Option Json)
  | hangUp
  | reader
  /-- Reading stdout raises. -/
  | fault
  | close
  | closer (k : Nat)
  deriving DecidableEq

/-- The requests after a `put` on one queue. -/
def put (requests : List Request) (i : Nat) (item : Item) : List Request :=
  requests.modify i (·.push item)

/-- The sentinel on every queue of a list. -/
def wakeAll (requests : List Request) (targets : List Nat) : List Request :=
  targets.foldl (fun rs i => put rs i .sentinel) requests

/-- The queues of the map. -/
def queues (inflight : Table String Nat) : List Nat := inflight.entries.map (·.2)

namespace State

/-- `max(1, concurrency)` permits. -/
def init (concurrency : Int) : State where
  sem := (max 1 concurrency).toNat
  closed := false
  inflight := ∅
  requests := []
  stdin := []
  stdout := []
  ended := false
  readPos := 0
  reader := .reading
  closers := []

variable (s : State)

def set (i : Nat) (r : Request) : State := { s with requests := s.requests.set i r }

/-- `_sem.release()`. -/
def release : State := { s with sem := s.sem + 1 }

/-- `_inflight.pop(request_id, None)`. -/
def pop (id : String) : State := { s with inflight := s.inflight.erase id }

def write (line : Json) : State := { s with stdin := s.stdin ++ [line] }

end State

/-- A new request, not yet started. -/
def fresh (sync : Bool) (id : String) (payload : Json) : Request where
  sync := sync
  id := id
  payload := payload
  phase := .acquiring (if sync then .blocked else .queued)
  inbox := []
  taken := 0
  since := 0
  written := none

/-- The executor's part of `_sem.acquire`. A synchronous request blocks in its
own thread and goes on when it has the permit. -/
def executorStep (s : State) (i : Nat) (r : Request) : Option State :=
  match r.phase with
  | .acquiring .queued => some (s.set i (r.moveTo (.acquiring .blocked)))
  | .acquiring .blocked =>
      if 0 < s.sem then
        some { s.set i (r.moveTo (if r.sync then .checking else .acquiring .granted)) with
          sem := s.sem - 1 }
      else none
  | .acquiring .granted => some (s.set i (r.moveTo .acquired))
  | .abandoned .queued => some (s.set i (r.moveTo (.abandoned .blocked)))
  | .abandoned .blocked =>
      if 0 < s.sem then
        some { s.set i (r.moveTo (.abandoned .granted)) with sem := s.sem - 1 }
      else none
  | .abandoned .granted => some (s.set i (r.moveTo .lost))
  | _ => none

/-- `event.get("event") in ("done", "cancelled")`. -/
def last (e : Json) : Bool := name e = some "done" || name e = some "cancelled"

/-- Where an exception of the write is caught first. -/
def unwind (r : Request) (x : Exit) : Phase := if r.sync then .popping x else .unwriting x

/-- A request's own code, from one shared access to the next. -/
def taskStep (s : State) (i : Nat) (r : Request) (ok : Bool) : Option State :=
  match r.phase with
  | .acquired => some (s.set i (r.moveTo .checking))
  | .settling => some (s.set i (r.moveTo (.ended .abandoned))).release
  | .checking => some (s.set i (r.moveTo
      (if s.closed then .aborting .workerExit
      else if r.sync && (r.payload.str? "id").isNone then .aborting .failed
      else .registering)))
  | .aborting x => some (s.set i (r.moveTo (.ended x))).release
  | .registering => some { s.set i { r with phase := .writing, since := s.readPos } with
      inflight := s.inflight.insert r.id i }
  | .writing =>
      if s.closed then some (s.set i (r.moveTo (unwind r .workerExit)))
      else if ok then
        some ((s.set i { r with phase := .awaiting, written := some s.stdout.length }).write
          r.payload)
      else some (s.set i (r.moveTo (unwind r .failed)))
  | .unwriting x => some ((s.set i (r.moveTo (.popping x))).pop r.id)
  | .awaiting =>
      r.inbox[r.taken]?.map fun item =>
        s.set i { r with
          taken := r.taken + 1
          phase :=
            if name item.event = some "_worker_exit" then .popping .workerExit
            else .yielded item.event }
  | .yielded e => some (s.set i (r.moveTo (if last e then .popping .returned else .awaiting)))
  | .popping x => some ((s.set i (r.moveTo (.releasing x))).pop r.id)
  | .releasing x =>
      some (s.set i (r.moveTo (if r.sync || x = .returned then .ended x
        else .cancelling x))).release
  | .cancelling x =>
      let s' := s.set i (r.moveTo (.ended x))
      some (if !s.closed && ok then s'.write (cancelLine r.id) else s')
  | .acquiring _ | .abandoned _ | .lost | .ended _ => none

/-- Cancelling the task of `send_request`, or closing the generator of either. -/
def cancelStep (s : State) (i : Nat) (r : Request) : Option State :=
  match r.phase with
  | .acquiring job => if r.sync then none else some (s.set i (r.moveTo (.abandoned job)))
  | .acquired => some (s.set i (r.moveTo .settling))
  | .awaiting => if r.sync then none else some (s.set i (r.moveTo (.popping .abandoned)))
  | .yielded _ => some (s.set i (r.moveTo (.popping .abandoned)))
  | _ => none

/-- One line of stdout, up to the choice of its queue. -/
def readLine (s : State) (line : Option Json) : State :=
  let s' := { s with readPos := s.readPos + 1 }
  match line with
  | none => s'
  | some e =>
      if raises e then { s' with reader := .stopping }
      else
        match receiver s.inflight e with
        | some i => { s' with reader := .putting i (.line s.readPos e s.inflight) }
        | none => s'

/-- `_reader_loop`. -/
def readerStep (s : State) : Option State :=
  match s.reader with
  | .reading =>
      match s.stdout[s.readPos]? with
      | some line => some (readLine s line)
      | none => if s.ended then some { s with reader := .stopping } else none
  | .putting i item => some { s with requests := put s.requests i item, reader := .reading }
  | .stopping => some { s with
      requests := wakeAll s.requests (queues s.inflight)
      inflight := ∅
      reader := .stopped }
  | .stopped => none

/-- `close`. -/
def closerStep (s : State) (k : Nat) : Closer → Option State
  | .closing => some { s with closed := true, closers := s.closers.set k .draining }
  | .draining => some { s with
      inflight := ∅
      closers := s.closers.set k (.waking (queues s.inflight)) }
  | .waking (i :: targets) => some { s with
      requests := put s.requests i .sentinel
      closers := s.closers.set k (.waking targets) }
  | .waking [] => none

/-- One `WorkerIO` with all interleavings of its requests, its reader and the
calls of `close`, for every behaviour of the worker. -/
def multiplexer (concurrency : Int) : TransitionSystem State Label where
  start := .init concurrency
  step s
    | .sendRequest id payload => (withId id payload).map fun payload =>
        { s with requests := s.requests ++ [fresh false id payload] }
    | .request payload =>
        some { s with
          requests := s.requests ++ [fresh true ((payload.str? "id").getD "") payload] }
    | .executor i => s.requests[i]?.bind (executorStep s i)
    | .revoke i => s.requests[i]?.bind fun r =>
        if r.phase = .abandoned .queued then some (s.set i (r.moveTo (.ended .abandoned))) else none
    | .task i ok => s.requests[i]?.bind fun r => taskStep s i r ok
    | .cancel i => s.requests[i]?.bind (cancelStep s i)
    | .timeout i => s.requests[i]?.bind fun r =>
        if r.phase = .awaiting ∧ r.unread = [] then some (s.set i (r.moveTo (.popping .timedOut)))
        else none
    | .emit line => if s.ended then none else some { s with stdout := s.stdout ++ [line] }
    | .hangUp => some { s with ended := true }
    | .reader => readerStep s
    | .fault => if s.reader = .reading then some { s with reader := .stopping } else none
    | .close => some { s with closers := s.closers ++ [.closing] }
    | .closer k => s.closers[k]?.bind (closerStep s k)

/-- From the call to the wait for the first event. -/
def begin (i : Nat) : List Label :=
  [.executor i, .executor i, .executor i, .task i true, .task i true, .task i true, .task i true]

/-- A `done` event, from the worker's output to the end of its request. -/
def complete (i : Nat) (id : String) : List Label :=
  [.emit (some (.obj [("event", .str "done"), ("id", .str id)])), .reader, .reader,
    .task i true, .task i true, .task i true, .task i true]

end JetsonVoice.WorkerIO
