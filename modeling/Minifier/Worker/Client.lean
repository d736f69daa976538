import Minifier.Duration
import Minifier.Worker.Message

/-!
The side that asks a worker. Every call registers under its id and waits; a response is routed to the
call that is registered under its id, and one that nobody waits for is dropped. Calls do not depend on
each other: each has its own time limit.

The client is a state that small events change. Several events make up what happens at one instant, so
that any order in which the parties act is a list of events.
-/

namespace Minifier.Worker

/-- Why a call ended without a result. -/
inductive CallError where
  /-- No response came in time. -/
  | timeout (id : String) (after : Duration) : CallError
  /-- The worker could not meet the request. -/
  | failed (message : String) : CallError
  /-- The worker is gone. -/
  | disconnected : CallError
  /-- The response tells success and bears no result. -/
  | malformedResponse (id : String) : CallError
  deriving DecidableEq, Repr

/-- The error in words. -/
def CallError.message : CallError → String
  | timeout id after => s!"Worker request {id} timed out after {after.exact}"
  | failed message => s!"Worker failed: {message}"
  | disconnected => "Worker channel closed"
  | malformedResponse id => s!"Worker response for {id} reported success without a result"

/-- How a call ended. -/
abbrev CallResult := Except CallError Outcome

/-- What a response means for its call. A result counts only if the response tells success, and an error
only if it does not. -/
def Response.toResult (response : Response) : CallResult :=
  if response.success then
    match response.result with
    | some result => .ok result
    | none => .error (.malformedResponse response.id)
  else .error (.failed (response.error.getD "unknown worker error"))

/-- What a call waits on. -/
inductive Slot where
  /-- Nothing has come yet. -/
  | waiting : Slot
  /-- A response has come. -/
  | filled (response : Response) : Slot
  /-- Nothing can come any more. -/
  | cut : Slot
  deriving DecidableEq, Repr

/-- A call in progress. -/
structure Call where
  id : String
  /-- Whether the request was handed over. -/
  sent : Bool
  slot : Slot
  deriving DecidableEq, Repr

/-- The state of a client. -/
structure Client where
  timeLimit : Duration
  /-- The calls in progress. -/
  calls : List Call := []
  /-- The ids under which a response is awaited. -/
  pending : List String := []
  /-- Whether requests are still taken. -/
  requestsOpen : Bool := true
  /-- Whether responses still come. -/
  responsesOpen : Bool := true
  /-- The calls that have ended, the latest first. -/
  ended : List (String × CallResult) := []

/-- What can happen to a client. -/
inductive Event where
  /-- A call begins and registers its id. -/
  | start (id : String) : Event
  /-- A call hands its request over. -/
  | send (id : String) : Event
  /-- A response comes. -/
  | respond (response : Response) : Event
  /-- A call looks at its slot. -/
  | wake (id : String) : Event
  /-- The time of a call is up. If it has handed its request over, it looks at its slot once more. -/
  | expire (id : String) : Event
  /-- Nobody waits for a call any more. -/
  | abandon (id : String) : Event
  /-- No further requests are taken. -/
  | closeRequests : Event
  /-- No further responses come. -/
  | closeResponses : Event
  deriving DecidableEq, Repr

namespace Client

/-- How long a call may wait unless something else is asked for. -/
def defaultTimeLimit : Duration := .ofMillis 30000

def pendingCount (client : Client) : Nat := client.pending.length

def call? (client : Client) (id : String) : Option Call := client.calls.find? fun call => call.id == id

/-- Removes a call and its registration. -/
def remove (client : Client) (id : String) : Client :=
  { client with
    calls := client.calls.filter fun call => call.id != id
    pending := client.pending.filter (· != id) }

/-- Ends a call. -/
def finish (client : Client) (id : String) (result : CallResult) : Client :=
  { client.remove id with ended := (id, result) :: client.ended }

/-- Changes the call with an id. -/
def update (client : Client) (id : String) (f : Call → Call) : Client :=
  { client with calls := client.calls.map fun call => if call.id == id then f call else call }

/-- Lets a call that has handed its request over look at its slot. -/
def poll (client : Client) (call : Call) : Client :=
  match call.sent, call.slot with
  | false, _ => client
  | true, .waiting => client
  | true, .filled response => client.finish call.id response.toResult
  | true, .cut => client.finish call.id (.error .disconnected)

/-- The state after an event. -/
def step (client : Client) : Event → Client
  | .start id =>
    { client with
      calls := ⟨id, false, .waiting⟩ :: client.calls
      pending := id :: client.pending }
  | .send id =>
    if client.requestsOpen then client.update id fun call => { call with sent := true }
    else if (client.call? id).isSome then client.finish id (.error .disconnected)
    else client
  | .respond response =>
    if client.responsesOpen && client.pending.contains response.id then
      let routed := client.update response.id fun call => { call with slot := .filled response }
      { routed with pending := routed.pending.filter (· != response.id) }
    else client
  | .wake id =>
    match client.call? id with
    | some call => client.poll call
    | none => client
  | .expire id =>
    match client.call? id with
    | none => client
    | some call =>
      match call.sent, call.slot with
      | false, _ =>
        client.finish id
          (.error (if client.requestsOpen then .timeout id client.timeLimit else .disconnected))
      | true, .waiting => client.finish id (.error (.timeout id client.timeLimit))
      | true, _ => client.poll call
  | .abandon id => client.remove id
  | .closeRequests => { client with requestsOpen := false }
  | .closeResponses =>
    { client with
      responsesOpen := false
      pending := []
      calls := client.calls.map fun call =>
        if client.pending.contains call.id then { call with slot := .cut } else call }

def run (client : Client) (events : List Event) : Client := events.foldl step client

/-- Lets every call look at its slot. -/
def wakeAll (client : Client) : Client := client.run (client.calls.map fun call => .wake call.id)

end Client

end Minifier.Worker
