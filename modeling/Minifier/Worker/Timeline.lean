import Minifier.Worker.Client

/-!
A client and a scripted worker under one clock. At every instant at which something is planned, calls
begin first, then responses come, then time limits end, and then channels close; after that the
instant is over and can be looked at.
-/

namespace Minifier.Worker

/-- Whose id a planned response bears. -/
inductive Addressee where
  /-- The request that it was planned for. -/
  | own : Addressee
  /-- The request that was taken as the one with this number, counting from zero. -/
  | taken (number : Nat) : Addressee
  /-- A request that nobody made. -/
  | stranger : Addressee
  deriving DecidableEq, Repr

/-- A response that the worker plans when it takes a request: when to send it, whose id it bears, and what
it is. -/
structure PlannedResponse where
  time : Nat
  addressee : Addressee
  respond : Request → Response

/-- A call that is planned: when it begins and its request. -/
structure PlannedCall where
  time : Nat
  request : Request

/-- A plan of everything that happens, with times in milliseconds. -/
structure Plan where
  timeLimit : Nat
  calls : List PlannedCall
  /-- The responses that the worker plans for each request, in the order in which it takes them. -/
  responses : List (List PlannedResponse)
  closeRequests : Option Nat
  closeResponses : Option Nat
  /-- When to count the pending calls. -/
  probes : List Nat

/-- A response on its way. -/
structure Outgoing where
  request : Request
  planned : PlannedResponse

/-- Everything that is going on. -/
structure Scene where
  client : Client
  /-- The requests that the worker has taken, the first first. -/
  taken : List Request := []
  /-- The responses on their way. -/
  outgoing : List Outgoing := []
  /-- When calls ended. -/
  finished : List (String × Nat) := []

namespace Scene

/-- Notes the time of the calls that have ended since. -/
def note (scene : Scene) (now : Nat) : Scene :=
  let known := scene.finished.map Prod.fst
  let new := scene.client.ended.filter fun entry => !known.contains entry.1
  { scene with finished := new.map (fun entry => (entry.1, now)) ++ scene.finished }

/-- Lets events happen, and every call look at its slot. -/
def happen (scene : Scene) (now : Nat) (events : List Event) : Scene :=
  note { scene with client := (scene.client.run events).wakeAll } now

/-- A call begins. If requests are still taken, the worker plans its responses. -/
def startCall (plan : Plan) (now : Nat) (scene : Scene) (request : Request) : Scene :=
  let after := scene.happen now [.start request.id, .send request.id]
  if scene.client.requestsOpen then
    let planned := plan.responses[scene.taken.length]?.getD []
    { after with
      taken := scene.taken ++ [request]
      outgoing := scene.outgoing ++ planned.map fun response => ⟨request, response⟩ }
  else after

/-- The id that a response bears, if a request with it was made. -/
def idOf (scene : Scene) (outgoing : Outgoing) : Option String :=
  match outgoing.planned.addressee with
  | .own => some outgoing.request.id
  | .taken number => (scene.taken[number]?).map Request.id
  | .stranger => none

/-- A response comes. -/
def deliver (now : Nat) (scene : Scene) (outgoing : Outgoing) : Scene :=
  match scene.idOf outgoing with
  | some id => scene.happen now [.respond { outgoing.planned.respond outgoing.request with id }]
  | none => scene

/-- Everything that is planned for an instant. -/
def instant (plan : Plan) (scene : Scene) (now : Nat) : Scene :=
  let begun := (plan.calls.filter fun call => call.time == now).foldl
    (fun scene call => scene.startCall plan now call.request) scene
  let due := (begun.outgoing.filter fun response => response.planned.time ≤ now).mergeSort
    fun a b => a.planned.time ≤ b.planned.time
  let delivered := due.foldl (fun scene response => scene.deliver now response)
    { begun with outgoing := begun.outgoing.filter fun response => now < response.planned.time }
  let expired := (plan.calls.filter fun call => call.time + plan.timeLimit == now).foldl
    (fun scene call => scene.happen now [.expire call.request.id]) delivered
  let closings :=
    (if plan.closeResponses = some now then [Event.closeResponses] else []) ++
      (if plan.closeRequests = some now then [Event.closeRequests] else [])
  expired.happen now closings

end Scene

/-- What came of a plan: how and when each call ended, the counts at the probes, and the count at the
end. -/
structure Report where
  calls : List (CallResult × Nat)
  probes : List Nat
  pendingAtEnd : Nat

namespace Plan

/-- The instants at which something may happen, in order. -/
def instants (plan : Plan) : List Nat :=
  let times :=
    plan.calls.map PlannedCall.time ++ plan.calls.map (fun call => call.time + plan.timeLimit) ++
      plan.responses.flatMap (fun planned => planned.map PlannedResponse.time) ++
      plan.closeRequests.toList ++ plan.closeResponses.toList ++ plan.probes
  times.eraseDups.mergeSort

/-- Carries a plan out. -/
def carryOut (plan : Plan) : Report :=
  let start : Scene := { client := { timeLimit := .ofMillis plan.timeLimit } }
  let (scene, counts) := plan.instants.foldl (fun (scene, counts) now =>
    let after := Scene.instant plan scene now
    (after, (now, after.client.pendingCount) :: counts)) (start, ([] : List (Nat × Nat)))
  { calls := plan.calls.filterMap fun call =>
      match scene.client.ended.lookup call.request.id, scene.finished.lookup call.request.id with
      | some result, some time => some (result, time)
      | _, _ => none
    probes := plan.probes.map fun time => (counts.lookup time).getD 0
    pendingAtEnd := scene.client.pendingCount }

end Plan

end Minifier.Worker
