import Minifier.Proofs.Worker.Course

/-!
Scenes while a plan is carried out, and the courses that they are.

## Instants without events

Once every call has looked at its slot and every end is noted, an
instant at which nothing happens changes nothing. What calls come to does not depend on the book that
is kept of requests and of responses on their way, except through the responses that it lets come.
-/

namespace Minifier.Worker

/-! ### Instants at which nothing happens -/

namespace Client

variable (client : Client) {id : String}

/-- Looking at a slot changes nothing if there is nothing to see. -/
theorem step_wake_of_settled (h : (client.standing id).settled = client.standing id) :
    client.step (.wake id) = client := by
  rw [step]
  split
  · rename_i call hcall
    have hstanding : (client.standing id).call = some call := hcall
    obtain ⟨name, sent, slot⟩ := call
    have hopen : (client.standing id).settled.call = some ⟨name, sent, slot⟩ := by rw [h, hstanding]
    cases sent <;> cases slot
    all_goals first | rfl | simp [Standing.settled, hstanding] at hopen
  · rfl

theorem wakeAll_wakeAll : client.wakeAll.wakeAll = client.wakeAll := by
  have hsettled : ∀ id, (client.wakeAll.standing id).settled = client.wakeAll.standing id := fun id => by
    rw [standing_wakeAll, Standing.settled_settled]
  have hrun : ∀ calls : List Call,
      client.wakeAll.run (calls.map fun call => .wake call.id) = client.wakeAll := by
    intro calls
    induction calls with
    | nil => rfl
    | cons call calls ih =>
      rw [List.map_cons]
      exact (congrArg (fun woken => run woken _)
        (client.wakeAll.step_wake_of_settled (hsettled call.id))).trans ih
  exact hrun _

end Client

namespace Scene

/-- A scene in which every call has looked at its slot and every end is noted. -/
def Quiet (scene : Scene) : Prop := ∀ now, scene.happen now [] = scene

theorem note_note (scene : Scene) (now later : Nat) : (scene.note now).note later = scene.note now := by
  have hknown : ∀ entry ∈ scene.client.ended,
      ((scene.note now).finished.map Prod.fst).contains entry.1 = true := by
    intro entry hentry
    rw [List.contains_iff_mem, note, List.map_append, List.mem_append]
    by_cases h : entry.1 ∈ scene.finished.map Prod.fst
    · exact .inr h
    · refine .inl ?_
      simp only [List.map_map, Function.comp_def, List.mem_map, List.mem_filter]
      exact ⟨entry, ⟨hentry, by simpa using h⟩, rfl⟩
  have hnew : (scene.note now).client.ended.filter
      (fun entry => !((scene.note now).finished.map Prod.fst).contains entry.1) = [] := by
    refine List.filter_eq_nil_iff.mpr fun entry hentry => ?_
    rw [hknown entry hentry]
    exact Bool.false_ne_true
  rw [note, hnew]
  rfl

theorem quiet_happen (scene : Scene) (now : Nat) (events : List Event) :
    (scene.happen now events).Quiet := by
  intro later
  have hclient : ((scene.happen now events).client.run []).wakeAll = (scene.happen now events).client :=
    Client.wakeAll_wakeAll _
  rw [happen, hclient]
  exact note_note { scene with client := (scene.client.run events).wakeAll } now later

theorem quiet_play {scene : Scene} (h : scene.Quiet) (happenings : List (Nat × List Event)) :
    (scene.play happenings).Quiet := by
  induction happenings generalizing scene with
  | nil => exact h
  | cons happening happenings ih => exact ih (scene.quiet_happen happening.1 happening.2)

/-! ### The book -/

/-- A scene without the book that is kept of requests and of responses on their way. -/
def bare (scene : Scene) : Scene := { client := scene.client, finished := scene.finished }

/-- The book that is kept. -/
def book (scene : Scene) : List Request × List Outgoing := (scene.taken, scene.outgoing)

/-- What a response is for the client, if it comes at all. -/
def delivery (scene : Scene) (now : Nat) (outgoing : Outgoing) : Option (Nat × List Event) :=
  (scene.idOf outgoing).map fun id =>
    (now, [.respond { outgoing.planned.respond outgoing.request with id }])

theorem foldl_deliver (scene : Scene) (now : Nat) (due : List Outgoing) :
    (due.foldl (fun scene outgoing => scene.deliver now outgoing) scene).bare =
        scene.bare.play (due.filterMap (scene.delivery now)) ∧
      (due.foldl (fun scene outgoing => scene.deliver now outgoing) scene).book = scene.book := by
  induction due generalizing scene with
  | nil => exact ⟨rfl, rfl⟩
  | cons outgoing due ih =>
    have hdelivery : (scene.deliver now outgoing).delivery now = scene.delivery now := by
      funext other
      have htaken : (scene.deliver now outgoing).taken = scene.taken := by
        rw [deliver]
        split <;> rfl
      simp only [delivery, idOf, htaken]
    obtain ⟨hbare, hbook⟩ := ih (scene.deliver now outgoing)
    rw [hdelivery] at hbare
    rw [List.foldl_cons, hbare, hbook, List.filterMap_cons, delivery, deliver]
    cases scene.idOf outgoing with
    | none => exact ⟨rfl, rfl⟩
    | some id => exact ⟨rfl, rfl⟩

theorem foldl_expire (scene : Scene) (now : Nat) (calls : List PlannedCall) :
    (calls.foldl (fun scene call => scene.happen now [.expire call.request.id]) scene).bare =
        scene.bare.play (calls.map fun call => (now, [.expire call.request.id])) ∧
      (calls.foldl (fun scene call => scene.happen now [.expire call.request.id]) scene).book =
        scene.book := by
  induction calls generalizing scene with
  | nil => exact ⟨rfl, rfl⟩
  | cons call calls ih => exact ih (scene.happen now [.expire call.request.id])

end Scene

/-!
## Plans are courses

A plan says what a scripted worker does with the requests that it takes. In its course
each response has the id that it turns out to bear. An instant of the plan brings about what happens in
the course at that time, and keeps book of the requests taken and of the responses on their way.
-/

/-! ### The course of a plan -/

namespace Plan

open Entries

variable (plan : Plan)

/-- The calls in the order in which the worker takes their requests. -/
def asked : List PlannedCall := plan.calls.mergeSort fun a b => a.time ≤ b.time

/-- The responses that come to be on their way, each with the call for whose request it is planned. -/
def posted : List (PlannedCall × PlannedResponse) :=
  plan.asked.zipIdx.flatMap fun (call, number) =>
    (plan.responses[number]?.getD []).map fun response => (call, response)

/-- The id that a planned response turns out to bear. A request that is not yet made has no id to bear. -/
def bears (call : PlannedCall) (planned : PlannedResponse) : Option String :=
  match planned.addressee with
  | .own => some call.request.id
  | .taken number =>
    ((plan.asked[number]?).filter fun other => other.time ≤ planned.time).map fun other =>
      other.request.id
  | .stranger => none

/-- The response that comes of a planned one, if any does. -/
def arrival (call : PlannedCall) (planned : PlannedResponse) : Option (Nat × Response) :=
  (plan.bears call planned).map fun id => (planned.time, { planned.respond call.request with id })

def course : Course where
  timeLimit := plan.timeLimit
  calls := plan.calls
  responses := plan.posted.filterMap fun entry => plan.arrival entry.1 entry.2
  closeRequests := plan.closeRequests
  closeResponses := plan.closeResponses

/-- The course of the plan is orderly, and the worker responds after it has taken a request. -/
structure Orderly : Prop where
  course : plan.course.Orderly
  answers : ∀ entry ∈ plan.posted, entry.1.time < entry.2.time

/-- What is so when everything has happened that is planned before an instant. -/
structure Reached (plan : Plan) (now : Nat) (scene : Scene) : Prop where
  bare : scene.bare = ({ client := { timeLimit := .ofMillis plan.timeLimit } } : Scene).play
    (plan.course.happenings.filter fun happening => happening.1 < now)
  taken : scene.taken = (plan.asked.filter fun call => call.time < now).map PlannedCall.request
  outgoing : scene.outgoing =
    ((plan.posted.filter fun entry => entry.1.time < now).filter fun entry => now ≤ entry.2.time).map
      fun entry => ⟨entry.1.request, entry.2⟩

variable {plan} {now : Nat} {scene : Scene}

/-! ### What is asked and posted -/

theorem asked_perm : plan.asked.Perm plan.calls := List.mergeSort_perm _ _

theorem asked_sorted (plan : Plan) : plan.asked.Pairwise fun a b => a.time ≤ b.time :=
  sorted_mergeSort PlannedCall.time _

theorem posted_sorted : plan.posted.Pairwise fun a b => a.1.time ≤ b.1.time := by
  refine List.pairwise_flatMap.mpr ⟨fun entry _ => ?_, ?_⟩
  · exact List.pairwise_map.mpr (List.pairwise_of_forall fun _ _ => Nat.le_refl _)
  · have hsorted : (plan.asked.zipIdx.map Prod.fst).Pairwise fun a b => a.time ≤ b.time := by
      rw [List.zipIdx_map_fst]
      exact plan.asked_sorted
    refine (List.pairwise_map.mp hsorted).imp fun hle first hfirst second hsecond => ?_
    obtain ⟨-, -, rfl⟩ := List.mem_map.mp hfirst
    obtain ⟨-, -, rfl⟩ := List.mem_map.mp hsecond
    exact hle

/-! ### One instant -/

/-- At an instant at most one thing happens. -/
theorem Orderly.happenings_at (h : plan.Orderly) (now : Nat) :
    (plan.course.happenings.filter fun happening => happening.1 == now) =
        (plan.course.everything.filter fun happening => happening.1 == now) ∧
      (plan.course.everything.filter fun happening => happening.1 == now).length ≤ 1 := by
  have hperm : (plan.course.happenings.filter fun happening => happening.1 == now).Perm
      (plan.course.everything.filter fun happening => happening.1 == now) :=
    (List.mergeSort_perm _ _).filter _
  have hsorted := h.course.sorted.filter fun happening => happening.1 == now
  have hnow : ∀ happening ∈ plan.course.happenings.filter (fun happening => happening.1 == now),
      happening.1 = now := fun happening hhappening => by simpa using (List.mem_filter.mp hhappening).2
  have hlength : (plan.course.happenings.filter fun happening => happening.1 == now).length ≤ 1 := by
    generalize plan.course.happenings.filter (fun happening => happening.1 == now) = all at hsorted hnow
    match all with
    | [] => simp
    | [_] => simp
    | first :: second :: _ =>
      have hlt := (List.pairwise_cons.mp hsorted).1 second List.mem_cons_self
      have hfirst := hnow first List.mem_cons_self
      have hsecond := hnow second (by simp)
      omega
  exact ⟨eq_of_perm_of_length_le_one hperm hlength, hperm.length_eq ▸ hlength⟩

/-- What happens to calls at an instant, before anything is closed. -/
def turns (plan : Plan) (now : Nat) : List (Nat × List Event) :=
  (plan.calls.filter fun call => call.time == now).map
      (fun call => (now, [.start call.request.id, .send call.request.id])) ++
    (plan.course.responses.filter fun arrival => arrival.1 == now).map
      (fun arrival => (now, [.respond arrival.2])) ++
    (plan.calls.filter fun call => call.time + plan.timeLimit == now).map
      (fun call => (now, [.expire call.request.id]))

theorem everything_at (plan : Plan) (now : Nat) :
    (plan.course.everything.filter fun happening => happening.1 == now) =
      plan.turns now ++
        ((plan.closeResponses.toList.filter fun time => time == now).map
            (fun _ => (now, [.closeResponses])) ++
          (plan.closeRequests.toList.filter fun time => time == now).map
            (fun _ => (now, [.closeRequests]))) := by
  simp only [Course.everything, turns, course, List.filter_append, filter_map_time PlannedCall.time,
    filter_map_time Prod.fst, filter_map_time (fun call : PlannedCall => call.time + plan.timeLimit),
    filter_map_time (fun time : Nat => time), List.append_assoc]

/-- The responses that the worker plans when it takes a request at an instant. -/
theorem posted_at {call : PlannedCall} (h : (plan.asked.filter fun call => call.time == now) = [call]) :
    (plan.posted.filter fun entry => entry.1.time == now) =
      (plan.responses[(plan.asked.filter fun call => call.time < now).length]?.getD []).map
        fun response => (call, response) := by
  have hflat : ∀ entries : List (PlannedCall × Nat),
      ((entries.flatMap fun (call, number) =>
        (plan.responses[number]?.getD []).map fun response => (call, response)).filter
          fun entry => entry.1.time == now) =
      (entries.filter fun entry => entry.1.time == now).flatMap fun (call, number) =>
        (plan.responses[number]?.getD []).map fun response => (call, response) := by
    intro entries
    induction entries with
    | nil => rfl
    | cons entry entries ih =>
      rw [List.flatMap_cons, List.filter_append, ih, List.filter_map]
      by_cases hnow : entry.1.time = now
      · simp [hnow, Function.comp_def]
      · simp [hnow, Function.comp_def]
  rw [posted, hflat, filter_zipIdx PlannedCall.time plan.asked_sorted, h]
  simp

theorem fst_mem_asked {entry : PlannedCall × PlannedResponse} (h : entry ∈ plan.posted) :
    entry.1 ∈ plan.asked := by
  obtain ⟨⟨call, number⟩, hcall, hentry⟩ := List.mem_flatMap.mp h
  obtain ⟨response, -, rfl⟩ := List.mem_map.mp hentry
  exact List.fst_mem_of_mem_zipIdx hcall

/-- The scene when the calls have begun that begin at an instant. -/
def begun (plan : Plan) (now : Nat) (scene : Scene) : Scene :=
  (plan.calls.filter fun call => call.time == now).foldl
    (fun scene call => scene.startCall plan now call.request) scene

/-- Requests are taken as long as calls begin. -/
theorem Reached.requestsOpen (hreached : plan.Reached now scene) (h : plan.Orderly) {call : PlannedCall}
    (hcall : call ∈ plan.calls) (hnow : call.time = now) : scene.client.requestsOpen = true := by
  have hplay := congrArg (fun scene => scene.client.requestsOpen) hreached.bare
  refine hplay.trans (Scene.requestsOpen_play _ fun happening hhappening hclose => ?_)
  rw [List.mem_filter, decide_eq_true_eq] at hhappening
  have hclosing := (Course.mem_happenings.mp hhappening.1).closeRequests hclose
  have hlt := h.course.requestsOpen call hcall _ hclosing
  omega

theorem Reached.begun (hreached : plan.Reached now scene) (h : plan.Orderly) :
    (plan.begun now scene).bare =
        scene.bare.play ((plan.calls.filter fun call => call.time == now).map
          fun call => (now, [.start call.request.id, .send call.request.id])) ∧
      (plan.begun now scene).taken =
        (plan.asked.filter fun call => call.time < now + 1).map PlannedCall.request ∧
      (plan.begun now scene).outgoing =
        ((plan.posted.filter fun entry => entry.1.time < now + 1).filter
          fun entry => now ≤ entry.2.time).map fun entry => ⟨entry.1.request, entry.2⟩ := by
  have hperm : (plan.asked.filter fun call => call.time == now).Perm
      (plan.calls.filter fun call => call.time == now) := asked_perm.filter _
  have hlength := (h.happenings_at now).2
  rw [everything_at, turns] at hlength
  rw [filter_lt_succ PlannedCall.time plan.asked_sorted,
    filter_lt_succ (fun entry : PlannedCall × PlannedResponse => entry.1.time) posted_sorted,
    List.map_append, List.filter_append, List.map_append, ← hreached.taken, ← hreached.outgoing, Plan.begun]
  -- No two things happen at one time, so at most one call begins.
  match hcalls : plan.calls.filter (fun call => call.time == now) with
  | [] =>
    rw [hcalls] at hperm
    have hposted : plan.posted.filter (fun entry => entry.1.time == now) = [] := by
      refine List.filter_eq_nil_iff.mpr fun entry hentry hnow => ?_
      have hmem : entry.1 ∈ plan.asked.filter fun call => call.time == now :=
        List.mem_filter.mpr ⟨fst_mem_asked hentry, hnow⟩
      rw [hperm.eq_nil] at hmem
      exact List.not_mem_nil hmem
    simp [hcalls, hperm.eq_nil, hposted, Scene.play]
  | [call] =>
    have hcall : call ∈ plan.calls ∧ call.time = now := by
      have hmem : call ∈ plan.calls.filter fun call => call.time == now := by
        rw [hcalls]
        exact List.mem_singleton_self call
      simpa using List.mem_filter.mp hmem
    rw [hcalls] at hperm
    have hasked := List.perm_singleton.mp hperm
    have hposted := posted_at hasked
    have hlate : (plan.posted.filter fun entry => entry.1.time == now).filter
        (fun entry => now ≤ entry.2.time) = plan.posted.filter fun entry => entry.1.time == now := by
      refine List.filter_eq_self.mpr fun entry hentry => ?_
      obtain ⟨hentry, hnow⟩ := List.mem_filter.mp hentry
      have hlt := h.answers entry hentry
      simp only [beq_iff_eq] at hnow
      exact decide_eq_true (by omega)
    have hnumber : scene.taken.length = (plan.asked.filter fun call => call.time < now).length := by
      rw [hreached.taken, List.length_map]
    rw [hcalls, hasked, hlate, hposted, ← hnumber, List.map_map, List.foldl_cons, List.foldl_nil, Scene.startCall,
      if_pos (hreached.requestsOpen h hcall.1 hcall.2)]
    exact ⟨rfl, rfl, rfl⟩
  | first :: second :: rest =>
    simp [hcalls] at hlength

/-- A response comes with the id that it was said to bear. -/
theorem delivery_eq (htaken : scene.taken =
      (plan.asked.filter fun call => call.time < now + 1).map PlannedCall.request)
    {call : PlannedCall} {planned : PlannedResponse} (hnow : planned.time = now) :
    scene.delivery now ⟨call.request, planned⟩ =
      (plan.arrival call planned).map fun arrival => (now, [.respond arrival.2]) := by
  have hid : scene.idOf ⟨call.request, planned⟩ = plan.bears call planned := by
    rw [Scene.idOf, bears]
    cases planned.addressee with
    | own | stranger => rfl
    | taken number =>
      have hnumber := getElem?_filter_lt PlannedCall.time plan.asked_sorted (now + 1) number
      simp only [htaken, List.getElem?_map, hnumber, Option.map_map, hnow]
      simp only [Nat.lt_succ_iff, Function.comp_def]
  rw [Scene.delivery, hid, arrival, Option.map_map, hnow]
  rfl

/-- The responses that come at an instant. -/
theorem Reached.due (h : plan.Orderly)
    (htaken : scene.taken = (plan.asked.filter fun call => call.time < now + 1).map PlannedCall.request)
    {outgoing : List Outgoing} (houtgoing : outgoing =
      ((plan.posted.filter fun entry => entry.1.time < now + 1).filter
        fun entry => now ≤ entry.2.time).map fun entry => ⟨entry.1.request, entry.2⟩) :
    ((outgoing.filter fun response => response.planned.time ≤ now).mergeSort
        fun a b => a.planned.time ≤ b.planned.time).filterMap (scene.delivery now) =
      (plan.course.responses.filter fun arrival => arrival.1 == now).map
        fun arrival => (now, [.respond arrival.2]) := by
  have hdue : (outgoing.filter fun response => response.planned.time ≤ now) =
      (plan.posted.filter fun entry => entry.2.time == now).map
        fun entry => ⟨entry.1.request, entry.2⟩ := by
    rw [houtgoing, List.filter_map, List.filter_filter, List.filter_filter]
    refine congrArg _ (List.filter_congr fun entry hentry => ?_)
    have hlt := h.answers entry hentry
    rw [Bool.eq_iff_iff]
    simp only [Function.comp_apply, Bool.and_eq_true, decide_eq_true_eq, beq_iff_eq]
    omega
  have hresponses : (plan.course.responses.filter fun arrival => arrival.1 == now) =
      (plan.posted.filter fun entry => entry.2.time == now).filterMap
        fun entry => plan.arrival entry.1 entry.2 := by
    rw [course, List.filter_filterMap, List.filterMap_filter]
    refine List.filterMap_congr fun entry _ => ?_
    rw [arrival]
    cases plan.bears entry.1 entry.2 <;> simp [Option.filter_some]
  have hdeliveries : ((plan.posted.filter fun entry => entry.2.time == now).map
        fun entry => ⟨entry.1.request, entry.2⟩).filterMap (scene.delivery now) =
      (plan.course.responses.filter fun arrival => arrival.1 == now).map
        fun arrival => (now, [.respond arrival.2]) := by
    rw [hresponses, List.filterMap_map, List.map_filterMap]
    refine List.filterMap_congr fun entry hentry => ?_
    exact delivery_eq htaken (by simpa using (List.mem_filter.mp hentry).2)
  have hlength := (h.happenings_at now).2
  simp only [everything_at, turns, List.length_append] at hlength
  -- At most one response comes, so the order of those that are due does not matter.
  refine (eq_of_perm_of_length_le_one ?_ (by omega)).symm
  rw [← hdeliveries, ← hdue]
  exact ((List.mergeSort_perm _ _).filterMap _).symm

/-- Closings of an instant, one by one or at once. -/
theorem play_closings (h : plan.Orderly) (hquiet : scene.Quiet) :
    scene.play
        ((plan.closeResponses.toList.filter fun time => time == now).map (fun _ => (now, [.closeResponses])) ++
          (plan.closeRequests.toList.filter fun time => time == now).map (fun _ => (now, [.closeRequests]))) =
      scene.happen now
        ((if plan.closeResponses = some now then [Event.closeResponses] else []) ++
          (if plan.closeRequests = some now then [Event.closeRequests] else [])) := by
  have hlength := (h.happenings_at now).2
  simp only [everything_at, List.length_append, List.length_map] at hlength
  have hclosing : ∀ closing : Option Nat, (closing.toList.filter fun time => time == now) =
      if closing = some now then [now] else [] := by
    intro closing
    cases closing with
    | none => rfl
    | some time =>
      by_cases htime : time = now
      · simp [htime]
      · simp [htime]
  rw [hclosing, hclosing] at hlength ⊢
  by_cases hresponses : plan.closeResponses = some now
  · by_cases hrequests : plan.closeRequests = some now
    · simp [hresponses, hrequests] at hlength
    · simp [hresponses, hrequests, Scene.play]
  · by_cases hrequests : plan.closeRequests = some now
    · simp [hresponses, hrequests, Scene.play]
    · simp [hresponses, hrequests, Scene.play, hquiet now]

/-- An instant brings about what happens at it. -/
theorem Reached.instant (hreached : plan.Reached now scene) (h : plan.Orderly) :
    plan.Reached (now + 1) (Scene.instant plan scene now) := by
  obtain ⟨hbegun, htaken, houtgoing⟩ := hreached.begun h
  let book : Scene :=
    { plan.begun now scene with
      outgoing := (plan.begun now scene).outgoing.filter fun response => now < response.planned.time }
  let due := ((plan.begun now scene).outgoing.filter fun response => response.planned.time ≤ now).mergeSort
    fun a b => a.planned.time ≤ b.planned.time
  let delivered := due.foldl (fun scene response => scene.deliver now response) book
  let expired := (plan.calls.filter fun call => call.time + plan.timeLimit == now).foldl
    (fun scene call => scene.happen now [.expire call.request.id]) delivered
  let closings :=
    (if plan.closeResponses = some now then [Event.closeResponses] else []) ++
      (if plan.closeRequests = some now then [Event.closeRequests] else [])
  have hinstant : Scene.instant plan scene now = expired.happen now closings := rfl
  obtain ⟨hdelivered, hdeliveredBook⟩ := book.foldl_deliver now due
  obtain ⟨hexpired, hexpiredBook⟩ := delivered.foldl_expire now
    (plan.calls.filter fun call => call.time + plan.timeLimit == now)
  have hbook : (Scene.instant plan scene now).book = book.book := hexpiredBook.trans hdeliveredBook
  refine ⟨?_, (congrArg Prod.fst hbook).trans htaken, (congrArg Prod.snd hbook).trans ?_⟩
  · have hsorted : plan.course.happenings.Pairwise fun a b => a.1 ≤ b.1 :=
      h.course.sorted.imp Nat.le_of_lt
    have hdue : due.filterMap (book.delivery now) =
        (plan.course.responses.filter fun arrival => arrival.1 == now).map
          fun arrival => (now, [.respond arrival.2]) := Reached.due h htaken houtgoing
    have hplayed : expired.bare = scene.bare.play (plan.turns now) := by
      rw [hexpired, hdelivered, hdue, turns, Scene.play_append, Scene.play_append, ← hbegun]
      rfl
    -- Where nothing is closed, the calls look at their slots once more and find nothing new.
    have hquiet : expired.bare.Quiet := by
      rw [hplayed, hreached.bare, ← Scene.play_append]
      exact Scene.quiet_play (fun _ => rfl) _
    calc (Scene.instant plan scene now).bare
      _ = expired.bare.happen now closings := rfl
      _ = _ := (play_closings h hquiet).symm
      _ = _ := by
        rw [hplayed, ← Scene.play_append, ← everything_at, ← (h.happenings_at now).1, hreached.bare,
          ← Scene.play_append, ← filter_lt_succ Prod.fst hsorted]
  · change ((plan.begun now scene).outgoing.filter fun response => now < response.planned.time) = _
    rw [houtgoing, List.filter_map, List.filter_filter]
    refine congrArg _ (List.filter_congr fun entry _ => ?_)
    rw [Bool.eq_iff_iff]
    simp only [Function.comp_apply, Bool.and_eq_true, decide_eq_true_eq]
    omega

end Plan

end Minifier.Worker
