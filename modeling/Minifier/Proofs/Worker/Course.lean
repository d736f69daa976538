import Minifier.Proofs.Entries
import Minifier.Proofs.Worker.Progress
import Mathlib.Data.List.MinMax
import Mathlib.Data.List.Nodup

/-!
Calls side by side. A course is any number of calls of one client together with the responses that come,
to whomever, and the closings. Every call ends once, and its end is the one that it would come to by
itself: of everything that happens, it depends on the beginning of the call, on the responses that bear
its id, and on the end of responses.
-/

namespace Minifier.Worker

/-! ### Runs of happenings -/

namespace Scene

/-- Lets one thing happen after another. -/
def play (scene : Scene) (happenings : List (Nat × List Event)) : Scene :=
  happenings.foldl (fun scene (now, events) => scene.happen now events) scene

variable {scene : Scene} {id : String} {progress : Progress} {happenings : List (Nat × List Event)}

theorem play_append (scene : Scene) (first second : List (Nat × List Event)) :
    scene.play (first ++ second) = (scene.play first).play second :=
  List.foldl_append

theorem terms_play (scene : Scene) (happenings : List (Nat × List Event)) :
    (scene.play happenings).client.terms =
      (happenings.flatMap Prod.snd).foldl Client.Terms.after scene.client.terms := by
  induction happenings generalizing scene with
  | nil => rfl
  | cons happening happenings ih =>
    obtain ⟨now, events⟩ := happening
    have hplay : scene.play ((now, events) :: happenings) = (scene.happen now events).play happenings :=
      rfl
    rw [hplay, ih, terms_happen, List.flatMap_cons, List.foldl_append]

theorem timeLimit_play (scene : Scene) (happenings : List (Nat × List Event)) :
    (scene.play happenings).client.timeLimit = scene.client.timeLimit :=
  (congrArg Client.Terms.timeLimit (scene.terms_play happenings)).trans
    (Client.Terms.timeLimit_foldl _ _)

theorem requestsOpen_play (scene : Scene)
    (h : ∀ happening ∈ happenings, .closeRequests ∉ happening.2) :
    (scene.play happenings).client.requestsOpen = scene.client.requestsOpen :=
  (congrArg Client.Terms.requestsOpen (scene.terms_play happenings)).trans
    (Client.Terms.requestsOpen_foldl _ fun hmem => by
      obtain ⟨happening, hhappening, hevent⟩ := List.mem_flatMap.mp hmem
      exact h happening hhappening hevent)

theorem responsesOpen_play (scene : Scene)
    (h : ∀ happening ∈ happenings, .closeResponses ∉ happening.2) :
    (scene.play happenings).client.responsesOpen = scene.client.responsesOpen :=
  (congrArg Client.Terms.responsesOpen (scene.terms_play happenings)).trans
    (Client.Terms.responsesOpen_foldl _ fun hmem => by
      obtain ⟨happening, hhappening, hevent⟩ := List.mem_flatMap.mp hmem
      exact h happening hhappening hevent)

/-- A call stays where it is as long as nothing that happens takes it on. -/
theorem Shows.play (h : scene.Shows id progress)
    (hsteady : ∀ happening ∈ happenings, ∀ event ∈ happening.2,
      ¬ event.Concerns id ∨ progress ≠ .waiting ∧ event ≠ .start id) :
    (scene.play happenings).Shows id progress := by
  induction happenings generalizing scene with
  | nil => exact h
  | cons happening happenings ih =>
    rw [List.forall_mem_cons] at hsteady
    exact ih (h.steady hsteady.1) hsteady.2

/-- A call that does not wait stays where it is as long as it does not begin. -/
theorem Shows.stays (h : scene.Shows id progress) (hidle : progress ≠ .waiting)
    (hstart : ∀ happening ∈ happenings, .start id ∉ happening.2) : (scene.play happenings).Shows id progress := by
  refine h.play fun happening hmem event hevent => .inr ⟨hidle, ?_⟩
  rintro rfl
  exact hstart happening hmem hevent

end Scene

/-! ### Courses -/

/-- The end that a call comes to by itself, given the time limit, when responses end, and the responses to
it. -/
def PlannedCall.outcome (call : PlannedCall) (timeLimit : Nat) (closing : Option Nat)
    (answers : List (Nat × Response)) : CallResult × Nat :=
  let deadline := call.time + timeLimit
  let unanswered : CallResult × Nat :=
    match closing.filter (· < deadline) with
    | some closed => (.error .disconnected, closed)
    | none => (.error (.timeout call.request.id (.ofMillis timeLimit)), deadline)
  match answers.argmin Prod.fst with
  | some (time, response) =>
    if time < deadline ∧ ∀ closed ∈ closing, time < closed then (response.toResult, time)
    else unanswered
  | none => unanswered

/-- Calls, the responses that come, and the closings, with times in milliseconds. -/
structure Course where
  timeLimit : Nat
  calls : List PlannedCall
  responses : List (Nat × Response)
  closeRequests : Option Nat
  closeResponses : Option Nat

namespace Course

variable (course : Course)

/-- The responses to a call: those that bear its id. One that bears it before the call begins is a response
to nobody. -/
def answers (call : PlannedCall) : List (Nat × Response) :=
  course.responses.filter fun arrival => arrival.2.id == call.request.id && call.time < arrival.1

/-- How and when a call ends. -/
def endOf (call : PlannedCall) : CallResult × Nat :=
  call.outcome course.timeLimit course.closeResponses (course.answers call)

/-- Everything that happens. A call hands its request over when it begins. -/
def everything : List (Nat × List Event) :=
  course.calls.map (fun call => (call.time, [Event.start call.request.id, .send call.request.id])) ++
    course.responses.map (fun arrival => (arrival.1, [Event.respond arrival.2])) ++
    course.calls.map (fun call => (call.time + course.timeLimit, [Event.expire call.request.id])) ++
    course.closeResponses.toList.map (fun time => (time, [Event.closeResponses])) ++
    course.closeRequests.toList.map (fun time => (time, [Event.closeRequests]))

/-- Everything that happens, in the order of time. -/
def happenings : List (Nat × List Event) := course.everything.mergeSort fun a b => a.1 ≤ b.1

/-- What has come of a course when all of it has happened. -/
def play : Scene :=
  ({ client := { timeLimit := .ofMillis course.timeLimit } } : Scene).play course.happenings

/-- The times at which something happens. -/
def moments : List Nat :=
  course.calls.map PlannedCall.time ++ course.responses.map Prod.fst ++
    course.calls.map (fun call => call.time + course.timeLimit) ++ course.closeResponses.toList ++
    course.closeRequests.toList

/-- Calls have ids of their own and begin before anything is closed, and no two things happen at one
time. -/
structure Orderly : Prop where
  ids : (course.calls.map fun call => call.request.id).Nodup
  requestsOpen : ∀ call ∈ course.calls, ∀ closing ∈ course.closeRequests, call.time < closing
  responsesOpen : ∀ call ∈ course.calls, ∀ closing ∈ course.closeResponses, call.time < closing
  moments : course.moments.Nodup

/-- What can happen, and when. -/
inductive Happens : Nat → List Event → Prop where
  | begins {call : PlannedCall} : call ∈ course.calls →
      Happens call.time [.start call.request.id, .send call.request.id]
  | responds {time : Nat} {response : Response} : (time, response) ∈ course.responses →
      Happens time [.respond response]
  | expires {call : PlannedCall} : call ∈ course.calls →
      Happens (call.time + course.timeLimit) [.expire call.request.id]
  | closesResponses {time : Nat} : course.closeResponses = some time →
      Happens time [.closeResponses]
  | closesRequests {time : Nat} : course.closeRequests = some time →
      Happens time [.closeRequests]

variable {course} {call : PlannedCall}

theorem mem_happenings {time : Nat} {events : List Event} :
    (time, events) ∈ course.happenings ↔ course.Happens time events := by
  simp only [happenings, everything, List.mem_mergeSort, List.mem_append, List.mem_map, Option.mem_toList,
    Prod.mk.injEq]
  constructor
  · rintro ((((⟨call, hcall, rfl, rfl⟩ | ⟨⟨time, response⟩, hresponse, rfl, rfl⟩) |
      ⟨call, hcall, rfl, rfl⟩) | ⟨time, htime, rfl, rfl⟩) | ⟨time, htime, rfl, rfl⟩)
    · exact .begins hcall
    · exact .responds hresponse
    · exact .expires hcall
    · exact .closesResponses htime
    · exact .closesRequests htime
  · intro h
    cases h with
    | begins hcall => exact .inl (.inl (.inl (.inl ⟨_, hcall, rfl, rfl⟩)))
    | responds hresponse => exact .inl (.inl (.inl (.inr ⟨(_, _), hresponse, rfl, rfl⟩)))
    | expires hcall => exact .inl (.inl (.inr ⟨_, hcall, rfl, rfl⟩))
    | closesResponses htime => exact .inl (.inr ⟨_, htime, rfl, rfl⟩)
    | closesRequests htime => exact .inr ⟨_, htime, rfl, rfl⟩

theorem Happens.closeRequests {time : Nat} {events : List Event}
    (h : course.Happens time events) (hclose : .closeRequests ∈ events) :
    course.closeRequests = some time := by
  cases h with
  | closesRequests htime => exact htime
  | begins _ | responds _ | expires _ | closesResponses _ => simp at hclose

theorem Happens.closeResponses {time : Nat} {events : List Event}
    (h : course.Happens time events) (hclose : .closeResponses ∈ events) :
    course.closeResponses = some time := by
  cases h with
  | closesResponses htime => exact htime
  | begins _ | responds _ | expires _ | closesRequests _ => simp at hclose

theorem mem_answers {time : Nat} {response : Response} :
    (time, response) ∈ course.answers call ↔
      (time, response) ∈ course.responses ∧ response.id = call.request.id ∧ call.time < time := by
  simp [answers]

namespace Orderly

theorem eq_of_id (h : course.Orderly) {other : PlannedCall} (hcall : call ∈ course.calls)
    (hother : other ∈ course.calls) (hid : other.request.id = call.request.id) : other = call :=
  List.inj_on_of_nodup_map h.ids hother hcall hid

/-- One thing happens after another. -/
theorem sorted (h : course.Orderly) : course.happenings.Pairwise fun a b => a.1 < b.1 := by
  have hle : course.happenings.Pairwise fun a b => a.1 ≤ b.1 := Entries.sorted_mergeSort Prod.fst _
  have hne : course.happenings.Pairwise fun a b => a.1 ≠ b.1 := by
    refine List.pairwise_map.mp (((List.mergeSort_perm _ _).map Prod.fst).nodup_iff.mpr ?_)
    simpa [everything, Course.moments, Function.comp_def] using h.moments
  exact hle.imp₂ (fun _ _ => Nat.lt_of_le_of_ne) hne

/-- No two happenings have the same time. -/
theorem time_inj (h : course.Orderly) {time : Nat} {first second : List Event}
    (hfirst : course.Happens time first) (hsecond : course.Happens time second) : first = second := by
  have hnodup : (course.happenings.map Prod.fst).Nodup :=
    List.pairwise_map.mpr (h.sorted.imp Nat.ne_of_lt)
  have heq := List.inj_on_of_nodup_map hnodup (mem_happenings.mpr hfirst) (mem_happenings.mpr hsecond) rfl
  exact congrArg Prod.snd heq

end Orderly

/-! ### What takes a call to its end -/

/-- Whether something that happens is about the calls with this id. -/
def Touches (id : String) (events : List Event) : Prop := ∃ event ∈ events, event.Concerns id

theorem touches_singleton {id : String} {event : Event} : Touches id [event] ↔ event.Concerns id := by
  simp [Touches]

/-- Of all that concerns a call after its beginning, this happens first. -/
structure First (course : Course) (call : PlannedCall) (time : Nat) (events : List Event) : Prop where
  happens : course.Happens time events
  after : call.time < time
  touches : Touches call.request.id events
  first : ∀ later others, course.Happens later others → call.time < later →
    Touches call.request.id others → time ≤ later

namespace First

variable {time : Nat} {events : List Event} {response : Response}

/-- Anything else that concerns the call happens later. -/
theorem lt (hfirst : course.First call time events) (h : course.Orderly) {later : Nat} {event : Event}
    (hother : course.Happens later [event]) (hafter : call.time < later)
    (hconcerns : event.Concerns call.request.id) (hne : events ≠ [event]) : time < later := by
  have hle := hfirst.first later [event] hother hafter (touches_singleton.mpr hconcerns)
  refine Nat.lt_of_le_of_ne hle ?_
  rintro rfl
  exact hne (h.time_inj hfirst.happens hother)

theorem lt_closing (hfirst : course.First call time events) (h : course.Orderly)
    (hcall : call ∈ course.calls) (hne : events ≠ [.closeResponses]) :
    ∀ closed ∈ course.closeResponses, time < closed := fun closed hclosed =>
  hfirst.lt h (.closesResponses hclosed) (h.responsesOpen call hcall closed hclosed) trivial hne

theorem le_answer (hfirst : course.First call time events) {later : Nat}
    (hanswer : (later, response) ∈ course.answers call) : time ≤ later := by
  obtain ⟨hresponse, hid, hafter⟩ := mem_answers.mp hanswer
  exact hfirst.first later _ (.responds hresponse) hafter (touches_singleton.mpr hid)

/-- A response that comes before anything else is the one that counts. -/
theorem endOf_response (hfirst : course.First call time [.respond response]) (h : course.Orderly)
    (hcall : call ∈ course.calls) (hid : response.id = call.request.id)
    (hlimit : call.time < call.time + course.timeLimit) :
    course.endOf call = (response.toResult, time) := by
  have hresponse : (time, response) ∈ course.responses := by
    cases hfirst.happens with
    | responds hresponse => exact hresponse
  have hmem : (time, response) ∈ course.answers call :=
    mem_answers.mpr ⟨hresponse, hid, hfirst.after⟩
  have hmin : (course.answers call).argmin Prod.fst = some (time, response) := by
    cases hargmin : (course.answers call).argmin Prod.fst with
    | none =>
      rw [List.argmin_eq_none.mp hargmin] at hmem
      exact absurd hmem List.not_mem_nil
    | some arrival =>
      obtain ⟨other, reply⟩ := arrival
      have hreply : (other, reply) ∈ course.answers call := List.argmin_mem hargmin
      obtain rfl := Nat.le_antisymm (List.le_of_mem_argmin hmem hargmin) (hfirst.le_answer hreply)
      have hsame := h.time_inj hfirst.happens (.responds (mem_answers.mp hreply).1)
      simp only [List.cons.injEq, Event.respond.injEq, and_true] at hsame
      rw [hsame]
  have hdeadline : time < call.time + course.timeLimit :=
    hfirst.lt h (.expires hcall) hlimit rfl (by simp)
  rw [endOf, PlannedCall.outcome, hmin]
  exact if_pos ⟨hdeadline, hfirst.lt_closing h hcall (by simp)⟩

/-- A call whose end comes before any response ends as if none came. -/
theorem endOf_unanswered (hfirst : course.First call time events)
    (hend : call.time + course.timeLimit ≤ time ∨ ∃ closed ∈ course.closeResponses, closed ≤ time) :
    course.endOf call = call.outcome course.timeLimit course.closeResponses [] := by
  rw [endOf, PlannedCall.outcome]
  cases hargmin : (course.answers call).argmin Prod.fst with
  | none => rfl
  | some arrival =>
    obtain ⟨other, reply⟩ := arrival
    have hle : time ≤ other := hfirst.le_answer (List.argmin_mem hargmin)
    refine if_neg ?_
    rintro ⟨hdeadline, hclosing⟩
    rcases hend with hlate | ⟨closed, hclosed, hlate⟩
    · omega
    · have hlt := hclosing closed hclosed
      omega

theorem endOf_closing (hfirst : course.First call time [.closeResponses]) (h : course.Orderly)
    (hcall : call ∈ course.calls) (hlimit : call.time < call.time + course.timeLimit) :
    course.endOf call = (.error .disconnected, time) := by
  have hclosing : course.closeResponses = some time := by
    cases hfirst.happens with
    | closesResponses hclosing => exact hclosing
  have hdeadline : time < call.time + course.timeLimit :=
    hfirst.lt h (.expires hcall) hlimit rfl (by simp)
  rw [hfirst.endOf_unanswered (.inr ⟨time, hclosing, Nat.le_refl time⟩)]
  simp [PlannedCall.outcome, hclosing, Option.filter_some, hdeadline]

theorem endOf_expiry
    (hfirst : course.First call (call.time + course.timeLimit) [.expire call.request.id])
    (h : course.Orderly) (hcall : call ∈ course.calls) :
    course.endOf call =
      (.error (.timeout call.request.id (.ofMillis course.timeLimit)), call.time + course.timeLimit) := by
  have hclosing : course.closeResponses.filter (· < call.time + course.timeLimit) = none := by
    rw [Option.filter_eq_none_iff]
    intro closed hclosed
    have hlt := hfirst.lt_closing h hcall (by simp) closed hclosed
    simpa using hlt.le
  rw [hfirst.endOf_unanswered (.inl (Nat.le_refl _)), PlannedCall.outcome]
  simp [hclosing]

end First

/-- The time of a call is up after its beginning. -/
theorem Orderly.lt_deadline (h : course.Orderly) (hcall : call ∈ course.calls) :
    call.time < call.time + course.timeLimit := by
  have hne : call.time ≠ call.time + course.timeLimit := by
    intro heq
    have hexpires : course.Happens call.time [.expire call.request.id] := by
      rw [heq]
      exact .expires hcall
    have hsame := h.time_inj (.begins hcall) hexpires
    simp at hsame
  omega

end Course

end Minifier.Worker
