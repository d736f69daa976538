import Minifier.Proofs.Worker.Standing
import Minifier.Worker.Timeline

/-!
How far a call has come. Before it begins a client knows nothing of its id; then it waits; then it is
over, with a result and a time that stay. Four things take it on: its beginning, a response that bears
its id, the end of its time and the end of responses. Whatever else happens leaves it where it is.
-/

namespace Minifier.Worker

/-- How far a call has come. -/
inductive Progress where
  | ahead : Progress
  | waiting : Progress
  | ended (result : CallResult) (time : Nat) : Progress

namespace Progress

/-- What a client knows of the call then. -/
def standing (id : String) : Progress → Standing
  | ahead => .unknown
  | waiting => .waiting id
  | ended result _ => .ended result

/-- When the call ended, if it has. -/
def time? : Progress → Option Nat
  | ahead | waiting => none
  | ended _ time => some time

/-- A call that waits is in progress. Any other is not, and no response is awaited for it. -/
theorem standing_idle {progress : Progress} (h : progress ≠ waiting) (id : String) :
    (progress.standing id).call = none ∧ (progress.standing id).awaited = false := by
  cases progress with
  | ahead => exact ⟨rfl, rfl⟩
  | waiting => exact absurd rfl h
  | ended result time => exact ⟨rfl, rfl⟩

theorem settled_standing (progress : Progress) (id : String) :
    (progress.standing id).settled = progress.standing id := by
  cases progress <;> rfl

end Progress

namespace Client

variable (client : Client) {id : String}

/-- While no call is in progress under an id, only a beginning changes its standing. -/
theorem standing_step_of_idle {event : Event} (hcall : (client.standing id).call = none)
    (hawaited : (client.standing id).awaited = false) (hstart : event ≠ .start id) :
    (client.step event).standing id = client.standing id := by
  obtain ⟨results, hidle⟩ : ∃ results, client.standing id = ⟨none, false, results⟩ :=
    ⟨(client.standing id).results, by rw [← hcall, ← hawaited]⟩
  have hsettled : (client.standing id).settled = client.standing id := by
    simp [Standing.settled, hcall]
  cases event with
  | start other =>
    have hother : other ≠ id := fun h => hstart (h ▸ rfl)
    rw [standing_start, if_neg hother]
  | send other =>
    by_cases hopen : client.requestsOpen = true
    · simp [standing_send client hopen, hidle]
    · rw [step, if_neg hopen]
      split
      · rename_i hsome
        have hother : other ≠ id := by
          rintro rfl
          have hnone : client.call? other = none := hcall
          simp [hnone] at hsome
        rw [standing_finish, if_neg hother]
      · rfl
  | respond response =>
    by_cases hopen : client.responsesOpen = true
    · simp [standing_respond client hopen, hawaited]
    · rw [Bool.not_eq_true] at hopen
      rw [step, hopen]
      rfl
  | wake other => rw [standing_wake, hsettled, ite_self]
  | expire other => simp [standing_expire, hcall, hsettled]
  | abandon other => simp [step, standing_remove, hidle]
  | closeRequests => rfl
  | closeResponses => simp [standing_closeResponses, hidle]

/-- What holds for every call of a client: its time limit, and whether requests are taken and responses
come. -/
structure Terms where
  timeLimit : Duration
  requestsOpen : Bool
  responsesOpen : Bool

/-- Only a closing changes the terms. -/
def Terms.after (terms : Terms) : Event → Terms
  | .closeRequests => { terms with requestsOpen := false }
  | .closeResponses => { terms with responsesOpen := false }
  | _ => terms

def terms : Terms := ⟨client.timeLimit, client.requestsOpen, client.responsesOpen⟩

theorem terms_step (event : Event) : (client.step event).terms = client.terms.after event := by
  have hpoll (call : Call) : (client.poll call).terms = client.terms := by
    rw [poll]
    split <;> rfl
  cases event with
  | start _ | abandon _ | closeRequests | closeResponses => rfl
  | send _ =>
    rw [step]
    split
    · rfl
    · split <;> rfl
  | respond _ =>
    rw [step]
    split <;> rfl
  | wake _ =>
    rw [step]
    split
    · exact hpoll _
    · rfl
  | expire _ =>
    rw [step]
    split
    · rfl
    · split
      · rfl
      · rfl
      · exact hpoll _

theorem terms_run (events : List Event) :
    (client.run events).terms = events.foldl Terms.after client.terms := by
  induction events generalizing client with
  | nil => rfl
  | cons event events ih =>
    have hrun : client.run (event :: events) = (client.step event).run events := rfl
    rw [hrun, ih, terms_step, List.foldl_cons]

theorem terms_wakeAll : client.wakeAll.terms = client.terms := by
  rw [wakeAll, terms_run, List.foldl_map]
  induction client.calls with
  | nil => rfl
  | cons _ _ ih => exact ih

theorem Terms.timeLimit_foldl (terms : Terms) (events : List Event) :
    (events.foldl after terms).timeLimit = terms.timeLimit := by
  induction events generalizing terms with
  | nil => rfl
  | cons event events ih =>
    rw [List.foldl_cons, ih]
    cases event <;> rfl

theorem Terms.requestsOpen_foldl_iff (terms : Terms) {events : List Event} :
    (events.foldl after terms).requestsOpen = true ↔
      terms.requestsOpen = true ∧ .closeRequests ∉ events := by
  induction events generalizing terms with
  | nil => simp
  | cons event events ih =>
    rw [List.foldl_cons, ih]
    cases event <;> simp [after]

theorem Terms.responsesOpen_foldl_iff (terms : Terms) {events : List Event} :
    (events.foldl after terms).responsesOpen = true ↔
      terms.responsesOpen = true ∧ .closeResponses ∉ events := by
  induction events generalizing terms with
  | nil => simp
  | cons event events ih =>
    rw [List.foldl_cons, ih]
    cases event <;> simp [after]

theorem Terms.requestsOpen_foldl (terms : Terms) {events : List Event}
    (h : .closeRequests ∉ events) :
    (events.foldl after terms).requestsOpen = terms.requestsOpen := by
  rw [Bool.eq_iff_iff, terms.requestsOpen_foldl_iff, and_iff_left h]

theorem Terms.responsesOpen_foldl (terms : Terms) {events : List Event}
    (h : .closeResponses ∉ events) :
    (events.foldl after terms).responsesOpen = terms.responsesOpen := by
  rw [Bool.eq_iff_iff, terms.responsesOpen_foldl_iff, and_iff_left h]

end Client

namespace Scene

/-- A scene shows how far the call with an id has come. -/
structure Shows (scene : Scene) (id : String) (progress : Progress) : Prop where
  standing : scene.client.standing id = progress.standing id
  time : scene.finished.lookup id = progress.time?

variable {scene : Scene} {id : String} {progress : Progress} {now : Nat} {events : List Event}

/-- Results that are noted at one time are found there under their ids. -/
private theorem lookup_map_time (ended : List (String × CallResult)) (now : Nat) (id : String) :
    (ended.map fun entry => (entry.1, now)).lookup id =
      if (ended.filter fun entry => entry.1 == id).isEmpty then none else some now := by
  induction ended with
  | nil => rfl
  | cons entry ended ih =>
    rw [List.map_cons, List.lookup_cons]
    by_cases h : entry.1 = id
    · simp [h]
    · have hne : (id == entry.1) = false := by simpa using Ne.symm h
      rw [hne, List.filter_cons_of_neg (by simpa using h)]
      exact ih

/-- An end that is known already is not among the new ones. -/
private theorem filter_unknown (ended : List (String × CallResult)) (known : List String) (id : String) :
    ((ended.filter fun entry => !known.contains entry.1).filter fun entry => entry.1 == id) =
      if id ∈ known then [] else ended.filter fun entry => entry.1 == id := by
  rw [List.filter_filter]
  split
  · rename_i hknown
    refine List.filter_eq_nil_iff.mpr fun entry _ => ?_
    by_cases h : entry.1 = id
    · have hcontains : known.contains entry.1 = true := by
        rw [h, List.contains_iff_mem]
        exact hknown
      simp only [hcontains, Bool.not_true, Bool.and_false]
      exact Bool.false_ne_true
    · simp [h]
  · rename_i hnew
    refine List.filter_congr fun entry _ => ?_
    by_cases h : entry.1 = id
    · have hcontains : known.contains entry.1 = false := by
        rw [Bool.eq_false_iff, Ne, List.contains_iff_mem, h]
        exact hnew
      rw [hcontains, Bool.not_false, Bool.and_true]
    · simp [h]

/-- The time of an end is noted once. -/
theorem lookup_note (scene : Scene) (now : Nat) (id : String) :
    (scene.note now).finished.lookup id =
      (scene.finished.lookup id).or
        (if (scene.client.standing id).results.isEmpty then none else some now) := by
  rw [note]
  simp only [List.lookup_append, lookup_map_time, filter_unknown]
  cases hknown : scene.finished.lookup id with
  | some time =>
    have hmem : id ∈ scene.finished.map Prod.fst := by
      obtain ⟨before, behind, hfinished, -⟩ := List.lookup_eq_some_iff.mp hknown
      rw [hfinished]
      simp
    rw [if_pos hmem]
    rfl
  | none =>
    have hnot : id ∉ scene.finished.map Prod.fst := by
      intro hmem
      obtain ⟨entry, hentry, rfl⟩ := List.mem_map.mp hmem
      exact absurd (List.lookup_eq_none_iff.mp hknown entry hentry) (by simp)
    rw [if_neg hnot, Option.or_none, Option.none_or, Client.standing, List.isEmpty_map]

/-! ### What takes a call on -/

namespace Shows

/-- A scene shows the progress that its client knows of once all calls have looked at their slots. -/
theorem happen (hstanding : ((scene.client.run events).standing id).settled = progress.standing id)
    (htime : (scene.finished.lookup id).or
      (if (progress.standing id).results.isEmpty then none else some now) = progress.time?) :
    (scene.happen now events).Shows id progress := by
  have hclient : (scene.client.run events).wakeAll.standing id = progress.standing id := by
    rw [Client.standing_wakeAll, hstanding]
  refine ⟨hclient, ?_⟩
  rw [Scene.happen, lookup_note, hclient]
  exact htime

/-- Events that do not concern a call leave it where it is. So do all events but its beginning, where it
does not wait. -/
theorem steady (h : scene.Shows id progress)
    (hevents : ∀ event ∈ events, ¬ event.Concerns id ∨ progress ≠ .waiting ∧ event ≠ .start id) :
    (scene.happen now events).Shows id progress := by
  have hrun : ∀ client : Client, client.standing id = progress.standing id →
      (client.run events).standing id = progress.standing id := by
    induction events with
    | nil => exact fun _ hclient => hclient
    | cons event events ih =>
      intro client hclient
      rw [List.forall_mem_cons] at hevents
      refine ih hevents.2 (client.step event) ?_
      rcases hevents.1 with hother | ⟨hidle, hstart⟩
      · rw [client.standing_step_of_not_concerns hother, hclient]
      · obtain ⟨hcall, hawaited⟩ := progress.standing_idle hidle id
        rw [← hclient] at hcall hawaited
        rw [client.standing_step_of_idle hcall hawaited hstart, hclient]
  refine happen ?_ ?_
  · rw [hrun _ h.standing, Progress.settled_standing]
  · rw [h.time]
    cases progress <;> rfl

theorem begin (h : scene.Shows id .ahead) (hopen : scene.client.requestsOpen = true) :
    (scene.happen now [.start id, .send id]).Shows id .waiting := by
  have hstart : (scene.client.step (.start id)).standing id = ⟨some ⟨id, false, .waiting⟩, true, []⟩ := by
    rw [Client.standing_start, if_pos rfl, h.standing]
    rfl
  have hsend : ((scene.client.run [.start id, .send id])).standing id = .waiting id := by
    have hopen' : (scene.client.step (.start id)).requestsOpen = true := hopen
    exact (Client.standing_send _ hopen' id id).trans (by rw [if_pos rfl, hstart]; rfl)
  refine happen ?_ ?_
  · rw [hsend]
    rfl
  · rw [h.time]
    rfl

theorem answer (h : scene.Shows id .waiting) (hopen : scene.client.responsesOpen = true)
    (response : Response) (hid : response.id = id) :
    (scene.happen now [.respond response]).Shows id (.ended response.toResult now) := by
  refine happen ?_ ?_
  · have hrespond := scene.client.standing_respond hopen id response
    rw [h.standing, if_pos ⟨hid, rfl⟩] at hrespond
    exact congrArg Standing.settled hrespond
  · rw [h.time]
    rfl

theorem expire (h : scene.Shows id .waiting) :
    (scene.happen now [.expire id]).Shows id
      (.ended (.error (.timeout id scene.client.timeLimit)) now) := by
  refine happen ?_ ?_
  · have hexpire := scene.client.standing_expire id id
    rw [h.standing, if_pos rfl] at hexpire
    exact congrArg Standing.settled hexpire
  · rw [h.time]
    rfl

theorem cutOff (h : scene.Shows id .waiting) :
    (scene.happen now [.closeResponses]).Shows id (.ended (.error .disconnected) now) := by
  refine happen ?_ ?_
  · have hclose := scene.client.standing_closeResponses id
    rw [h.standing] at hclose
    exact congrArg Standing.settled hclose
  · rw [h.time]
    rfl

end Shows

theorem terms_happen (scene : Scene) (now : Nat) (events : List Event) :
    (scene.happen now events).client.terms = events.foldl Client.Terms.after scene.client.terms :=
  (Client.terms_wakeAll _).trans (Client.terms_run _ events)

end Scene

end Minifier.Worker
