import Minifier.Worker.Client

/-!
One call seen by itself. The calls of a client share its lists of calls, of awaited ids and of results.
The standing of an id is what these lists say about it. An event changes the standing of the ids that
it concerns and of no other id, so calls do not disturb each other, in whatever order their events
come. Only the end of responses concerns every call.
-/

namespace Minifier.Worker

/-- What a client knows of one id: the call in progress, whether a response is awaited under the id, and
how its calls ended, the latest first. -/
structure Standing where
  call : Option Call
  awaited : Bool
  results : List CallResult

namespace Standing

/-- The standing of an id that was never used. -/
def unknown : Standing := ⟨none, false, []⟩

/-- The standing of a call that has handed its request over and waits. -/
def waiting (id : String) : Standing := ⟨some ⟨id, true, .waiting⟩, true, []⟩

/-- The standing of a call that has ended. -/
def ended (result : CallResult) : Standing := ⟨none, false, [result]⟩

/-- The standing after the call looked at its slot. -/
def settled (standing : Standing) : Standing :=
  match standing.call with
  | some ⟨_, true, .filled response⟩ => ⟨none, false, response.toResult :: standing.results⟩
  | some ⟨_, true, .cut⟩ => ⟨none, false, .error .disconnected :: standing.results⟩
  | _ => standing

theorem settled_settled (standing : Standing) : standing.settled.settled = standing.settled := by
  obtain ⟨call, awaited, results⟩ := standing
  rcases call with _ | ⟨id, sent, slot⟩
  · rfl
  · cases sent <;> cases slot <;> rfl

end Standing

/-- Whether an event is about the calls with this id. -/
def Event.Concerns (id : String) : Event → Prop
  | .start other | .send other | .wake other | .expire other | .abandon other => other = id
  | .respond response => response.id = id
  | .closeRequests => False
  | .closeResponses => True

namespace Client

def standing (client : Client) (id : String) : Standing where
  call := client.call? id
  awaited := client.pending.contains id
  results := (client.ended.filter fun entry => entry.1 == id).map Prod.snd

variable (client : Client) {id other : String}

/-! ### What the operations on the lists do -/

theorem standing_remove (id other : String) :
    (client.remove other).standing id =
      if other = id then ⟨none, false, (client.standing id).results⟩ else client.standing id := by
  by_cases h : other = id
  · subst h
    simp [standing, remove, call?, List.find?_filter]
  · have hcalls : (client.calls.filter fun call => call.id != other).find? (fun call => call.id == id) =
        client.calls.find? fun call => call.id == id := by
      rw [List.find?_filter]
      congr 1
      funext call
      by_cases hcall : call.id = id
      · simp [hcall, Ne.symm h]
      · simp [hcall]
    have hne : id ≠ other := Ne.symm h
    simp [standing, remove, call?, hcalls, h, hne]

theorem standing_finish (id other : String) (result : CallResult) :
    (client.finish other result).standing id =
      if other = id then ⟨none, false, result :: (client.standing id).results⟩
      else client.standing id := by
  have hfinish : (client.finish other result).standing id =
      { (client.remove other).standing id with
        results := (((other, result) :: client.ended).filter fun entry => entry.1 == id).map Prod.snd } :=
    rfl
  rw [hfinish, standing_remove]
  by_cases h : other = id
  · simp [h, standing]
  · simp [h, standing]

/-- Changing a call and not its id. -/
theorem standing_update (id other : String) {f : Call → Call} (hf : ∀ call, (f call).id = call.id) :
    (client.update other f).standing id =
      if other = id then { client.standing id with call := (client.standing id).call.map f }
      else client.standing id := by
  have hfind : (client.calls.map fun call => if call.id == other then f call else call).find?
        (fun call => call.id == id) =
      (client.calls.find? fun call => call.id == id).map
        fun call => if call.id == other then f call else call := by
    rw [List.find?_map]
    congr 2
    funext call
    by_cases hcall : call.id = other
    · simp [hcall, hf]
    · simp [hcall]
  have hfound : ∀ call, client.calls.find? (fun call => call.id == id) = some call → call.id = id := by
    intro call hcall
    simpa using List.find?_some hcall
  simp only [standing, update, call?, hfind]
  cases hcall : client.calls.find? fun call => call.id == id with
  | none => simp
  | some call =>
    have hid := hfound call hcall
    by_cases h : other = id
    · simp [hid, h]
    · simp [hid, h, Ne.symm h]

theorem id_of_call? {call : Call} (h : client.call? id = some call) : call.id = id := by
  simpa using List.find?_some h

/-! ### What events do -/

theorem standing_start (id other : String) :
    (client.step (.start other)).standing id =
      if other = id then ⟨some ⟨id, false, .waiting⟩, true, (client.standing id).results⟩
      else client.standing id := by
  by_cases h : other = id
  · simp [step, standing, call?, h]
  · simp [step, standing, call?, h, Ne.symm h]

theorem standing_wake (id other : String) :
    (client.step (.wake other)).standing id =
      if other = id then (client.standing id).settled else client.standing id := by
  have hpoll : ∀ call, client.call? other = some call → (client.poll call).standing id =
      if other = id then (client.standing id).settled else client.standing id := by
    intro call hcall
    have hid := client.id_of_call? hcall
    subst hid
    have hstanding : call.id = id → (client.standing id).call = some call := by
      rintro rfl
      exact hcall
    obtain ⟨name, sent, slot⟩ := call
    cases sent <;> cases slot
    all_goals
      by_cases h : name = id
      · simp [poll, standing_finish, Standing.settled, h, hstanding h]
      · simp [poll, standing_finish, h]
  rw [step]
  split
  · rename_i call hcall
    exact hpoll call hcall
  · rename_i hnone
    by_cases h : other = id
    · subst h
      have hcall : (client.standing other).call = none := hnone
      simp [Standing.settled, hcall]
    · simp [h]

theorem standing_send (hopen : client.requestsOpen = true) (id other : String) :
    (client.step (.send other)).standing id =
      if other = id then
        { client.standing id with
          call := (client.standing id).call.map fun call => { call with sent := true } }
      else client.standing id := by
  rw [step, if_pos hopen]
  exact client.standing_update id other fun _ => rfl

/-- A response reaches the call that it is awaited by, and no other. -/
theorem standing_respond (hopen : client.responsesOpen = true) (id : String) (response : Response) :
    (client.step (.respond response)).standing id =
      if response.id = id ∧ (client.standing id).awaited = true then
        { client.standing id with
          call := (client.standing id).call.map fun call => { call with slot := .filled response }
          awaited := false }
      else client.standing id := by
  have hstep : (client.step (.respond response)).standing id =
      if client.pending.contains response.id then
        { (client.update response.id fun call => { call with slot := .filled response }).standing id with
          awaited := (client.pending.filter (· != response.id)).contains id }
      else client.standing id := by
    rw [step, hopen, Bool.true_and]
    split <;> rfl
  have hupdate := client.standing_update id response.id
    (f := fun call => { call with slot := .filled response }) fun _ => rfl
  rw [hstep, hupdate]
  by_cases h : response.id = id
  · subst h
    simp [standing]
  · have hne : id ≠ response.id := Ne.symm h
    simp [standing, h, hne]

theorem standing_expire (id other : String) :
    (client.step (.expire other)).standing id =
      if other = id then
        match (client.standing id).call with
        | some ⟨_, false, _⟩ =>
          ⟨none, false, .error (if client.requestsOpen then .timeout id client.timeLimit else .disconnected) ::
            (client.standing id).results⟩
        | some ⟨_, true, .waiting⟩ =>
          ⟨none, false, .error (.timeout id client.timeLimit) :: (client.standing id).results⟩
        | _ => (client.standing id).settled
      else client.standing id := by
  have hwake := client.standing_wake id other
  rw [step] at hwake
  rw [step]
  split
  · rename_i hnone
    rw [hnone] at hwake
    by_cases h : other = id
    · subst h
      have hcall : (client.standing other).call = none := hnone
      simpa [hcall] using hwake
    · simp [h]
  · rename_i call hcall
    rw [hcall] at hwake
    simp only at hwake
    by_cases h : other = id
    · subst h
      have hstanding : (client.standing other).call = some call := hcall
      obtain ⟨name, sent, slot⟩ := call
      cases sent
      · simp [standing_finish, hstanding]
      · cases slot
        · simp [standing_finish, hstanding]
        · simpa [hstanding] using hwake
        · simpa [hstanding] using hwake
    · rw [if_neg h] at hwake ⊢
      split
      · rw [standing_finish, if_neg h]
      · rw [standing_finish, if_neg h]
      · exact hwake

/-- The end of responses cuts off every call that awaits one. -/
theorem standing_closeResponses (id : String) :
    (client.step .closeResponses).standing id =
      { call :=
          if (client.standing id).awaited then
            (client.standing id).call.map fun call => { call with slot := .cut }
          else (client.standing id).call
        awaited := false
        results := (client.standing id).results } := by
  have hfind : (client.calls.map fun call =>
        if client.pending.contains call.id then { call with slot := .cut } else call).find?
          (fun call => call.id == id) =
      (client.calls.find? fun call => call.id == id).map fun call =>
        if client.pending.contains call.id then { call with slot := .cut } else call := by
    rw [List.find?_map]
    congr 2
    funext call
    simp only [Function.comp]
    split <;> rfl
  simp only [step, standing, call?, hfind]
  cases hcall : client.calls.find? fun call => call.id == id with
  | none => simp
  | some call =>
    obtain rfl := client.id_of_call? hcall
    by_cases hawaited : call.id ∈ client.pending
    · simp [hawaited]
    · simp [hawaited]

/-- An event changes the standing of no id that it does not concern. -/
theorem standing_step_of_not_concerns {event : Event} (h : ¬ event.Concerns id) :
    (client.step event).standing id = client.standing id := by
  cases event with
  | start other => exact (client.standing_start id other).trans (if_neg h)
  | send other =>
    by_cases hopen : client.requestsOpen = true
    · exact (client.standing_send hopen id other).trans (if_neg h)
    · rw [step, if_neg hopen]
      split
      · exact (client.standing_finish id other _).trans (if_neg h)
      · rfl
  | respond response =>
    by_cases hopen : client.responsesOpen = true
    · exact (client.standing_respond hopen id response).trans (if_neg fun hboth => h hboth.1)
    · rw [Bool.not_eq_true] at hopen
      rw [step, hopen]
      rfl
  | wake other => exact (client.standing_wake id other).trans (if_neg h)
  | expire other => exact (client.standing_expire id other).trans (if_neg h)
  | abandon other => exact (client.standing_remove id other).trans (if_neg h)
  | closeRequests => rfl
  | closeResponses => exact absurd trivial h

/-- Letting every call look at its slot lets this one do so. The induction is on the calls that look, and
one that looks twice sees nothing new. -/
theorem standing_wakeAll (id : String) :
    client.wakeAll.standing id = (client.standing id).settled := by
  have hwakes : ∀ (ids : List String) (client : Client),
      (client.run (ids.map Event.wake)).standing id =
        if id ∈ ids then (client.standing id).settled else client.standing id := by
    intro ids
    induction ids with
    | nil => exact fun _ => rfl
    | cons other ids ih =>
      intro client
      have hrun : client.run ((other :: ids).map Event.wake) =
          (client.step (.wake other)).run (ids.map Event.wake) := rfl
      rw [hrun, ih, standing_wake]
      by_cases h : other = id
      · subst h
        simp [Standing.settled_settled]
      · simp [h, Ne.symm h]
  have hall := hwakes (client.calls.map Call.id) client
  rw [List.map_map] at hall
  refine hall.trans ?_
  split
  · rfl
  · rename_i hnone
    have hcall : (client.standing id).call = none := by
      refine List.find?_eq_none.mpr fun call hcall hid => hnone ?_
      rw [← eq_of_beq hid]
      exact List.mem_map_of_mem hcall
    simp [Standing.settled, hcall]

end Client

end Minifier.Worker
