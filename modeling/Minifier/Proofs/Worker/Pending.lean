import Mathlib.Data.List.Induction
import Minifier.Proofs.Worker.Progress

/-!
The registrations of a client. The ids under which a response is awaited are told apart from all others by
what has happened: a call has begun under such an id, and no response, no end of its own, no dropped future
and no end of responses has taken the registration away. This holds after any events in any order, also
where a call waits to hand its request over, so no exit of a call leaves its registration behind and none
takes away that of another call.
-/

namespace Minifier.Worker

/-! ### What has happened -/

/-- After a call began under an id, one of the events was such, given the events before it. -/
def HappenedTo (id : String) (such : List Event → Event → Prop) (events : List Event) : Prop :=
  ∃ before event after, events = before ++ event :: after ∧ .start id ∈ before ∧ such before event

section

variable {id : String} {such : List Event → Event → Prop} {events : List Event}

theorem HappenedTo.start_mem (h : HappenedTo id such events) : .start id ∈ events := by
  obtain ⟨before, event, after, rfl, hstart, -⟩ := h
  exact List.mem_append_left _ hstart

theorem happenedTo_concat {last : Event} :
    HappenedTo id such (events ++ [last]) ↔
      HappenedTo id such events ∨ .start id ∈ events ∧ such events last := by
  constructor
  · rintro ⟨before, event, after, hevents, hsuch⟩
    rcases List.eq_nil_or_concat after with rfl | ⟨after, final, rfl⟩
    · obtain ⟨rfl, heq⟩ := List.append_inj' hevents rfl
      obtain rfl := List.singleton_inj.mp heq
      exact .inr hsuch
    · rw [List.concat_eq_append, ← List.cons_append, ← List.append_assoc] at hevents
      obtain ⟨rfl, -⟩ := List.append_inj' hevents rfl
      exact .inl ⟨before, event, after, rfl, hsuch⟩
  · rintro (⟨before, event, after, rfl, hsuch⟩ | hsuch)
    · exact ⟨before, event, after ++ [last], by simp, hsuch⟩
    · exact ⟨events, last, [], rfl, hsuch⟩

end

/-- A response was dispatched to the call with an id. Nothing is dispatched once responses have ended. -/
def Answered (id : String) : List Event → Prop :=
  HappenedTo id fun before event =>
    .closeResponses ∉ before ∧ ∃ response, event = .respond response ∧ response.id = id

/-- The call with an id is not waited for any more. -/
def Dropped (id : String) : List Event → Prop := HappenedTo id fun _ event => event = .abandon id

/-- Responses ended after the call with an id began. -/
def CutOff (id : String) : List Event → Prop := HappenedTo id fun _ event => event = .closeResponses

/-- The ids under which calls begin, in order. -/
def startedIds (events : List Event) : List String :=
  events.filterMap fun
    | .start id => some id
    | _ => none

theorem mem_startedIds {events : List Event} {id : String} : id ∈ startedIds events ↔ .start id ∈ events := by
  rw [startedIds, List.mem_filterMap]
  constructor
  · rintro ⟨event, hevent, hid⟩
    cases event with
    | start other =>
      obtain rfl := Option.some.inj hid
      exact hevent
    | _ => cases hid
  · intro hevent
    exact ⟨_, hevent, rfl⟩

namespace Client

variable (client : Client) {id : String} {event : Event}

/-- A call with an id has come to an end of its own. -/
def HasEnded (id : String) : Prop := ∃ result, (id, result) ∈ client.ended

theorem hasEnded_iff : client.HasEnded id ↔ (client.standing id).results ≠ [] := by
  rw [standing, Ne, List.map_eq_nil_iff, List.filter_eq_nil_iff, HasEnded]
  constructor
  · rintro ⟨result, hended⟩ hnone
    exact hnone _ hended (beq_self_eq_true id)
  · intro hsome
    simp only [Classical.not_forall, Classical.not_not] at hsome
    obtain ⟨⟨other, result⟩, hended, hid⟩ := hsome
    obtain rfl := eq_of_beq hid
    exact ⟨result, hended⟩

theorem awaited_iff : (client.standing id).awaited = true ↔ id ∈ client.pending := by
  rw [standing, List.contains_iff_mem]

/-! ### One step -/

/-- Whether an event takes the registration of an id away, unless that happens by the end of its call. -/
def Releases (id : String) : Event → Prop
  | .respond response => response.id = id ∧ client.responsesOpen = true
  | .abandon other => other = id
  | .closeResponses => True
  | _ => False

theorem releases_iff : client.Releases id event ↔
    (client.responsesOpen = true ∧ ∃ response, event = .respond response ∧ response.id = id) ∨
      event = .abandon id ∨ event = .closeResponses := by
  cases event with
  | respond response => simp [Releases, and_comm]
  | abandon other => simp [Releases]
  | closeResponses => simp [Releases]
  | _ => simp [Releases]

/-- What the call looking at its slot does to a registration: it ends with the call. -/
private theorem awaited_settled (standing : Standing) :
    standing.settled = standing ∨
      standing.settled.awaited = false ∧ standing.settled.results ≠ standing.results := by
  obtain ⟨call, awaited, results⟩ := standing
  rcases call with _ | ⟨id, sent, slot⟩
  · exact .inl rfl
  · cases sent <;> cases slot
    all_goals first | exact .inl rfl | exact .inr ⟨rfl, List.cons_ne_self _ _⟩

/-- After an event a response is awaited under an id if the event registers it, or if one was awaited before
and the event neither releases the registration nor ends the call. The cases are the events that concern the
id. -/
theorem awaited_step :
    ((client.step event).standing id).awaited = true ↔
      event = .start id ∨ (client.standing id).awaited = true ∧ ¬ client.Releases id event ∧
        ((client.step event).standing id).results = (client.standing id).results := by
  by_cases hconcerns : event.Concerns id
  · cases event with
    | start other =>
      obtain rfl : other = id := hconcerns
      simp [standing_start]
    | send other =>
      obtain rfl : other = id := hconcerns
      by_cases hopen : client.requestsOpen = true
      · simp [standing_send client hopen, Releases]
      · by_cases hcall : (client.call? other).isSome = true
        · simp [step, hopen, hcall, standing_finish]
        · simp [step, hopen, hcall, Releases]
    | respond response =>
      obtain rfl : response.id = id := hconcerns
      by_cases hopen : client.responsesOpen = true
      · simp only [standing_respond client hopen, Releases]
        split <;> simp_all
      · simp [step, hopen, Releases]
    | wake other =>
      obtain rfl : other = id := hconcerns
      rw [standing_wake, if_pos rfl]
      rcases awaited_settled (client.standing other) with hsame | ⟨hnot, hresults⟩
      · simp [hsame, Releases]
      · simp [hnot, hresults]
    | expire other =>
      obtain rfl : other = id := hconcerns
      rw [standing_expire, if_pos rfl]
      split
      · simp
      · simp
      · rcases awaited_settled (client.standing other) with hsame | ⟨hnot, hresults⟩
        · simp [hsame, Releases]
        · simp [hnot, hresults]
    | abandon other =>
      obtain rfl : other = id := hconcerns
      simp [step, standing_remove, Releases]
    | closeRequests => exact absurd hconcerns not_false
    | closeResponses => simp [standing_closeResponses, Releases]
  · have hstart : event ≠ .start id := by
      rintro rfl
      exact hconcerns rfl
    have hreleases : ¬ client.Releases id event := by
      cases event with
      | respond response => exact fun hboth => hconcerns hboth.1
      | abandon other => exact hconcerns
      | closeResponses => exact fun _ => hconcerns trivial
      | _ => exact not_false
    rw [client.standing_step_of_not_concerns hconcerns]
    simp [hstart, hreleases]

/-- From a client to a later one no end of a call is forgotten and no id is registered. -/
structure GoesOn (client later : Client) : Prop where
  ended : client.ended <:+ later.ended
  pending : later.pending.Sublist client.pending

theorem goesOn_finish (id : String) (result : CallResult) : client.GoesOn (client.finish id result) :=
  ⟨List.suffix_cons .., List.filter_sublist⟩

theorem goesOn_poll (call : Call) : client.GoesOn (client.poll call) := by
  rw [poll]
  split
  · exact ⟨List.suffix_refl _, .refl _⟩
  · exact ⟨List.suffix_refl _, .refl _⟩
  · apply goesOn_finish
  · apply goesOn_finish

/-- Only the beginning of a call registers an id. -/
theorem goesOn_step (h : ∀ id, event ≠ .start id) : client.GoesOn (client.step event) := by
  cases event with
  | start id => exact absurd rfl (h id)
  | send id =>
    rw [step]
    split
    · exact ⟨List.suffix_refl _, .refl _⟩
    · split
      · apply goesOn_finish
      · exact ⟨List.suffix_refl _, .refl _⟩
  | respond response =>
    rw [step]
    split
    · exact ⟨List.suffix_refl _, List.filter_sublist⟩
    · exact ⟨List.suffix_refl _, .refl _⟩
  | wake id =>
    rw [step]
    split
    · apply goesOn_poll
    · exact ⟨List.suffix_refl _, .refl _⟩
  | expire id =>
    rw [step]
    split
    · exact ⟨List.suffix_refl _, .refl _⟩
    · split
      · apply goesOn_finish
      · apply goesOn_finish
      · apply goesOn_poll
  | abandon id => exact ⟨List.suffix_refl _, List.filter_sublist⟩
  | closeRequests => exact ⟨List.suffix_refl _, .refl _⟩
  | closeResponses => exact ⟨List.suffix_refl _, List.nil_sublist _⟩

theorem HasEnded.step {client : Client} (h : client.HasEnded id) : (client.step event).HasEnded id := by
  obtain ⟨result, hended⟩ := h
  by_cases hstart : ∃ other, event = .start other
  · obtain ⟨other, rfl⟩ := hstart
    exact ⟨result, hended⟩
  · have honward := client.goesOn_step fun other heq => hstart ⟨other, heq⟩
    exact ⟨result, honward.ended.mem hended⟩

/-- A step registers one id or none. -/
theorem pending_step (event : Event) : (∃ id, event = .start id ∧ (client.step event).pending = id :: client.pending) ∨
    (client.step event).pending.Sublist client.pending := by
  by_cases hstart : ∃ id, event = .start id
  · obtain ⟨id, rfl⟩ := hstart
    exact .inl ⟨id, rfl, rfl⟩
  · exact .inr (client.goesOn_step fun id heq => hstart ⟨id, heq⟩).pending

/-- Where a response is awaited, a call is in progress. -/
theorem call_step (h : (client.standing id).awaited = true → (client.standing id).call ≠ none)
    (hawaited : ((client.step event).standing id).awaited = true) :
    ((client.step event).standing id).call ≠ none := by
  by_cases hconcerns : event.Concerns id
  · cases event with
    | start other =>
      obtain rfl : other = id := hconcerns
      simp [standing_start]
    | send other =>
      obtain rfl : other = id := hconcerns
      by_cases hopen : client.requestsOpen = true
      · simp_all [standing_send client hopen]
      · by_cases hcall : (client.call? other).isSome = true
        · simp [step, hopen, hcall, standing_finish] at hawaited
        · simp_all [step]
    | respond response =>
      obtain rfl : response.id = id := hconcerns
      by_cases hopen : client.responsesOpen = true
      · simp only [standing_respond client hopen] at hawaited ⊢
        split <;> simp_all
      · simp_all [step]
    | wake other =>
      obtain rfl : other = id := hconcerns
      rw [standing_wake, if_pos rfl] at hawaited ⊢
      rcases awaited_settled (client.standing other) with hsame | ⟨hnot, -⟩
      · rw [hsame] at hawaited ⊢
        exact h hawaited
      · simp [hnot] at hawaited
    | expire other =>
      obtain rfl : other = id := hconcerns
      rw [standing_expire, if_pos rfl] at hawaited ⊢
      split at hawaited
      · simp at hawaited
      · simp at hawaited
      · rcases awaited_settled (client.standing other) with hsame | ⟨hnot, -⟩
        · rw [hsame] at hawaited
          simp_all
        · simp [hnot] at hawaited
    | abandon other =>
      obtain rfl : other = id := hconcerns
      simp [step, standing_remove] at hawaited
    | closeRequests => exact absurd hconcerns not_false
    | closeResponses => simp [standing_closeResponses] at hawaited
  · rw [client.standing_step_of_not_concerns hconcerns] at hawaited ⊢
    exact h hawaited

/-! ### Runs -/

theorem run_concat (events : List Event) (event : Event) :
    client.run (events ++ [event]) = (client.run events).step event := by
  rw [run, List.foldl_append]
  rfl

/-- An id is unknown until a call begins under it. -/
theorem standing_run_of_not_started {events : List Event} (h : client.standing id = .unknown)
    (hstart : .start id ∉ events) : (client.run events).standing id = .unknown := by
  induction events using List.reverseRecOn with
  | nil => exact h
  | append_singleton events event ih =>
    rw [List.mem_append, List.mem_singleton, not_or] at hstart
    have hbefore := ih hstart.1
    rw [run_concat, standing_step_of_idle, hbefore]
    · rw [hbefore]
      rfl
    · rw [hbefore]
      rfl
    · exact Ne.symm hstart.2

theorem responsesOpen_run (events : List Event) :
    (client.run events).responsesOpen = true ↔
      client.responsesOpen = true ∧ .closeResponses ∉ events := by
  have hterms : (client.run events).responsesOpen = (events.foldl Terms.after client.terms).responsesOpen :=
    congrArg Terms.responsesOpen (client.terms_run events)
  rw [hterms, Terms.responsesOpen_foldl_iff]
  rfl

/-- Where a response is awaited, a call is in progress. -/
theorem call_run (events : List Event)
    (h : (client.standing id).awaited = true → (client.standing id).call ≠ none) :
    ((client.run events).standing id).awaited = true → ((client.run events).standing id).call ≠ none := by
  induction events using List.reverseRecOn with
  | nil => exact h
  | append_singleton events event ih =>
    rw [run_concat]
    exact call_step _ ih

end Client

/-! ### The registrations of a client -/

/-- A client that nobody has used. -/
def Client.fresh (timeLimit : Duration) : Client := { timeLimit }

variable (timeLimit : Duration) {events : List Event} {event : Event} {id : String}

theorem startedIds_concat :
    startedIds (events ++ [event]) = startedIds events ++ startedIds [event] :=
  List.filterMap_append

/-- An id is new when its call begins. -/
theorem not_started_of_nodup (hids : (startedIds (events ++ [.start id])).Nodup) :
    .start id ∉ events := by
  rw [startedIds_concat] at hids
  intro hstart
  have hdisjoint := (List.nodup_append.mp hids).2.2
  exact hdisjoint id (mem_startedIds.mpr hstart) id (List.mem_singleton_self id) rfl

theorem nodup_startedIds_of_concat (hids : (startedIds (events ++ [event])).Nodup) : (startedIds events).Nodup := by
  rw [startedIds_concat] at hids
  exact (List.nodup_append.mp hids).1

/-- Something has taken the registration of the call with an id away. -/
def Released (id : String) (events : List Event) : Prop := Answered id events ∨ Dropped id events ∨ CutOff id events

theorem Released.start_mem (h : Released id events) : .start id ∈ events := by
  rcases h with h | h | h <;> exact HappenedTo.start_mem h

theorem released_concat : Released id (events ++ [event]) ↔
    Released id events ∨ .start id ∈ events ∧ ((Client.fresh timeLimit).run events).Releases id event := by
  have hopen : ((Client.fresh timeLimit).run events).responsesOpen = true ↔ .closeResponses ∉ events := by
    rw [Client.responsesOpen_run]
    simp [Client.fresh]
  rw [Client.releases_iff, hopen]
  simp only [Released, Answered, Dropped, CutOff, happenedTo_concat, and_or_left]
  exact (or_congr_right or_or_or_comm).trans or_or_or_comm

/-- A call that begins under a new id has no end behind it. -/
theorem results_start_of_new (hnew : .start id ∉ events) :
    ((((Client.fresh timeLimit).run events).step (.start id)).standing id).results = [] := by
  have hunknown : ((Client.fresh timeLimit).run events).standing id = .unknown :=
    Client.standing_run_of_not_started _ rfl hnew
  rw [Client.standing_start, if_pos rfl, hunknown]
  rfl

/-- The induction is on the events, the last of which is either the beginning of the call or leaves what has
begun as it is. -/
theorem mem_pending_run (hids : (startedIds events).Nodup) (id : String) :
    id ∈ ((Client.fresh timeLimit).run events).pending ↔
      .start id ∈ events ∧ ¬ Released id events ∧ ¬ ((Client.fresh timeLimit).run events).HasEnded id := by
  induction events using List.reverseRecOn with
  | nil => simp [Client.run, Client.fresh]
  | append_singleton events event ih =>
    have hbefore := ih (nodup_startedIds_of_concat hids)
    rw [Client.hasEnded_iff, ← Client.awaited_iff] at hbefore ⊢
    rw [Client.run_concat, Client.awaited_step, hbefore, released_concat timeLimit]
    by_cases hstart : event = .start id
    · subst hstart
      have hnew := not_started_of_nodup hids
      have hkept : ¬ Released id events := fun h => hnew h.start_mem
      simp [hkept, hnew, results_start_of_new timeLimit hnew]
    · have hmem : .start id ∈ events ++ [event] ↔ .start id ∈ events := by
        simp [Ne.symm hstart]
      have hended : ((Client.fresh timeLimit).run events).HasEnded id →
          (((Client.fresh timeLimit).run events).step event).HasEnded id := Client.HasEnded.step
      rw [Client.hasEnded_iff, Client.hasEnded_iff] at hended
      rw [hmem, or_iff_right hstart]
      constructor
      · rintro ⟨⟨hbegun, hkept, hresults⟩, hreleases, hsame⟩
        rw [hsame]
        exact ⟨hbegun, not_or.mpr ⟨hkept, fun h => hreleases h.2⟩, hresults⟩
      · rintro ⟨hbegun, hkept, hresults⟩
        have hresults' := mt hended hresults
        rw [not_or] at hkept
        refine ⟨⟨hbegun, hkept.1, hresults'⟩, fun h => hkept.2 ⟨hbegun, h⟩, ?_⟩
        rw [not_not.mp hresults, not_not.mp hresults']

theorem nodup_pending_run (hids : (startedIds events).Nodup) :
    ((Client.fresh timeLimit).run events).pending.Nodup := by
  induction events using List.reverseRecOn with
  | nil => exact List.nodup_nil
  | append_singleton events event ih =>
    have hids' := nodup_startedIds_of_concat hids
    rw [Client.run_concat]
    rcases ((Client.fresh timeLimit).run events).pending_step event with ⟨id, rfl, hpending⟩ | hless
    · rw [hpending, List.nodup_cons]
      refine ⟨fun hmem => not_started_of_nodup hids ?_, ih hids'⟩
      exact ((mem_pending_run timeLimit hids' id).mp hmem).1
    · exact hless.nodup (ih hids')

/-- A registration does not outlive its call. -/
theorem pending_run_eq_nil (h : ((Client.fresh timeLimit).run events).calls = []) :
    ((Client.fresh timeLimit).run events).pending = [] := by
  rw [List.eq_nil_iff_forall_not_mem]
  intro id hmem
  have hawaited := (Client.awaited_iff _).mpr hmem
  refine Client.call_run _ events (fun hnew => ?_) hawaited ?_
  · cases hnew
  · rw [Client.standing, Client.call?, h]
    rfl

/-- At any time the ids under which a response is awaited are those of the calls that have begun and have not
been answered, dropped, cut off or ended. An event that does not concern an id leaves its registration, and
without calls there are no registrations. -/
theorem pending_exact (hids : (startedIds events).Nodup) :
    let client := (Client.fresh timeLimit).run events
    client.pending.Nodup ∧
      (∀ id, id ∈ client.pending ↔
        .start id ∈ events ∧ ¬ Answered id events ∧ ¬ client.HasEnded id ∧ ¬ Dropped id events ∧
          ¬ CutOff id events) ∧
      (∀ id (event : Event), ¬ event.Concerns id →
        (id ∈ (client.step event).pending ↔ id ∈ client.pending)) ∧
      (client.calls = [] → client.pendingCount = 0) := by
  intro client
  refine ⟨nodup_pending_run timeLimit hids, ?_, ?_, ?_⟩
  · intro id
    rw [mem_pending_run timeLimit hids id]
    constructor
    · rintro ⟨hbegun, hkept, hended⟩
      exact ⟨hbegun, fun h => hkept (.inl h), hended, fun h => hkept (.inr (.inl h)), fun h => hkept (.inr (.inr h))⟩
    · rintro ⟨hbegun, hanswered, hended, hdropped, hcut⟩
      refine ⟨hbegun, ?_, hended⟩
      rintro (h | h | h)
      · exact hanswered h
      · exact hdropped h
      · exact hcut h
  · intro id event hconcerns
    rw [← Client.awaited_iff, ← Client.awaited_iff, client.standing_step_of_not_concerns hconcerns]
  · intro hcalls
    rw [Client.pendingCount, pending_run_eq_nil timeLimit hcalls]
    rfl

/-- Five calls: one is answered twice, one is dropped before it hands its request over, one runs out of time,
one finds requests closed, and one waits. -/
def fiveCalls : List Event :=
  let answer : Response := { id := "answered", success := false }
  [.start "answered", .start "dropped", .start "late", .start "waiting", .send "answered", .send "late",
    .respond answer, .respond { answer with id := "unknown" }, .abandon "dropped", .wake "answered",
    .respond answer, .send "waiting", .expire "late", .closeRequests, .start "refused", .send "refused"]

theorem pending_fiveCalls :
    (startedIds fiveCalls).Nodup ∧
      ((Client.fresh (.ofMillis 100)).run fiveCalls).pending = ["waiting"] ∧
      ¬ Answered "waiting" fiveCalls ∧ ¬ CutOff "waiting" fiveCalls ∧
      ((Client.fresh (.ofMillis 100)).run (fiveCalls ++ [.closeResponses, .wake "waiting"])).pendingCount = 0 := by
  have hids : (startedIds fiveCalls).Nodup := by decide
  have hpending : ((Client.fresh (.ofMillis 100)).run fiveCalls).pending = ["waiting"] := rfl
  have hmem : "waiting" ∈ ((Client.fresh (.ofMillis 100)).run fiveCalls).pending := by
    rw [hpending]
    exact List.mem_singleton_self _
  obtain ⟨-, hkeys, -, -⟩ := pending_exact (.ofMillis 100) hids
  obtain ⟨-, hanswered, -, -, hcut⟩ := (hkeys "waiting").mp hmem
  have hids' : (startedIds (fiveCalls ++ [.closeResponses, .wake "waiting"])).Nodup := by decide
  have hcalls : ((Client.fresh (.ofMillis 100)).run
      (fiveCalls ++ [.closeResponses, .wake "waiting"])).calls = [] := rfl
  obtain ⟨-, -, -, hcount⟩ := pending_exact (.ofMillis 100) hids'
  exact ⟨hids, hpending, hanswered, hcut, hcount hcalls⟩

end Minifier.Worker
