import Mathlib
import Minifier.Proofs.Worker.Course

/-!
The end of responses. It ends every call that waits, at once. A call that begins later is told that the
worker is gone only if requests are closed as well; otherwise its request is handed over, nothing can answer
it any more, and it waits for as long as its time limit lets it.
-/

namespace Minifier.Worker

namespace Scene

variable {scene : Scene} {id : String} {progress : Progress} {now : Nat} {events : List Event}
  {happenings : List (Nat × List Event)}

theorem responsesOpen_play_iff (scene : Scene) (happenings : List (Nat × List Event)) :
    (scene.play happenings).client.responsesOpen = true ↔
      scene.client.responsesOpen = true ∧ .closeResponses ∉ happenings.flatMap Prod.snd := by
  have hterms := congrArg Client.Terms.responsesOpen (scene.terms_play happenings)
  change (scene.play happenings).client.responsesOpen = _ at hterms
  rw [hterms, Client.Terms.responsesOpen_foldl_iff]
  rfl

namespace Shows

/-- A call that begins when no requests are taken ends as it begins. -/
theorem refuse (h : scene.Shows id .ahead) (hclosed : scene.client.requestsOpen = false) :
    (scene.happen now [.start id, .send id]).Shows id (.ended (.error .disconnected) now) := by
  let begun := scene.client.step (.start id)
  have hbegun : begun.standing id = ⟨some ⟨id, false, .waiting⟩, true, []⟩ := by
    rw [Client.standing_start, if_pos rfl, h.standing]
    rfl
  have hcall : (begun.call? id).isSome = true := by
    have hsome := congrArg (fun standing => standing.call.isSome) hbegun
    exact hsome
  have hsend : (begun.step (.send id)).standing id = .ended (.error .disconnected) := by
    have hclosed' : begun.requestsOpen = false := hclosed
    rw [Client.step, hclosed', if_neg Bool.false_ne_true, if_pos hcall, Client.standing_finish, if_pos rfl,
      hbegun]
    rfl
  refine happen ?_ ?_
  · exact congrArg Standing.settled hsend
  · rw [h.time]
    rfl

/-- When no responses come any more, a response does not reach a call that waits. -/
theorem unanswered (h : scene.Shows id .waiting) (hclosed : scene.client.responsesOpen = false)
    (response : Response) : (scene.happen now [.respond response]).Shows id .waiting := by
  have hrespond : scene.client.step (.respond response) = scene.client := by
    rw [Client.step, hclosed]
    rfl
  refine happen ?_ ?_
  · have hrun : scene.client.run [.respond response] = scene.client := hrespond
    rw [hrun, h.standing]
    rfl
  · rw [h.time]
    rfl

end Shows

end Scene

namespace Course

variable {course : Course} {call : PlannedCall} {time : Nat} {events : List Event}

/-! ### Schedules -/

/-- An order in which all of a course happens: what comes at one time comes in any order, but a call begins
before its time is up. -/
structure Schedule (course : Course) (happenings : List (Nat × List Event)) : Prop where
  perm : happenings.Perm course.everything
  sorted : happenings.Pairwise fun a b => a.1 ≤ b.1
  begins : ∀ call ∈ course.calls,
    [(call.time, [.start call.request.id, .send call.request.id]),
      (call.time + course.timeLimit, [.expire call.request.id])].Sublist happenings

/-- Two happenings have nothing in common but, maybe, a response. -/
def Apart (a b : Nat × List Event) : Prop :=
  ∀ event ∈ a.2, event ∈ b.2 → ∃ response, event = .respond response

theorem Apart.symm {a b : Nat × List Event} (h : Apart a b) : Apart b a :=
  fun event hb ha => h event ha hb

theorem everything_apart (hids : (course.calls.map fun call => call.request.id).Nodup) :
    course.everything.Pairwise Apart := by
  have hcalls : course.calls.Pairwise fun a b => a.request.id ≠ b.request.id := List.pairwise_map.mp hids
  simp only [everything, List.pairwise_append, List.pairwise_map, List.mem_append, List.mem_map]
  refine ⟨⟨⟨⟨?_, ?_, ?_⟩, ?_, ?_⟩, ?_, ?_⟩, ?_, ?_⟩
  · refine hcalls.imp fun hne event ha hb => ?_
    grind
  · exact List.pairwise_of_forall fun _ _ event hevent _ => ⟨_, List.mem_singleton.mp hevent⟩
  · grind [Apart]
  · refine hcalls.imp fun hne event ha hb => ?_
    grind
  · grind [Apart]
  · cases course.closeResponses <;> simp
  · grind [Apart]
  · cases course.closeRequests <;> simp
  · grind [Apart]

/-- The scene before anything has happened. -/
def opening (course : Course) : Scene := { client := { timeLimit := .ofMillis course.timeLimit } }

variable {happenings before after : List (Nat × List Event)} {scene : Scene}

namespace Schedule

theorem happens (h : course.Schedule happenings) {happening : Nat × List Event}
    (hmem : happening ∈ happenings) : course.Happens happening.1 happening.2 := by
  rw [h.perm.mem_iff] at hmem
  exact mem_happenings.mp ((List.mergeSort_perm _ _).mem_iff.mpr hmem)

/-- What happens once happens neither before nor after. -/
theorem once (h : course.Schedule (before ++ (time, events) :: after))
    (hids : (course.calls.map fun call => call.request.id).Nodup) (event : Event) (hevent : event ∈ events)
    (hresponse : ∀ response, event ≠ .respond response) :
    (∀ happening ∈ before, event ∉ happening.2) ∧ ∀ happening ∈ after, event ∉ happening.2 := by
  have hapart := (h.perm.pairwise_iff Apart.symm).mpr (everything_apart hids)
  rw [List.pairwise_append, List.pairwise_cons] at hapart
  obtain ⟨-, ⟨hafter, -⟩, hbefore⟩ := hapart
  constructor
  · intro happening hmem hother
    obtain ⟨response, heq⟩ := hbefore happening hmem _ List.mem_cons_self event hother hevent
    exact hresponse response heq
  · intro happening hmem hother
    obtain ⟨response, heq⟩ := hafter happening hmem event hevent hother
    exact hresponse response heq

/-- The time of a call is up after it has begun. -/
theorem expires_after
    (h : course.Schedule (before ++ (call.time, [.start call.request.id, .send call.request.id]) :: after))
    (hids : (course.calls.map fun call => call.request.id).Nodup) (hcall : call ∈ course.calls) :
    (call.time + course.timeLimit, [.expire call.request.id]) ∈ after := by
  obtain ⟨first, second, hsplit, hfirst, hsecond⟩ := List.sublist_append_iff.mp (h.begins call hcall)
  have hnil : first = [] := by
    cases first with
    | nil => rfl
    | cons happening first =>
      obtain ⟨rfl, -⟩ := List.cons.inj hsplit
      have hmem := hfirst.subset List.mem_cons_self
      exact absurd (List.mem_cons_self) ((h.once hids _ List.mem_cons_self nofun).1 _ hmem)
  rw [hnil, List.nil_append] at hsplit
  rw [← hsplit, List.cons_sublist_cons] at hsecond
  exact hsecond.subset List.mem_cons_self

end Schedule

/-! ### Calls that wait -/

/-- While responses come, a call that waits goes on waiting or ends. -/
theorem waits_or_ends {id : String} (h : scene.Shows id .waiting) (hopen : scene.client.responsesOpen = true)
    (hhappens : ∀ happening ∈ happenings, course.Happens happening.1 happening.2)
    (hstart : ∀ happening ∈ happenings, .start id ∉ happening.2)
    (hclose : ∀ happening ∈ happenings, .closeResponses ∉ happening.2) :
    (scene.play happenings).Shows id .waiting ∨
      ∃ result, ∃ time ∈ happenings.map Prod.fst, (scene.play happenings).Shows id (.ended result time) := by
  induction happenings generalizing scene with
  | nil => exact .inl h
  | cons happening happenings ih =>
    obtain ⟨now, events⟩ := happening
    rw [List.forall_mem_cons] at hhappens hstart hclose
    have hplay : scene.play ((now, events) :: happenings) = (scene.happen now events).play happenings := rfl
    rw [hplay, List.map_cons]
    have hopen' : (scene.happen now events).client.responsesOpen = true := by
      have hterms := congrArg Client.Terms.responsesOpen (scene.terms_happen now events)
      exact hterms.trans ((Client.Terms.responsesOpen_foldl _ hclose.1).trans hopen)
    have hends : ∀ result, (scene.happen now events).Shows id (.ended result now) →
        ∃ result, ∃ time ∈ now :: happenings.map Prod.fst,
          ((scene.happen now events).play happenings).Shows id (.ended result time) :=
      fun result hended => ⟨result, now, List.mem_cons_self, hended.stays nofun hstart.2⟩
    have hwaits : (scene.happen now events).Shows id .waiting →
        ((scene.happen now events).play happenings).Shows id .waiting ∨
          ∃ result, ∃ time ∈ now :: happenings.map Prod.fst,
            ((scene.happen now events).play happenings).Shows id (.ended result time) := by
      intro hwaiting
      refine (ih hwaiting hopen' hhappens.2 hstart.2 hclose.2).imp_right ?_
      rintro ⟨result, time, htime, hended⟩
      exact ⟨result, time, List.mem_cons_of_mem _ htime, hended⟩
    cases hhappens.1 with
    | @begins other _ =>
      have hne : other.request.id ≠ id := by
        rintro rfl
        exact hstart.1 List.mem_cons_self
      exact hwaits (h.steady (by simp [Event.Concerns, hne]))
    | @responds _ response _ =>
      by_cases hid : response.id = id
      · exact .inr (hends _ (h.answer hopen response hid))
      · exact hwaits (h.steady (by simp [Event.Concerns, hid]))
    | @expires other _ =>
      by_cases hid : other.request.id = id
      · subst hid
        exact .inr (hends _ h.expire)
      · exact hwaits (h.steady (by simp [Event.Concerns, hid]))
    | closesResponses _ => exact absurd List.mem_cons_self hclose.1
    | closesRequests _ => exact hwaits (h.steady (by simp [Event.Concerns]))

/-- When no responses come any more, a call that waits goes on waiting until its time is up. -/
theorem waits_on {id : String} (h : scene.Shows id .waiting) (hclosed : scene.client.responsesOpen = false)
    (hhappens : ∀ happening ∈ happenings, course.Happens happening.1 happening.2)
    (hstart : ∀ happening ∈ happenings, .start id ∉ happening.2)
    (hexpire : ∀ happening ∈ happenings, .expire id ∉ happening.2)
    (hclose : ∀ happening ∈ happenings, .closeResponses ∉ happening.2) :
    (scene.play happenings).Shows id .waiting := by
  induction happenings generalizing scene with
  | nil => exact h
  | cons happening happenings ih =>
    obtain ⟨now, events⟩ := happening
    rw [List.forall_mem_cons] at hhappens hstart hexpire hclose
    have hclosed' : (scene.happen now events).client.responsesOpen = false := by
      have hterms := congrArg Client.Terms.responsesOpen (scene.terms_happen now events)
      exact hterms.trans ((Client.Terms.responsesOpen_foldl _ hclose.1).trans hclosed)
    refine ih ?_ hclosed' hhappens.2 hstart.2 hexpire.2 hclose.2
    cases hhappens.1 with
    | @begins other _ =>
      have hne : other.request.id ≠ id := by
        rintro rfl
        exact hstart.1 List.mem_cons_self
      exact h.steady (by simp [Event.Concerns, hne])
    | @responds _ response _ => exact h.unanswered hclosed response
    | @expires other _ =>
      have hne : other.request.id ≠ id := by
        rintro rfl
        exact hexpire.1 List.mem_cons_self
      exact h.steady (by simp [Event.Concerns, hne])
    | closesResponses _ => exact absurd List.mem_cons_self hclose.1
    | closesRequests _ => exact h.steady (by simp [Event.Concerns])

/-! ### How calls end where responses end -/

variable {closing : Nat}

/-- A call that has not begun when something has happened is ahead. -/
theorem shows_ahead (course : Course) (hstart : ∀ happening ∈ happenings, .start call.request.id ∉ happening.2) :
    (course.opening.play happenings).Shows call.request.id .ahead :=
  Scene.Shows.stays ⟨rfl, rfl⟩ nofun hstart

theorem Schedule.begun_before (h : course.Schedule (before ++ (closing, [.closeResponses]) :: after))
    (hids : (course.calls.map fun call => call.request.id).Nodup)
    (hbegins : (call.time, [.start call.request.id, .send call.request.id]) ∈ before) :
    (course.opening.play before).Shows call.request.id .waiting ∨
      ∃ result, ∃ time ≤ closing, (course.opening.play before).Shows call.request.id (.ended result time) := by
  have hearlier : ∀ happening ∈ before, happening.1 ≤ closing := by
    have hsorted := h.sorted
    rw [List.pairwise_append] at hsorted
    exact fun happening hmem => hsorted.2.2 happening hmem _ List.mem_cons_self
  have hclose := (h.once hids _ List.mem_cons_self nofun).1
  have hhappens : ∀ happening ∈ before, course.Happens happening.1 happening.2 :=
    fun happening hmem => h.happens (List.mem_append_left _ hmem)
  obtain ⟨first, rest, rfl⟩ := List.append_of_mem hbegins
  rw [List.append_assoc, List.cons_append] at h
  obtain ⟨hfirst, hrest⟩ := h.once hids (.start call.request.id) List.mem_cons_self nofun
  have hahead := shows_ahead course hfirst
  have hplay : course.opening.play (first ++ (call.time, [.start call.request.id, .send call.request.id]) :: rest) =
      ((course.opening.play first).happen call.time [.start call.request.id, .send call.request.id]).play rest :=
    Scene.play_append _ _ _
  rw [hplay]
  rw [List.forall_mem_append, List.forall_mem_cons] at hclose hhappens hearlier
  have hrest' : ∀ happening ∈ rest, .start call.request.id ∉ happening.2 :=
    fun happening hmem => hrest happening (List.mem_append_left _ hmem)
  by_cases hopen : (course.opening.play first).client.requestsOpen = true
  · have hresponses : ((course.opening.play first).happen call.time
        [.start call.request.id, .send call.request.id]).client.responsesOpen = true := by
      have hterms := congrArg Client.Terms.responsesOpen (Scene.terms_happen (course.opening.play first)
        call.time [.start call.request.id, .send call.request.id])
      exact hterms.trans (Scene.responsesOpen_play _ hclose.1)
    refine (waits_or_ends (hahead.begin hopen) hresponses hhappens.2.2 hrest' hclose.2.2).imp_right ?_
    rintro ⟨result, time, htime, hended⟩
    obtain ⟨happening, hmem, rfl⟩ := List.mem_map.mp htime
    exact ⟨result, happening.1, hearlier.2.2 happening hmem, hended⟩
  · rw [Bool.not_eq_true] at hopen
    exact .inr ⟨_, call.time, hearlier.2.1, (hahead.refuse hopen).stays nofun hrest'⟩

/-- How a call ends that begins after responses have ended. -/
def lateEnd (course : Course) (call : PlannedCall) (requestsOpen : Bool) : Progress :=
  if requestsOpen then
    .ended (.error (.timeout call.request.id (.ofMillis course.timeLimit))) (call.time + course.timeLimit)
  else .ended (.error .disconnected) call.time

/-- Responses end once only. -/
theorem Schedule.not_closes_after (h : course.Schedule (before ++ (time, events) :: after))
    (hids : (course.calls.map fun call => call.request.id).Nodup)
    (hclosed : .closeResponses ∈ before.flatMap Prod.snd) : ∀ happening ∈ after, .closeResponses ∉ happening.2 := by
  obtain ⟨happening, hmem, hclose⟩ := List.mem_flatMap.mp hclosed
  obtain ⟨first, second, rfl⟩ := List.append_of_mem hmem
  rw [List.append_assoc, List.cons_append] at h
  have hafter := (h.once hids _ hclose nofun).2
  exact fun other hother => hafter other (List.mem_append_right _ (List.mem_cons_of_mem _ hother))

/-- A call that hands its request over after responses have ended waits for as long as its time is not up. -/
theorem Schedule.waits_after {between : List (Nat × List Event)}
    (h : course.Schedule (before ++ (call.time, [.start call.request.id, .send call.request.id]) ::
      (between ++ (call.time + course.timeLimit, [.expire call.request.id]) :: after)))
    (hids : (course.calls.map fun call => call.request.id).Nodup)
    (hclosed : .closeResponses ∈ before.flatMap Prod.snd)
    (hopen : (course.opening.play before).client.requestsOpen = true) :
    (((course.opening.play before).happen call.time [.start call.request.id, .send call.request.id]).play
      between).Shows call.request.id .waiting := by
  obtain ⟨hfirst, hrest⟩ := h.once hids (.start call.request.id) List.mem_cons_self nofun
  have hnoClose := h.not_closes_after hids hclosed
  have hbetween : between ⊆ between ++ (call.time + course.timeLimit, [.expire call.request.id]) :: after :=
    List.subset_append_left _ _
  have hhappens : ∀ happening ∈ between, course.Happens happening.1 happening.2 :=
    fun happening hmem => h.happens (List.mem_append_right _ (List.mem_cons_of_mem _ (hbetween hmem)))
  have hgone : (course.opening.play before).client.responsesOpen = false := by
    rw [← Bool.not_eq_true, Scene.responsesOpen_play_iff]
    exact fun hboth => hboth.2 hclosed
  have hresponses : ((course.opening.play before).happen call.time
      [.start call.request.id, .send call.request.id]).client.responsesOpen = false :=
    (congrArg Client.Terms.responsesOpen (Scene.terms_happen _ _ _)).trans hgone
  have hunexpired : ∀ happening ∈ between, .expire call.request.id ∉ happening.2 := by
    rw [← List.cons_append, ← List.append_assoc] at h
    have hbefore := (h.once hids (.expire call.request.id) List.mem_cons_self nofun).1
    exact fun happening hmem => hbefore happening (List.mem_append_right _ (List.mem_cons_of_mem _ hmem))
  exact waits_on ((shows_ahead course hfirst).begin hopen) hresponses hhappens
    (fun happening hmem => hrest happening (hbetween hmem)) hunexpired
    fun happening hmem => hnoClose happening (hbetween hmem)

theorem Schedule.begun_after
    (h : course.Schedule (before ++ (call.time, [.start call.request.id, .send call.request.id]) :: after))
    (hids : (course.calls.map fun call => call.request.id).Nodup) (hcall : call ∈ course.calls)
    (hclosed : .closeResponses ∈ before.flatMap Prod.snd) :
    (course.opening.play
        (before ++ (call.time, [.start call.request.id, .send call.request.id]) :: after)).Shows
      call.request.id (course.lateEnd call (course.opening.play before).client.requestsOpen) := by
  obtain ⟨hfirst, hrest⟩ := h.once hids (.start call.request.id) List.mem_cons_self nofun
  have hplay : course.opening.play
        (before ++ (call.time, [.start call.request.id, .send call.request.id]) :: after) =
      ((course.opening.play before).happen call.time [.start call.request.id, .send call.request.id]).play after :=
    Scene.play_append _ _ _
  rw [hplay]
  cases hopen : (course.opening.play before).client.requestsOpen with
  | false => exact ((shows_ahead course hfirst).refuse hopen).stays nofun hrest
  | true =>
    -- From its beginning the call waits until its time is up, and that has happened to it.
    obtain ⟨between, rest, rfl⟩ := List.append_of_mem (h.expires_after hids hcall)
    have hwaits := h.waits_after hids hclosed hopen
    have hlimit : (((course.opening.play before).happen call.time
        [.start call.request.id, .send call.request.id]).play between).client.timeLimit =
          .ofMillis course.timeLimit := by
      rw [Scene.timeLimit_play]
      exact (congrArg Client.Terms.timeLimit (Scene.terms_happen _ _ _)).trans
        (Scene.timeLimit_play course.opening before)
    have hexpired := @Scene.Shows.expire _ _ (call.time + course.timeLimit) hwaits
    rw [hlimit] at hexpired
    rw [Scene.play_append]
    exact hexpired.stays nofun fun happening hmem =>
      hrest happening (List.mem_append_right _ (List.mem_cons_of_mem _ hmem))

/-- Once responses have ended, the calls that were over stay so, and those that waited are told at once that the
worker is gone. A call that begins later is told so as it begins if requests are closed by then; if they are
not, its time runs out. -/
theorem ends_of_closing (hids : (course.calls.map fun call => call.request.id).Nodup)
    (hschedule : course.Schedule (before ++ (closing, [.closeResponses]) :: after)) (hcall : call ∈ course.calls) :
    let id := call.request.id
    let scene := course.opening.play before
    let last := course.opening.play (before ++ (closing, [.closeResponses]) :: after)
    (∃ result, ∃ time ≤ closing,
        scene.Shows id (.ended result time) ∧ last.Shows id (.ended result time)) ∨
      (scene.Shows id .waiting ∧ last.Shows id (.ended (.error .disconnected) closing)) ∨
      (scene.Shows id .ahead ∧ closing ≤ call.time ∧ ∃ between rest,
        after = between ++ (call.time, [.start id, .send id]) :: rest ∧
          last.Shows id (course.lateEnd call
            (scene.play ((closing, [.closeResponses]) :: between)).client.requestsOpen)) := by
  intro id scene last
  have hbegins := (hschedule.begins call hcall).subset List.mem_cons_self
  rw [List.mem_append, List.mem_cons] at hbegins
  rcases hbegins with hbefore | hsame | hafter
  · have hstart : ∀ happening ∈ after, .start id ∉ happening.2 := by
      obtain ⟨first, second, rfl⟩ := List.append_of_mem hbefore
      rw [List.append_assoc, List.cons_append] at hschedule
      have hafter := (hschedule.once hids (.start id) List.mem_cons_self nofun).2
      exact fun happening hmem => hafter happening (List.mem_append_right _ (List.mem_cons_of_mem _ hmem))
    have hlast : last = (scene.happen closing [.closeResponses]).play after := Scene.play_append _ _ _
    rw [hlast]
    rcases hschedule.begun_before hids hbefore with hwaiting | ⟨result, time, htime, hover⟩
    · exact .inr (.inl ⟨hwaiting, hwaiting.cutOff.stays nofun hstart⟩)
    · exact .inl ⟨result, time, htime, hover, Scene.Shows.stays (hover.steady (by simp)) nofun hstart⟩
  · simp at hsame
  · obtain ⟨between, rest, rfl⟩ := List.append_of_mem hafter
    have hsorted := hschedule.sorted
    rw [List.pairwise_append, List.pairwise_cons] at hsorted
    have hlater := hsorted.2.1.1 _ (List.mem_append_right _ List.mem_cons_self)
    have hsplit : before ++ (closing, [.closeResponses]) ::
          (between ++ (call.time, [.start id, .send id]) :: rest) =
        (before ++ (closing, [.closeResponses]) :: between) ++ (call.time, [.start id, .send id]) :: rest := by
      simp
    have hschedule' := hschedule
    rw [hsplit] at hschedule'
    refine .inr (.inr ⟨?_, hlater, between, rest, rfl, ?_⟩)
    · refine shows_ahead course fun happening hmem => ?_
      exact (hschedule'.once hids (.start id) List.mem_cons_self nofun).1 happening
        (List.mem_append_left _ hmem)
    · have hshows := hschedule'.begun_after hids hcall (by simp)
      rw [← hsplit, Scene.play_append _ before (_ :: between)] at hshows
      exact hshows

/-- Four calls: one is answered before responses end, one waits then, one begins later, and one begins when
requests are closed as well. -/
def fourCalls : Course where
  timeLimit := 50
  calls :=
    [⟨0, { id := "answered", code := "", language := .css }⟩, ⟨1, { id := "waits", code := "", language := .css }⟩,
     ⟨20, { id := "late", code := "", language := .css }⟩, ⟨40, { id := "refused", code := "", language := .css }⟩]
  responses := [(5, .failed "answered" "no"), (25, .failed "late" "no")]
  closeRequests := some 30
  closeResponses := some 10

/-- What happens to the four calls before responses end. -/
def fourCallsBefore : List (Nat × List Event) :=
  [(0, [.start "answered", .send "answered"]), (1, [.start "waits", .send "waits"]),
    (5, [.respond (.failed "answered" "no")])]

/-- What happens to the four calls after responses have ended. -/
def fourCallsAfter : List (Nat × List Event) :=
  [(20, [.start "late", .send "late"]), (25, [.respond (.failed "late" "no")]), (30, [.closeRequests]),
    (40, [.start "refused", .send "refused"]), (50, [.expire "answered"]), (51, [.expire "waits"]),
    (70, [.expire "late"]), (90, [.expire "refused"])]

theorem fourCalls_schedule :
    fourCalls.Schedule (fourCallsBefore ++ (10, [.closeResponses]) :: fourCallsAfter) :=
  ⟨by decide, by decide, by decide⟩

theorem ends_of_closing_fourCalls :
    let scene := fourCalls.opening.play fourCallsBefore
    let last := fourCalls.opening.play (fourCallsBefore ++ (10, [.closeResponses]) :: fourCallsAfter)
    (fourCalls.calls.map fun call =>
        (last.client.ended.lookup call.request.id, last.finished.lookup call.request.id)) =
      [(some (.error (.failed "no")), some 5), (some (.error .disconnected), some 10),
        (some (.error (.timeout "late" (.ofMillis 50))), some 70), (some (.error .disconnected), some 40)] ∧
    ∀ call ∈ fourCalls.calls,
      (∃ result, ∃ time ≤ 10,
          scene.Shows call.request.id (.ended result time) ∧ last.Shows call.request.id (.ended result time)) ∨
        (scene.Shows call.request.id .waiting ∧
          last.Shows call.request.id (.ended (.error .disconnected) 10)) ∨
        (scene.Shows call.request.id .ahead ∧ 10 ≤ call.time ∧ ∃ between rest,
          fourCallsAfter =
              between ++ (call.time, [.start call.request.id, .send call.request.id]) :: rest ∧
            last.Shows call.request.id (fourCalls.lateEnd call
              (scene.play ((10, [.closeResponses]) :: between)).client.requestsOpen)) :=
  ⟨by decide, fun _ hcall => ends_of_closing (by decide) fourCalls_schedule hcall⟩

end Course

namespace Plan

/-- A call that begins after responses have ended and before requests are closed. -/
def lateCall : Plan where
  timeLimit := 100
  calls := [⟨20, { id := "late", code := "x", language := .css }⟩]
  responses := []
  closeRequests := none
  closeResponses := some 10
  probes := []

/-- The late call is not told that the worker is gone. It waits for as long as its time limit lets it. -/
theorem carryOut_lateCall :
    lateCall.carryOut.calls = [(.error (.timeout "late" (.ofMillis 100)), 120)] := by
  cbv

end Plan

end Minifier.Worker
