import Minifier.Proofs.Entries
import Minifier.Proofs.Worker.Course
import Minifier.Proofs.Worker.Plan

/-!
Calls do not depend on each other. When all of a course has happened, each of its calls has ended once,
and as it would have ended by itself. Carrying a plan out comes to the same for the calls as the course of the plan, so
the report tells of each call the end that it would have come to by itself.
-/

namespace Minifier.Worker.Course

variable {course : Course} {call : PlannedCall}

/-! ### What comes before, between and after -/

/-- Under the id of a call nothing begins at any other time. -/
theorem Orderly.time_of_start (h : course.Orderly) (hcall : call ∈ course.calls) {time : Nat}
    {events : List Event} (hhappens : course.Happens time events)
    (hstart : .start call.request.id ∈ events) : time = call.time := by
  cases hhappens with
  | @begins other hother =>
    have hid : call.request.id = other.request.id := by simpa using hstart
    rw [h.eq_of_id hcall hother hid.symm]
  | responds _ | expires _ | closesResponses _ | closesRequests _ => simp at hstart

/-- What happens, cut at the beginning of a call and at the first thing after that which concerns it. -/
structure Cut (course : Course) (call : PlannedCall) (time : Nat) (events : List Event)
    (before between after : List (Nat × List Event)) : Prop where
  happenings : course.happenings =
    before ++ (call.time, [.start call.request.id, .send call.request.id]) ::
      (between ++ (time, events) :: after)
  first : course.First call time events
  before : ∀ happening ∈ before, happening.1 < call.time
  between : ∀ happening ∈ between, ¬ Touches call.request.id happening.2
  after : ∀ happening ∈ after, call.time < happening.1

theorem Orderly.exists_cut (h : course.Orderly) (hcall : call ∈ course.calls) :
    ∃ time events before between after, course.Cut call time events before between after := by
  classical
  obtain ⟨before, rest, hsplit⟩ := List.append_of_mem (mem_happenings.mpr (.begins hcall))
  have hsorted := h.sorted
  rw [hsplit, List.pairwise_append, List.pairwise_cons] at hsorted
  obtain ⟨-, ⟨hlater, hrest⟩, hearlier⟩ := hsorted
  -- What happens after the call begins stands behind its beginning.
  have hmem : ∀ later others, course.Happens later others → call.time < later →
      (later, others) ∈ rest := by
    intro later others hhappens hlt
    have hall := mem_happenings.mpr hhappens
    rw [hsplit, List.mem_append, List.mem_cons] at hall
    rcases hall with hbefore | heq | hrest
    · have hlt' := hearlier _ hbefore _ List.mem_cons_self
      omega
    · have htime : later = call.time := congrArg Prod.fst heq
      omega
    · exact hrest
  -- The time limit concerns the call, so there is a first thing that does.
  have hexpires := hmem _ _ (.expires hcall) (h.lt_deadline hcall)
  obtain ⟨⟨time, events⟩, between, after, hbetween, htouches, hcut, -⟩ := List.exists_of_eraseP
    (p := fun happening : Nat × List Event => decide (Touches call.request.id happening.2)) hexpires
    (decide_eq_true (touches_singleton.mpr rfl))
  have hnone : ∀ happening ∈ between, ¬ Touches call.request.id happening.2 := by
    intro happening hhappening
    simpa using hbetween happening hhappening
  rw [hcut] at hsplit hlater hrest hmem
  have hself : (time, events) ∈ between ++ (time, events) :: after := by simp
  refine ⟨time, events, before, between, after, hsplit,
    ⟨?_, hlater _ hself, of_decide_eq_true htouches, ?_⟩,
    fun happening hbefore => hearlier happening hbefore _ List.mem_cons_self, hnone,
    fun happening hafter => hlater happening (by simp [hafter])⟩
  · refine mem_happenings.mp ?_
    rw [hsplit]
    simp
  · intro later others hhappens hlt hothers
    have hmember := hmem later others hhappens hlt
    rw [List.mem_append, List.mem_cons] at hmember
    rcases hmember with hearly | heq | hlate
    · exact absurd hothers (hnone _ hearly)
    · exact (congrArg Prod.fst heq).ge
    · rw [List.pairwise_append, List.pairwise_cons] at hrest
      exact (hrest.2.1.1 _ hlate).le

/-! ### What comes of calls -/

variable {time : Nat} {events : List Event} {before between after : List (Nat × List Event)}

/-- A happening at another time than its beginning does not begin a call. -/
theorem Orderly.not_starts (h : course.Orderly) (hcall : call ∈ course.calls)
    {happening : Nat × List Event} (hhappens : happening ∈ course.happenings)
    (htime : happening.1 ≠ call.time) : .start call.request.id ∉ happening.2 :=
  fun hstart => htime (h.time_of_start hcall (mem_happenings.mp hhappens) hstart)

/-- When the first thing happens that concerns it, the call waits and responses still come. -/
theorem Cut.exists_waiting (hcut : course.Cut call time events before between after)
    (h : course.Orderly) (hcall : call ∈ course.calls) :
    ∃ scene : Scene, scene.Shows call.request.id .waiting ∧ scene.client.responsesOpen = true ∧
      scene.client.timeLimit = .ofMillis course.timeLimit ∧
        course.play = (scene.happen time events).play after := by
  let start : Scene := { client := { timeLimit := .ofMillis course.timeLimit } }
  let begins : List Event := [.start call.request.id, .send call.request.id]
  have hbefore : ∀ happening ∈ before, course.Happens happening.1 happening.2 := by
    intro happening hhappening
    exact mem_happenings.mp (by rw [hcut.happenings]; simp [hhappening])
  have hahead : (start.play before).Shows call.request.id .ahead := by
    refine Scene.Shows.stays ⟨rfl, rfl⟩ nofun fun happening hhappening => ?_
    exact h.not_starts hcall (mem_happenings.mpr (hbefore happening hhappening))
      (hcut.before happening hhappening).ne
  have hrequests : (start.play before).client.requestsOpen = true := by
    refine start.requestsOpen_play fun happening hhappening hclose => ?_
    have hlt := h.requestsOpen call hcall _ ((hbefore happening hhappening).closeRequests hclose)
    exact absurd (hcut.before happening hhappening) hlt.not_gt
  have hresponses : (start.play before).client.responsesOpen = true := by
    refine start.responsesOpen_play fun happening hhappening hclose => ?_
    have hlt := h.responsesOpen call hcall _ ((hbefore happening hhappening).closeResponses hclose)
    exact absurd (hcut.before happening hhappening) hlt.not_gt
  let begun := (start.play before).happen call.time begins
  have hbegun : begun.client.terms = (start.play before).client.terms :=
    Scene.terms_happen _ _ _
  refine ⟨begun.play between, ?_, ?_, ?_, ?_⟩
  · refine (hahead.begin hrequests).play fun happening hhappening event hevent => .inl ?_
    exact fun hconcerns => hcut.between happening hhappening ⟨event, hevent, hconcerns⟩
  · rw [Scene.responsesOpen_play begun fun happening hhappening hclose =>
      hcut.between happening hhappening ⟨_, hclose, trivial⟩]
    exact (congrArg Client.Terms.responsesOpen hbegun).trans hresponses
  · rw [Scene.timeLimit_play]
    exact (congrArg Client.Terms.timeLimit hbegun).trans (start.timeLimit_play before)
  · rw [play, hcut.happenings, Scene.play_append]
    exact Scene.play_append begun between _

/-- The call is over, as it would have been by itself, when the first thing has happened that concerns
it. -/
theorem First.shows_endOf {scene : Scene} (hfirst : course.First call time events)
    (h : course.Orderly) (hcall : call ∈ course.calls) (hwaits : scene.Shows call.request.id .waiting)
    (hresponses : scene.client.responsesOpen = true)
    (hlimit : scene.client.timeLimit = .ofMillis course.timeLimit) :
    (scene.happen time events).Shows call.request.id
      (.ended (course.endOf call).1 (course.endOf call).2) := by
  have htouches := hfirst.touches
  cases hfirst.happens with
  | @begins other hother =>
    have hid : other.request.id = call.request.id := by simpa [Touches, Event.Concerns] using htouches
    obtain rfl := h.eq_of_id hcall hother hid
    exact absurd hfirst.after (Nat.lt_irrefl _)
  | @responds time response hresponse =>
    have hid : response.id = call.request.id := touches_singleton.mp htouches
    rw [hfirst.endOf_response h hcall hid (h.lt_deadline hcall)]
    exact hwaits.answer hresponses response hid
  | @expires other hother =>
    obtain rfl := h.eq_of_id hcall hother (touches_singleton.mp htouches)
    rw [hfirst.endOf_expiry h hcall, ← hlimit]
    exact hwaits.expire
  | closesResponses hclosing =>
    rw [hfirst.endOf_closing h hcall (h.lt_deadline hcall)]
    exact hwaits.cutOff
  | closesRequests _ => exact absurd (touches_singleton.mp htouches) not_false

/-- Every call of a course ends, and its end stays. -/
theorem Orderly.shows_endOf (h : course.Orderly) (hcall : call ∈ course.calls) :
    course.play.Shows call.request.id (.ended (course.endOf call).1 (course.endOf call).2) := by
  obtain ⟨time, events, before, between, after, hcut⟩ := h.exists_cut hcall
  obtain ⟨scene, hwaits, hresponses, hlimit, hplay⟩ := hcut.exists_waiting h hcall
  have hover := hcut.first.shows_endOf h hcall hwaits hresponses hlimit
  rw [hplay]
  refine hover.stays nofun fun happening hhappening => ?_
  refine h.not_starts hcall ?_ (hcut.after happening hhappening).ne'
  rw [hcut.happenings]
  simp [hhappening]

/-- Every call ends exactly once, how and when it would have ended by itself. What comes for other calls or
for nobody, and how other calls end, makes no difference. -/
theorem calls_end_alone (h : course.Orderly) (hcall : call ∈ course.calls) :
    (course.play.client.ended.filter fun entry => entry.1 == call.request.id) =
        [(call.request.id, (course.endOf call).1)] ∧
      course.play.finished.lookup call.request.id = some (course.endOf call).2 := by
  have hshows := h.shows_endOf hcall
  refine ⟨?_, hshows.time⟩
  have hresults : (course.play.client.ended.filter fun entry => entry.1 == call.request.id).map Prod.snd =
      [(course.endOf call).1] := congrArg Standing.results hshows.standing
  obtain ⟨⟨id, result⟩, hended, hresult⟩ := List.map_eq_singleton_iff.mp hresults
  have hid : (id, result) ∈ course.play.client.ended.filter fun entry => entry.1 == call.request.id := by
    rw [hended]
    exact List.mem_singleton_self _
  obtain rfl : id = call.request.id := by simpa using (List.mem_filter.mp hid).2
  rw [hended, ← hresult]

/-- Three calls: one is answered twice, one too late, and one is cut off. -/
def threeCalls : Course where
  timeLimit := 10
  calls :=
    [⟨0, { id := "a", code := "", language := .json }⟩, ⟨1, { id := "b", code := "", language := .json }⟩,
     ⟨3, { id := "c", code := "", language := .json }⟩]
  responses :=
    [(14, .failed "b" "late"), (6, .failed "a" "second"), (5, .failed "a" "first"), (2, .failed "d" "stray")]
  closeRequests := none
  closeResponses := some 12

theorem threeCalls_end_alone :
    threeCalls.Orderly ∧
      threeCalls.calls.map threeCalls.endOf =
        [(.error (.failed "first"), 5), (.error (.timeout "b" (.ofMillis 10)), 11),
         (.error .disconnected, 12)] ∧
      ∀ call ∈ threeCalls.calls,
        (threeCalls.play.client.ended.filter fun entry => entry.1 == call.request.id) =
            [(call.request.id, (threeCalls.endOf call).1)] ∧
          threeCalls.play.finished.lookup call.request.id = some (threeCalls.endOf call).2 := by
  have horderly : threeCalls.Orderly :=
    ⟨by decide, by decide, by decide, by decide⟩
  exact ⟨horderly, by rfl, fun _ hcall => calls_end_alone horderly hcall⟩

end Minifier.Worker.Course

namespace Minifier.Worker.Plan

open Entries

variable {plan : Plan} {now : Nat} {scene : Scene}

/-! ### Instants -/

theorem time_mem_instants {call : PlannedCall} (h : call ∈ plan.asked) : call.time ∈ plan.instants := by
  have hcall : call ∈ plan.calls := asked_perm.mem_iff.mp h
  simp only [instants, List.mem_mergeSort, List.mem_eraseDups, List.mem_append]
  exact .inl (.inl (.inl (.inl (.inl (List.mem_map_of_mem hcall)))))

theorem snd_time_mem_instants {entry : PlannedCall × PlannedResponse} (h : entry ∈ plan.posted) :
    entry.2.time ∈ plan.instants := by
  obtain ⟨⟨call, number⟩, -, hentry⟩ := List.mem_flatMap.mp h
  obtain ⟨response, hresponse, rfl⟩ := List.mem_map.mp hentry
  have hplanned : ∃ planned ∈ plan.responses, response ∈ planned := by
    cases hnumber : plan.responses[number]? with
    | none => simp [hnumber] at hresponse
    | some planned =>
      exact ⟨planned, List.mem_of_getElem? hnumber, by simpa [hnumber] using hresponse⟩
  obtain ⟨planned, hmem, hresponse⟩ := hplanned
  simp only [instants, List.mem_mergeSort, List.mem_eraseDups, List.mem_append]
  exact .inl (.inl (.inl (.inr (List.mem_flatMap.mpr ⟨planned, hmem, List.mem_map_of_mem hresponse⟩))))

theorem mem_instants_of_happens {time : Nat} {events : List Event}
    (h : plan.course.Happens time events) : time ∈ plan.instants := by
  cases h with
  | begins hcall => exact time_mem_instants (asked_perm.mem_iff.mpr hcall)
  | responds hresponse =>
    obtain ⟨entry, hentry, harrival⟩ := List.mem_filterMap.mp hresponse
    obtain ⟨id, -, heq⟩ := Option.map_eq_some_iff.mp harrival
    have htime : entry.2.time = time := congrArg Prod.fst heq
    exact htime ▸ snd_time_mem_instants hentry
  | expires hcall =>
    simp only [instants, List.mem_mergeSort, List.mem_eraseDups, List.mem_append]
    exact .inl (.inl (.inl (.inl (.inr (List.mem_map.mpr ⟨_, hcall, rfl⟩)))))
  | closesResponses htime =>
    simp only [instants, List.mem_mergeSort, List.mem_eraseDups, List.mem_append]
    exact .inl (.inr (Option.mem_toList.mpr htime))
  | closesRequests htime =>
    simp only [instants, List.mem_mergeSort, List.mem_eraseDups, List.mem_append]
    exact .inl (.inl (.inr (Option.mem_toList.mpr htime)))

/-- Nothing is planned between one instant and the next. -/
theorem Reached.skip (hreached : plan.Reached now scene) {later : Nat} (hle : now ≤ later)
    (hnone : ∀ time ∈ plan.instants, time < now ∨ later ≤ time) : plan.Reached later scene := by
  have hsame : ∀ time ∈ plan.instants, (time < now ↔ time < later) ∧ (now ≤ time ↔ later ≤ time) := by
    intro time htime
    have hcases := hnone time htime
    omega
  refine ⟨?_, ?_, ?_⟩
  · rw [hreached.bare]
    refine congrArg _ (List.filter_congr fun happening hhappening => ?_)
    exact decide_eq_decide.mpr (hsame _ (mem_instants_of_happens (Course.mem_happenings.mp hhappening))).1
  · rw [hreached.taken]
    refine congrArg _ (List.filter_congr fun call hcall => ?_)
    exact decide_eq_decide.mpr (hsame _ (time_mem_instants hcall)).1
  · rw [hreached.outgoing, List.filter_filter, List.filter_filter]
    refine congrArg _ (List.filter_congr fun entry hentry => ?_)
    rw [decide_eq_decide.mpr (hsame _ (time_mem_instants (fst_mem_asked hentry))).1,
      decide_eq_decide.mpr (hsame _ (snd_time_mem_instants hentry)).2]

theorem instants_sorted (plan : Plan) : plan.instants.Pairwise fun a b => a < b := by
  have hle : plan.instants.Pairwise fun a b => a ≤ b := sorted_mergeSort (fun time => time) _
  have hnodup : plan.instants.Nodup := (List.mergeSort_perm _ _).nodup_iff.mpr (nodup_eraseDups _)
  exact hle.imp₂ (fun _ _ => Nat.lt_of_le_of_ne) hnodup

/-- The induction is on the instants that are left. Those are the instants of the plan from now on. -/
theorem Orderly.exists_reached (h : plan.Orderly) {rest : List Nat}
    (hsorted : rest.Pairwise fun a b => a < b)
    (hrest : ∀ time, time ∈ rest ↔ time ∈ plan.instants ∧ now ≤ time) (hreached : plan.Reached now scene) :
    ∃ last, (∀ time ∈ plan.instants, time < last) ∧
      plan.Reached last (rest.foldl (Scene.instant plan) scene) := by
  induction rest generalizing now scene with
  | nil =>
    refine ⟨now, fun time htime => Nat.lt_of_not_le fun hle => ?_, hreached⟩
    exact List.not_mem_nil ((hrest time).mpr ⟨htime, hle⟩)
  | cons time rest ih =>
    obtain ⟨hfirst, hsorted⟩ := List.pairwise_cons.mp hsorted
    have htime := (hrest time).mp List.mem_cons_self
    have hskip : plan.Reached time scene := by
      refine hreached.skip htime.2 fun other hother => ?_
      rcases Nat.lt_or_ge other now with hlt | hge
      · exact .inl hlt
      · rcases List.mem_cons.mp ((hrest other).mpr ⟨hother, hge⟩) with rfl | hlater
        · exact .inr (Nat.le_refl _)
        · exact .inr (hfirst other hlater).le
    refine ih hsorted (fun other => ?_) (hskip.instant h)
    constructor
    · intro hother
      exact ⟨((hrest other).mp (List.mem_cons_of_mem _ hother)).1, hfirst other hother⟩
    · rintro ⟨hother, hle⟩
      rcases List.mem_cons.mp ((hrest other).mpr ⟨hother, by omega⟩) with rfl | hlater
      · omega
      · exact hlater

/-! ### The report -/

/-- The scene when a plan is carried out. -/
def lastScene (plan : Plan) : Scene :=
  plan.instants.foldl (Scene.instant plan) { client := { timeLimit := .ofMillis plan.timeLimit } }

/-- Carrying a plan out comes to the same for the calls as its course. -/
theorem Orderly.bare_lastScene (h : plan.Orderly) : plan.lastScene.bare = plan.course.play := by
  have hstart : plan.Reached 0 { client := { timeLimit := .ofMillis plan.timeLimit } } := by
    refine ⟨?_, ?_, ?_⟩ <;> simp [Scene.play, Scene.bare]
  obtain ⟨last, hlast, hreached⟩ := h.exists_reached plan.instants_sorted (by simp) hstart
  rw [lastScene, hreached.bare, Course.play, List.filter_eq_self.mpr]
  · rfl
  · intro happening hhappening
    have hlt := hlast _ (mem_instants_of_happens (Course.mem_happenings.mp hhappening))
    exact decide_eq_true hlt

/-- The report tells of each call what the last scene knows of it. -/
theorem carryOut_calls_eq (plan : Plan) :
    plan.carryOut.calls = plan.calls.filterMap fun call =>
      match plan.lastScene.client.ended.lookup call.request.id,
        plan.lastScene.finished.lookup call.request.id with
      | some result, some time => some (result, time)
      | _, _ => none := by
  have hfold : ∀ (instants : List Nat) (scene : Scene) (counts : List (Nat × Nat)),
      (instants.foldl (fun (reached : Scene × List (Nat × Nat)) now =>
        let after := Scene.instant plan reached.1 now
        (after, (now, after.client.pendingCount) :: reached.2)) (scene, counts)).1 =
      instants.foldl (Scene.instant plan) scene := by
    intro instants
    induction instants with
    | nil => exact fun _ _ => rfl
    | cons now instants ih => exact fun scene counts => ih _ _
  rw [lastScene, ← hfold plan.instants _ []]
  rfl

/-- A plan that is carried out reports of each call the end that it would have come to by itself. -/
theorem Orderly.carryOut_calls (h : plan.Orderly) :
    plan.carryOut.calls = plan.calls.map plan.course.endOf := by
  have hclient : plan.lastScene.client = plan.course.play.client := by
    rw [← h.bare_lastScene]
    rfl
  have hfinished : plan.lastScene.finished = plan.course.play.finished := by
    rw [← h.bare_lastScene]
    rfl
  rw [carryOut_calls_eq, hclient, hfinished, ← List.filterMap_eq_map]
  refine List.filterMap_congr fun call hcall => ?_
  have hshows := h.course.shows_endOf hcall
  have hended : plan.course.play.client.ended.lookup call.request.id =
      some (plan.course.endOf call).1 := by
    rw [lookup_eq_head?, ← List.head?_map]
    exact congrArg List.head? (congrArg Standing.results hshows.standing)
  rw [hended, hshows.time]
  rfl

end Minifier.Worker.Plan
