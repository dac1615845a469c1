import Conflux.Proofs.Aggregator.Run

/-!
A bundle whose type depends on another is handed out only after that other type has
been processed far enough. What has been processed of a type never becomes less,
whatever a run does, and there is only one way in which it can come to be what it is: a
worker reported success on a bundle of that version. So it does not matter what the
slot was given a ticket for; the bundle is looked at again when the ticket is redeemed.
-/

namespace Conflux

namespace Slot

variable {mode : SyncMode} {s core : Slot} {seen : Happening} {v : Version}

theorem Step.reachedBy (hstep : Step mode s seen core) (h : v.ReachedBy s.lastProcessed) :
    v.ReachedBy core.lastProcessed := by
  cases hstep with
  | keep | accept | refuse | start | drop | supersede | putBack | putBeneath | rest => exact h
  | succeed => exact h.maxOption_left _

theorem Step.lastProcessed_cases (hstep : Step mode s seen core)
    (h : core.lastProcessed = some v) :
    s.lastProcessed = some v ∨
      ∃ r, seen = .finished r .succeeded .processed ∧ r.envelope.version = v := by
  cases hstep with
  | keep | accept | refuse | start | drop | supersede | putBack | putBeneath | rest => exact .inl h
  | succeed =>
      rcases Version.maxOption_eq_some h with hv | hv
      · exact .inl hv
      · exact .inr ⟨_, rfl, Option.some.inj hv⟩

theorem Woken.lastProcessed_eq {n : Nat} (hwoken : Woken core n s) :
    s.lastProcessed = core.lastProcessed := by
  cases hwoken with
  | asleep => rfl
  | woken => rfl

end Slot

namespace Aggregator

theorem Sound.reachedBy_step {a : Aggregator} (h : a.Sound) (o : Operation) {s u : String}
    {v : Version} (hv : v.ReachedBy (a.slot s u).lastProcessed) :
    v.ReachedBy ((a.step o).slot s u).lastProcessed := by
  obtain ⟨core, n, hstep, hwoken⟩ := h.step_slot o s u
  rw [hwoken.lastProcessed_eq]
  exact hstep.reachedBy hv

/-- What was processed stays processed. -/
theorem Sound.reachedBy_run {a : Aggregator} (h : a.Sound) (ops : List Operation) {s u : String}
    {v : Version} (hv : v.ReachedBy (a.slot s u).lastProcessed) :
    v.ReachedBy ((a.run ops).slot s u).lastProcessed := by
  induction ops generalizing a with
  | nil => exact hv
  | cons o ops ih => exact ih (h.step o) (h.reachedBy_step o hv)

/-- The last processed version is that of a bundle on which a worker reported success. -/
theorem Sound.processed_run {a : Aggregator} (h : a.Sound) (ops : List Operation) {s u : String}
    {v : Version} (hv : ((a.run ops).slot s u).lastProcessed = some v) :
    (a.slot s u).lastProcessed = some v ∨
      ∃ earlier later r, ops = earlier ++ .work (.complete s u .succeeded) :: later ∧
        ((a.run earlier).slot s u).running = some r ∧
        ((a.run earlier).complete s u .succeeded).2 = .processed ∧
        r.envelope.version = v := by
  induction ops generalizing a with
  | nil => exact .inl hv
  | cons o ops ih =>
      rcases ih (h.step o) hv with hstart | ⟨earlier, later, r, hops, hr, hc, hrv⟩
      · obtain ⟨core, n, hstep, hwoken⟩ := h.step_slot o s u
        rw [hwoken.lastProcessed_eq] at hstart
        rcases hstep.lastProcessed_cases hstart with hbefore | ⟨r, hseen, hrv⟩
        · exact .inl hbefore
        · obtain ⟨rfl, hr, hc⟩ := happening_eq_finished hseen
          exact .inr ⟨[], ops, r, rfl, hr, hc, hrv⟩
      · exact .inr ⟨o :: earlier, later, r, by rw [hops, List.cons_append], hr, hc, hrv⟩

/-- A claim shows that the dependency was satisfied when it was made. -/
theorem reachedBy_of_claim {a : Aggregator} {source t d : String} {x : Registration} {c : Claim}
    (hx : a.registry.get? t = some x) (hd : x.dependsOn = some d)
    (hc : (a.claim source t).2 = some c) :
    c.envelope.required.ReachedBy (a.slot source d).lastProcessed := by
  rw [(a.claim_eq source t).1] at hc
  rcases Leaf.claim_cases hx with ⟨b, _, _, _, hsat, hclaim, _⟩ | ⟨hclaim, _⟩
  · rw [hclaim] at hc
    obtain rfl := Option.some.inj hc
    exact (Leaf.satisfied_iff hd).1 hsat
  · rw [hclaim] at hc
    cases hc

/-- Whenever a bundle is handed out whose type depends on another, a worker has before
reported success on a bundle of that other type and of the same source, of a version
that the claimed bundle requires or a later one; and from then on the last processed
version never falls below what was required. -/
theorem claim_follows_dependency (calls : List Registration) (before after : List Operation)
    (source t d : String) (x : Registration) (c : Claim)
    (hx : (Registry.ofCalls calls).get? t = some x) (hd : x.dependsOn = some d)
    (hc : (((fresh (Registry.ofCalls calls)).run before).claim source t).2 = some c) :
    let start := fresh (Registry.ofCalls calls)
    (∃ earlier later r, before = earlier ++ .work (.complete source d .succeeded) :: later ∧
      ((start.run earlier).slot source d).running = some r ∧
      ((start.run earlier).complete source d .succeeded).2 = .processed ∧
      c.envelope.required ≤ r.envelope.version) ∧
    c.envelope.required.ReachedBy
      (((start.run (before ++ .work (.claim source t) :: after)).leaf source).lastProcessed d) := by
  intro start
  have hsound : start.Sound := sound_fresh (Registry.named_ofCalls calls)
  have hreg : (start.run before).registry.get? t = some x := by
    rw [registry_run]
    exact hx
  have hreached := reachedBy_of_claim hreg hd hc
  constructor
  · obtain ⟨v, hv, hle⟩ := hreached
    -- Nothing has been processed at the start, so the version came in by a success.
    rcases hsound.processed_run before hv with hnone | ⟨earlier, later, r, hops, hr, hdone, hrv⟩
    · cases hnone
    · exact ⟨earlier, later, r, hops, hr, hdone, hrv ▸ hle⟩
  · rw [Leaf.lastProcessed_eq, run_append]
    exact (hsound.run before).reachedBy_run (.work (.claim source t) :: after) hreached

/-- A compliance bundle that waited for the clusters it is about. -/
theorem claim_follows_dependency_compliance :
    let calls : List Registration :=
      [.complete "clusters" 0 none, .complete "compliance" 1 (some "clusters")]
    let bundle (t : String) : Envelope := ⟨"1.0", t, "hub", t, ⟨0, 0, 0⟩, ⟨1, 1⟩, none, []⟩
    let before : List Operation :=
      [.insert (bundle "compliance") ⟨"status", 0, 4⟩ 4,
        .insert (bundle "clusters") ⟨"status", 0, 5⟩ 5,
        .work .pop, .work (.claim "hub" "clusters"),
        .work (.complete "hub" "clusters" .succeeded), .work .pop]
    let start := fresh (Registry.ofCalls calls)
    ∃ c, ((start.run before).claim "hub" "compliance").2 = some c ∧
      c.envelope.required.ReachedBy
        (((start.run (before ++ [.work (.claim "hub" "compliance")])).leaf "hub").lastProcessed
          "clusters") := by
  intro calls bundle before start
  have hsome : ((start.run before).claim "hub" "compliance").2.isSome = true := by decide +kernel
  obtain ⟨c, hc⟩ := Option.isSome_iff_exists.1 hsome
  have hx : (Registry.ofCalls calls).get? "compliance" =
      some (.complete "compliance" 1 (some "clusters")) := by decide +kernel
  exact ⟨c, hc, (claim_follows_dependency calls before [] "hub" "compliance" "clusters" _ c
    hx rfl hc).2⟩

end Aggregator

end Conflux
