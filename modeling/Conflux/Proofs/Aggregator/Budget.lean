import Conflux.Proofs.Trials

/-!
Retries are bounded. Where every failed run is reported with the same number of attempts `m`,
no bundle is handed out more than `m` times with the same content in it, whatever is merged
with it in between; the `m`-th failure is the last, and what is dropped then stays away.
-/

namespace Conflux.Aggregator

variable {a : Aggregator} {m : Nat}

theorem happenings_append (a : Aggregator) (source t : String) (ops ops' : List Operation) :
    a.happenings source t (ops ++ ops') =
      a.happenings source t ops ++ (a.run ops).happenings source t ops' := by
  induction ops generalizing a with
  | nil => rfl
  | cons o ops ih =>
      rw [List.cons_append, happenings, ih (a.step o), happenings, List.cons_append]
      rfl

/-- Where every report of a failure allows `m` attempts, every failed run was allowed them. -/
theorem allows_of_mem_happenings {source t : String} {ops : List Operation}
    (h : ∀ s u n, .work (.complete s u (.failed n)) ∈ ops → n = m) :
    ∀ seen ∈ a.happenings source t ops, seen.Allows m := by
  induction ops generalizing a with
  | nil => nofun
  | cons o ops ih =>
      intro seen hseen
      rcases List.mem_cons.1 hseen with rfl | hseen
      · generalize hhappening : a.happening source t o = seen
        match seen with
        | .finished done (.failed n) completion =>
            obtain ⟨rfl, _⟩ := happening_eq_finished hhappening
            exact h source t n List.mem_cons_self
        | .nothing | .refused | .rested | .accepted _ _ _ | .started _ => trivial
        | .finished _ .succeeded _ => trivial
      · exact ih (fun s u n hmem => h s u n (List.mem_cons_of_mem o hmem)) seen hseen

/-- The slot is in line with what has been tried so far. -/
theorem Sound.tried {start : Aggregator} (h : start.Sound) (hm : 1 ≤ m) {ops : List Operation}
    {source t : String} (hstart : start.slot source t = .empty)
    (hbudget : ∀ s u n, .work (.complete s u (.failed n)) ∈ ops → n = m) :
    let mode := start.registry.mode t
    let past := start.happenings source t ops
    let slot := (start.run ops).slot source t
    Slot.Contents mode past slot ∧ Slot.Spent mode m past slot ∧ Slot.Claimed past slot := by
  intro mode past slot
  have hinvariant := h.slot_invariant source t
    (P := fun past s => (∀ seen ∈ past, seen.Allows m) →
      Slot.Contents mode past s ∧ Slot.Spent mode m past s ∧ Slot.Claimed past s) []
    (fun _ => hstart ▸ ⟨Slot.contents_empty mode, Slot.spent_empty mode m, Slot.claimed_empty⟩)
    (fun past s seen core hpast hstep hallows => ?_)
    (fun past core n s hpast hwoken hallows => ?_) ops
  · exact hinvariant (allows_of_mem_happenings hbudget)
  · obtain ⟨hcontents, hspent, hclaimed⟩ := hpast fun x hx => hallows x (List.mem_append_left _ hx)
    have hallowed : seen.Allows m := hallows seen (by simp)
    exact ⟨hcontents.step hstep, hspent.step hm hcontents hallowed hstep, hclaimed.step hstep⟩
  · obtain ⟨hcontents, hspent, hclaimed⟩ := hpast hallows
    exact ⟨hcontents.woken hwoken, hspent.woken hwoken, hclaimed.woken hwoken⟩

theorem Sound.step_claim (h : a.Sound) {source t : String} {c : Claim}
    (hc : (a.claim source t).2 = some c) :
    ∃ b, (a.slot source t).buffered = some b ∧ c.envelope = b.envelope ∧
      c.attempt = b.attempts + 1 := by
  obtain ⟨core, n, hstep, _⟩ := h.step_slot (.work (.claim source t)) source t
  rw [happening, if_pos ⟨rfl, rfl⟩, hc] at hstep
  cases hstep with
  | start hb => exact ⟨_, hb, rfl, rfl⟩

theorem Sound.step_complete (h : a.Sound) {source t : String} {r : Running}
    (hr : (a.slot source t).running = some r) (verdict : Verdict) :
    ∃ core, Slot.Step (a.registry.mode t) (a.slot source t)
      (.finished r verdict (a.complete source t verdict).2) core := by
  obtain ⟨core, n, hstep, _⟩ := h.step_slot (.work (.complete source t verdict)) source t
  rw [happening, if_pos ⟨rfl, rfl⟩, hr] at hstep
  exact ⟨core, hstep⟩

/-- After any run in which every failure allows `m` attempts, at any slot: a bundle that waits
has been tried less than `m` times, and no accepted envelope is in more than `m` of the
bundles that were handed out. If a bundle is handed out now, it is at its first to its `m`-th
attempt, and is what the envelopes in it merge to. A bundle at work has the attempt that its
claim had. If it ends now in success, it is not dropped; if it fails, it is dropped exactly at
attempt `m`, and then no envelope that was in it is handed out again, whatever comes later. -/
theorem retry_budget (calls : List Registration) (ops later : List Operation)
    (source bundleType : String) (m : Nat) (hm : 1 ≤ m)
    (hbudget : ∀ s t n, .work (.complete s t (.failed n)) ∈ ops → n = m) :
    let start := fresh (Registry.ofCalls calls)
    let mode := start.registry.mode bundleType
    let past := start.happenings source bundleType ops
    let tried := Slot.trials mode past
    let a := start.run ops
    let slot := a.slot source bundleType
    let failure := (a.complete source bundleType (.failed m)).2
    let future := start.happenings source bundleType
      (ops ++ .work (.complete source bundleType (.failed m)) :: later)
    (∀ b, slot.buffered = some b → b.attempts < m) ∧
    (∀ i, tried.count i ≤ m) ∧
    (∀ c, (a.claim source bundleType).2 = some c → 1 ≤ c.attempt ∧ c.attempt ≤ m ∧
      mode.mergeAll (Slot.pick past tried.buffered) = some c.envelope) ∧
    ∀ r, slot.running = some r →
      (∃ c, Slot.lastClaim? past = some c ∧ c.envelope = r.envelope ∧ c.attempt = r.attempt) ∧
      r.attempt ≤ m ∧ mode.mergeAll (Slot.pick past tried.running) = some r.envelope ∧
      (a.complete source bundleType .succeeded).2 = .processed ∧
      ((∃ v n, failure = .dropped v n) ↔ r.attempt = m) ∧
      ((∃ v n, failure = .dropped v n) →
        ∀ i ∈ tried.running, (Slot.trials mode future).count i = tried.count i) := by
  intro start mode past tried a slot failure future
  have hstart : start.Sound := sound_fresh (Registry.named_ofCalls calls)
  have hsound : a.Sound := hstart.run ops
  have hmode : a.registry.mode bundleType = mode := by rw [registry_run]
  have hempty : start.slot source bundleType = .empty := rfl
  obtain ⟨hcontents, hspent, hclaimed⟩ := hstart.tried hm hempty hbudget
  refine ⟨fun b hb => (hspent.buffered b hb).1, hspent.count_le, fun c hc => ?_, fun r hr => ?_⟩
  · obtain ⟨b, hb, henvelope, hattempt⟩ := hsound.step_claim hc
    have hmerged := hcontents.buffered
    rw [hb] at hmerged
    rw [hattempt, henvelope]
    exact ⟨Nat.le_add_left 1 _, (hspent.buffered b hb).1, hmerged⟩
  · obtain ⟨c, hc, r', hr', henvelope, _, hattempt⟩ := hclaimed (by rw [hr]; rfl)
    obtain rfl := Option.some.inj (hr.symm.trans hr')
    have hle : r.attempt ≤ m := (hspent.running r hr).1
    have hmerged := hcontents.running
    rw [hr] at hmerged
    obtain ⟨_, hsuccess⟩ := hsound.step_complete hr .succeeded
    obtain ⟨_, hfailure⟩ := hsound.step_complete hr (.failed m)
    refine ⟨⟨c, hc, henvelope, hattempt⟩, hle, hmerged, hsuccess.processed_of_succeeded,
      hfailure.dropped_iff hle, ?_⟩
    rintro ⟨v, n, hdropped⟩ i hi
    have hnow : a.happening source bundleType (.work (.complete source bundleType (.failed m))) =
        .finished r (.failed m) (.dropped v n) := by
      rw [happening, if_pos ⟨rfl, rfl⟩, hr]
      exact congrArg _ hdropped
    have hgone : (tried.next mode (.finished r (.failed m) (.dropped v n))).Gone i :=
      (Slot.sound_trials mode past).gone hi
    have hfuture : future = past ++ .finished r (.failed m) (.dropped v n) ::
        (a.step (.work (.complete source bundleType (.failed m)))).happenings source bundleType
          later := by
      rw [← hnow]
      exact happenings_append start source bundleType ops _
    rw [hfuture, Slot.trials_append, List.foldl_cons]
    exact hgone.foldl mode _

/-- A bundle fails twice and is dropped. When it is sent again, and handed out again, that is no
further trial of the envelope that was dropped. -/
theorem retry_budget_two_attempts :
    let bundle : Envelope := ⟨"1.0", "clusters", "hub", "bundle", ⟨0, 0, 0⟩, ⟨0, 1⟩, none, []⟩
    let calls : List Registration := [.complete "clusters" 0 none]
    let ops : List Operation :=
      [.insert bundle ⟨"status", 0, 1⟩ 1, .work (.claim "hub" "clusters"),
        .work (.complete "hub" "clusters" (.failed 2)), .work (.endRest "hub" "clusters"),
        .work (.claim "hub" "clusters")]
    let later : List Operation :=
      [.insert bundle ⟨"status", 0, 2⟩ 2, .work (.claim "hub" "clusters")]
    let start := fresh (Registry.ofCalls calls)
    let mode := start.registry.mode "clusters"
    let past := start.happenings "hub" "clusters" ops
    let future := start.happenings "hub" "clusters"
      (ops ++ .work (.complete "hub" "clusters" (.failed 2)) :: later)
    (Slot.trials mode past).count 0 = 2 ∧ (Slot.trials mode future).count 0 = 2 ∧
      (Slot.trials mode future).count 1 = 1 := by
  intro bundle calls ops later start mode past future
  have hbudget : ∀ s t n, Operation.work (.complete s t (.failed n)) ∈ ops → n = 2 := by
    simp [ops]
  have hsome : ((start.run ops).slot "hub" "clusters").running.isSome = true := by decide +kernel
  obtain ⟨r, hr⟩ := Option.isSome_iff_exists.1 hsome
  have hattempt : r.attempt = 2 := by
    have hmap : ((start.run ops).slot "hub" "clusters").running.map (·.attempt) = some 2 := by
      decide +kernel
    rw [hr] at hmap
    exact Option.some.inj hmap
  have htwice : (Slot.trials mode past).count 0 = 2 := by decide +kernel
  have hin : 0 ∈ (Slot.trials mode past).running := by decide +kernel
  obtain ⟨_, _, _, hrunning⟩ :=
    retry_budget calls ops later "hub" "clusters" 2 (by decide) hbudget
  obtain ⟨_, _, _, _, hdropped, hgone⟩ := hrunning r hr
  refine ⟨htwice, ?_, by decide +kernel⟩
  -- With the abbreviations in place, `exact` would compare the two sides by running them.
  subst past future mode start
  exact (hgone (hdropped.2 hattempt) 0 hin).trans htwice

end Conflux.Aggregator
