import Conflux.Proofs.Aggregator.Gate

/-!
The versions in a slot stand in one order: what was processed, then the bundle at work,
then the bundle that waits. A slot takes only what is newer than all it has, and no move
of a bundle inside the slot overtakes another, so the order holds in every run.

This is why no version is processed twice. Nothing here looks at which messages have been
seen; a bundle that comes again, at any time, is not newer than itself.
-/

namespace Conflux

namespace Slot

/-- Processed before at work before waiting, as far as they are there. -/
structure Ascending (s : Slot) : Prop where
  running : ∀ r, s.running = some r → r.envelope.version.Above s.lastProcessed
  buffered : ∀ b, s.buffered = some b → b.envelope.version.Above s.lastProcessed
  order : ∀ r b, s.running = some r → s.buffered = some b →
    r.envelope.version < b.envelope.version

def Happening.processed? : Happening → Option Version
  | .finished done _ .processed => some done.envelope.version
  | _ => none

variable {mode : SyncMode} {s core : Slot} {seen : Happening} {v : Version}

theorem reachedBy_newest_iff :
    v.ReachedBy s.newest ↔ v.ReachedBy (s.buffered.map (·.envelope.version)) ∨
      v.ReachedBy (s.running.map (·.envelope.version)) ∨ v.ReachedBy s.lastProcessed := by
  rw [newest, Version.reachedBy_maxOption_iff, Version.reachedBy_maxOption_iff, or_assoc]

/-- A slot takes what is above the newest version it knows. -/
theorem admits_iff : s.admits v = true ↔ v.Above s.newest := by
  rw [admits]
  cases s.newest with
  | none => simp [Version.above_none]
  | some w => simp [Version.newerThan, Version.above_some]

/-- What the slot takes is above each of the three. -/
theorem above_of_admits (h : s.admits v = true) :
    v.Above (s.buffered.map (·.envelope.version)) ∧
      v.Above (s.running.map (·.envelope.version)) ∧ v.Above s.lastProcessed := by
  have hnewest := admits_iff.1 h
  rw [newest, Version.above_maxOption_iff, Version.above_maxOption_iff] at hnewest
  exact ⟨hnewest.1.1, hnewest.1.2, hnewest.2⟩

@[simp] theorem version_join (b : Buffered) (e : Envelope) (position : Position)
    (lastOffset : UInt64) : (b.join mode e position lastOffset).envelope.version = e.version :=
  mode.merge_version b.envelope e

@[simp] theorem version_beneath (b : Buffered) (failed : Running) :
    (b.beneath mode failed).envelope.version = b.envelope.version :=
  mode.merge_version failed.envelope b.envelope

/-- A bundle that comes gives its version to what waits, whether it joins or not. -/
theorem version_buffer (s : Slot) (mode : SyncMode) (e : Envelope) (position : Position)
    (lastOffset : UInt64) : ∃ b, (s.buffer mode e position lastOffset).buffered = some b ∧
      b.envelope.version = e.version := by
  rw [buffer]
  cases s.buffered with
  | none => exact ⟨_, rfl, rfl⟩
  | some b => exact ⟨_, rfl, version_join b e position lastOffset⟩

theorem ascending_empty : empty.Ascending where
  running _ h := (nomatch h)
  buffered _ h := (nomatch h)
  order _ _ h := (nomatch h)

/-- With nothing at work the order only asks that what waits is not processed yet. -/
theorem ascending_of_not_running (hr : s.running = none)
    (hb : ∀ b, s.buffered = some b → b.envelope.version.Above s.lastProcessed) :
    s.Ascending := by
  refine ⟨?_, hb, ?_⟩
  · intro r hsome
    rw [hr] at hsome
    cases hsome
  · intro r b hsome
    rw [hr] at hsome
    cases hsome

theorem Ascending.step (h : s.Ascending) (hstep : Step mode s seen core) : core.Ascending := by
  cases hstep with
  | keep | refuse | rest => exact ⟨h.running, h.buffered, h.order⟩
  | @accept e position lastOffset hv =>
      obtain ⟨_, habove, hprocessed⟩ := above_of_admits hv
      obtain ⟨b, hb, hversion⟩ := version_buffer s mode e position lastOffset
      refine ⟨h.running, ?_, ?_⟩
      · intro c hc
        obtain rfl := Option.some.inj (hb.symm.trans hc)
        rw [hversion]
        exact hprocessed
      · intro r c hr hc
        obtain rfl := Option.some.inj (hb.symm.trans hc)
        rw [hversion]
        exact habove _ (congrArg (Option.map (·.envelope.version)) hr)
  | start hb =>
      refine ⟨?_, ?_, ?_⟩
      · intro r hr
        obtain rfl := Option.some.inj hr
        exact h.buffered _ hb
      · intro c hc
        cases hc
      · intro r c _ hc
        cases hc
  | succeed hr =>
      refine ascending_of_not_running rfl fun b hb => ?_
      have hrb := h.order _ _ hr hb
      exact Version.above_maxOption_iff.2 ⟨h.buffered b hb, Version.above_some.2 hrb⟩
  | drop | supersede => exact ascending_of_not_running rfl h.buffered
  | putBack hr =>
      refine ascending_of_not_running rfl fun b hb => ?_
      obtain rfl := Option.some.inj hb
      exact h.running _ hr
  | putBeneath _ hb =>
      refine ascending_of_not_running rfl fun c hc => ?_
      obtain rfl := Option.some.inj hc
      rw [version_beneath]
      exact h.buffered _ hb

theorem Ascending.woken {n : Nat} (h : core.Ascending) (hwoken : Woken core n s) :
    s.Ascending := by
  cases hwoken with
  | asleep => exact h
  | woken => exact ⟨h.running, h.buffered, h.order⟩

/-- Only a bundle that leaves for good without success takes its version along. The order
is needed where the bundle at work is forgotten, or goes beneath another: what waits is
newer. -/
theorem Ascending.newest_step (h : s.Ascending) (hstep : Step mode s seen core)
    (hv : v.ReachedBy s.newest) :
    v.ReachedBy core.newest ∨
      ∃ r n, seen = .finished r (.failed n) (.dropped r.envelope.version r.attempt) := by
  rw [reachedBy_newest_iff] at hv ⊢
  cases hstep with
  | keep | refuse | rest => exact .inl hv
  | @accept e position lastOffset hadmits =>
      obtain ⟨hbuffered, _, _⟩ := above_of_admits hadmits
      obtain ⟨b, hb, hversion⟩ := version_buffer s mode e position lastOffset
      rcases hv with ⟨w, hw, hvw⟩ | hv
      · have hlt : w < e.version := hbuffered w hw
        refine .inl (.inl ⟨e.version, ?_, hvw.trans hlt.le⟩)
        rw [hb, ← hversion]
        rfl
      · exact .inl (.inr hv)
  | start hb hr =>
      rw [hb, hr] at hv
      rcases hv with hv | hv | hv
      · exact .inl (.inr (.inl hv))
      · exact absurd hv (Version.not_reachedBy_none v)
      · exact .inl (.inr (.inr hv))
  | succeed hr =>
      rw [hr] at hv
      rw [Version.reachedBy_maxOption_iff]
      rcases hv with hv | hv | hv
      · exact .inl (.inl hv)
      · exact .inl (.inr (.inr (.inr hv)))
      · exact .inl (.inr (.inr (.inl hv)))
  | drop => exact .inr ⟨_, _, rfl⟩
  | supersede hr hb =>
      rw [hr] at hv
      rcases hv with hv | hv | hv
      · exact .inl (.inl hv)
      · have hle := (Version.reachedBy_some.1 hv).trans (h.order _ _ hr hb).le
        rw [hb]
        exact .inl (.inl (Version.reachedBy_some.2 hle))
      · exact .inl (.inr (.inr hv))
  | putBack hr hb =>
      rw [hr, hb] at hv
      rcases hv with hv | hv | hv
      · exact absurd hv (Version.not_reachedBy_none v)
      · exact .inl (.inl hv)
      · exact .inl (.inr (.inr hv))
  | @putBeneath r b _ hr hb =>
      have hbeneath : v ≤ b.envelope.version →
          v.ReachedBy (some (b.beneath mode r).envelope.version) := by
        rw [Version.reachedBy_some, version_beneath]
        exact id
      rw [hr, hb] at hv
      rcases hv with hv | hv | hv
      · exact .inl (.inl (hbeneath (Version.reachedBy_some.1 hv)))
      · have hle := (Version.reachedBy_some.1 hv).trans (h.order _ _ hr hb).le
        exact .inl (.inl (hbeneath hle))
      · exact .inl (.inr (.inr hv))

theorem Woken.newest_eq {n : Nat} (hwoken : Woken core n s) : s.newest = core.newest := by
  cases hwoken with
  | asleep => rfl
  | woken => rfl

/-- What is processed was at work, and is what the slot then knows as processed. -/
theorem Step.processed?_cases (hstep : Step mode s seen core) :
    seen.processed? = none ∨ ∃ r, s.running = some r ∧
      seen.processed? = some r.envelope.version ∧
      r.envelope.version.ReachedBy core.lastProcessed := by
  cases hstep with
  | keep | accept | refuse | start | drop | supersede | putBack | putBeneath | rest =>
      exact .inl rfl
  | @succeed r hr =>
      have hself : r.envelope.version.ReachedBy (some r.envelope.version) :=
        Version.reachedBy_some.2 le_rfl
      exact .inr ⟨r, hr, rfl, Version.reachedBy_maxOption_iff.2 (.inr hself)⟩

/-- The versions processed in the past ascend, and none of them is above what the slot
knows as processed. -/
structure Processed (past : List Happening) (s : Slot) : Prop where
  ascending : s.Ascending
  increasing : (past.filterMap (·.processed?)).Pairwise (· < ·)
  reached : ∀ v ∈ past.filterMap (·.processed?), v.ReachedBy s.lastProcessed

theorem processed_empty : Processed [] empty where
  ascending := ascending_empty
  increasing := .nil
  reached _ h := (nomatch h)

variable {past : List Happening}

theorem Processed.step (h : Processed past s) (hstep : Step mode s seen core) :
    Processed (past ++ [seen]) core := by
  have hold : ∀ v ∈ past.filterMap (·.processed?), v.ReachedBy core.lastProcessed :=
    fun v hv => hstep.reachedBy (h.reached v hv)
  rcases hstep.processed?_cases with hnone | ⟨r, hr, hsome, hnew⟩
  · have hpast : (past ++ [seen]).filterMap (·.processed?) = past.filterMap (·.processed?) := by
      simp [List.filterMap_append, hnone]
    refine ⟨h.ascending.step hstep, ?_, ?_⟩
    · rw [hpast]
      exact h.increasing
    · rw [hpast]
      exact hold
  · have hpast : (past ++ [seen]).filterMap (·.processed?) =
        past.filterMap (·.processed?) ++ [r.envelope.version] := by
      simp [List.filterMap_append, hsome]
    refine ⟨h.ascending.step hstep, ?_, ?_⟩
    · rw [hpast, List.pairwise_append]
      refine ⟨h.increasing, List.pairwise_singleton _ _, ?_⟩
      intro v hv w hw
      rw [List.mem_singleton] at hw
      -- The bundle at work is above all that was processed before.
      obtain ⟨u, hu, hvu⟩ := h.reached v hv
      rw [hw]
      exact hvu.trans_lt (h.ascending.running r hr u hu)
    · rw [hpast]
      intro v hv
      rcases List.mem_append.1 hv with hv | hv
      · exact hold v hv
      · rw [List.mem_singleton] at hv
        rw [hv]
        exact hnew

theorem Processed.woken {n : Nat} (h : Processed past core) (hwoken : Woken core n s) :
    Processed past s := by
  refine ⟨h.ascending.woken hwoken, h.increasing, ?_⟩
  rw [hwoken.lastProcessed_eq]
  exact h.reached

end Slot

namespace Aggregator

/-- A stale bundle is not put anywhere. Its source has a leaf already, for a slot that
knows nothing takes everything. -/
theorem insert_eq_self_of_stale {a : Aggregator} {e : Envelope} {position : Position}
    {lastOffset : UInt64} (h : (a.insert e position lastOffset).2.admission = .stale) :
    (a.insert e position lastOffset).1 = a := by
  rw [insert] at h ⊢
  cases hx : a.registry.get? e.bundleType with
  | none => rw [hx] at h
  | some x =>
      simp only [hx] at h ⊢
      by_cases hadmits : ((a.leaf e.source).slot x.bundleType).admits e.version = true
      · obtain ⟨_, _, hanswer⟩ := Leaf.insert_of_admits hadmits a.registry position lastOffset
        rw [leaf] at hanswer
        rw [h] at hanswer
        rcases hanswer with hanswer | hanswer <;> cases hanswer
      · have heffect := Leaf.insert_of_not_admits hadmits a.registry position lastOffset
        rw [leaf] at heffect
        rw [heffect, apply]
        cases hl : a.leaf? e.source with
        | none =>
            rw [leaf, hl] at hadmits
            exact absurd rfl hadmits
        | some l =>
            rw [Option.getD_some, Table.put_eq_self hl]
            rfl

theorem Sound.newest_step {a : Aggregator} (h : a.Sound) (o : Operation) {s u : String}
    (hascending : (a.slot s u).Ascending) {v : Version} (hv : v.ReachedBy (a.slot s u).newest) :
    v.ReachedBy ((a.step o).slot s u).newest ∨
      ∃ n w k, o = .work (.complete s u (.failed n)) ∧
        (a.complete s u (.failed n)).2 = .dropped w k := by
  obtain ⟨core, n, hstep, hwoken⟩ := h.step_slot o s u
  rcases hascending.newest_step hstep hv with hv | ⟨r, n, hseen⟩
  · rw [hwoken.newest_eq]
    exact .inl hv
  · obtain ⟨ho, _, hanswer⟩ := happening_eq_finished hseen
    exact .inr ⟨n, _, _, ho, hanswer⟩

/-- After a bundle came in, its slot knows a version no older, whether it was taken or not. -/
theorem Sound.newest_insert {a : Aggregator} (h : a.Sound) {e : Envelope} {x : Registration}
    (hx : a.registry.get? e.bundleType = some x) (position : Position) (lastOffset : UInt64)
    (hascending : (a.slot e.source e.bundleType).Ascending) :
    e.version.ReachedBy ((a.insert e position lastOffset).1.slot e.source e.bundleType).newest := by
  by_cases hknown : e.version.ReachedBy (a.slot e.source e.bundleType).newest
  · rcases h.newest_step (.insert e position lastOffset) hascending hknown with hafter | hdropped
    · exact hafter
    · obtain ⟨_, _, _, ho, _⟩ := hdropped
      cases ho
  · have hadmits : ((a.leaf e.source).slot x.bundleType).admits e.version = true := by
      rw [h.named e.bundleType x hx]
      exact Slot.admits_iff.2 (Version.above_iff.2 hknown)
    obtain ⟨_, _, hanswer⟩ := Leaf.insert_of_admits hadmits a.registry position lastOffset
    have hadmission : (a.insert e position lastOffset).2.admission = .ready ∨
        (a.insert e position lastOffset).2.admission = .buffered := by
      rw [insert, hx]
      exact hanswer
    have hseen : a.happening e.source e.bundleType (.insert e position lastOffset) =
        .accepted e position lastOffset := by
      rw [happening, if_pos ⟨rfl, rfl⟩]
      rcases hadmission with hready | hbuffered
      · rw [hready]
      · rw [hbuffered]
    obtain ⟨core, n, hstep, hwoken⟩ :=
      h.step_slot (.insert e position lastOffset) e.source e.bundleType
    rw [hseen] at hstep
    change e.version.ReachedBy ((a.step (.insert e position lastOffset)).slot _ _).newest
    rw [hwoken.newest_eq, Slot.reachedBy_newest_iff]
    cases hstep with
    | accept =>
        obtain ⟨b, hb, hversion⟩ := (a.slot e.source e.bundleType).version_buffer
          (a.registry.mode e.bundleType) e position lastOffset
        rw [hb]
        exact .inl (Version.reachedBy_some.2 hversion.ge)

/-- In every state of every run the versions of a slot ascend: processed, at work,
waiting. So the versions processed over the run strictly increase, and none is processed
twice. From one operation to the next the newest version that the slot knows becomes less
only when a bundle is dropped, and never less than what was processed; and a bundle that
is stale leaves the aggregator as it was, with every slot, the queue and all that is
reported. -/
theorem versions_ascend (calls : List Registration) (ops : List Operation)
    (source bundleType : String) :
    let start := fresh (Registry.ofCalls calls)
    let a := start.run ops
    let slot := a.slot source bundleType
    slot.Ascending ∧
    ((start.happenings source bundleType ops).filterMap (·.processed?)).Pairwise (· < ·) ∧
    (∀ o, let after := (a.step o).slot source bundleType
      (∀ v : Version, v.ReachedBy slot.lastProcessed → v.ReachedBy after.newest) ∧
      ((∀ v : Version, v.ReachedBy slot.newest → v.ReachedBy after.newest) ∨
        ∃ n w k, o = .work (.complete source bundleType (.failed n)) ∧
          (a.complete source bundleType (.failed n)).2 = .dropped w k)) ∧
    ∀ e position lastOffset, (a.insert e position lastOffset).2.admission = .stale →
      (a.insert e position lastOffset).1 = a := by
  intro start a slot
  have hsound : start.Sound := sound_fresh (Registry.named_ofCalls calls)
  have hprocessed : Slot.Processed (start.happenings source bundleType ops) slot :=
    hsound.slot_invariant source bundleType (P := Slot.Processed) [] Slot.processed_empty
      (fun _ _ _ _ h hstep => h.step hstep) (fun _ _ _ _ h hwoken => h.woken hwoken) ops
  refine ⟨hprocessed.ascending, hprocessed.increasing, ?_, fun _ _ _ => insert_eq_self_of_stale⟩
  intro o after
  have hsound' : a.Sound := hsound.run ops
  constructor
  · intro v hv
    have hafter := hsound'.reachedBy_step o hv
    exact Slot.reachedBy_newest_iff.2 (.inr (.inr hafter))
  · by_cases hdropped : ∃ n w k, o = .work (.complete source bundleType (.failed n)) ∧
        (a.complete source bundleType (.failed n)).2 = .dropped w k
    · exact .inr hdropped
    · refine .inl fun v hv => ?_
      rcases hsound'.newest_step o hprocessed.ascending hv with hafter | hno
      · exact hafter
      · exact absurd hno hdropped

/-- A dropped bundle is forgotten: an older one that comes later is taken. -/
example :
    let bundle (value : UInt64) : Envelope :=
      ⟨"1.0", "clusters", "hub", "bundle", ⟨0, 0, 0⟩, ⟨0, value⟩, none, []⟩
    let ops : List Operation :=
      [.insert (bundle 5) ⟨"status", 0, 1⟩ 1, .work (.claim "hub" "clusters"),
        .work (.complete "hub" "clusters" (.failed 1)), .insert (bundle 3) ⟨"status", 0, 2⟩ 2]
    let start := fresh (Registry.ofCalls [.complete "clusters" 0 none])
    ((start.run ops).slot "hub" "clusters").newest = some ⟨0, 3⟩ := by
  decide +kernel

end Aggregator

end Conflux
