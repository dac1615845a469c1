import Conflux.Proofs.Aggregator.Run
import Conflux.Proofs.Merge

/-!
Where accepted content is. The envelopes that a slot has accepted, in the order of their
coming, fall into consecutive blocks: one for each bundle that has left the slot, then
one for the bundle at work, then one for the bundle that waits. A bundle is what its
block merges to.

A worker who starts takes over the block that waits. A failed bundle that goes back
joins two neighbouring blocks, and a complete bundle that is superseded leaves its block
to the newer one. Only what is processed or dropped closes a block.
-/

namespace Conflux

namespace Slot

def Happening.accepted? : Happening → Option Envelope
  | .accepted e _ _ => some e
  | _ => none

def Happening.left? : Happening → Option Envelope
  | .finished done _ .processed => some done.envelope
  | .finished done _ (.dropped _ _) => some done.envelope
  | _ => none

/-- The envelopes that were accepted split into blocks, and the bundles are what these
merge to. -/
def Blocks (mode : SyncMode) (past : List Happening) (s : Slot) : Prop :=
  ∃ (departed : List (List Envelope)) (running buffered : List Envelope),
    past.filterMap (·.accepted?) = departed.flatten ++ running ++ buffered ∧
    departed.map mode.mergeAll = (past.filterMap (·.left?)).map some ∧
    mode.mergeAll running = s.running.map (·.envelope) ∧
    mode.mergeAll buffered = s.buffered.map (·.envelope)

variable {mode : SyncMode} {past : List Happening} {s : Slot}

theorem blocks_empty (mode : SyncMode) : Blocks mode [] .empty :=
  ⟨[], [], [], rfl, rfl, rfl, rfl⟩

/-- What brings nothing in and lets nothing out keeps the blocks of the same bundles. -/
theorem Blocks.pass {past : List Happening} {s s' : Slot} (h : Blocks mode past s)
    {seen : Happening} (ha : seen.accepted? = none) (hl : seen.left? = none)
    (hr : s'.running = s.running) (hb : s'.buffered = s.buffered) :
    Blocks mode (past ++ [seen]) s' := by
  obtain ⟨departed, running, buffered, hall, hleft, hrunning, hbuffered⟩ := h
  refine ⟨departed, running, buffered, ?_, ?_, hr ▸ hrunning, hb ▸ hbuffered⟩
  · simpa [ha] using hall
  · simpa [hl] using hleft

theorem Blocks.accept (h : Blocks mode past s) (e : Envelope) (position : Position)
    (lastOffset : UInt64) :
    Blocks mode (past ++ [.accepted e position lastOffset])
      (s.buffer mode e position lastOffset) := by
  obtain ⟨departed, running, buffered, hall, hleft, hrunning, hbuffered⟩ := h
  refine ⟨departed, running, buffered ++ [e], ?_, ?_, hrunning, ?_⟩
  · rw [List.filterMap_append, hall, List.append_assoc]
    rfl
  · rw [List.filterMap_append, hleft]
    simp [Happening.left?]
  · rw [buffer]
    cases hb : s.buffered with
    | none =>
        rw [hb] at hbuffered
        rw [SyncMode.mergeAll_eq_none_iff.1 hbuffered]
        rfl
    | some b =>
        rw [hb] at hbuffered
        exact SyncMode.mergeAll_concat hbuffered e

theorem Blocks.start (h : Blocks mode past s) {b : Buffered} {c : Claim}
    (hb : s.buffered = some b) (hr : s.running = none) :
    Blocks mode (past ++ [.started c])
      { s with buffered := none, running := some b.start, queued := false } := by
  obtain ⟨departed, running, buffered, hall, hleft, hrunning, hbuffered⟩ := h
  rw [hr] at hrunning
  rw [hb] at hbuffered
  obtain rfl : running = [] := SyncMode.mergeAll_eq_none_iff.1 hrunning
  refine ⟨departed, buffered, [], ?_, ?_, hbuffered, rfl⟩
  · simpa [Happening.accepted?] using hall
  · simpa [Happening.left?] using hleft

/-- The bundle at work leaves, and its block is closed. -/
theorem Blocks.leave {s' : Slot} (h : Blocks mode past s) {r : Running} {seen : Happening}
    (hr : s.running = some r) (ha : seen.accepted? = none)
    (hl : seen.left? = some r.envelope) (hr' : s'.running = none)
    (hb : s'.buffered = s.buffered) : Blocks mode (past ++ [seen]) s' := by
  obtain ⟨departed, running, buffered, hall, hleft, hrunning, hbuffered⟩ := h
  rw [hr] at hrunning
  refine ⟨departed ++ [running], [], buffered, ?_, ?_, ?_, hb ▸ hbuffered⟩
  · simpa [ha] using hall
  · rw [List.map_append, hleft, List.filterMap_append]
    simp [hl, hrunning]
  · rw [hr']
    rfl

/-- The bundle at work gives its block to the one that waits. -/
theorem Blocks.giveBack {s' : Slot} (h : Blocks mode past s) {seen : Happening}
    (ha : seen.accepted? = none) (hl : seen.left? = none) (hr' : s'.running = none)
    (hjoin : ∀ running buffered, mode.mergeAll running = s.running.map (·.envelope) →
      mode.mergeAll buffered = s.buffered.map (·.envelope) →
      mode.mergeAll (running ++ buffered) = s'.buffered.map (·.envelope)) :
    Blocks mode (past ++ [seen]) s' := by
  obtain ⟨departed, running, buffered, hall, hleft, hrunning, hbuffered⟩ := h
  refine ⟨departed, [], running ++ buffered, ?_, ?_, ?_, hjoin _ _ hrunning hbuffered⟩
  · simpa [ha] using hall
  · simpa [hl] using hleft
  · rw [hr']
    rfl

theorem Blocks.step {core : Slot} {seen : Happening} (h : Blocks mode past s)
    (hstep : Step mode s seen core) : Blocks mode (past ++ [seen]) core := by
  cases hstep with
  | keep | refuse | rest => exact h.pass rfl rfl rfl rfl
  | accept => exact h.accept _ _ _
  | start hb hr => exact h.start hb hr
  | succeed hr => exact h.leave hr rfl rfl rfl rfl
  | drop hr => exact h.leave hr rfl rfl rfl rfl
  | supersede hr hb _ hc =>
      subst hc
      -- A complete bundle is the last of its block, whatever stands before it.
      refine h.giveBack rfl rfl rfl fun running buffered _ hbuffered => ?_
      rw [hb] at hbuffered
      rw [SyncMode.mergeAll_complete] at hbuffered ⊢
      rw [List.getLast?_append, hbuffered, hb]
      rfl
  | putBack hr hb =>
      refine h.giveBack rfl rfl rfl fun running buffered hrunning hbuffered => ?_
      rw [hb] at hbuffered
      rw [SyncMode.mergeAll_eq_none_iff.1 hbuffered, List.append_nil, hrunning, hr]
      rfl
  | putBeneath hr hb =>
      -- This is where the merges are grouped the other way, and must be associative.
      refine h.giveBack rfl rfl rfl fun running buffered hrunning hbuffered => ?_
      rw [hr] at hrunning
      rw [hb] at hbuffered
      exact SyncMode.mergeAll_append hrunning hbuffered

theorem Blocks.woken {core : Slot} {n : Nat} (h : Blocks mode past core)
    (hwoken : Woken core n s) : Blocks mode past s := by
  cases hwoken with
  | asleep => exact h
  | woken => exact h

end Slot

/-- The accepted envelopes of any slot, after any run, split into one block for each
bundle that left, in that order, one for the bundle at work and one for the bundle that
waits. Each bundle merges its block: in complete mode it is the last of the block, and
in delta mode it has the records of the block that no later change set has replaced. -/
theorem Aggregator.accepted_blocks (calls : List Registration) (ops : List Operation)
    (source bundleType : String) :
    let start := fresh (Registry.ofCalls calls)
    let mode := start.registry.mode bundleType
    let past := start.happenings source bundleType ops
    let slot := (start.run ops).slot source bundleType
    (∃ (departed : List (List Envelope)) (running buffered : List Envelope),
      past.filterMap (·.accepted?) = departed.flatten ++ running ++ buffered ∧
      departed.map mode.mergeAll = (past.filterMap (·.left?)).map some ∧
      mode.mergeAll running = slot.running.map (·.envelope) ∧
      mode.mergeAll buffered = slot.buffered.map (·.envelope)) ∧
    ∀ block bundle, mode.mergeAll block = some bundle →
      (mode = .complete → block.getLast? = some bundle) ∧
      ∀ key?, mode = .delta key? →
        bundle.data = SyncMode.standing key? (block.map (·.data)) := by
  intro start mode past slot
  have hsound : start.Sound := sound_fresh (Registry.named_ofCalls calls)
  constructor
  · have hblocks := hsound.slot_invariant source bundleType (P := Slot.Blocks mode) []
      (Slot.blocks_empty mode) (fun _ _ _ _ h hstep => h.step hstep)
      (fun _ _ _ _ h hwoken => h.woken hwoken) ops
    exact hblocks
  · intro block bundle hbundle
    constructor
    · intro hmode
      rw [hmode] at hbundle
      rw [← SyncMode.mergeAll_complete, hbundle]
    · intro key? hmode
      rw [hmode] at hbundle
      exact SyncMode.mergeAll_delta_data hbundle

/-- A delta fails while a newer one waits: now one bundle waits that has the records of
both. -/
example :
    let change (value : UInt64) : Envelope :=
      ⟨"1.0", "changes", "hub", "change", ⟨0, 0, 0⟩, ⟨0, value⟩, none, [.null]⟩
    let ops : List Aggregator.Operation :=
      [.insert (change 1) ⟨"status", 0, 1⟩ 1, .work (.claim "hub" "changes"),
        .insert (change 2) ⟨"status", 0, 2⟩ 2, .work (.complete "hub" "changes" (.failed 3))]
    let start := Aggregator.fresh (Registry.ofCalls [⟨"changes", 0, none, .delta none⟩])
    ((start.run ops).slot "hub" "changes").buffered.map (·.envelope.data.length) = some 2 := by
  decide +kernel

end Conflux
