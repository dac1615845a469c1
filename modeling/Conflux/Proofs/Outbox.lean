import Conflux.Proofs.Aggregator.Order
import Mathlib.Data.List.DropRight

/-!
The stamps that a producer puts on its bundles. A bundle carries the version that is current when
it is sent; only then does the generation catch up with the value, and what is noted as sent is
the version after that. So a stamp that was noted has a value no greater than the generation now,
and the next one, due only when the value has moved on, is above it: by its generation, or by its
value where the generation has not moved.

The stamps ascend, then, and a slot that takes the bundles in their order knows nothing newer than
the one before. Whatever the workers do in between, no bundle is stale.
-/

namespace Conflux

namespace Outbox

/-! ### What a producer does -/

inductive Move where
  | change
  /-- Sends a bundle, if one is due. -/
  | send
deriving DecidableEq

inductive Event where
  | changed
  /-- A bundle was handed over with this stamp. -/
  | sent (stamp : Version)
deriving DecidableEq

def Event.isSent : Event → Bool
  | changed => false
  | sent _ => true

def Event.stamp? : Event → Option Version
  | changed => none
  | sent v => some v

def stamps (history : List Event) : List Version := history.filterMap Event.stamp?

/-- Nothing was ever handed over, or there was a change after the last time. -/
def Owes (history : List Event) : Prop :=
  (∀ e ∈ history, e.isSent = false) ∨ Event.changed ∈ history.rtakeWhile fun e => !e.isSent

/-- The outbox after a move, and what is seen of it. After the last value there is no change. -/
def move? (o : Outbox) : Move → Option (Outbox × List Event)
  | .change => o.markChanged?.map fun after => (after, [.changed])
  | .send => some (o.sendIfDue, if o.due then [.sent o.stamp] else [])

def run? (o : Outbox) : List Move → Option (Outbox × List Event)
  | [] => some (o, [])
  | m :: moves => do
      let (after, seen) ← o.move? m
      let (last, later) ← after.run? moves
      some (last, seen ++ later)

/-! ### What every move keeps -/

structure Keeps (history : List Event) (o : Outbox) : Prop where
  counted : o.current.value.toNat = history.count .changed
  behind : o.current.generation ≤ o.current.value
  nothing : o.lastSent = none → ∀ e ∈ history, e.isSent = false
  caught : ∀ v, o.lastSent = some v →
    v.generation = o.current.generation ∧ v.value = o.current.generation
  due_iff : o.due = true ↔ Owes history
  passed : ∀ v ∈ stamps history, v.generation ≤ v.value ∧ v.value ≤ o.current.generation
  ascend : (stamps history).Pairwise (· < ·)

variable {o : Outbox} {history : List Event}

theorem keeps_fresh : Keeps [] fresh where
  counted := rfl
  behind := UInt64.le_refl 0
  nothing _ _ h := nomatch h
  caught _ h := nomatch h
  due_iff := ⟨fun _ => .inl nofun, fun _ => rfl⟩
  passed _ h := nomatch h
  ascend := .nil

theorem due_iff_of_lastSent {v : Version} (h : o.lastSent = some v) :
    o.due = true ↔ v < o.current := by
  rw [due, h]
  exact decide_eq_true_iff

theorem due_of_lastSent_none (h : o.lastSent = none) : o.due = true := by
  rw [due, h]

/-- Once something was sent, a bundle is due when the value is ahead of the generation. -/
theorem Keeps.due_iff_lt (h : Keeps history o) {v : Version} (hv : o.lastSent = some v) :
    o.due = true ↔ o.current.generation < o.current.value := by
  obtain ⟨hgeneration, hvalue⟩ := h.caught v hv
  rw [due_iff_of_lastSent hv, Version.lt_iff, hgeneration, hvalue]
  simp

theorem stamps_concat_changed (history : List Event) :
    stamps (history ++ [.changed]) = stamps history := by
  rw [stamps, List.filterMap_append]
  exact List.append_nil _

theorem stamps_concat_sent (history : List Event) (v : Version) :
    stamps (history ++ [.sent v]) = stamps history ++ [v] := by
  rw [stamps, List.filterMap_append]
  rfl

theorem owes_concat_changed (history : List Event) : Owes (history ++ [.changed]) := by
  refine .inr ?_
  rw [List.rtakeWhile_concat_pos _ _ _ rfl]
  exact List.mem_concat_self

theorem not_owes_concat_sent (history : List Event) (v : Version) :
    ¬ Owes (history ++ [.sent v]) := by
  rintro (hnone | hchanged)
  · exact absurd (hnone (.sent v) List.mem_concat_self) Bool.noConfusion
  · rw [List.rtakeWhile_concat_neg _ _ _ Bool.noConfusion] at hchanged
    cases hchanged

theorem Keeps.change (h : Keeps history o) (hroom : history.count .changed + 1 < UInt64.size) :
    ∃ after, o.move? .change = some (after, [.changed]) ∧ Keeps (history ++ [.changed]) after := by
  have hvalue : (o.current.value + 1).toNat = o.current.value.toNat + 1 := by
    rw [UInt64.toNat_add]
    exact Nat.mod_eq_of_lt (by rw [h.counted]; exact hroom)
  have hbehind := h.behind
  rw [UInt64.le_iff_toNat_le] at hbehind
  let after : Outbox := { o with current := { o.current with value := o.current.value + 1 } }
  have hmove : o.move? .change = some (after, [.changed]) := by
    rw [move?, markChanged?, Version.bump?, h.counted, if_pos hroom]
    rfl
  have hahead : o.current.generation < o.current.value + 1 := by
    rw [UInt64.lt_iff_toNat_lt, hvalue]
    omega
  refine ⟨after, hmove, ?_⟩
  constructor
  case counted =>
    rw [hvalue, h.counted, List.count_append]
    rfl
  case behind => exact UInt64.le_of_lt hahead
  case nothing =>
    intro hnone e he
    rcases List.mem_append.1 he with he | he
    · exact h.nothing hnone e he
    · rw [List.mem_singleton.1 he]
      rfl
  case caught => exact h.caught
  case due_iff =>
    refine iff_of_true ?_ (owes_concat_changed history)
    cases hlast : o.lastSent with
    | none => exact due_of_lastSent_none (o := after) hlast
    | some v =>
        obtain ⟨hgeneration, hvalue⟩ := h.caught v hlast
        rw [due_iff_of_lastSent (o := after) hlast, Version.lt_iff, hgeneration, hvalue]
        exact .inr ⟨rfl, hahead⟩
  case passed =>
    rw [stamps_concat_changed]
    exact h.passed
  case ascend =>
    rw [stamps_concat_changed]
    exact h.ascend

/-- A stamp that is due is above all that were sent. -/
theorem Keeps.lt_current (h : Keeps history o) (hdue : o.due = true) {v : Version}
    (hv : v ∈ stamps history) : v < o.current := by
  obtain ⟨hown, hpassed⟩ := h.passed v hv
  cases hlast : o.lastSent with
  | none =>
      obtain ⟨e, he, hstamp⟩ := List.mem_filterMap.1 hv
      have hsent := h.nothing hlast e he
      cases e with
      | changed => cases hstamp
      | sent w => cases hsent
  | some w =>
      have hahead := (h.due_iff_lt hlast).1 hdue
      rw [Version.lt_iff, ← UInt64.toNat_inj]
      rw [UInt64.lt_iff_toNat_lt] at hahead ⊢
      rw [UInt64.le_iff_toNat_le] at hown hpassed
      rw [UInt64.lt_iff_toNat_lt]
      omega

theorem Keeps.send (h : Keeps history o) :
    ∃ after seen, o.move? .send = some (after, seen) ∧ seen.count .changed = 0 ∧
      Keeps (history ++ seen) after := by
  cases hdue : o.due with
  | false =>
      refine ⟨o, [], ?_, rfl, ?_⟩
      · rw [move?, sendIfDue, hdue]
        rfl
      · rw [List.append_nil]
        exact h
  | true =>
      refine ⟨o.markSent, [.sent o.stamp], ?_, rfl, ?_⟩
      · rw [move?, sendIfDue, hdue]
        rfl
      constructor
      case counted =>
        rw [List.count_append]
        exact h.counted
      case behind => exact UInt64.le_refl _
      case nothing => exact fun hnone => nomatch hnone
      case caught =>
        rintro _ ⟨⟩
        exact ⟨rfl, rfl⟩
      case due_iff =>
        refine iff_of_false ?_ (not_owes_concat_sent history o.stamp)
        rw [due_iff_of_lastSent rfl]
        exact lt_irrefl o.current.catchUp
      case passed =>
        intro v hv
        rw [stamps_concat_sent] at hv
        rcases List.mem_append.1 hv with hv | hv
        · obtain ⟨hown, hpassed⟩ := h.passed v hv
          exact ⟨hown, UInt64.le_trans hpassed h.behind⟩
        · rw [List.mem_singleton.1 hv]
          exact ⟨h.behind, UInt64.le_refl _⟩
      case ascend =>
        rw [stamps_concat_sent, List.pairwise_append]
        refine ⟨h.ascend, List.pairwise_singleton _ _, fun v hv w hw => ?_⟩
        rw [List.mem_singleton.1 hw]
        exact h.lt_current hdue hv

/-- As long as there are values left, every move has a result. -/
theorem Keeps.run (h : Keeps history o) {moves : List Move}
    (hroom : history.count .changed + moves.count .change < UInt64.size) :
    ∃ last later, o.run? moves = some (last, later) ∧ Keeps (history ++ later) last := by
  induction moves generalizing history o with
  | nil =>
      refine ⟨o, [], rfl, ?_⟩
      rw [List.append_nil]
      exact h
  | cons m moves ih =>
      obtain ⟨after, seen, hmove, hafter, hroom'⟩ : ∃ after seen, o.move? m = some (after, seen) ∧
          Keeps (history ++ seen) after ∧
          (history ++ seen).count .changed + moves.count .change < UInt64.size := by
        cases m with
        | change =>
            rw [List.count_cons_self] at hroom
            obtain ⟨after, hmove, hafter⟩ := h.change (by omega)
            refine ⟨after, _, hmove, hafter, ?_⟩
            rw [List.count_append, List.count_singleton_self]
            omega
        | send =>
            rw [List.count_cons_of_ne (by decide)] at hroom
            obtain ⟨after, seen, hmove, hseen, hafter⟩ := h.send
            refine ⟨after, seen, hmove, hafter, ?_⟩
            rw [List.count_append]
            omega
      obtain ⟨last, later, hrun, hlast⟩ := ih hafter hroom'
      refine ⟨last, seen ++ later, ?_, ?_⟩
      · rw [run?, hmove]
        simp [hrun]
      · rw [← List.append_assoc]
        exact hlast

end Outbox

/-! ### Bundles that come in -/

namespace Slot

variable {mode : SyncMode} {s core : Slot} {seen : Happening} {v : Version}

/-- A slot knows nothing newer than what it knew and what has come. -/
theorem Step.known_before (hstep : Step mode s seen core) (hv : v.ReachedBy core.newest) :
    v.ReachedBy s.newest ∨
      ∃ e position lastOffset, seen = .accepted e position lastOffset ∧ v ≤ e.version := by
  rw [reachedBy_newest_iff] at hv ⊢
  cases hstep with
  | keep | refuse | rest => exact .inl hv
  | @accept e position lastOffset =>
      obtain ⟨b, hb, hversion⟩ := version_buffer s mode e position lastOffset
      rcases hv with hv | hv
      · rw [hb, Option.map_some, Version.reachedBy_some, hversion] at hv
        exact .inr ⟨e, position, lastOffset, rfl, hv⟩
      · exact .inl (.inr hv)
  | start hb =>
      rw [hb]
      rcases hv with hv | hv | hv
      · exact absurd hv (Version.not_reachedBy_none v)
      · exact .inl (.inl hv)
      · exact .inl (.inr (.inr hv))
  | succeed hr =>
      rw [Version.reachedBy_maxOption_iff] at hv
      rw [hr]
      rcases hv with hv | hv | hv | hv
      · exact .inl (.inl hv)
      · exact absurd hv (Version.not_reachedBy_none v)
      · exact .inl (.inr (.inr hv))
      · exact .inl (.inr (.inl hv))
  | drop | supersede =>
      rcases hv with hv | hv | hv
      · exact .inl (.inl hv)
      · exact absurd hv (Version.not_reachedBy_none v)
      · exact .inl (.inr (.inr hv))
  | putBack hr =>
      rw [hr]
      rcases hv with hv | hv | hv
      · exact .inl (.inr (.inl hv))
      · exact absurd hv (Version.not_reachedBy_none v)
      · exact .inl (.inr (.inr hv))
  | putBeneath hr hb =>
      rw [Option.map_some, version_beneath] at hv
      rw [hb]
      rcases hv with hv | hv | hv
      · exact .inl (.inl hv)
      · exact absurd hv (Version.not_reachedBy_none v)
      · exact .inl (.inr (.inr hv))

end Slot

namespace Aggregator

variable {a : Aggregator} {source bundleType : String}

def Operation.brings? (source bundleType : String) : Operation → Option Version
  | .insert e _ _ =>
      if e.source = source ∧ e.bundleType = bundleType then some e.version else none
  | .work _ => none

def incoming (source bundleType : String) (ops : List Operation) : List Version :=
  ops.filterMap (·.brings? source bundleType)

/-- A slot that knew nothing knows nothing newer than what has come. -/
theorem Sound.known_incoming (h : a.Sound) (hnone : (a.slot source bundleType).newest = none)
    {ops : List Operation} {v : Version}
    (hv : v.ReachedBy ((a.run ops).slot source bundleType).newest) :
    ∃ w ∈ incoming source bundleType ops, v ≤ w := by
  induction ops using List.reverseRecOn with
  | nil =>
      rw [run_nil, hnone] at hv
      exact absurd hv (Version.not_reachedBy_none v)
  | append_singleton ops o ih =>
      rw [incoming, List.filterMap_append, ← incoming]
      rw [run_append] at hv
      obtain ⟨core, n, hstep, hwoken⟩ := (h.run ops).step_slot o source bundleType
      have hcore : v.ReachedBy core.newest := hwoken.newest_eq ▸ hv
      rcases hstep.known_before hcore with hbefore | ⟨e, position, lastOffset, hseen, hve⟩
      · obtain ⟨w, hw, hvw⟩ := ih hbefore
        exact ⟨w, List.mem_append_left _ hw, hvw⟩
      · obtain ⟨rfl, hsource, htype⟩ := happening_eq_accepted hseen
        refine ⟨e.version, List.mem_append_right _ ?_, hve⟩
        simp [Operation.brings?, hsource, htype]

/-- What is above all that its slot knows is not stale. -/
theorem Sound.not_stale_of_above (h : a.Sound) {e : Envelope}
    (habove : e.version.Above (a.slot e.source e.bundleType).newest) (position : Position)
    (lastOffset : UInt64) : (a.insert e position lastOffset).2.admission ≠ .stale := by
  rw [insert]
  cases hx : a.registry.get? e.bundleType with
  | none => exact Admission.noConfusion
  | some x =>
      have hadmits : ((a.leaf e.source).slot x.bundleType).admits e.version = true := by
        rw [h.named e.bundleType x hx]
        exact Slot.admits_iff.2 habove
      obtain ⟨-, -, hanswer⟩ := Leaf.insert_of_admits hadmits a.registry position lastOffset
      change ((a.leaf e.source).insert a.registry x e position lastOffset).answer.admission ≠ _
      rcases hanswer with hanswer | hanswer
      · rw [hanswer]
        exact Admission.noConfusion
      · rw [hanswer]
        exact Admission.noConfusion

/-- Where the versions that come in ascend, the next one is above all that the slot knows. -/
theorem Sound.above_of_ascending (h : a.Sound)
    (hnone : (a.slot source bundleType).newest = none) {before after : List Operation}
    {e : Envelope} {position : Position} {lastOffset : UInt64} (hsource : e.source = source)
    (htype : e.bundleType = bundleType)
    (hascend : (incoming source bundleType
      (before ++ .insert e position lastOffset :: after)).Pairwise (· < ·)) :
    e.version.Above ((a.run before).slot source bundleType).newest := by
  have hbrings : (Operation.insert e position lastOffset).brings? source bundleType =
      some e.version := by
    simp [Operation.brings?, hsource, htype]
  rw [incoming, List.filterMap_append, List.filterMap_cons_some hbrings,
    List.pairwise_append] at hascend
  intro w hw
  have hreached : w.ReachedBy ((a.run before).slot source bundleType).newest :=
    hw ▸ Version.reachedBy_some.2 le_rfl
  obtain ⟨u, hu, hwu⟩ := h.known_incoming hnone hreached
  exact hwu.trans_lt (hascend.2.2 u hu e.version List.mem_cons_self)

end Aggregator

namespace Outbox

open Aggregator (Operation incoming)

/-- A producer that changes its content and sends it when that is due, in any order, but changes it
less than 2^64 times, gets through all its moves. A bundle is due exactly if none was ever handed
over or there was a change since the last one was. The generation is never ahead of the value, nor
what was noted as sent ahead of the current version, and the stamps on the wire ascend. So if a slot
knows of no version and then takes the bundles with these stamps in their order, where some may be
missing, none of them is stale, whatever the workers do in between and whatever comes in for other
slots. -/
theorem stamps_in_order (moves : List Move) (hfew : moves.count .change < UInt64.size) :
    ∃ o history, fresh.run? moves = some (o, history) ∧
      (o.due = true ↔ (∀ e ∈ history, e.isSent = false) ∨
        Event.changed ∈ history.rtakeWhile fun e => !e.isSent) ∧
      o.current.generation ≤ o.current.value ∧
      (∀ v, o.lastSent = some v → v ≤ o.current) ∧
      (stamps history).Pairwise (· < ·) ∧
      ∀ calls prior ops source bundleType,
        let start := (Aggregator.fresh (Registry.ofCalls calls)).run prior
        (start.slot source bundleType).newest = none →
        (incoming source bundleType ops).Sublist (stamps history) →
        ∀ before e position lastOffset after,
          ops = before ++ .insert e position lastOffset :: after → e.source = source →
          e.bundleType = bundleType →
          ((start.run before).insert e position lastOffset).2.admission ≠ .stale := by
  have hroom : ([] : List Event).count .changed + moves.count .change < UInt64.size := by
    simpa using hfew
  obtain ⟨o, history, hrun, h⟩ := keeps_fresh.run hroom
  rw [List.nil_append] at h
  refine ⟨o, history, hrun, h.due_iff, h.behind, fun v hv => ?_, h.ascend, ?_⟩
  · obtain ⟨hgeneration, hvalue⟩ := h.caught v hv
    exact Version.le_iff.2 (.inr ⟨hgeneration, hvalue ▸ h.behind⟩)
  · intro calls prior ops source bundleType start hnone hsublist before e position lastOffset after
      hops hsource htype
    have hsound : start.Sound :=
      (Aggregator.sound_fresh (Registry.named_ofCalls calls)).run prior
    have hascend := h.ascend.sublist hsublist
    rw [hops] at hascend
    have habove := hsound.above_of_ascending hnone hsource htype hascend
    rw [← hsource, ← htype] at habove
    exact (hsound.run before).not_stale_of_above habove position lastOffset

/-- Of four attempts to send, one is not due. The first bundle is at work when the second one comes,
and fails; the third one joins what waits. -/
theorem stamps_in_order_superseded :
    let moves : List Move := [.send, .change, .change, .send, .send, .change, .send]
    let bundle (v : Version) : Envelope :=
      ⟨"1.0", "clusters", "hub", "bundle", ⟨0, 0, 0⟩, v, none, []⟩
    let before : List Operation :=
      [.insert (bundle ⟨0, 0⟩) ⟨"status", 0, 1⟩ 1, .work .pop, .work (.claim "hub" "clusters"),
        .insert (bundle ⟨0, 2⟩) ⟨"status", 0, 2⟩ 2,
        .work (.complete "hub" "clusters" (.failed 5))]
    let start := Aggregator.fresh (Registry.ofCalls [.complete "clusters" 0 none])
    moves.count .change < UInt64.size ∧
      ∃ o history, fresh.run? moves = some (o, history) ∧
        stamps history = [⟨0, 0⟩, ⟨0, 2⟩, ⟨2, 3⟩] ∧
        ((start.run before).insert (bundle ⟨2, 3⟩) ⟨"status", 0, 3⟩ 3).2.admission ≠ .stale := by
  intro moves bundle before start
  have hfew : moves.count .change < UInt64.size := by decide
  obtain ⟨o, history, hrun, -, -, -, -, hslot⟩ := stamps_in_order moves hfew
  have hstamps : stamps history = [⟨0, 0⟩, ⟨0, 2⟩, ⟨2, 3⟩] := by
    have hknown : (fresh.run? moves).map (fun p => stamps p.2) =
        some [⟨0, 0⟩, ⟨0, 2⟩, ⟨2, 3⟩] := by decide
    rw [hrun] at hknown
    exact Option.some.inj hknown
  have hincoming : (incoming "hub" "clusters"
      (before ++ [.insert (bundle ⟨2, 3⟩) ⟨"status", 0, 3⟩ 3])).Sublist (stamps history) := by
    rw [hstamps]
    decide
  have hnone : (start.slot "hub" "clusters").newest = none := by decide
  have hnotStale := hslot [.complete "clusters" 0 none] [] _ "hub" "clusters" hnone hincoming before
    (bundle ⟨2, 3⟩) ⟨"status", 0, 3⟩ 3 [] rfl rfl rfl
  rw [Aggregator.run_nil] at hnotStale
  dsimp only [start]
  exact ⟨hfew, o, history, hrun, hstamps, hnotStale⟩

end Outbox

end Conflux
