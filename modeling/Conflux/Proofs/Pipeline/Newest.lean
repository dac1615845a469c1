import Conflux.Proofs.Assembler.Quiet
import Conflux.Proofs.Pipeline.Ledger
import Conflux.Proofs.Pipeline.Restart
import Conflux.Proofs.Post
import Conflux.Zstd.Plain

/-!
What a slot knows in the end. When all the messages have come, the newest version that a slot
knows is the largest one that was sent for its source and type: no message is lost on the way,
and none is taken for another one. That needs keys that tell the messages apart, which a key of
stream and millisecond need not do.
-/

namespace Conflux

namespace Pipeline

section

variable [Compression] {p : Pipeline} {o : Operation} {ops : List Operation} {ttl remembered : Nat}
  {family : List Sending} {source bundleType : String} {v : Version}

/-! ### No less than what has come -/

/-- What a slot knows is lost only with a bundle that is dropped. -/
theorem newest_step_of_kept (h : p.aggregator.Sound) (hkept : p.drops o = false)
    (hascending : (p.aggregator.slot source bundleType).Ascending)
    (hv : v.ReachedBy (p.aggregator.slot source bundleType).newest) :
    v.ReachedBy ((p.step o).aggregator.slot source bundleType).newest := by
  obtain ⟨core, n, hstep, hwoken⟩ := slot_step h o source bundleType
  rw [hwoken.newest_eq]
  rcases hascending.newest_step hstep hv with hv | ⟨r, n, hseen⟩
  · exact hv
  · obtain rfl := happening_eq_finished hseen
    have hreported : p.aggregator.happening source bundleType
        (.work (.complete source bundleType (.failed n))) =
          .finished r (.failed n) (.dropped r.envelope.version r.attempt) := hseen
    have hdropped : (p.complete source bundleType (.failed n)).2 =
        .dropped r.envelope.version r.attempt := (Aggregator.happening_eq_finished hreported).2.2
    simp [drops, reports, hdropped] at hkept

theorem expired_run_le (p : Pipeline) (ops : List Operation) (o : Operation) :
    (p.run ops).assembler.expired ≤ (p.run (ops ++ [o])).assembler.expired := by
  rw [run_concat, assembler_step]
  cases (p.run ops).event? o with
  | none => exact Nat.le_refl _
  | some e => exact Assembler.expired_le_react _ e

/-- With the last of its fragments a message brings its bundle to the slot. -/
theorem Blank.newest_of_last_quiet (h : Blank ttl remembered p)
    (honly : Assembler.Only family (p.arrivals (ops ++ [o])))
    (hquiet : (p.run (ops ++ [o])).assembler.expired = 0) {s : Sending} (hs : s ∈ family)
    (hmissing : ¬ s.Complete (p.arrivals ops)) (hall : s.Complete (p.arrivals (ops ++ [o])))
    {e : Envelope} (he : bundle? s.message = some e) {x : Registration}
    (hx : p.aggregator.registry.get? e.bundleType = some x) :
    e.version.ReachedBy ((p.run (ops ++ [o])).aggregator.slot e.source e.bundleType).newest := by
  obtain ⟨y, datagram, rfl, hf, hevents⟩ := delivery_of_last hmissing hall
  rw [arrivals, hevents] at honly hall
  rw [assembler_run, h.assembler, hevents] at hquiet
  obtain ⟨whole, hout, hmessage⟩ := honly.comesOut_of_quiet hs hquiet hmissing hall
  have hanswer : (p.run ops).assembler.answer y = .ok (some whole) := by
    rw [assembler_run, h.assembler]
    exact hout
  have hfragment : (p.run ops).fragment? datagram = some y.fragment := by
    rw [fragment?_congr (hub_run p ops), hf]
  have hregistered : (p.run ops).aggregator.registry.get? e.bundleType = some x := by
    rw [registry_run, hx]
  rw [run_concat]
  exact newest_of_answer (sound_run h.sound ops) hfragment hanswer (hmessage ▸ he) hregistered
    (h.handedOut _ _ ops).ascending

/-- Where nothing expires and nothing is dropped, a slot knows a version no older than that of
any bundle that has come for it. -/
theorem Blank.newest_of_quiet (h : Blank ttl remembered p)
    (honly : Assembler.Only family (p.arrivals ops))
    (hquiet : (p.run ops).assembler.expired = 0) (hkept : p.tally drops ops = 0)
    {s : Sending} (hs : s ∈ family) (hall : s.Complete (p.arrivals ops)) {e : Envelope}
    (he : bundle? s.message = some e) {x : Registration}
    (hx : p.aggregator.registry.get? e.bundleType = some x) :
    e.version.ReachedBy ((p.run ops).aggregator.slot e.source e.bundleType).newest := by
  induction ops using List.reverseRecOn with
  | nil => exact absurd hall (Sending.not_complete_of_not_sends fun x hx => nomatch hx)
  | append_singleton ops o ih =>
      by_cases hdone : s.Complete (p.arrivals ops)
      · have hsub : p.arrivals ops ⊆ p.arrivals (ops ++ [o]) :=
          arrivals_mono (List.subset_append_left ops [o])
        have hle := expired_run_le p ops o
        rw [tally_concat, Nat.add_eq_zero_iff] at hkept
        have hknown := ih (honly.mono hsub) (by omega) hkept.1 hdone
        rw [run_concat]
        exact newest_step_of_kept (sound_run h.sound ops) (Bool.toNat_eq_zero.1 hkept.2)
          (h.handedOut _ _ ops).ascending hknown
      · exact h.newest_of_last_quiet honly hquiet hs hdone hall he hx

/-! ### No more than what was sent -/

/-- What was processed has come. -/
theorem Blank.processed (h : Blank ttl remembered p)
    (honly : Assembler.Only family (p.arrivals ops))
    (hv : ((p.run ops).aggregator.slot source bundleType).lastProcessed = some v) :
    Came family (p.arrivals ops) source bundleType v := by
  induction ops using List.reverseRecOn generalizing v with
  | nil =>
      rw [show p.run [] = p from rfl, h.slots] at hv
      cases hv
  | append_singleton ops o ih =>
      have hsub : p.arrivals ops ⊆ p.arrivals (ops ++ [o]) :=
        arrivals_mono (List.subset_append_left ops [o])
      have hbefore := honly.mono hsub
      obtain ⟨core, n, hstep, hwoken⟩ := slot_step (sound_run h.sound ops) o source bundleType
      rw [run_concat, hwoken.lastProcessed_eq] at hv
      refine Came.mono ?_ hsub
      rcases hstep.lastProcessed_cases hv with hv | ⟨r, hseen, rfl⟩
      · exact ih hbefore hv
      · rw [hseen] at hstep
        cases hstep with
        | succeed hr => exact (h.carries hbefore).1.running r hr

/-- What a slot knows has come. -/
theorem Blank.came_of_newest (h : Blank ttl remembered p)
    (honly : Assembler.Only family (p.arrivals ops))
    (hv : ((p.run ops).aggregator.slot source bundleType).newest = some v) :
    Came family (p.arrivals ops) source bundleType v := by
  rw [Slot.newest] at hv
  rcases Version.maxOption_eq_some hv with hv | hv
  · rcases Version.maxOption_eq_some hv with hv | hv
    · obtain ⟨b, hb, rfl⟩ := Option.map_eq_some_iff.1 hv
      exact (h.carries honly).1.buffered b hb
    · obtain ⟨r, hr, rfl⟩ := Option.map_eq_some_iff.1 hv
      exact (h.carries honly).1.running r hr
  · exact h.processed honly hv

/-! ### All that was sent -/

/-- The versions that were sent for a source and type, in messages that a hub can read. -/
def sentVersions (posts : List Post) (source bundleType : String) : List Version :=
  (posts.filter fun p =>
    p.legible ∧ p.envelope.source = source ∧ p.envelope.bundleType = bundleType).map
      (·.envelope.version)

theorem mem_sentVersions {posts : List Post} :
    v ∈ sentVersions posts source bundleType ↔ ∃ p ∈ posts, p.legible = true ∧
      p.envelope.source = source ∧ p.envelope.bundleType = bundleType ∧
        p.envelope.version = v := by
  simp [sentVersions, and_assoc]

/-- All fragments of the messages are delivered and nothing else, in any order, some of them more
than once, and between them the workers do what they do. If no two messages have the same key,
nothing expires and no bundle is dropped, then in the end each slot knows the largest version
that was sent for its source and type as its newest, waiting, at work or processed. How many
messages are remembered does not matter, nor does how the types of the bundles are registered. -/
theorem newest_is_largest (ttl remembered : Nat) (calls : List Registration) (posts : List Post)
    (ops : List Operation) (hdistinct : (posts.map (·.key)).Nodup)
    (hregistered : ∀ p ∈ posts,
      ((Registry.ofCalls calls).get? p.envelope.bundleType).isSome = true)
    (hsent : ∀ d ∈ ops.filterMap Operation.delivery?,
      ∃ p ∈ posts, ∃ f ∈ p.fragments, d.1 = f.toBytes)
    (hall : ∀ p ∈ posts, p.LiesIn (ops.filterMap Operation.delivery?)) :
    let start := fresh anyDestination (.fresh ttl remembered) (Registry.ofCalls calls)
    (start.run ops).assembler.expired = 0 → (start.run ops).counters.bundlesDropped = 0 →
      ∀ source bundleType, ((start.run ops).aggregator.slot source bundleType).newest =
        (sentVersions posts source bundleType).max? := by
  intro start hquiet hkept source bundleType
  have hstart : Blank ttl remembered start := blank_fresh anyDestination ttl remembered calls
  have hlog : Logged (posts.map (·.toSending)) (ops.filterMap Operation.delivery?) := by
    refine ⟨?_, ?_⟩
    · rwa [List.map_map]
    · intro d hd
      obtain ⟨p, hp, hf⟩ := hsent d hd
      exact ⟨p.toSending, List.mem_map_of_mem hp, hf⟩
  have honly := only_of_logged (p := start) hlog (List.Subset.refl _)
  have htally : start.tally drops ops = 0 := by
    have hbalanced := (balanced_fresh anyDestination (.fresh ttl remembered)
      (Registry.ofCalls calls)).run hstart.sound ops
    exact hbalanced.dropped.symm.trans hkept
  -- Whatever was sent has been reached, and what is known was sent.
  have hreached : ∀ w ∈ sentVersions posts source bundleType,
      w.ReachedBy ((start.run ops).aggregator.slot source bundleType).newest := by
    intro w hw
    obtain ⟨p, hp, hlegible, rfl, rfl, rfl⟩ := mem_sentVersions.1 hw
    obtain ⟨hnamed, d, hd⟩ := Post.legible_iff.1 hlegible
    obtain ⟨hsource, htype, hversion⟩ := Envelope.decode_encode hd
    obtain ⟨x, hx⟩ := Option.isSome_iff_exists.1 (hregistered p hp)
    have hcomplete : p.toSending.Complete (start.arrivals ops) :=
      complete_of_liesIn (fun _ _ => rfl) (hall p hp)
    have hknown := hstart.newest_of_quiet honly hquiet htally (List.mem_map_of_mem hp) hcomplete
      (Post.bundle?_eq_some_iff.2 ⟨hnamed, hd⟩) (htype ▸ hx)
    rwa [hsource, htype, hversion] at hknown
  have hcame : ∀ v, ((start.run ops).aggregator.slot source bundleType).newest = some v →
      v ∈ sentVersions posts source bundleType := by
    intro v hv
    obtain ⟨s, hs, _, d, hbundle, rfl, rfl, rfl⟩ := hstart.came_of_newest honly hv
    obtain ⟨p, hp, rfl⟩ := List.mem_map.1 hs
    obtain ⟨hnamed, hd⟩ := Post.bundle?_eq_some_iff.1 hbundle
    obtain ⟨hsource, htype, hversion⟩ := Envelope.decode_encode hd
    exact mem_sentVersions.2
      ⟨p, hp, Post.legible_iff.2 ⟨hnamed, d, hd⟩, hsource.symm, htype.symm, hversion.symm⟩
  cases hnewest : ((start.run ops).aggregator.slot source bundleType).newest with
  | none =>
      rw [hnewest] at hreached
      refine (List.max?_eq_none_iff.2 (List.eq_nil_iff_forall_not_mem.2 fun w hw => ?_)).symm
      exact Version.not_reachedBy_none w (hreached w hw)
  | some v =>
      rw [hnewest] at hreached
      refine (List.max?_eq_some_iff.2 ⟨hcame v hnewest, fun w hw => ?_⟩).symm
      exact Version.reachedBy_some.1 (hreached w hw)

end

open scoped Zstd

/-! ### Two messages of one stream

They have keys of their own, unless they are cut within the same millisecond. -/

def newerPost : Post where
  toSending := newer
  envelope := ⟨"1.0", "clusters", "hub", "bundle", ⟨0, 0, 0⟩, ⟨0, 5⟩, none, []⟩
  made := ⟨"", rfl⟩

def olderPost : Post where
  toSending := older
  envelope := ⟨"1.0", "clusters", "hub", "bundle", ⟨0, 0, 0⟩, ⟨0, 3⟩, none, []⟩
  made := ⟨"", rfl⟩

/-- The older one comes first and is at work when the newer one comes. Then its run fails, and
it gives way. -/
theorem newest_is_largest_overtaken :
    let posts := [newerPost, olderPost]
    let log := written [newer, older]
    let ops := delivering (log.drop 1) ++ starting.map .chore ++ delivering (log.take 1) ++
      [.chore (.work (.complete "hub" "clusters" (.failed 5))), .chore (.sweep 0)]
    let start := fresh anyDestination (.fresh 10 10)
      (Registry.ofCalls [.complete "clusters" 0 none])
    (start.run ops).assembler.expired = 0 ∧ (start.run ops).counters.bundlesDropped = 0 ∧
      ((start.run ops).aggregator.slot "hub" "clusters").newest =
        (sentVersions posts "hub" "clusters").max? ∧
      (sentVersions posts "hub" "clusters").max? = some ⟨0, 5⟩ := by
  intro posts log ops start
  have hdeliveries : ops.filterMap Operation.delivery? = log.drop 1 ++ log.take 1 := by
    simp only [ops, List.filterMap_append, deliveries_delivering, deliveries_chores,
      List.append_nil]
    exact List.append_nil _
  have hlog : log ⊆ ops.filterMap Operation.delivery? := by
    intro d hd
    rw [← List.take_append_drop 1 log] at hd
    rw [hdeliveries]
    exact List.mem_append.2 (List.mem_append.1 hd).symm
  have hdistinct : (posts.map (·.key)).Nodup := by
    have hne : newerPost.key ≠ olderPost.key := fun h =>
      absurd (congrArg MessageKey.timestamp h) (by decide)
    simpa [posts] using hne
  have hregistered : ∀ p ∈ posts, ((Registry.ofCalls [.complete "clusters" 0 none]).get?
      p.envelope.bundleType).isSome = true := by
    intro p hp
    rcases List.mem_pair.1 hp with rfl | rfl <;> decide
  have hsent : ∀ d ∈ ops.filterMap Operation.delivery?,
      ∃ p ∈ posts, ∃ f ∈ p.fragments, d.1 = f.toBytes := by
    intro d hd
    rw [hdeliveries] at hd
    have hd : d ∈ log := by
      rcases List.mem_append.1 hd with hd | hd
      · exact List.mem_of_mem_drop hd
      · exact List.mem_of_mem_take hd
    obtain ⟨s, hs, hf⟩ := sent_of_written hd
    obtain ⟨p, hp, rfl⟩ : ∃ p ∈ posts, p.toSending = s := List.mem_map.1 hs
    exact ⟨p, hp, hf⟩
  have hall : ∀ p ∈ posts, p.LiesIn (ops.filterMap Operation.delivery?) := by
    intro p hp
    have hs : p.toSending ∈ posts.map (·.toSending) := List.mem_map_of_mem hp
    exact (liesIn_written hs).mono hlog
  obtain ⟨hquiet, hkept⟩ : (start.run ops).assembler.expired = 0 ∧
      (start.run ops).counters.bundlesDropped = 0 := by
    decide +kernel
  have hlargest : (sentVersions posts "hub" "clusters").max? = some ⟨0, 5⟩ := by decide +kernel
  dsimp only [start] at hquiet hkept ⊢
  have hnewest := newest_is_largest 10 10 [.complete "clusters" 0 none] posts ops hdistinct
    hregistered hsent hall hquiet hkept "hub" "clusters"
  exact ⟨hquiet, hkept, hnewest, hlargest⟩

/-- Newer still, but of the same millisecond as `newer`. -/
def hasty : Sending where
  message := bundleMessage ⟨0, 6⟩
  encoding := .identity
  ceiling := 2000
  timestamp := 1
  fragments := (Fragment.ofMessage (bundleMessage ⟨0, 6⟩) .identity 2000 1).toOption.getD []
  cut := by decide +kernel

def hastyPost : Post where
  toSending := hasty
  envelope := ⟨"1.0", "clusters", "hub", "bundle", ⟨0, 0, 0⟩, ⟨0, 6⟩, none, []⟩
  made := ⟨"", rfl⟩

/-- The message that comes second is taken for the first one come again. -/
theorem newest_is_not_largest :
    let posts := [newerPost, hastyPost]
    let ops := delivering (written [newer, hasty])
    let start := fresh anyDestination (.fresh 10 10)
      (Registry.ofCalls [.complete "clusters" 0 none])
    newerPost.timestamp = hastyPost.timestamp ∧
      (∀ p ∈ posts, p.LiesIn (ops.filterMap Operation.delivery?)) ∧
      (start.run ops).assembler.expired = 0 ∧ (start.run ops).counters.bundlesDropped = 0 ∧
      ((start.run ops).aggregator.slot "hub" "clusters").newest = some ⟨0, 5⟩ ∧
      (sentVersions posts "hub" "clusters").max? = some ⟨0, 6⟩ := by
  intro posts ops start
  refine ⟨rfl, ?_, ?_⟩
  · intro p hp
    have hs : p.toSending ∈ posts.map (·.toSending) := List.mem_map_of_mem hp
    rw [deliveries_delivering]
    exact liesIn_written hs
  · decide +kernel

end Pipeline

end Conflux
