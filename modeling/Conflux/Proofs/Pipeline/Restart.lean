import Conflux.Proofs.Aggregator.Order
import Conflux.Proofs.Assembler.Family
import Conflux.Proofs.Pipeline.History
import Conflux.Zstd.Plain

/-!
A restart from the log. Nothing is kept but the log itself: the pipeline starts empty and
does not know what it has handed out before. What it hands out last for a source and type is
then the newest version among the messages that lie in the rest of the log completely. So it
is no older than what was handed out before, unless the rest has an older message and not
the newer one: one that was sent late, say, and was stale when it came.
-/

namespace Conflux

namespace Slot

variable {mode : SyncMode} {s core : Slot} {seen : Happening} {P Q : Version → Prop}

structure Carries (P : Version → Prop) (s : Slot) : Prop where
  running : ∀ r, s.running = some r → P r.envelope.version
  buffered : ∀ b, s.buffered = some b → P b.envelope.version

theorem carries_empty (P : Version → Prop) : empty.Carries P := ⟨nofun, nofun⟩

theorem Carries.mono (h : s.Carries P) (hPQ : ∀ v, P v → Q v) : s.Carries Q :=
  ⟨fun r hr => hPQ _ (h.running r hr), fun b hb => hPQ _ (h.buffered b hb)⟩

/-- A slot has no versions but those of bundles that came in. -/
theorem Carries.step (h : s.Carries P) (hstep : Step mode s seen core)
    (hnew : ∀ e position lastOffset, seen = .accepted e position lastOffset → P e.version) :
    core.Carries P := by
  cases hstep with
  | keep | refuse | rest => exact ⟨h.running, h.buffered⟩
  | @accept e position lastOffset =>
      obtain ⟨b, hb, hversion⟩ := version_buffer s mode e position lastOffset
      refine ⟨h.running, fun c hc => ?_⟩
      obtain rfl := Option.some.inj (hb.symm.trans hc)
      exact hversion ▸ hnew e position lastOffset rfl
  | start hb =>
      refine ⟨?_, nofun⟩
      rintro _ ⟨⟩
      exact h.buffered _ hb
  | succeed | drop | supersede => exact ⟨nofun, h.buffered⟩
  | putBack hr =>
      refine ⟨nofun, ?_⟩
      rintro _ ⟨⟩
      exact h.running _ hr
  | putBeneath hr hb =>
      refine ⟨nofun, ?_⟩
      rintro _ ⟨⟩
      rw [version_beneath]
      exact h.buffered _ hb

theorem Carries.woken {n : Nat} (h : core.Carries P) (hwoken : Woken core n s) :
    s.Carries P := by
  cases hwoken with
  | asleep => exact h
  | woken => exact ⟨h.running, h.buffered⟩

/-- What is at work or was processed is no newer than what was handed out last. -/
structure HandedOut (past : List Happening) (s : Slot) : Prop where
  ascending : s.Ascending
  last : ∀ v : Version, v.ReachedBy (s.running.map (·.envelope.version)) ∨
    v.ReachedBy s.lastProcessed →
      ∃ w, (past.filterMap (·.handed?)).getLast? = some w ∧ v ≤ w

theorem handedOut_empty : HandedOut [] empty where
  ascending := ascending_empty
  last v h := by
    rcases h with h | h
    · exact absurd h (Version.not_reachedBy_none v)
    · exact absurd h (Version.not_reachedBy_none v)

variable {past : List Happening}

theorem HandedOut.step (h : HandedOut past s) (hstep : Step mode s seen core) :
    HandedOut (past ++ [seen]) core := by
  refine ⟨h.ascending.step hstep, fun v hv => ?_⟩
  cases hstep with
  | @start b x hb =>
      refine ⟨b.envelope.version, by simp [Happening.handed?], ?_⟩
      rcases hv with hv | ⟨w, hw, hvw⟩
      · exact Version.reachedBy_some.1 hv
      · exact hvw.trans (h.ascending.buffered b hb w hw).le
  | succeed hr =>
      have hbefore := hv.resolve_left (Version.not_reachedBy_none v)
      rw [Version.reachedBy_maxOption_iff] at hbefore
      have hlast := h.last v (by rw [hr]; exact hbefore.symm)
      simpa [Happening.handed?] using hlast
  | drop hr | supersede hr | putBack hr | putBeneath hr =>
      have hbefore := hv.resolve_left (Version.not_reachedBy_none v)
      simpa [Happening.handed?] using h.last v (.inr hbefore)
  | keep | accept | refuse | rest => simpa [Happening.handed?] using h.last v hv

theorem HandedOut.woken {n : Nat} (h : HandedOut past core) (hwoken : Woken core n s) :
    HandedOut past s := by
  refine ⟨h.ascending.woken hwoken, ?_⟩
  cases hwoken with
  | asleep => exact h.last
  | woken => exact h.last

end Slot

namespace Pipeline

variable {p : Pipeline} {o : Operation} {ops : List Operation}

/-! ### What is handed out -/

/-- A pipeline that knows nothing yet. -/
structure Blank (ttl remembered : Nat) (p : Pipeline) : Prop where
  assembler : p.assembler = .fresh ttl remembered
  sound : p.aggregator.Sound
  slots : ∀ source bundleType, p.aggregator.slot source bundleType = .empty

theorem blank_fresh (hub : Digest) (ttl remembered : Nat) (calls : List Registration) :
    Blank ttl remembered (fresh hub (.fresh ttl remembered) (Registry.ofCalls calls)) :=
  ⟨rfl, Aggregator.sound_fresh (Registry.named_ofCalls calls), fun _ _ => rfl⟩

variable [Compression]

/-- A bundle of this version has come, in a message that is complete. -/
def Came (family : List Sending) (xs : List Arrival) (source bundleType : String)
    (v : Version) : Prop :=
  ∃ s ∈ family, s.Complete xs ∧ ∃ e, bundle? s.message = some e ∧ e.source = source ∧
    e.bundleType = bundleType ∧ e.version = v

variable {ttl remembered : Nat} {family : List Sending} {source bundleType : String}

theorem Came.mono {xs ys : List Arrival} {v : Version} (h : Came family xs source bundleType v)
    (hsub : xs ⊆ ys) : Came family ys source bundleType v := by
  obtain ⟨s, hs, hall, he⟩ := h
  exact ⟨s, hs, hall.mono hsub, he⟩

/-- A bundle that is taken has come. -/
theorem Blank.came_of_accepted (h : Blank ttl remembered p)
    (honly : Assembler.Only family (p.arrivals (ops ++ [o]))) {e : Envelope} {position : Position}
    {lastOffset : UInt64}
    (hseen : (p.run ops).happening source bundleType o = .accepted e position lastOffset) :
    Came family (p.arrivals (ops ++ [o])) source bundleType e.version := by
  obtain ⟨now, datagram, place, f, whole, rfl, hf, hadd, hbundle, _, _, hsource, htype⟩ :=
    happening_eq_accepted hseen
  have hevent : p.event? (.deliver now datagram place) = some (.arrive ⟨now, f, place⟩) := by
    rw [← event?_congr (hub_run p ops), event?, hf]
    rfl
  have hevents : p.events (ops ++ [.deliver now datagram place]) =
      p.events ops ++ [.arrive ⟨now, f, place⟩] := by
    rw [events_concat, hevent]
    rfl
  rw [assembler_run, h.assembler] at hadd
  rw [arrivals, hevents] at honly ⊢
  obtain ⟨s, hs, _, hall, hmessage⟩ := honly.of_answer (x := ⟨now, f, place⟩) hadd
  exact ⟨s, hs, hall, e, hmessage ▸ hbundle, hsource, htype, rfl⟩

/-- What is in a slot has come, and so has what was handed out of it. -/
theorem Blank.carries (h : Blank ttl remembered p)
    (honly : Assembler.Only family (p.arrivals ops)) :
    ((p.run ops).aggregator.slot source bundleType).Carries
        (Came family (p.arrivals ops) source bundleType) ∧
      ∀ v ∈ p.handed source bundleType ops, Came family (p.arrivals ops) source bundleType v := by
  induction ops using List.reverseRecOn with
  | nil =>
      refine ⟨?_, nofun⟩
      rw [show p.run [] = p from rfl, h.slots]
      exact Slot.carries_empty _
  | append_singleton ops o ih =>
      have hsub : p.arrivals ops ⊆ p.arrivals (ops ++ [o]) :=
        arrivals_mono (List.subset_append_left ops [o])
      obtain ⟨hcarries, hhanded⟩ := ih (honly.mono hsub)
      have hcarries := hcarries.mono fun v hv => Came.mono hv hsub
      obtain ⟨core, n, hstep, hwoken⟩ := slot_step (sound_run h.sound ops) o source bundleType
      rw [run_concat]
      refine ⟨(hcarries.step hstep ?_).woken hwoken, ?_⟩
      · intro e position lastOffset hseen
        exact h.came_of_accepted honly hseen
      · intro v hv
        rcases mem_handed_concat.1 hv with hv | hv
        · exact (hhanded v hv).mono hsub
        · obtain ⟨⟨b, hb, rfl⟩, _⟩ := hstep.buffered_of_handed hv
          exact hcarries.buffered b hb

/-- An operation of a run in which no handler fails and the assembler is not swept. -/
def Operation.Smooth : Operation → Prop
  | .deliver _ _ _ => True
  | .chore (.work (.complete _ _ verdict)) => verdict = .succeeded
  | .chore (.work _) => True
  | .chore (.sweep _) => False

theorem assembler_run_of_smooth (p : Pipeline) (hsmooth : ∀ o ∈ ops, o.Smooth) :
    (p.run ops).assembler = p.assembler.feed (p.arrivals ops) := by
  have hevents : p.events ops = (p.arrivals ops).map .arrive := by
    have harrive : ∀ e ∈ p.events ops, ∃ x, e = .arrive x := by
      intro e he
      obtain ⟨o, ho, he⟩ := List.mem_filterMap.1 he
      match o with
      | .deliver now datagram position =>
          obtain ⟨f, _, rfl⟩ := Option.map_eq_some_iff.1 he
          exact ⟨_, rfl⟩
      | .chore (.sweep now) => exact (hsmooth _ ho).elim
      | .chore (.work w) => cases he
    rw [arrivals]
    generalize p.events ops = es at harrive
    induction es with
    | nil => rfl
    | cons e es ih =>
        obtain ⟨x, rfl⟩ := harrive e List.mem_cons_self
        exact congrArg _ (ih fun e' he' => harrive e' (List.mem_cons_of_mem _ he'))
  rw [assembler_run, hevents, Assembler.undergo, List.foldl_map]
  rfl

/-- Without failures nothing that a slot knows is lost. -/
theorem newest_step (h : p.aggregator.Sound) (hsmooth : o.Smooth)
    (hascending : (p.aggregator.slot source bundleType).Ascending) {v : Version}
    (hv : v.ReachedBy (p.aggregator.slot source bundleType).newest) :
    v.ReachedBy ((p.step o).aggregator.slot source bundleType).newest := by
  obtain ⟨core, n, hstep, hwoken⟩ := slot_step h o source bundleType
  rw [hwoken.newest_eq]
  rcases hascending.newest_step hstep hv with hv | ⟨r, n, hseen⟩
  · exact hv
  · obtain rfl := happening_eq_finished hseen
    cases hsmooth

theorem Blank.handedOut (h : Blank ttl remembered p) (source bundleType : String)
    (ops : List Operation) :
    Slot.HandedOut (p.happenings source bundleType ops)
      ((p.run ops).aggregator.slot source bundleType) := by
  refine slot_induction h.sound source bundleType ?_ ?_ ?_ ops
  · rw [h.slots]
    exact Slot.handedOut_empty
  · exact fun _ _ _ _ _ h hstep => h.step hstep
  · exact fun _ _ _ _ h hwoken => h.woken hwoken

/-- The last fragment of a message that was missing is delivered. -/
theorem delivery_of_last {s : Sending} (hmissing : ¬ s.Complete (p.arrivals ops))
    (hall : s.Complete (p.arrivals (ops ++ [o]))) :
    ∃ y datagram, o = .deliver y.now datagram y.position ∧
      p.fragment? datagram = some y.fragment ∧
        p.events (ops ++ [o]) = p.events ops ++ [.arrive y] := by
  cases hevent : (p.event? o).bind (·.arrival?) with
  | none =>
      rw [arrivals_concat, hevent, Option.toList_none, List.append_nil] at hall
      exact absurd hall hmissing
  | some y =>
      obtain ⟨event, hevent', hy⟩ := Option.bind_eq_some_iff.1 hevent
      obtain rfl : event = .arrive y := by
        cases event with
        | arrive z => exact congrArg _ (Option.some.inj hy)
        | sweep now => cases hy
      obtain ⟨datagram, ho, hf⟩ := event?_eq_arrive.1 hevent'
      refine ⟨y, datagram, ho, hf, ?_⟩
      rw [events_concat, hevent']
      rfl

/-- A message that comes out brings its bundle to the slot. -/
theorem newest_of_answer (h : p.aggregator.Sound) {y : Arrival} {datagram : Bytes}
    (hf : p.fragment? datagram = some y.fragment) {whole : Assembled}
    (hout : p.assembler.answer y = .ok (some whole)) {e : Envelope}
    (he : bundle? whole.message = some e) {x : Registration}
    (hx : p.aggregator.registry.get? e.bundleType = some x)
    (hascending : (p.aggregator.slot e.source e.bundleType).Ascending) :
    e.version.ReachedBy ((p.step (.deliver y.now datagram y.position)).aggregator.slot
      e.source e.bundleType).newest := by
  have hadd : (p.assembler.add y.now y.fragment y.position).2 = .ok (some whole) := hout
  have hrequest : p.request? (.deliver y.now datagram y.position) =
      some (.insert e whole.position whole.lastOffset) := by
    simp only [request?, hf, arrival?, hadd, he, Option.map_some]
  rw [aggregator_step, hrequest]
  exact h.newest_insert hx _ _ hascending

/-- With the last of its fragments a message brings its bundle to the slot. -/
theorem Blank.newest_of_last (h : Blank ttl remembered p)
    (honly : Assembler.Only family (p.arrivals (ops ++ [o])))
    (htimely : Assembler.Timely ttl family (p.arrivals (ops ++ [o])))
    (hsmooth : ∀ o ∈ ops, o.Smooth) {s : Sending} (hs : s ∈ family)
    (hmissing : ¬ s.Complete (p.arrivals ops)) (hall : s.Complete (p.arrivals (ops ++ [o])))
    {e : Envelope} (he : bundle? s.message = some e) {x : Registration}
    (hx : p.aggregator.registry.get? e.bundleType = some x) :
    e.version.ReachedBy ((p.run (ops ++ [o])).aggregator.slot e.source e.bundleType).newest := by
  obtain ⟨y, datagram, rfl, hf, hevents⟩ := delivery_of_last hmissing hall
  rw [arrivals, hevents, Assembler.arrivals_concat] at honly htimely hall
  obtain ⟨whole, hout, hmessage⟩ := honly.comesOut hs htimely hmissing hall
  have hanswer : (p.run ops).assembler.answer y = .ok (some whole) := by
    rw [assembler_run_of_smooth p hsmooth, h.assembler]
    exact hout
  have hfragment : (p.run ops).fragment? datagram = some y.fragment := by
    rw [fragment?_congr (hub_run p ops), hf]
  have hregistered : (p.run ops).aggregator.registry.get? e.bundleType = some x := by
    rw [registry_run, hx]
  rw [run_concat]
  exact newest_of_answer (sound_run h.sound ops) hfragment hanswer (hmessage ▸ he) hregistered
    (h.handedOut _ _ ops).ascending

/-- A slot knows a version no older than that of any bundle that has come for it. -/
theorem Blank.newest_of_complete (h : Blank ttl remembered p)
    (honly : Assembler.Only family (p.arrivals ops))
    (htimely : Assembler.Timely ttl family (p.arrivals ops)) (hsmooth : ∀ o ∈ ops, o.Smooth)
    {s : Sending} (hs : s ∈ family) (hall : s.Complete (p.arrivals ops)) {e : Envelope}
    (he : bundle? s.message = some e) {x : Registration}
    (hx : p.aggregator.registry.get? e.bundleType = some x) :
    e.version.ReachedBy ((p.run ops).aggregator.slot e.source e.bundleType).newest := by
  induction ops using List.reverseRecOn with
  | nil => exact absurd hall (Sending.not_complete_of_not_sends fun x hx => nomatch hx)
  | append_singleton ops o ih =>
      have hsub : p.arrivals ops <+: p.arrivals (ops ++ [o]) := ⟨_, (p.arrivals_concat ops o).symm⟩
      have hbefore : ∀ o' ∈ ops, o'.Smooth := fun o' ho' =>
        hsmooth o' (List.mem_append_left [o] ho')
      by_cases hdone : s.Complete (p.arrivals ops)
      · have hknown := ih (honly.mono hsub.subset) (htimely.of_prefix hsub) hbefore hdone
        rw [run_concat]
        exact newest_step (sound_run h.sound ops) (hsmooth o List.mem_concat_self)
          (h.handedOut _ _ ops).ascending hknown
      · exact h.newest_of_last honly htimely hbefore hs hdone hall he hx

theorem registered_of_handed (h : p.aggregator.Sound) {v : Version}
    (hv : v ∈ p.handed source bundleType ops) :
    ∃ x, p.aggregator.registry.get? bundleType = some x := by
  induction ops using List.reverseRecOn with
  | nil => cases hv
  | append_singleton ops o ih =>
      rcases mem_handed_concat.1 hv with hv | hv
      · exact ih hv
      · obtain ⟨core, n, hstep, _⟩ := slot_step (sound_run h ops) o source bundleType
        obtain ⟨⟨b, hb, _⟩, _⟩ := hstep.buffered_of_handed hv
        refine Option.ne_none_iff_exists'.1 fun hnone => ?_
        rw [(sound_run h ops).unregistered source bundleType (by rw [registry_run, hnone])] at hb
        cases hb

/-! ### First everything comes, then the workers begin -/

theorem handed_deliveries (p : Pipeline) (source bundleType : String)
    (hops : ∀ o ∈ ops, ∀ c, o ≠ .chore c) : p.handed source bundleType ops = [] := by
  induction ops using List.reverseRecOn with
  | nil => rfl
  | append_singleton ops o ih =>
      rw [handed_concat, ih fun o' ho' => hops o' (List.mem_append_left [o] ho')]
      match o with
      | .deliver now datagram position => rw [handed?_deliver]; rfl
      | .chore c => exact absurd rfl (hops _ List.mem_concat_self c)

/-- An empty place stays empty when nothing comes and nothing fails. -/
theorem buffered_chore (h : p.aggregator.Sound) {c : Chore} (hsmooth : (Operation.chore c).Smooth)
    (hnone : (p.aggregator.slot source bundleType).buffered = none) :
    ((p.step (.chore c)).aggregator.slot source bundleType).buffered = none := by
  obtain ⟨core, n, hstep, hwoken⟩ := slot_step h (.chore c) source bundleType
  rw [hwoken.buffered_eq]
  generalize hseen : p.happening source bundleType (.chore c) = seen at hstep
  cases hstep with
  | keep | refuse | succeed | drop | supersede | rest => exact hnone
  | start => rfl
  | accept =>
      obtain ⟨_, _, _, _, _, ho, _⟩ := happening_eq_accepted hseen
      cases ho
  | putBack | putBeneath =>
      cases happening_eq_finished hseen
      cases hsmooth

/-- What waited is gone as soon as it is handed out, and nothing comes any more. -/
theorem buffered_of_sequential (h : p.aggregator.Sound) {front : List Operation}
    {back : List Chore} (hfront : ∀ o ∈ front, ∀ c, o ≠ .chore c)
    (hsmooth : ∀ c ∈ back, (Operation.chore c).Smooth)
    (hhanded : p.handed source bundleType (front ++ back.map .chore) ≠ []) :
    ((p.run (front ++ back.map .chore)).aggregator.slot source bundleType).buffered = none := by
  induction back using List.reverseRecOn with
  | nil =>
      rw [List.map_nil, List.append_nil] at hhanded
      exact absurd (handed_deliveries p source bundleType hfront) hhanded
  | append_singleton back c ih =>
      rw [List.map_append, List.map_singleton, ← List.append_assoc] at hhanded ⊢
      rw [run_concat]
      have hsound := sound_run h (front ++ back.map .chore)
      obtain ⟨core, n, hstep, hwoken⟩ := slot_step hsound (.chore c) source bundleType
      cases hnow : ((p.run (front ++ back.map .chore)).happening source bundleType
          (.chore c)).handed? with
      | none =>
          rw [handed_concat, hnow, Option.toList_none, List.append_nil] at hhanded
          exact buffered_chore hsound (hsmooth c List.mem_concat_self)
            (ih (fun c' hc' => hsmooth c' (List.mem_append_left [c] hc')) hhanded)
      | some v =>
          rw [hwoken.buffered_eq]
          exact (hstep.buffered_of_handed hnow).2

/-! ### The log -/

def Operation.delivery? : Operation → Option (Bytes × Position)
  | .deliver _ datagram position => some (datagram, position)
  | .chore _ => none

end Pipeline

section

variable [Compression]

def Sending.LiesIn (s : Sending) (log : List (Bytes × Position)) : Prop :=
  ∀ f ∈ s.fragments, ∃ position, (f.toBytes, position) ∈ log

theorem Sending.LiesIn.mono {s : Sending} {part log : List (Bytes × Position)} (h : s.LiesIn part)
    (hpart : part ⊆ log) : s.LiesIn log := by
  intro f hf
  obtain ⟨position, hmem⟩ := h f hf
  exact ⟨position, hpart hmem⟩

/-- The messages have bundles of one source and type, the first an older one. -/
def Sending.Precedes (s t : Sending) : Prop :=
  ∃ d e, Pipeline.bundle? s.message = some d ∧ Pipeline.bundle? t.message = some e ∧
    d.source = e.source ∧ d.bundleType = e.bundleType ∧ d.version < e.version

structure Logged (family : List Sending) (log : List (Bytes × Position)) : Prop where
  distinct : (family.map Sending.key).Nodup
  sent : ∀ d ∈ log, ∃ s ∈ family, ∃ f ∈ s.fragments, d.1 = f.toBytes

namespace Pipeline

variable {p : Pipeline} {ops : List Operation} {family : List Sending}
  {log : List (Bytes × Position)} {s : Sending}

omit [Compression] in
theorem mem_deliveries {d : Bytes × Position} :
    d ∈ ops.filterMap Operation.delivery? ↔ ∃ now, .deliver now d.1 d.2 ∈ ops := by
  rw [List.mem_filterMap]
  constructor
  · rintro ⟨o, ho, hd⟩
    match o with
    | .deliver now datagram position =>
        cases hd
        exact ⟨now, ho⟩
    | .chore c => cases hd
  · rintro ⟨now, ho⟩
    exact ⟨_, ho, rfl⟩

/-- A fragment that arrives is one of a message of the log, as it was sent. -/
theorem sent_of_mem_arrivals (hlog : Logged family log)
    (hops : ops.filterMap Operation.delivery? ⊆ log) {x : Arrival} (hx : x ∈ p.arrivals ops) :
    (∃ s ∈ family, s.Sends x) ∧
      (x.fragment.toBytes, x.position) ∈ ops.filterMap Operation.delivery? ∧
        p.takes x.fragment.header = true := by
  obtain ⟨datagram, ho, hf⟩ := mem_arrivals.1 hx
  have hmem : (datagram, x.position) ∈ ops.filterMap Operation.delivery? :=
    mem_deliveries.2 ⟨x.now, ho⟩
  obtain ⟨s, hs, f, hfs, rfl⟩ := hlog.sent _ (hops hmem)
  obtain ⟨hbytes, htakes⟩ := fragment?_eq_some hf
  obtain rfl : f = x.fragment := Except.ok.inj ((Sending.ofBytes_of_mem hfs).symm.trans hbytes)
  exact ⟨⟨s, hs, Sending.sends_iff.2 hfs⟩, hmem, htakes⟩

theorem only_of_logged (hlog : Logged family log)
    (hops : ops.filterMap Operation.delivery? ⊆ log) :
    Assembler.Only family (p.arrivals ops) :=
  ⟨hlog.distinct, fun _ hx => (sent_of_mem_arrivals hlog hops hx).1⟩

/-- A message that has come lies in what was delivered, and its fragments are taken. -/
theorem liesIn_of_complete (hlog : Logged family log)
    (hops : ops.filterMap Operation.delivery? ⊆ log) (hall : s.Complete (p.arrivals ops)) :
    s.LiesIn (ops.filterMap Operation.delivery?) ∧
      ∀ f ∈ s.fragments, p.takes f.header = true := by
  have hfragment {f : Fragment} (hf : f ∈ s.fragments) :
      ∃ x ∈ p.arrivals ops, x.fragment = f := by
    obtain ⟨x, hx, hbytes⟩ := hall f hf
    exact ⟨x, hx, (Sending.ofBytes_eq_iff hf).1 hbytes⟩
  constructor
  · intro f hf
    obtain ⟨x, hx, rfl⟩ := hfragment hf
    exact ⟨x.position, (sent_of_mem_arrivals hlog hops hx).2.1⟩
  · intro f hf
    obtain ⟨x, hx, rfl⟩ := hfragment hf
    exact (sent_of_mem_arrivals hlog hops hx).2.2

theorem complete_of_liesIn (htakes : ∀ f ∈ s.fragments, p.takes f.header = true)
    (hlies : s.LiesIn (ops.filterMap Operation.delivery?)) : s.Complete (p.arrivals ops) := by
  intro f hf
  obtain ⟨position, hmem⟩ := hlies f hf
  obtain ⟨now, ho⟩ := mem_deliveries.1 hmem
  have hbytes : Fragment.ofBytes f.toBytes = .ok f := Sending.ofBytes_of_mem hf
  refine ⟨⟨now, f, position⟩, mem_arrivals.2 ⟨f.toBytes, ho, ?_⟩, hbytes⟩
  rw [fragment?, hbytes]
  exact if_pos (htakes f hf)

/-- What a slot knows was handed out, or something newer was, or it waits still. -/
theorem Blank.handed_or_waits {ttl remembered : Nat} (h : Blank ttl remembered p)
    {source bundleType : String} {v : Version}
    (hv : v.ReachedBy ((p.run ops).aggregator.slot source bundleType).newest) :
    (∃ w, (p.handed source bundleType ops).getLast? = some w ∧ v ≤ w) ∨
      ∃ b, ((p.run ops).aggregator.slot source bundleType).buffered = some b ∧
        v ≤ b.envelope.version := by
  rcases Slot.reachedBy_newest_iff.1 hv with ⟨u, hu, hvu⟩ | hout
  · obtain ⟨b, hb, rfl⟩ := Option.map_eq_some_iff.1 hu
    exact .inr ⟨b, hb, hvu⟩
  · exact .inl ((h.handedOut source bundleType ops).last v hout)

/-- After a restart the last bundle that is handed out for a source and type is no older than
any that was handed out before, or such a bundle waits still. The messages before the restart
may have been delivered under any schedule, and the log is read again from any place. What it
needs is that an older message lies in the rest of the log only together with the newer one
that had come, and that none expires halfway while the rest is read. If all of the rest is read
before the workers begin, nothing waits in the end. -/
theorem restart_hands_no_older (hub : Digest) (ttl remembered : Nat) (calls : List Registration)
    (family : List Sending) (log : List (Bytes × Position)) (ops replay : List Operation)
    (handled resumed : Nat) (hlog : Logged family log)
    (hops : ops.filterMap Operation.delivery? = log.take handled)
    (hreplay : replay.filterMap Operation.delivery? = log.drop resumed)
    (hsmooth : ∀ o ∈ replay, o.Smooth) :
    let start := fresh hub (.fresh ttl remembered) (Registry.ofCalls calls)
    Assembler.Timely ttl family (start.arrivals replay) →
    (∀ s ∈ family, ∀ t ∈ family, s.Precedes t → s.LiesIn (log.drop resumed) →
      t.LiesIn (log.take handled) → t.LiesIn (log.drop resumed)) →
    ∀ source bundleType, ∀ v ∈ start.handed source bundleType ops,
      ∀ w, (start.handed source bundleType replay).getLast? = some w →
        (v ≤ w ∨ ∃ b, ((start.run replay).aggregator.slot source bundleType).buffered = some b ∧
          v ≤ b.envelope.version) ∧
        ((∃ (front : List Operation) (back : List Chore),
          replay = front ++ back.map .chore ∧ ∀ o ∈ front, ∀ c, o ≠ .chore c) → v ≤ w) := by
  intro start htimely hnewer source bundleType v hv w hw
  have hstart : Blank ttl remembered start := blank_fresh hub ttl remembered calls
  have hopsLog : ops.filterMap Operation.delivery? ⊆ log := hops ▸ List.take_subset handled log
  have hreplayLog : replay.filterMap Operation.delivery? ⊆ log :=
    hreplay ▸ List.drop_subset resumed log
  have honly : Assembler.Only family (start.arrivals replay) := only_of_logged hlog hreplayLog
  have hwmem : w ∈ start.handed source bundleType replay := List.mem_of_getLast? hw
  have hfirst : v ≤ w ∨
      ∃ b, ((start.run replay).aggregator.slot source bundleType).buffered = some b ∧
        v ≤ b.envelope.version := by
    rcases le_or_gt v w with hle | hlt
    · exact .inl hle
    · obtain ⟨t, ht, hcame, e, he, rfl, rfl, rfl⟩ :=
        (hstart.carries (only_of_logged hlog hopsLog)).2 v hv
      obtain ⟨s, hs, hcame', d, hd, hsource, htype, rfl⟩ := (hstart.carries honly).2 w hwmem
      have hlies := liesIn_of_complete hlog hopsLog hcame
      have hlies' := liesIn_of_complete hlog hreplayLog hcame'
      rw [hops] at hlies
      rw [hreplay] at hlies'
      -- An older message of the slot is in the rest of the log, so the newer one is too.
      have hprecedes : s.Precedes t := ⟨d, e, hd, he, hsource, htype, hlt⟩
      have hagain : t.LiesIn (log.drop resumed) := hnewer s hs t ht hprecedes hlies'.1 hlies.1
      rw [← hreplay] at hagain
      have hall : t.Complete (start.arrivals replay) := complete_of_liesIn hlies.2 hagain
      obtain ⟨x, hx⟩ := registered_of_handed hstart.sound hwmem
      have hknown := hstart.newest_of_complete honly htimely hsmooth ht hall he hx
      rcases hstart.handed_or_waits hknown with ⟨u, hu, hle⟩ | hwaits
      · rw [hw] at hu
        exact .inl (hle.trans_eq (Option.some.inj hu).symm)
      · exact .inr hwaits
  refine ⟨hfirst, ?_⟩
  rintro ⟨front, back, rfl, hfront⟩
  refine hfirst.resolve_right ?_
  rintro ⟨b, hb, _⟩
  have hempty := buffered_of_sequential hstart.sound hfront
    (fun c hc => hsmooth _ (List.mem_append_right front (List.mem_map_of_mem hc)))
    (List.ne_nil_of_mem hwmem)
  rw [hempty] at hb
  cases hb

end Pipeline

end

namespace Pipeline

open scoped Zstd

/-! ### Two bundles in the wrong order

The newer one is sent first, and the older one is stale when it comes. If the newer one is
still at work then, both are read again after a restart. If it has been processed, only the
older one is read again, for what is stale is never counted as processed. -/

def bundleMessage (version : Version) : Message :=
  .ofEnvelope ⟨"1.0", "clusters", "hub", "bundle", ⟨0, 0, 0⟩, version, none, []⟩ ""

def newer : Sending where
  message := bundleMessage ⟨0, 5⟩
  encoding := .identity
  ceiling := 2000
  timestamp := 1
  fragments := (Fragment.ofMessage (bundleMessage ⟨0, 5⟩) .identity 2000 1).toOption.getD []
  cut := by decide +kernel

def older : Sending where
  message := bundleMessage ⟨0, 3⟩
  encoding := .identity
  ceiling := 2000
  timestamp := 2
  fragments := (Fragment.ofMessage (bundleMessage ⟨0, 3⟩) .identity 2000 2).toOption.getD []
  cut := by decide +kernel

/-- The messages of a log, one fragment with each offset. -/
def written (family : List Sending) : List (Bytes × Position) :=
  (family.flatMap Sending.fragments).mapIdx fun i f =>
    (f.toBytes, ⟨"status", 0, UInt64.ofNat i⟩)

theorem sent_of_written {family : List Sending} {d : Bytes × Position}
    (hd : d ∈ written family) : ∃ s ∈ family, ∃ f ∈ s.fragments, d.1 = f.toBytes := by
  obtain ⟨i, hi, rfl⟩ := List.mem_mapIdx.1 hd
  obtain ⟨s, hs, hf⟩ := List.mem_flatMap.1 (List.getElem_mem hi)
  exact ⟨s, hs, _, hf, rfl⟩

theorem liesIn_written {family : List Sending} {s : Sending} (hs : s ∈ family) :
    s.LiesIn (written family) := by
  intro f hf
  obtain ⟨i, hi, hfi⟩ := List.getElem_of_mem (List.mem_flatMap.2 ⟨s, hs, hf⟩)
  exact ⟨⟨"status", 0, UInt64.ofNat i⟩, List.mem_mapIdx.2 ⟨i, hi, by rw [hfi]⟩⟩

def delivering (log : List (Bytes × Position)) : List Operation :=
  log.map fun d => .deliver 0 d.1 d.2

variable {p : Pipeline} {log : List (Bytes × Position)}

theorem delivering_ne_chore {o : Operation} (ho : o ∈ delivering log) (c : Chore) :
    o ≠ .chore c := by
  obtain ⟨d, _, rfl⟩ := List.mem_map.1 ho
  nofun

theorem smooth_of_delivering {o : Operation} (ho : o ∈ delivering log) : o.Smooth := by
  obtain ⟨d, _, rfl⟩ := List.mem_map.1 ho
  trivial

theorem now_of_delivering {x : Arrival} {back : List Chore}
    (hx : x ∈ p.arrivals (delivering log ++ back.map .chore)) : x.now = 0 := by
  obtain ⟨datagram, ho, _⟩ := mem_arrivals.1 hx
  rcases List.mem_append.1 ho with ho | ho
  · obtain ⟨d, _, hd⟩ := List.mem_map.1 ho
    injection hd with hnow
    exact hnow.symm
  · obtain ⟨c, _, hc⟩ := List.mem_map.1 ho
    cases hc

def starting : List Chore := [.work .pop, .work (.claim "hub" "clusters")]

def ending : List Chore := [.work (.complete "hub" "clusters" .succeeded)]

theorem logged_written : Logged [newer, older] (written [newer, older]) where
  distinct := by
    have hne : newer.key ≠ older.key := by
      intro h
      exact absurd (congrArg MessageKey.timestamp h) (by decide)
    simpa using hne
  sent := fun _ => sent_of_written

theorem deliveries_delivering (log : List (Bytes × Position)) :
    (delivering log).filterMap Operation.delivery? = log := by
  rw [delivering, List.filterMap_map]
  exact List.filterMap_some

theorem deliveries_chores (cs : List Chore) :
    (cs.map Operation.chore).filterMap Operation.delivery? = [] := by
  rw [List.filterMap_map]
  exact List.filterMap_eq_nil_iff.2 fun _ _ => rfl

theorem restart_hands_no_older_both :
    let log := written [newer, older]
    let start := fresh anyDestination (.fresh 10 10)
      (Registry.ofCalls [.complete "clusters" 0 none])
    let ops := delivering (log.take 1) ++ starting.map .chore ++ delivering (log.drop 1)
    let replay := delivering log ++ (starting ++ ending).map .chore
    (start.run ops).commit? = some [⟨"status", 0, 0⟩] ∧
      start.handed "hub" "clusters" ops = [⟨0, 5⟩] ∧
        start.handed "hub" "clusters" replay = [⟨0, 5⟩] ∧ (⟨0, 5⟩ : Version) ≤ ⟨0, 5⟩ := by
  intro log start ops replay
  have hops : ops.filterMap Operation.delivery? = log.take log.length := by
    simp only [ops, List.filterMap_append, deliveries_delivering, deliveries_chores,
      List.append_nil, List.take_append_drop, List.take_length]
  have hreplay : replay.filterMap Operation.delivery? = log.drop 0 := by
    simp only [replay, List.filterMap_append, deliveries_delivering, deliveries_chores,
      List.append_nil, List.drop_zero]
  have hsmooth : ∀ o ∈ replay, o.Smooth := by
    intro o ho
    rcases List.mem_append.1 ho with ho | ho
    · exact smooth_of_delivering ho
    · simp only [starting, ending, List.cons_append, List.nil_append, List.map_cons,
        List.map_nil, List.mem_cons, List.not_mem_nil, or_false] at ho
      rcases ho with rfl | rfl | rfl
      · trivial
      · trivial
      · rfl
  have htimely : Assembler.Timely 10 [newer, older] (start.arrivals replay) := by
    refine ⟨List.pairwise_of_forall_mem_list fun x hx y _ => ?_, fun _ _ x _ y hy _ _ => ?_⟩
    · rw [now_of_delivering hx]
      exact Nat.zero_le y.now
    · rw [now_of_delivering hy, Nat.zero_sub]
      exact Nat.zero_le 10
  have hnewer : ∀ s ∈ [newer, older], ∀ t ∈ [newer, older], s.Precedes t →
      s.LiesIn (log.drop 0) → t.LiesIn (log.take log.length) → t.LiesIn (log.drop 0) := by
    intro s _ t _ _ _ hlies
    rw [List.drop_zero]
    exact hlies.mono (List.take_subset log.length log)
  obtain ⟨hcommit, hbefore, hafter⟩ : (start.run ops).commit? = some [⟨"status", 0, 0⟩] ∧
      start.handed "hub" "clusters" ops = [⟨0, 5⟩] ∧
        start.handed "hub" "clusters" replay = [⟨0, 5⟩] := by
    decide +kernel
  have hgeneral := restart_hands_no_older anyDestination 10 10
    [.complete "clusters" 0 none] [newer, older] log ops replay log.length 0 logged_written
    hops hreplay hsmooth htimely hnewer "hub" "clusters" ⟨0, 5⟩
    (hbefore ▸ List.mem_singleton_self _) ⟨0, 5⟩ (congrArg List.getLast? hafter)
  exact ⟨hcommit, hbefore, hafter,
    hgeneral.2 ⟨delivering log, starting ++ ending, rfl, fun o ho c => delivering_ne_chore ho c⟩⟩

/-- The newer bundle has been processed when the older one comes, and the commit passes it. -/
theorem restart_hands_older :
    let log := written [newer, older]
    let start := fresh anyDestination (.fresh 10 10)
      (Registry.ofCalls [.complete "clusters" 0 none])
    let ops := delivering (log.take 1) ++ (starting ++ ending).map .chore ++
      delivering (log.drop 1)
    let replay := delivering (log.drop 1) ++ (starting ++ ending).map .chore
    Logged [newer, older] log ∧ (start.run ops).commit? = some [⟨"status", 0, 1⟩] ∧
      start.handed "hub" "clusters" ops = [⟨0, 5⟩] ∧
        start.handed "hub" "clusters" replay = [⟨0, 3⟩] ∧ (⟨0, 3⟩ : Version) < ⟨0, 5⟩ :=
  ⟨logged_written, by decide +kernel⟩

end Pipeline

end Conflux
