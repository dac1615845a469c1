import Conflux.Proofs.Pipeline.History
import Conflux.Zstd.Plain

/-!
Which slot a datagram can reach. Four checks stand between the bytes that arrive and a slot,
and each of them looks at something else: the hub looks at the destination of a fragment, the
assembler compares the stream in its header with the key of the message, the message has to
agree with the bundle inside in type and version, and its key has to name the source of the
bundle. Neither a source nor a type is kept from having points in it, and a key does not say
where the one ends and the other begins; but the identifier of the message does, as it is the
type. So what comes in under a stream ends up in a slot of that stream, or nowhere.
-/

namespace Conflux

namespace Aggregator

/-- A bundle changes no slot but its own, whatever the leaves are like. -/
theorem slot_insert_of_ne {a : Aggregator} (h : a.registry.Named) (e : Envelope)
    (position : Position) (lastOffset : UInt64) {source t : String}
    (hne : ¬ (e.source = source ∧ e.bundleType = t)) :
    (a.insert e position lastOffset).1.slot source t = a.slot source t := by
  rw [insert]
  cases hx : a.registry.get? e.bundleType with
  | none => rfl
  | some x =>
      have hname : x.bundleType = e.bundleType := h e.bundleType x hx
      simp only [slot_apply]
      split
      · next hsource =>
          have ht : x.bundleType ≠ t := fun ht => hne ⟨hsource, hname ▸ ht⟩
          subst hsource
          change ((a.leaf e.source).insert a.registry x e position lastOffset).leaf.slot t =
            (a.leaf e.source).slot t
          by_cases hadmits : ((a.leaf e.source).slot x.bundleType).admits e.version = true
          · obtain ⟨hleaf, _⟩ := Leaf.insert_of_admits hadmits a.registry position lastOffset
            rw [hleaf, Leaf.moved, Leaf.slot_wakeAll, if_neg (by simp [Ne.symm ht]),
              Leaf.slot_putSlot_of_ne ht]
          · rw [Leaf.insert_of_not_admits hadmits]
      · rfl

end Aggregator

namespace Pipeline

section

variable [Compression] {p : Pipeline}

/-- The bundle `e` came in the message `whole`, which the fragment `x` completed, by the last of
the operations `past`. -/
structure Routed (hub : Digest) (past : List Operation) (x : Arrival) (whole : Assembled)
    (e : Envelope) : Prop where
  stream : x.fragment.header.stream = streamId (e.source ++ "." ++ e.bundleType)
  source : e.source ≠ ""
  bundleType : whole.message.id = e.bundleType
  version : Version.parse whole.message.version = .ok e.version
  /-- The message is made of fragments that were delivered, and that were meant for the hub. -/
  used : ∃ used, used.getLast? = some x ∧ whole.MadeOf x used ∧ ∀ y ∈ used, ∃ datagram,
    .deliver y.now datagram y.position ∈ past ∧ Fragment.ofBytes datagram = .ok y.fragment ∧
      (hub = anyDestination ∨ y.fragment.header.isFor hub = true)

theorem exists_of_reply? {now : Nat} {datagram : Bytes} {position : Position}
    {result : Assembler.Answer} (h : p.reply? now datagram position = some result) :
    ∃ f, p.fragment? datagram = some f ∧ p.assembler.answer ⟨now, f, position⟩ = result :=
  Option.map_eq_some_iff.1 h

omit [Compression] in
theorem meant_of_fragment? {datagram : Bytes} {f : Fragment} (h : p.fragment? datagram = some f) :
    Fragment.ofBytes datagram = .ok f ∧
      (p.hub = anyDestination ∨ f.header.isFor p.hub = true) := by
  obtain ⟨hbytes, htakes⟩ := fragment?_eq_some h
  rw [takes, Bool.or_eq_true, beq_iff_eq] at htakes
  exact ⟨hbytes, htakes⟩

/-- The assembler of a run gave `whole` for a delivery, and `e` is the bundle in it. -/
theorem routed {start : Pipeline} {ttl remembered : Nat}
    (hstart : start.assembler = .fresh ttl remembered) (ops : List Operation) {x : Arrival}
    {datagram : Bytes} {whole : Assembled} {e : Envelope}
    (hf : start.fragment? datagram = some x.fragment)
    (hwhole : (start.run ops).assembler.answer x = .ok (some whole))
    (he : bundle? whole.message = some e) :
    Routed start.hub (ops ++ [.deliver x.now datagram x.position]) x whole e := by
  rw [assembler_run, hstart] at hwhole
  obtain ⟨used, hlast, hcollected, hmade⟩ := Assembler.madeOf_of_answer hwhole
  obtain ⟨hopen, hsource⟩ := bundle?_eq_some_iff.1 he
  obtain ⟨hversion, _, hid⟩ := Message.open?_eq_ok_iff.1 hopen
  refine ⟨?_, (Message.source?_eq_some_iff.1 hsource).1, hid.symm, hversion, used, hlast, hmade, ?_⟩
  · rw [← hmade.stream, key_of_bundle? he]
    rfl
  · intro y hy
    have hevent : start.event? (.deliver x.now datagram x.position) = some (.arrive x) :=
      event?_eq_arrive.2 ⟨datagram, rfl, hf⟩
    have hcame : y ∈ start.arrivals (ops ++ [.deliver x.now datagram x.position]) := by
      rw [arrivals, events_concat, hevent]
      exact hcollected.sublist.subset hy
    obtain ⟨bytes, hdelivered, hy⟩ := mem_arrivals.1 hcame
    exact ⟨bytes, hdelivered, meant_of_fragment? hy⟩

/-- A datagram reaches the slot that its stream names, or nothing at all. The assembler has seen
what was delivered to the hub before, and sweeps; the leaves and the queue may be any. -/
theorem deliver_reaches_own_slot (hub : Digest) (ttl remembered : Nat) (calls : List Registration)
    (ops : List Operation) (leaves : Table String Leaf) (queue : ReadyQueue) (counters : Counters)
    (now : Nat) (datagram : Bytes) (position : Position) :
    let registry := Registry.ofCalls calls
    let p : Pipeline :=
      { (fresh hub (.fresh ttl remembered) registry).run ops with
        aggregator := ⟨registry, leaves, queue⟩
        counters }
    let delivery := p.deliver now datagram position
    delivery.2 = none ∧ delivery.1.aggregator = p.aggregator ∨
      ∃ f whole e, Fragment.ofBytes datagram = .ok f ∧
        p.assembler.answer ⟨now, f, position⟩ = .ok (some whole) ∧
        whole.message.open? = .ok e ∧
        (let (aggregator, insertion) := p.aggregator.insert e whole.position whole.lastOffset
        delivery.2 = some insertion.admission ∧ delivery.1.aggregator = aggregator) ∧
        Routed hub (ops ++ [.deliver now datagram position]) ⟨now, f, position⟩ whole e ∧
        ∀ source t, ¬ (e.source = source ∧ e.bundleType = t) →
          delivery.1.aggregator.slot source t = p.aggregator.slot source t := by
  intro registry p delivery
  have hcases : Delivered p now datagram position delivery.1 delivery.2 :=
    p.delivered now datagram position
  generalize delivery.1 = after, delivery.2 = answer at hcases
  cases hcases with
  | dropped | failed | stored | malformed => exact .inl ⟨rfl, rfl⟩
  | inserted assembler h he hinsert =>
      rename_i whole e aggregator insertion
      obtain ⟨f, hf, hwhole⟩ := exists_of_reply? h
      obtain ⟨hopen, _⟩ := bundle?_eq_some_iff.1 he
      have hf' : (fresh hub (.fresh ttl remembered) registry).fragment? datagram = some f := by
        rwa [fragment?_congr (hub_run (fresh hub (.fresh ttl remembered) registry) ops).symm]
      refine .inr ⟨f, whole, e, (fragment?_eq_some hf).1, hwhole, hopen, ?_, ?_, ?_⟩
      · rw [hinsert]
        exact ⟨rfl, rfl⟩
      · exact routed (x := ⟨now, f, position⟩) rfl ops hf' hwhole he
      · intro source t hne
        have hothers := Aggregator.slot_insert_of_ne (a := p.aggregator)
          (Registry.named_ofCalls calls) e whole.position whole.lastOffset hne
        rwa [hinsert] at hothers

end

open scoped Zstd

/-- The source has a point in its name, so its key is that of another slot, too. -/
theorem deliver_reaches_own_slot_pointed :
    let bundle : Envelope := ⟨"1.0", "changes", "hub.east", "bundle", ⟨0, 0, 0⟩, ⟨0, 1⟩, none, []⟩
    let datagram : Bytes := match Fragment.ofMessage (.ofEnvelope bundle "") .identity 2000 1 with
      | .ok (f :: _) => f.toBytes
      | _ => []
    let registry := Registry.ofCalls [⟨"changes", 0, none, .delta none⟩,
      ⟨"east.changes", 1, none, .delta none⟩]
    let p : Pipeline :=
      { (fresh anyDestination (.fresh 100 100) registry).run [] with
        aggregator := ⟨registry, .empty, .empty⟩
        counters := .zero }
    let delivery := p.deliver 0 datagram ⟨"status", 0, 3⟩
    let after := delivery.1.aggregator
    (delivery.2, (after.slot "hub.east" "changes").buffered.isSome,
        (after.slot "hub" "east.changes").buffered.isSome) = (some .ready, true, false) ∧
      ∃ f whole e, Fragment.ofBytes datagram = .ok f ∧ whole.message.open? = .ok e ∧
        Routed anyDestination [.deliver 0 datagram ⟨"status", 0, 3⟩] ⟨0, f, ⟨"status", 0, 3⟩⟩
          whole e := by
  intro bundle datagram registry p delivery after
  have hafter : (delivery.2, (after.slot "hub.east" "changes").buffered.isSome,
      (after.slot "hub" "east.changes").buffered.isSome) = (some .ready, true, false) := by
    decide +kernel
  obtain ⟨hready, -⟩ := Prod.mk.inj hafter
  obtain ⟨hnone, -⟩ | ⟨f, whole, e, hf, -, hopen, -, hrouted, -⟩ :=
    deliver_reaches_own_slot anyDestination 100 100
      [⟨"changes", 0, none, .delta none⟩, ⟨"east.changes", 1, none, .delta none⟩] [] .empty .empty
      .zero 0 datagram ⟨"status", 0, 3⟩
  · exact absurd (hready.symm.trans hnone) (Option.some_ne_none _)
  · exact ⟨hafter, f, whole, e, hf, hopen, hrouted⟩

end Pipeline

end Conflux
