import Conflux.Proofs.Lineage
import Conflux.Proofs.Pipeline.Run
import Mathlib.Logic.Function.Basic

/-!
Where the content of a pipeline came from. Beside the pipeline, and never read by it,
runs an account of the deliveries: for each open record those whose payloads are in it,
and for each slot the lineage of its bundles. A delivery is outstanding as long as its
payload is in an open record or went into a bundle that a slot still has.

`Covered` is what every step keeps. It says that the positions which the pipeline does
keep speak for all these deliveries: fragments of one stream come on one partition, the
content of a slot is all of one stream, and so a single offset is enough.
-/

namespace Conflux.Pipeline

structure Origins where
  records : MessageKey → List Position
  bundles : String → String → Slot.Lineage

structure Traced where
  pipeline : Pipeline
  origins : Origins

namespace Traced

def fresh (hub : Digest) (assembler : Assembler) (registry : Registry) : Traced :=
  ⟨.fresh hub assembler registry, fun _ => [], fun _ _ => .blank⟩

/-- The deliveries whose payloads are together when the fragment has been taken. The
payload of a repeated fragment is not stored. -/
def joined (t : Traced) (now : Nat) (f : Fragment) (position : Position) : List Position :=
  match t.pipeline.assembler.found? now f with
  | some r =>
      if r.holds f.header.offset then t.origins.records f.header.messageKey
      else t.origins.records f.header.messageKey ++ [position]
  | none => [position]

/-- The message that an operation brings a fragment of, and its deliveries so far. -/
def gathered (t : Traced) : Operation → Option (MessageKey × List Position)
  | .deliver now datagram position =>
      match t.pipeline.fragment? datagram with
      | some f =>
          if t.pipeline.assembler.refuses f then none
          else some (f.header.messageKey, t.joined now f position)
      | none => none
  | .chore _ => none

def recordsAfter (t : Traced) (o : Operation) : MessageKey → List Position :=
  match t.gathered o with
  | some (k, tags) => Function.update t.origins.records k tags
  | none => t.origins.records

variable [Compression]

def lineageAfter (t : Traced) (o : Operation) (source bundleType : String) : Slot.Lineage :=
  match t.pipeline.request? o with
  | some r =>
      (t.origins.bundles source bundleType).next
        (t.pipeline.aggregator.registry.mode bundleType)
        ((t.gathered o).elim [] Prod.snd)
        (t.pipeline.aggregator.happening source bundleType r)
  | none => t.origins.bundles source bundleType

def step (t : Traced) (o : Operation) : Traced :=
  ⟨t.pipeline.step o, t.recordsAfter o, t.lineageAfter o⟩

def run (t : Traced) (ops : List Operation) : Traced := ops.foldl step t

/-- The payload that was delivered there is in an open record, or went into a bundle
that waits or is worked on. -/
def Outstanding (t : Traced) (τ : Position) : Prop :=
  (∃ k r, t.pipeline.assembler.opened.get? k = some r ∧ τ ∈ t.origins.records k) ∨
    ∃ source bundleType, (t.origins.bundles source bundleType).Has τ

end Traced

variable [Compression]

/-- The account only watches. -/
theorem Traced.pipeline_run (t : Traced) (ops : List Operation) :
    (t.run ops).pipeline = t.pipeline.run ops := by
  induction ops generalizing t with
  | nil => rfl
  | cons o ops ih => exact ih (t.step o)

theorem Traced.run_append (t : Traced) (ops ops' : List Operation) :
    t.run (ops ++ ops') = (t.run ops).run ops' := by
  rw [run, List.foldl_append]
  rfl

/-! ### Deliveries -/

def Operation.delivered : Operation → List Position
  | .deliver _ _ position => [position]
  | .chore _ => []

def Operation.AtHome (home : Digest → Partition) : Operation → Prop
  | .deliver _ datagram position =>
      ∀ f, Fragment.ofBytes datagram = .ok f → position.partitionKey = home f.header.stream
  | .chore _ => True

variable {home : Digest → Partition} {delivered : List Position} {t : Traced} {o : Operation}

/-- Where an insert comes from. -/
theorem request?_eq_insert {p : Pipeline} {e : Envelope} {position : Position}
    {lastOffset : UInt64} (h : p.request? o = some (.insert e position lastOffset)) :
    ∃ now datagram place f whole, o = .deliver now datagram place ∧
      p.fragment? datagram = some f ∧ (p.assembler.add now f place).2 = .ok (some whole) ∧
      bundle? whole.message = some e ∧ position = whole.position ∧
      lastOffset = whole.lastOffset := by
  match o with
  | .deliver now datagram place =>
      rw [request?] at h
      split at h
      · next f hf =>
          obtain ⟨⟨d, whole⟩, harrival, hinsert⟩ := Option.map_eq_some_iff.1 h
          cases hinsert
          rw [arrival?] at harrival
          split at harrival
          · next whole' hadd =>
              obtain ⟨d', hd', hpair⟩ := Option.map_eq_some_iff.1 harrival
              cases hpair
              exact ⟨now, datagram, place, f, whole, rfl, hf, hadd, hd', rfl, rfl⟩
          · cases harrival
      · cases h
  | .chore (.work w) =>
      cases h
  | .chore (.sweep now) => cases h

namespace Traced

structure Covered (home : Digest → Partition) (delivered : List Position) (t : Traced) : Prop where
  sound : t.pipeline.aggregator.Sound
  records : ∀ k r, t.pipeline.assembler.opened.get? k = some r →
    Stretch delivered (home k.stream) (t.origins.records k) r.position r.lastOffset
  slots : ∀ source bundleType, (t.origins.bundles source bundleType).Fits delivered
    (home (streamId (Envelope.streamKey source bundleType)))
    (t.pipeline.aggregator.slot source bundleType)

omit [Compression] in
theorem covered_fresh (home : Digest → Partition) (hub : Digest) (ttl remembered : Nat)
    {r : Registry} (h : r.Named) : (fresh hub (.fresh ttl remembered) r).Covered home [] where
  sound := Aggregator.sound_fresh h
  records k r hr := by cases hr
  slots source bundleType := Slot.Lineage.fits_blank _ _

omit [Compression] in
/-- What has come together lies where the assembler says that it does. -/
theorem Covered.joined (h : t.Covered home delivered) {f : Fragment} {position : Position}
    (hhome : position.partitionKey = home f.header.stream) (now : Nat) :
    Stretch (delivered ++ [position]) (home f.header.stream) (t.joined now f position)
      (t.pipeline.assembler.span now f position).1
      (t.pipeline.assembler.span now f position).2 := by
  have hsingle : Stretch (delivered ++ [position]) (home f.header.stream) [position] position
      position.offset :=
    .single hhome (List.mem_append_right _ (List.mem_singleton_self _))
  rw [Traced.joined, Assembler.span]
  cases hfound : t.pipeline.assembler.found? now f with
  | none => exact hsingle
  | some r =>
      have hrecord := h.records _ r (Assembler.get?_of_found? hfound)
      -- A repeated fragment is counted into the place, though its payload is not stored.
      have hjoin := (hrecord.mono (List.subset_append_left delivered [position])).join hsingle
      dsimp only
      split
      · exact hjoin.of_subset (List.subset_append_left _ _)
      · exact hjoin

omit [Compression] in
theorem gathered_of_takes {now : Nat} {datagram : Bytes} {f : Fragment} {position : Position}
    (hf : t.pipeline.fragment? datagram = some f)
    (htakes : t.pipeline.assembler.refuses f = false) :
    t.gathered (.deliver now datagram position) =
      some (f.header.messageKey, t.joined now f position) := by
  simp only [gathered, hf, htakes, Bool.false_eq_true, if_false]

/-- A record that is open was so before, with the same deliveries, or it is the record of
the fragment that came. -/
theorem opened_step {k : MessageKey} {r : Assembly}
    (hr : (t.step o).pipeline.assembler.opened.get? k = some r) :
    (t.pipeline.assembler.opened.get? k = some r ∧ t.recordsAfter o k = t.origins.records k) ∨
      ∃ now datagram position f, o = .deliver now datagram position ∧
        t.pipeline.fragment? datagram = some f ∧ f.header.messageKey = k ∧
        t.recordsAfter o k = t.joined now f position ∧
        (r.position, r.lastOffset) = t.pipeline.assembler.span now f position := by
  match o with
  | .deliver now datagram position =>
      change (t.pipeline.deliver now datagram position).1.assembler.opened.get? k = some r at hr
      rw [recordsAfter]
      cases hf : t.pipeline.fragment? datagram with
      | none =>
          rw [(deliver_of_none hf now position).1] at hr
          have hnone : t.gathered (.deliver now datagram position) = none := by
            simp only [gathered, hf]
          rw [hnone]
          exact .inl ⟨hr, rfl⟩
      | some f =>
          rw [(deliver_of_fragment hf now position).1] at hr
          cases hrefuses : t.pipeline.assembler.refuses f with
          | true =>
              obtain ⟨e, -, hadd⟩ := Assembler.add_of_refuses hrefuses now position
              rw [hadd] at hr
              have hnone : t.gathered (.deliver now datagram position) = none := by
                simp only [gathered, hf, hrefuses, if_true]
              rw [hnone]
              exact .inl ⟨hr, rfl⟩
          | false =>
              have htakes := Assembler.takes_add hrefuses now position
              rw [gathered_of_takes hf hrefuses]
              dsimp only
              by_cases hk : f.header.messageKey = k
              · subst hk
                exact .inr ⟨now, datagram, position, f, rfl, hf, rfl, Function.update_self ..,
                  htakes.own r hr⟩
              · exact .inl ⟨htakes.others k r hk hr, Function.update_of_ne (Ne.symm hk) ..⟩
  | .chore c =>
      change (t.pipeline.step (.chore c)).assembler.opened.get? k = some r at hr
      refine .inl ⟨?_, rfl⟩
      rcases t.pipeline.assembler_chore c with hsame | ⟨now, hevict⟩
      · rwa [hsame] at hr
      · rw [hevict] at hr
        exact Assembler.get?_evict hr

theorem Covered.records_step (h : t.Covered home delivered) (hhome : o.AtHome home)
    (k : MessageKey) (r : Assembly) (hr : (t.step o).pipeline.assembler.opened.get? k = some r) :
    Stretch (delivered ++ o.delivered) (home k.stream) ((t.step o).origins.records k) r.position
      r.lastOffset := by
  change Stretch _ _ (t.recordsAfter o k) _ _
  rcases opened_step hr with ⟨hopen, hsame⟩ | ⟨now, datagram, position, f, rfl, hf, rfl, hj, hspan⟩
  · rw [hsame]
    exact (h.records k r hopen).mono (List.subset_append_left _ _)
  · have hjoined := h.joined (hhome f (fragment?_eq_some hf).1) now
    rw [← hspan] at hjoined
    rw [hj]
    exact hjoined

/-- A bundle that comes in lies where its message lay, on the partition of its slot. -/
theorem Covered.accepted (h : t.Covered home delivered) (hhome : o.AtHome home)
    {r : Aggregator.Operation} (hr : t.pipeline.request? o = some r) {source bundleType : String}
    {e : Envelope} {position : Position} {lastOffset : UInt64}
    (hseen : t.pipeline.aggregator.happening source bundleType r =
      .accepted e position lastOffset) :
    Stretch (delivered ++ o.delivered) (home (streamId (Envelope.streamKey source bundleType)))
      ((t.gathered o).elim [] Prod.snd) position lastOffset := by
  obtain ⟨rfl, rfl, rfl⟩ := Aggregator.happening_eq_accepted hseen
  obtain ⟨now, datagram, place, f, whole, rfl, hf, hadd, hbundle, rfl, rfl⟩ :=
    request?_eq_insert hr
  have hrefuses : t.pipeline.assembler.refuses f = false := by
    cases hrefuses : t.pipeline.assembler.refuses f with
    | false => rfl
    | true =>
        obtain ⟨x, -, hx⟩ := Assembler.add_of_refuses hrefuses now place
        rw [hx] at hadd
        cases hadd
  -- The stream is that of the message's key, and the key names the source and the type.
  obtain ⟨hspan, hstream⟩ := (Assembler.takes_add hrefuses now place).out whole hadd
  have hjoined := h.joined (hhome f (fragment?_eq_some hf).1) now
  rw [← hspan, ← hstream, key_of_bundle? hbundle] at hjoined
  rw [gathered_of_takes hf hrefuses]
  exact hjoined

theorem Covered.slots_step (h : t.Covered home delivered) (hhome : o.AtHome home)
    (source bundleType : String) :
    ((t.step o).origins.bundles source bundleType).Fits (delivered ++ o.delivered)
      (home (streamId (Envelope.streamKey source bundleType)))
      ((t.step o).pipeline.aggregator.slot source bundleType) := by
  have hfits := (h.slots source bundleType).mono (List.subset_append_left delivered o.delivered)
  change Slot.Lineage.Fits _ _ (t.lineageAfter o source bundleType)
    ((t.pipeline.step o).aggregator.slot source bundleType)
  rw [lineageAfter, aggregator_step]
  cases hr : t.pipeline.request? o with
  | none => exact hfits
  | some r =>
      obtain ⟨core, n, hstep, hwoken⟩ := h.sound.step_slot r source bundleType
      refine (hfits.step hstep ?_).woken hwoken
      intro e position lastOffset hseen
      exact h.accepted hhome hr hseen

theorem Covered.step (h : t.Covered home delivered) (hhome : o.AtHome home) :
    (t.step o).Covered home (delivered ++ o.delivered) where
  sound := by
    change (t.pipeline.step o).aggregator.Sound
    rw [aggregator_step]
    split
    · exact h.sound.step _
    · exact h.sound
  records := h.records_step hhome
  slots := h.slots_step hhome

theorem Covered.run (h : t.Covered home delivered) (ops : List Operation)
    (hhome : ∀ o ∈ ops, o.AtHome home) :
    (t.run ops).Covered home (delivered ++ ops.flatMap Operation.delivered) := by
  induction ops generalizing t delivered with
  | nil =>
      rw [List.flatMap_nil, List.append_nil]
      exact h
  | cons o ops ih =>
      have hrest := ih (h.step (hhome o List.mem_cons_self))
        fun o' ho' => hhome o' (List.mem_cons_of_mem o ho')
      rwa [List.append_assoc, ← List.flatMap_cons] at hrest

/-! ### Nothing becomes outstanding by itself -/

omit [Compression] in
theorem mem_joined {now : Nat} {f : Fragment} {position τ : Position}
    (h : τ ∈ t.joined now f position) : t.Outstanding τ ∨ τ = position := by
  rw [Traced.joined] at h
  split at h
  · next r hfound =>
      have hopen : t.pipeline.assembler.opened.get? f.header.messageKey = some r :=
        Assembler.get?_of_found? hfound
      split at h
      · exact .inl (.inl ⟨_, r, hopen, h⟩)
      · rcases List.mem_append.1 h with h | h
        · exact .inl (.inl ⟨_, r, hopen, h⟩)
        · exact .inr (List.mem_singleton.1 h)
  · exact .inr (List.mem_singleton.1 h)

omit [Compression] in
theorem mem_gathered {k : MessageKey} {tags : List Position} {τ : Position}
    (h : t.gathered o = some (k, tags)) (hτ : τ ∈ tags) : t.Outstanding τ ∨ τ ∈ o.delivered := by
  match o with
  | .deliver now datagram position =>
      rw [gathered] at h
      split at h
      · split at h
        · cases h
        · cases h
          exact (mem_joined hτ).imp id fun heq => List.mem_singleton.2 heq
      · cases h
  | .chore c => cases h

theorem has_step {source bundleType : String} {τ : Position}
    (h : ((t.step o).origins.bundles source bundleType).Has τ) :
    (t.origins.bundles source bundleType).Has τ ∨ τ ∈ (t.gathered o).elim [] Prod.snd := by
  change (t.lineageAfter o source bundleType).Has τ at h
  rw [lineageAfter] at h
  split at h
  · exact h.of_next.imp id And.right
  · exact .inl h

/-- What is outstanding after an operation was so before, or is what it delivered. -/
theorem Outstanding.of_step {τ : Position} (h : (t.step o).Outstanding τ) :
    t.Outstanding τ ∨ τ ∈ o.delivered := by
  rcases h with ⟨k, r, hr, hτ⟩ | ⟨source, bundleType, hτ⟩
  · change τ ∈ t.recordsAfter o k at hτ
    rcases opened_step hr with ⟨hopen, hsame⟩ | ⟨now, datagram, position, f, rfl, _, _, hj, _⟩
    · rw [hsame] at hτ
      exact .inl (.inl ⟨k, r, hopen, hτ⟩)
    · rw [hj] at hτ
      exact (mem_joined hτ).imp id fun heq => List.mem_singleton.2 heq
  · rcases has_step hτ with hτ | hτ
    · exact .inl (.inr ⟨source, bundleType, hτ⟩)
    · cases hg : t.gathered o with
      | none =>
          rw [hg] at hτ
          cases hτ
      | some x =>
          rw [hg] at hτ
          exact mem_gathered hg hτ

theorem Outstanding.of_run {τ : Position} {ops : List Operation} (h : (t.run ops).Outstanding τ) :
    t.Outstanding τ ∨ τ ∈ ops.flatMap Operation.delivered := by
  induction ops generalizing t with
  | nil => exact .inl h
  | cons o ops ih =>
      rw [List.flatMap_cons, List.mem_append]
      rcases ih h with hτ | hτ
      · exact hτ.of_step.imp id .inl
      · exact .inr (.inr hτ)

/-- Without deliveries a bundle gets no more of them. -/
theorem has_chores {source bundleType : String} {τ : Position} {chores : List Chore}
    (h : ((t.run (chores.map .chore)).origins.bundles source bundleType).Has τ) :
    (t.origins.bundles source bundleType).Has τ := by
  induction chores generalizing t with
  | nil => exact h
  | cons c chores ih =>
      rcases has_step (ih h) with hτ | hτ
      · exact hτ
      · cases hτ

end Traced

end Conflux.Pipeline
