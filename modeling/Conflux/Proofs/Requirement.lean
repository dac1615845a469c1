import Conflux.Proofs.Aggregator.Run
import Conflux.Proofs.Merge

/-!
What a merged bundle requires of its dependency. A change set names the version that it
requires, or it names none and requires its own. Merging keeps the latest of the versions that
are named, and only where none is named does the version of the newest change set count. So
what is named is required ever after, in however many bundles it goes on; but a change set that
names nothing is heard only as far as the others name something no earlier.
-/

namespace Conflux

theorem Envelope.required_of_named {e : Envelope} {v : Version} (h : e.dependencyVersion = some v) :
    e.required = v := by
  rw [required, h, Option.getD_some]

theorem Envelope.required_of_unnamed {e : Envelope} (h : e.dependencyVersion = none) :
    e.required = e.version := by
  rw [required, h, Option.getD_none]

/-- Whatever is satisfied with a requirement is satisfied with a lower one. -/
theorem Leaf.satisfied_of_required_le {l : Leaf} {x : Registration} {d e : Envelope}
    (hle : d.required ≤ e.required) (h : l.satisfied x e = true) : l.satisfied x d = true := by
  cases hx : x.dependsOn with
  | none => rw [satisfied, hx]
  | some dependency =>
      obtain ⟨v, hv, hreached⟩ := (satisfied_iff hx).1 h
      exact (satisfied_iff hx).2 ⟨v, hv, hle.trans hreached⟩

namespace SyncMode

variable {key? : Option String} {es : List Envelope} {bundle e : Envelope}

/-! ### Rows of change sets -/

/-- A bundle names a version no earlier than any that its change sets name. -/
theorem reachedBy_of_mergeAll (h : (delta key?).mergeAll es = some bundle) (he : e ∈ es)
    {v : Version} (hv : e.dependencyVersion = some v) : v.ReachedBy bundle.dependencyVersion := by
  induction es using List.reverseRecOn generalizing bundle with
  | nil => cases he
  | append_singleton es last ih =>
      cases hes : (delta key?).mergeAll es with
      | none =>
          rw [mergeAll_eq_none_iff.1 hes] at h he
          obtain rfl : last = bundle := Option.some.inj h
          obtain rfl := List.mem_singleton.1 he
          exact ⟨v, hv, le_refl v⟩
      | some before =>
          rw [mergeAll_concat hes] at h
          obtain rfl : (delta key?).merge before last = bundle := Option.some.inj h
          rw [merge, Version.reachedBy_maxOption_iff]
          rcases List.mem_append.1 he with he | he
          · exact .inr (ih hes he)
          · obtain rfl := List.mem_singleton.1 he
            exact .inl ⟨v, hv, le_refl v⟩

/-- A bundle has the version of the last of its change sets. -/
theorem le_version_of_mergeAll (hrow : es.Pairwise (·.version < ·.version))
    (h : (delta key?).mergeAll es = some bundle) (he : e ∈ es) : e.version ≤ bundle.version := by
  induction es using List.reverseRecOn generalizing bundle with
  | nil => cases he
  | append_singleton es last _ =>
      have hversion : bundle.version = last.version := by
        cases hes : (delta key?).mergeAll es with
        | none =>
            rw [mergeAll_eq_none_iff.1 hes] at h
            obtain rfl : last = bundle := Option.some.inj h
            rfl
        | some before =>
            rw [mergeAll_concat hes] at h
            rw [← Option.some.inj h, merge_version]
      rw [hversion]
      rcases List.mem_append.1 he with he | he
      · exact ((List.pairwise_append.1 hrow).2.2 e he last (List.mem_singleton_self last)).le
      · rw [List.mem_singleton.1 he]

/-- A change set that names nothing is heard in a bundle, if its version is no later than what
the bundle names. -/
def Heard (bundle e : Envelope) : Prop :=
  e.dependencyVersion = none → ∀ v, bundle.dependencyVersion = some v → e.version ≤ v

/-- A bundle requires as much as a change set in it exactly if it hears the change set. -/
theorem required_le_iff (hrow : es.Pairwise (·.version < ·.version))
    (h : (delta key?).mergeAll es = some bundle) (he : e ∈ es) :
    e.required ≤ bundle.required ↔ Heard bundle e := by
  cases hnamed : e.dependencyVersion with
  | some v =>
      obtain ⟨w, hw, hvw⟩ := reachedBy_of_mergeAll h he hnamed
      rw [Envelope.required_of_named hnamed, Envelope.required_of_named hw]
      simp only [Heard, hnamed, reduceCtorEq, false_implies, iff_true]
      exact hvw
  | none =>
      rw [Envelope.required_of_unnamed hnamed]
      cases hbundle : bundle.dependencyVersion with
      | none =>
          rw [Envelope.required_of_unnamed hbundle]
          simp only [Heard, hbundle, reduceCtorEq, false_implies, implies_true, iff_true]
          exact le_version_of_mergeAll hrow h he
      | some w =>
          rw [Envelope.required_of_named hbundle]
          simp [Heard, hnamed, hbundle]

/-- Where a bundle may run, each change set that it hears could have run on its own. -/
theorem satisfied_of_mergeAll (hrow : es.Pairwise (·.version < ·.version))
    (h : (delta key?).mergeAll es = some bundle) (he : e ∈ es) (hheard : Heard bundle e)
    {l : Leaf} {x : Registration} (hsat : l.satisfied x bundle = true) :
    l.satisfied x e = true :=
  Leaf.satisfied_of_required_le ((required_le_iff hrow h he).2 hheard) hsat

/-! ### Two change sets -/

/-- A newer change set is merged with what waits. The bundle requires as much as each of the
two exactly if it hears both, and then it is not handed out before each of the two could have
been on its own. Both are heard where both name a version, and where neither does; but if only
one names a version, it must be no earlier than the version of the other. -/
theorem merge_keeps_requirement (key? : Option String) (base incoming : Envelope)
    (hnewer : incoming.version.newerThan base.version = true) :
    let merged := (delta key?).merge base incoming
    (base.required ≤ merged.required ∧ incoming.required ≤ merged.required ↔
      Heard merged base ∧ Heard merged incoming) ∧
    (Heard merged base ↔ base.dependencyVersion = none →
      ∀ v, incoming.dependencyVersion = some v → base.version ≤ v) ∧
    (Heard merged incoming ↔ incoming.dependencyVersion = none →
      ∀ v, base.dependencyVersion = some v → incoming.version ≤ v) ∧
    ∀ (l : Leaf) (x : Registration), l.satisfied x merged = true →
      (Heard merged base → l.satisfied x base = true) ∧
        (Heard merged incoming → l.satisfied x incoming = true) := by
  intro merged
  have hrow : [base, incoming].Pairwise (·.version < ·.version) := by
    simpa [Version.newerThan] using hnewer
  have hmerged : (delta key?).mergeAll [base, incoming] = some merged := rfl
  have hbase := required_le_iff hrow hmerged (e := base) (by simp)
  have hincoming := required_le_iff hrow hmerged (e := incoming) (by simp)
  have hnamed : merged.dependencyVersion =
      Version.maxOption incoming.dependencyVersion base.dependencyVersion := rfl
  refine ⟨by rw [hbase, hincoming], ?_, ?_, ?_⟩
  · refine forall_congr' fun hnone => ?_
    rw [hnamed, hnone]
    cases incoming.dependencyVersion <;> rfl
  · refine forall_congr' fun hnone => ?_
    rw [hnamed, hnone]
    rfl
  · intro l x hsat
    exact ⟨fun hheard => satisfied_of_mergeAll hrow hmerged (by simp) hheard hsat,
      fun hheard => satisfied_of_mergeAll hrow hmerged (by simp) hheard hsat⟩

/-- Changes of the compliance that name the clusters they are about, and are both heard. -/
theorem merge_keeps_requirement_compliance :
    let changes (value clusters : UInt64) : Envelope :=
      ⟨"1.0", "compliance", "hub", "changes", ⟨0, 0, 0⟩, ⟨0, value⟩, some ⟨0, clusters⟩, []⟩
    (changes 6 2).version.newerThan (changes 5 3).version = true ∧
      (changes 5 3).required ≤ ((delta none).merge (changes 5 3) (changes 6 2)).required ∧
      (changes 6 2).required ≤ ((delta none).merge (changes 5 3) (changes 6 2)).required := by
  intro changes
  have hnewer : (changes 6 2).version.newerThan (changes 5 3).version = true := by decide
  obtain ⟨hkept, hbase, hincoming, _⟩ :=
    merge_keeps_requirement none (changes 5 3) (changes 6 2) hnewer
  exact ⟨hnewer, hkept.2 ⟨hbase.2 nofun, hincoming.2 nofun⟩⟩

/-- A change set that names nothing waits for the clusters of its own version. It goes on
waiting alone, but is handed out, with the same clusters processed, after a newer change set
has joined it that names an early version. -/
theorem requirement_weakened :
    let clusters : Envelope := ⟨"1.0", "A", "hub1", "clusters", ⟨0, 0, 0⟩, ⟨0, 1⟩, none, []⟩
    let base : Envelope := ⟨"1.0", "D", "hub1", "base", ⟨0, 0, 0⟩, ⟨0, 5⟩, none, []⟩
    let incoming : Envelope :=
      ⟨"1.0", "D", "hub1", "incoming", ⟨0, 0, 0⟩, ⟨0, 6⟩, some ⟨0, 1⟩, []⟩
    let calls : List Registration := [.complete "A" 0 none, ⟨"D", 0, some "A", .delta none⟩]
    let before : List Aggregator.Operation :=
      [.insert clusters ⟨"status", 0, 0⟩ 0, .work .pop, .work (.claim "hub1" "A"),
        .work (.complete "hub1" "A" .succeeded), .insert base ⟨"status", 0, 1⟩ 1]
    let a := (Aggregator.fresh (Registry.ofCalls calls)).run before
    incoming.version.newerThan base.version = true ∧
      ¬ base.required ≤ ((delta none).merge base incoming).required ∧
      (a.claim "hub1" "D").2.isNone = true ∧
      ((a.step (.insert incoming ⟨"status", 0, 2⟩ 2)).claim "hub1" "D").2.isSome = true := by
  decide +kernel

end SyncMode

end Conflux
