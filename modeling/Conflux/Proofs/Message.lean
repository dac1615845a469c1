import Conflux.Pipeline
import Mathlib.Tactic.SplitIfs

/-!
Which stream a bundle came on. The key of a message ends in a point and its identifier;
the identifier is the type of the bundle inside, and what stands before is its source.
So the key of a message with a bundle in it is that of the bundle's source and type.
-/

namespace Conflux

namespace Message

theorem stripEnd?_eq_some_iff {ending cs rest : List Char} :
    stripEnd? ending cs = some rest ↔ cs = rest ++ ending := by
  have hstrip (front : List Char) : stripEnd? ending (front ++ ending) = some front := by
    rw [stripEnd?, if_pos (List.isSuffixOf_iff_suffix.2 (List.suffix_append front ending)),
      List.length_append, Nat.add_sub_cancel, List.take_left']
    rfl
  constructor
  · intro h
    rw [stripEnd?] at h
    split at h
    · next hsuffix =>
        obtain ⟨front, rfl⟩ := List.isSuffixOf_iff_suffix.1 hsuffix
        have hfront := hstrip front
        rw [stripEnd?, if_pos hsuffix] at hfront
        rw [Option.some.inj (h.symm.trans hfront)]
    · cases h
  · rintro rfl
    exact hstrip rest

/-- A source is named if the key is that of the source, and of the identifier as the type. The
source may have points in it, and so may the identifier. -/
theorem source?_eq_some_iff {m : Message} {source : String} :
    m.source? = some source ↔ source ≠ "" ∧ m.key = Envelope.streamKey source m.id := by
  have hkey (front : List Char) :
      (stripEnd? m.id.toList m.key.toList).bind (stripEnd? ['.']) = some front ↔
        m.key = Envelope.streamKey (String.ofList front) m.id := by
    simp only [Option.bind_eq_some_iff, stripEnd?_eq_some_iff, Envelope.streamKey,
      ← String.toList_inj, String.toList_append, String.toList_ofList]
    constructor
    · rintro ⟨_, hcs, rfl⟩
      exact hcs
    · intro hcs
      exact ⟨_, hcs, rfl⟩
  rw [source?]
  constructor
  · intro h
    split at h
    · next c cs hfront =>
        obtain rfl := Option.some.inj h
        exact ⟨fun hempty => by simpa using congrArg String.toList hempty, (hkey _).1 hfront⟩
    · cases h
  · rintro ⟨hne, h⟩
    rw [← String.ofList_toList (s := source)] at h
    rw [(hkey _).2 h]
    cases hcs : source.toList with
    | nil => exact absurd (String.toList_inj.1 hcs) hne
    | cons c cs => simp [← hcs]

/-- What is inside agrees with the wrapper in type and version. -/
theorem open?_eq_ok_iff {m : Message} {e : Envelope} :
    m.open? = .ok e ↔ Version.parse m.version = .ok e.version ∧
      Envelope.decode m.payload = .ok e ∧ e.bundleType = m.id := by
  rw [open?]
  cases Version.parse m.version with
  | error x =>
      constructor
      · intro h
        cases h
      · rintro ⟨h, _⟩
        cases h
  | ok version =>
      cases Envelope.decode m.payload with
      | error x =>
          constructor
          · intro h
            cases h
          · rintro ⟨_, h, _⟩
            cases h
      | ok d =>
          change (if d.bundleType ≠ m.id then .error (.typeMismatch m.id d.bundleType)
            else if d.version ≠ version then
              .error (.versionMismatch m.version d.version.text)
            else .ok d : Except OpenError Envelope) = .ok e ↔ _
          constructor
          · intro h
            split_ifs at h with htype hversion
            obtain rfl := Except.ok.inj h
            exact ⟨congrArg _ (Decidable.not_not.1 hversion).symm, rfl, Decidable.not_not.1 htype⟩
          · rintro ⟨hv, hd, hid⟩
            obtain rfl := Except.ok.inj hd
            rw [if_neg (not_not_intro hid), if_neg (not_not_intro (Except.ok.inj hv).symm)]

end Message

namespace Pipeline

theorem bundle?_eq_some_iff {m : Message} {e : Envelope} :
    bundle? m = some e ↔ m.open? = .ok e ∧ m.source? = some e.source := by
  rw [bundle?]
  cases m.open? with
  | error x => exact ⟨nofun, fun h => nomatch h.1⟩
  | ok d =>
      dsimp only
      split
      · next hsource =>
          rw [Option.some.injEq, Except.ok.injEq]
          refine ⟨?_, And.left⟩
          rintro rfl
          exact ⟨rfl, hsource⟩
      · next hsource =>
          refine ⟨nofun, fun ⟨hd, hs⟩ => ?_⟩
          obtain rfl := Except.ok.inj hd
          exact absurd hs hsource

theorem key_of_bundle? {m : Message} {e : Envelope} (h : bundle? m = some e) :
    m.key = Envelope.streamKey e.source e.bundleType := by
  obtain ⟨hopen, hsource⟩ := bundle?_eq_some_iff.1 h
  rw [(Message.source?_eq_some_iff.1 hsource).2, (Message.open?_eq_ok_iff.1 hopen).2.2]

end Pipeline

end Conflux
