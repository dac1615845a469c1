import Conflux.Proofs.Aggregator.Blocks
import Conflux.Proofs.Crew

/-!
How often content is tried. The envelopes that a slot accepts go by number, in the order of
their coming. Which numbers a bundle is made of is read off what was seen to happen: a delta
that joins another adds its number, a complete bundle replaces what waited, a failed bundle
gives its numbers to the one that waits, and what leaves or is superseded is forgotten.
Whenever a bundle is handed out, all its numbers have one trial more.

A slot itself does not count by envelope. It has one counter for each bundle, which starts at
zero, goes along with the bundle, and becomes the larger of two where bundles are joined. So it
is never below the trials of any envelope in the bundle (`Spent`), and whoever bounds the
counter bounds the trials.
-/

namespace Conflux.Slot

structure Trials where
  /-- How many envelopes were accepted. This is the number of the next one. -/
  accepted : Nat
  /-- The envelopes in the bundle at work. -/
  running : List Nat
  /-- The envelopes in the bundle that waits. -/
  buffered : List Nat
  /-- How many of the bundles that were handed out had the envelope in them. -/
  count : Nat → Nat

namespace Trials

def blank : Trials := ⟨0, [], [], fun _ => 0⟩

def next (mode : SyncMode) (p : Trials) : Happening → Trials
  | .accepted _ _ _ =>
      { p with
        accepted := p.accepted + 1
        buffered := if mode.isDelta then p.buffered ++ [p.accepted] else [p.accepted] }
  | .started _ =>
      { p with
        running := p.buffered
        buffered := []
        count := fun i => p.count i + if i ∈ p.buffered then 1 else 0 }
  | .finished _ _ (.retry _) => { p with running := [], buffered := p.running ++ p.buffered }
  | .finished _ _ .processed | .finished _ _ .superseded | .finished _ _ (.dropped _ _) =>
      { p with running := [] }
  | .finished _ _ .notInFlight | .nothing | .refused | .rested => p

/-- A number is given once, and is in one bundle at most. -/
structure Sound (p : Trials) : Prop where
  running_lt : ∀ i ∈ p.running, i < p.accepted
  buffered_lt : ∀ i ∈ p.buffered, i < p.accepted
  apart : ∀ i ∈ p.running, i ∉ p.buffered
  untried : ∀ i, p.accepted ≤ i → p.count i = 0

variable {mode : SyncMode} {p : Trials} {seen : Happening} {i : Nat}

theorem sound_blank : blank.Sound where
  running_lt _ h := nomatch h
  buffered_lt _ h := nomatch h
  apart _ h := nomatch h
  untried _ _ := rfl

theorem Sound.accept (h : p.Sound) (e : Envelope) (position : Position) (lastOffset : UInt64) :
    (p.next mode (.accepted e position lastOffset)).Sound := by
  have hbuffered : ∀ i ∈ (p.next mode (.accepted e position lastOffset)).buffered,
      i ∈ p.buffered ∨ i = p.accepted := by
    intro i hi
    cases mode with
    | complete => exact .inr (List.mem_singleton.1 hi)
    | delta key? => simpa [next, SyncMode.isDelta] using hi
  refine ⟨fun i hi => Nat.lt_succ_of_lt (h.running_lt i hi), fun i hi => ?_, fun i hi hi' => ?_,
    fun i hi => h.untried i (Nat.le_of_succ_le hi)⟩
  · rcases hbuffered i hi with hi | rfl
    · exact Nat.lt_succ_of_lt (h.buffered_lt i hi)
    · exact Nat.lt_succ_self _
  · rcases hbuffered i hi' with hi' | rfl
    · exact h.apart i hi hi'
    · exact absurd (h.running_lt _ hi) (Nat.lt_irrefl _)

theorem Sound.start (h : p.Sound) (c : Claim) : (p.next mode (.started c)).Sound where
  running_lt := h.buffered_lt
  buffered_lt _ hi := nomatch hi
  apart _ _ hi := nomatch hi
  untried i hi := by
    have hnot : i ∉ p.buffered := fun hmem => Nat.not_lt_of_le hi (h.buffered_lt i hmem)
    simp [next, hnot, h.untried i hi]

theorem Sound.next (h : p.Sound) (seen : Happening) : (p.next mode seen).Sound := by
  match seen with
  | .nothing | .refused | .rested | .finished _ _ .notInFlight => exact h
  | .accepted e position lastOffset => exact h.accept e position lastOffset
  | .started c => exact h.start c
  | .finished _ _ .processed | .finished _ _ .superseded | .finished _ _ (.dropped _ _) =>
      exact ⟨fun _ hi => (nomatch hi), h.buffered_lt, fun _ hi => (nomatch hi), h.untried⟩
  | .finished _ _ (.retry _) =>
      refine ⟨fun _ hi => (nomatch hi), fun i hi => ?_, fun _ hi => (nomatch hi), h.untried⟩
      rcases List.mem_append.1 hi with hi | hi
      · exact h.running_lt i hi
      · exact h.buffered_lt i hi

/-- The envelope was in the slot and is in it no more. -/
structure Gone (p : Trials) (i : Nat) : Prop where
  lt : i < p.accepted
  not_running : i ∉ p.running
  not_buffered : i ∉ p.buffered

/-- What is gone does not come back, and is not tried again. -/
theorem Gone.next (h : p.Gone i) (mode : SyncMode) (seen : Happening) :
    (p.next mode seen).Gone i ∧ (p.next mode seen).count i = p.count i := by
  match seen with
  | .nothing | .refused | .rested | .finished _ _ .notInFlight => exact ⟨h, rfl⟩
  | .accepted e position lastOffset =>
      refine ⟨⟨Nat.lt_succ_of_lt h.lt, h.not_running, ?_⟩, rfl⟩
      have hne : i ≠ p.accepted := Nat.ne_of_lt h.lt
      cases mode <;> simp [Trials.next, SyncMode.isDelta, h.not_buffered, hne]
  | .started c =>
      refine ⟨⟨h.lt, h.not_buffered, nofun⟩, ?_⟩
      simp [Trials.next, h.not_buffered]
  | .finished _ _ .processed | .finished _ _ .superseded | .finished _ _ (.dropped _ _) =>
      exact ⟨⟨h.lt, nofun, h.not_buffered⟩, rfl⟩
  | .finished _ _ (.retry _) =>
      exact ⟨⟨h.lt, nofun, by simp [Trials.next, h.not_running, h.not_buffered]⟩, rfl⟩

theorem Gone.foldl (h : p.Gone i) (mode : SyncMode) (future : List Happening) :
    (future.foldl (Trials.next mode) p).count i = p.count i := by
  induction future generalizing p with
  | nil => rfl
  | cons seen future ih =>
      obtain ⟨hgone, hcount⟩ := h.next mode seen
      exact (ih hgone).trans hcount

/-- A bundle that is dropped takes all its envelopes along. -/
theorem Sound.gone (h : p.Sound) {done : Running} {verdict : Verdict} {v : Version} {n : Nat}
    (hi : i ∈ p.running) : (p.next mode (.finished done verdict (.dropped v n))).Gone i :=
  ⟨h.running_lt i hi, nofun, h.apart i hi⟩

end Trials

/-- What has been tried, and how often, when all this has happened. -/
def trials (mode : SyncMode) (past : List Happening) : Trials :=
  past.foldl (Trials.next mode) .blank

variable {mode : SyncMode} {m : Nat} {past : List Happening} {s core : Slot} {seen : Happening}

theorem trials_concat (mode : SyncMode) (past : List Happening) (seen : Happening) :
    trials mode (past ++ [seen]) = (trials mode past).next mode seen := by
  rw [trials, List.foldl_append]
  rfl

theorem trials_append (mode : SyncMode) (past future : List Happening) :
    trials mode (past ++ future) = future.foldl (Trials.next mode) (trials mode past) :=
  List.foldl_append

theorem sound_trials (mode : SyncMode) (past : List Happening) : (trials mode past).Sound := by
  induction past using List.reverseRecOn with
  | nil => exact Trials.sound_blank
  | append_singleton past seen ih =>
      rw [trials_concat]
      exact ih.next seen

theorem accepted_trials (mode : SyncMode) (past : List Happening) :
    (trials mode past).accepted = (past.filterMap (·.accepted?)).length := by
  induction past using List.reverseRecOn with
  | nil => rfl
  | append_singleton past seen ih =>
      rw [trials_concat, List.filterMap_append, List.length_append, ← ih]
      match seen with
      | .nothing | .refused | .rested | .accepted _ _ _ | .started _ => rfl
      | .finished _ _ .processed | .finished _ _ .superseded | .finished _ _ (.dropped _ _) => rfl
      | .finished _ _ (.retry _) | .finished _ _ .notInFlight => rfl

/-! ### The content behind the numbers -/

def pick (past : List Happening) (is : List Nat) : List Envelope :=
  is.filterMap fun i => (past.filterMap (·.accepted?))[i]?

theorem pick_append (past : List Happening) (is js : List Nat) :
    pick past (is ++ js) = pick past is ++ pick past js :=
  List.filterMap_append

theorem pick_concat {is : List Nat} (his : ∀ i ∈ is, i < (trials mode past).accepted)
    (seen : Happening) : pick (past ++ [seen]) is = pick past is := by
  rw [accepted_trials] at his
  refine List.filterMap_congr fun i hi => ?_
  rw [List.filterMap_append, List.getElem?_append_left (his i hi)]

theorem pick_new (mode : SyncMode) (past : List Happening) (e : Envelope) (position : Position)
    (lastOffset : UInt64) :
    pick (past ++ [.accepted e position lastOffset]) [(trials mode past).accepted] = [e] := by
  rw [accepted_trials, pick, List.filterMap_append]
  simp [Happening.accepted?]

theorem eq_nil_of_pick {is : List Nat} (his : ∀ i ∈ is, i < (trials mode past).accepted)
    (h : pick past is = []) : is = [] := by
  rw [accepted_trials] at his
  refine List.eq_nil_iff_forall_not_mem.2 fun i hi => ?_
  have hnone := List.filterMap_eq_nil_iff.1 h i hi
  rw [List.getElem?_eq_none_iff] at hnone
  exact Nat.not_le_of_lt (his i hi) hnone

/-- The bundles are what the envelopes of their numbers merge to. -/
structure Contents (mode : SyncMode) (past : List Happening) (s : Slot) : Prop where
  running : mode.mergeAll (pick past (trials mode past).running) = s.running.map (·.envelope)
  buffered : mode.mergeAll (pick past (trials mode past).buffered) = s.buffered.map (·.envelope)

theorem contents_empty (mode : SyncMode) : Contents mode [] empty := ⟨rfl, rfl⟩

theorem Contents.buffered_eq_nil (h : Contents mode past s) (hb : s.buffered = none) :
    (trials mode past).buffered = [] := by
  have hmerged := h.buffered
  rw [hb] at hmerged
  exact eq_nil_of_pick (sound_trials mode past).buffered_lt
    (SyncMode.mergeAll_eq_none_iff.1 hmerged)

theorem Contents.accept (h : Contents mode past s) (e : Envelope) (position : Position)
    (lastOffset : UInt64) :
    Contents mode (past ++ [.accepted e position lastOffset])
      (s.buffer mode e position lastOffset) := by
  have hsound := sound_trials mode past
  refine ⟨?_, ?_⟩
  · rw [trials_concat, Trials.next, pick_concat hsound.running_lt]
    exact h.running
  · rw [trials_concat, Trials.next, buffer]
    cases mode with
    | complete =>
        simp only [SyncMode.isDelta, Bool.false_eq_true, if_false, pick_new]
        cases s.buffered <;> rfl
    | delta key? =>
        simp only [SyncMode.isDelta, if_true, pick_append, pick_new,
          pick_concat hsound.buffered_lt]
        cases hb : s.buffered with
        | none =>
            rw [h.buffered_eq_nil hb]
            rfl
        | some b =>
            have hmerged := h.buffered
            rw [hb] at hmerged
            exact SyncMode.mergeAll_concat hmerged e

/-- The bundle at work gives its numbers to the one that waits. -/
theorem contents_putBack {r : Running} {verdict : Verdict} {attempt : Nat} {b : Buffered}
    (hr : core.running = none) (hb : core.buffered = some b)
    (hjoined : mode.mergeAll (pick past (trials mode past).running ++
      pick past (trials mode past).buffered) = some b.envelope) :
    Contents mode (past ++ [.finished r verdict (.retry attempt)]) core := by
  have hsound := sound_trials mode past
  refine ⟨?_, ?_⟩
  · rw [trials_concat, hr]
    rfl
  · rw [trials_concat, Trials.next, pick_append, pick_concat hsound.running_lt,
      pick_concat hsound.buffered_lt, hjoined, hb]
    rfl

theorem Contents.step (h : Contents mode past s) (hstep : Step mode s seen core) :
    Contents mode (past ++ [seen]) core := by
  have hsound := sound_trials mode past
  have hrunning := pick_concat hsound.running_lt seen
  have hbuffered := pick_concat hsound.buffered_lt seen
  cases hstep with
  | keep | refuse | rest =>
      refine ⟨?_, ?_⟩
      · rw [trials_concat, Trials.next, hrunning]
        exact h.running
      · rw [trials_concat, Trials.next, hbuffered]
        exact h.buffered
  | accept => exact h.accept _ _ _
  | start hb =>
      refine ⟨?_, by rw [trials_concat]; rfl⟩
      rw [trials_concat, Trials.next, hbuffered, h.buffered, hb]
      rfl
  | succeed | drop | supersede =>
      refine ⟨by rw [trials_concat]; rfl, ?_⟩
      rw [trials_concat, Trials.next, hbuffered]
      exact h.buffered
  | putBack hr hb =>
      have hnil : pick past (trials mode past).buffered = [] := by
        rw [h.buffered_eq_nil hb]
        rfl
      refine contents_putBack rfl rfl ?_
      rw [hnil, List.append_nil, h.running, hr]
      rfl
  | putBeneath hr hb =>
      have hrun := h.running
      have hwait := h.buffered
      rw [hr] at hrun
      rw [hb] at hwait
      exact contents_putBack rfl rfl (SyncMode.mergeAll_append hrun hwait)

theorem Contents.woken {n : Nat} (h : Contents mode past core) (hwoken : Woken core n s) :
    Contents mode past s := by
  cases hwoken with
  | asleep => exact h
  | woken => exact ⟨h.running, h.buffered⟩

/-! ### The counter of a bundle -/

/-- A run that failed had so many attempts in all. -/
def Happening.Allows (m : Nat) : Happening → Prop
  | .finished _ (.failed n) _ => n = m
  | _ => True

/-- No envelope has more trials than the bundle it is in says, and no bundle says more than is
allowed. -/
structure Spent (mode : SyncMode) (m : Nat) (past : List Happening) (s : Slot) : Prop where
  count_le : ∀ i, (trials mode past).count i ≤ m
  running : ∀ r, s.running = some r → r.attempt ≤ m ∧
    ∀ i ∈ (trials mode past).running, (trials mode past).count i ≤ r.attempt
  buffered : ∀ b, s.buffered = some b → b.attempts < m ∧
    ∀ i ∈ (trials mode past).buffered, (trials mode past).count i ≤ b.attempts

theorem spent_empty (mode : SyncMode) (m : Nat) : Spent mode m [] empty where
  count_le _ := Nat.zero_le _
  running _ h := (nomatch h)
  buffered _ h := (nomatch h)

theorem Spent.accept (h : Spent mode m past s) (hm : 1 ≤ m) (hcontents : Contents mode past s)
    (e : Envelope) (position : Position) (lastOffset : UInt64) :
    Spent mode m (past ++ [.accepted e position lastOffset])
      (s.buffer mode e position lastOffset) := by
  have hnew : (trials mode past).count (trials mode past).accepted = 0 :=
    (sound_trials mode past).untried _ (Nat.le_refl _)
  refine ⟨?_, ?_, fun b hb => ?_⟩
  · rw [trials_concat]
    exact h.count_le
  · rw [trials_concat]
    exact h.running
  · obtain rfl := Option.some.inj hb
    rw [trials_concat, Trials.next]
    cases hwaits : s.buffered with
    | none =>
        have hnil := hcontents.buffered_eq_nil hwaits
        refine ⟨hm, fun i hi => ?_⟩
        have hi : i = (trials mode past).accepted := by
          cases mode <;> simpa [SyncMode.isDelta, hnil] using hi
        rw [hi]
        exact hnew.le
    | some b =>
        obtain ⟨hlt, hcount⟩ := h.buffered b hwaits
        cases mode with
        | complete =>
            -- What waited is replaced, and with it its failures.
            refine ⟨hm, fun i hi => ?_⟩
            rw [List.mem_singleton.1 hi]
            exact hnew.le
        | delta key? =>
            refine ⟨hlt, fun i hi => ?_⟩
            rcases List.mem_append.1 hi with hi | hi
            · exact hcount i hi
            · rw [List.mem_singleton.1 hi]
              exact hnew.le.trans (Nat.zero_le _)

theorem Spent.start {b : Buffered} (h : Spent mode m past s) (hb : s.buffered = some b)
    (c : Claim) :
    Spent mode m (past ++ [.started c])
      { s with buffered := none, running := some b.start, queued := false } := by
  obtain ⟨hlt, hcount⟩ := h.buffered b hb
  have hone : ∀ i ∈ (trials mode past).buffered,
      (trials mode (past ++ [.started c])).count i ≤ b.attempts + 1 := by
    intro i hi
    rw [trials_concat, Trials.next]
    simpa [hi] using hcount i hi
  refine ⟨fun i => ?_, fun r hr => ?_, fun _ hno => (nomatch hno)⟩
  · by_cases hi : i ∈ (trials mode past).buffered
    · exact (hone i hi).trans hlt
    · rw [trials_concat, Trials.next]
      simpa [hi] using h.count_le i
  · obtain rfl := Option.some.inj hr
    refine ⟨hlt, fun i hi => hone i ?_⟩
    rwa [trials_concat] at hi

/-- The bundle at work is gone, and no other has changed. -/
theorem Spent.leave (h : Spent mode m past s)
    (hp : trials mode (past ++ [seen]) = { trials mode past with running := [] })
    (hr : core.running = none) (hb : core.buffered = s.buffered) :
    Spent mode m (past ++ [seen]) core := by
  refine ⟨?_, ?_, ?_⟩
  · rw [hp]
    exact h.count_le
  · intro r hno
    rw [hr] at hno
    cases hno
  · rw [hp, hb]
    exact h.buffered

theorem Spent.step (h : Spent mode m past s) (hm : 1 ≤ m) (hcontents : Contents mode past s)
    (hallows : seen.Allows m) (hstep : Step mode s seen core) :
    Spent mode m (past ++ [seen]) core := by
  cases hstep with
  | keep | refuse | rest =>
      refine ⟨?_, ?_, ?_⟩ <;> rw [trials_concat]
      · exact h.count_le
      · exact h.running
      · exact h.buffered
  | accept => exact h.accept hm hcontents _ _ _
  | start hb => exact h.start hb _
  | succeed | drop | supersede => exact h.leave (trials_concat mode past _) rfl rfl
  | putBack hr hb hlt =>
      obtain rfl : _ = m := hallows
      obtain ⟨_, hcount⟩ := h.running _ hr
      refine ⟨?_, fun _ hno => (nomatch hno), fun b hb' => ?_⟩
      · rw [trials_concat]
        exact h.count_le
      · obtain rfl := Option.some.inj hb'
        rw [trials_concat, Trials.next, hcontents.buffered_eq_nil hb, List.append_nil]
        exact ⟨hlt, hcount⟩
  | putBeneath hr hb hlt =>
      obtain rfl : _ = m := hallows
      obtain ⟨_, hcount⟩ := h.running _ hr
      obtain ⟨hlt', hcount'⟩ := h.buffered _ hb
      refine ⟨?_, fun _ hno => (nomatch hno), fun b hb' => ?_⟩
      · rw [trials_concat]
        exact h.count_le
      · obtain rfl := Option.some.inj hb'
        rw [trials_concat, Trials.next]
        refine ⟨max_lt hlt hlt', fun i hi => ?_⟩
        rcases List.mem_append.1 hi with hi | hi
        · exact (hcount i hi).trans (le_max_left _ _)
        · exact (hcount' i hi).trans (le_max_right _ _)

theorem Spent.woken {n : Nat} (h : Spent mode m past core) (hwoken : Woken core n s) :
    Spent mode m past s := by
  cases hwoken with
  | asleep => exact h
  | woken => exact ⟨h.count_le, h.running, h.buffered⟩

/-! ### The last claim -/

def Happening.claim? : Happening → Option Claim
  | .started c => some c
  | _ => none

def lastClaim? (past : List Happening) : Option Claim := (past.filterMap (·.claim?)).getLast?

/-- What is at work was handed out by the last claim. -/
def Claimed (past : List Happening) (s : Slot) : Prop :=
  s.running.isSome = true → ∃ c, lastClaim? past = some c ∧ s.Runs c

theorem claimed_empty : Claimed [] empty := nofun

theorem lastClaim?_concat_of_none (past : List Happening) (h : seen.claim? = none) :
    lastClaim? (past ++ [seen]) = lastClaim? past := by
  rw [lastClaim?, List.filterMap_append]
  simp [h, lastClaim?]

theorem Claimed.step (h : Claimed past s) (hstep : Step mode s seen core) :
    Claimed (past ++ [seen]) core := by
  intro hrunning
  have hstep' := hstep
  cases hstep with
  | keep | accept | refuse | rest =>
      obtain ⟨c, hc, hruns⟩ := h hrunning
      exact ⟨c, (lastClaim?_concat_of_none past rfl).trans hc, hruns.step hstep' rfl⟩
  | start =>
      refine ⟨_, ?_, runs_of_started hstep'⟩
      rw [lastClaim?, List.filterMap_append]
      simp [Happening.claim?]
  | succeed | drop | supersede | putBack | putBeneath => cases hrunning

theorem Claimed.woken {n : Nat} (h : Claimed past core) (hwoken : Woken core n s) :
    Claimed past s := by
  cases hwoken with
  | asleep => exact h
  | woken => exact h

/-! ### How a run ends -/

theorem Step.processed_of_succeeded {r : Running} {completion : Completion}
    (hstep : Step mode s (.finished r .succeeded completion) core) : completion = .processed := by
  cases hstep with
  | succeed => rfl

/-- A failed bundle is dropped at its last attempt. -/
theorem Step.dropped_iff {r : Running} {completion : Completion} (hle : r.attempt ≤ m)
    (hstep : Step mode s (.finished r (.failed m) completion) core) :
    (∃ v n, completion = .dropped v n) ↔ r.attempt = m := by
  cases hstep with
  | drop _ hm => exact ⟨fun _ => Nat.le_antisymm hle hm, fun _ => ⟨_, _, rfl⟩⟩
  | supersede _ _ hlt | putBack _ _ hlt | putBeneath _ _ hlt =>
      refine ⟨?_, fun h => absurd h hlt.ne⟩
      rintro ⟨v, n, hno⟩
      cases hno

end Conflux.Slot
