import Conflux.Proofs.Extent
import Conflux.Proofs.Slot

/-!
How far a slot reaches: the last offset of the newest content that it has, or, if it has
none, of the content that left it last. As long as each bundle that comes in ends behind
all that came before, the reach never goes back, and all that the slot has lies within it.
Content that failed and content that was superseded is no exception, since what stands for
it reaches as far.
-/

namespace Conflux

theorem Position.earlier_within {p q : Position} {a b : UInt64} (hp : p.offset ≤ a)
    (hq : q.offset ≤ b) : (p.earlier q).offset ≤ max a b := by
  obtain ⟨hleft, hright⟩ := le_max_offset a b
  rcases p.earlier_eq_or q with he | he
  · rw [he]
    exact UInt64.le_trans hp hleft
  · rw [he]
    exact UInt64.le_trans hq hright

namespace Slot

def reach? (s : Slot) : Option UInt64 :=
  (s.buffered.map (·.lastOffset)).or
    ((s.running.map (·.lastOffset)).or (s.settled.map (·.1.offset)))

def Reaches (s : Slot) (o : UInt64) : Prop := ∃ x, s.reach? = some x ∧ o ≤ x

/-- A bundle that comes in ends behind all that the slot has, and not before `floor`. -/
def Late (s : Slot) (floor : UInt64) (seen : Happening) : Prop :=
  ∀ e position lastOffset, seen = .accepted e position lastOffset →
    position.offset ≤ lastOffset ∧ floor ≤ lastOffset ∧ ∀ x, s.reach? = some x → x ≤ lastOffset

variable {mode : SyncMode} {s core : Slot} {seen : Happening} {o floor : UInt64}

theorem reach?_of_buffered {b : Buffered} (h : s.buffered = some b) :
    s.reach? = some b.lastOffset := by
  rw [reach?, h]
  rfl

theorem reach?_of_running {r : Running} (hb : s.buffered = none) (h : s.running = some r) :
    s.reach? = some r.lastOffset := by
  rw [reach?, hb, h]
  rfl

theorem reach?_of_settled (hb : s.buffered = none) (hr : s.running = none) :
    s.reach? = s.settled.map (·.1.offset) := by
  rw [reach?, hb, hr]
  rfl

/-- With a bundle that comes in the slot reaches as far as that. -/
theorem reaches_buffer (s : Slot) (mode : SyncMode) (e : Envelope) (position : Position)
    (lastOffset : UInt64) : (s.buffer mode e position lastOffset).Reaches lastOffset := by
  cases hb : s.buffered with
  | none =>
      refine ⟨lastOffset, ?_, UInt64.le_refl _⟩
      rw [reach?, buffer, hb]
      rfl
  | some b =>
      refine ⟨max b.lastOffset lastOffset, ?_, (le_max_offset b.lastOffset lastOffset).2⟩
      rw [reach?, buffer, hb]
      rfl

theorem Reaches.trans {o' : UInt64} (h : s.Reaches o') (hle : o ≤ o') : s.Reaches o := by
  obtain ⟨x, hx, hx'⟩ := h
  exact ⟨x, hx, UInt64.le_trans hle hx'⟩

theorem Step.reach (h : Step mode s seen core) (hlate : s.Late floor seen) {x : UInt64}
    (hx : s.reach? = some x) : core.Reaches x := by
  cases h with
  | keep | refuse | rest => exact ⟨x, hx, UInt64.le_refl x⟩
  | @accept e position lastOffset =>
      exact (s.reaches_buffer mode e position lastOffset).trans ((hlate _ _ _ rfl).2.2 x hx)
  | start hb hr =>
      rw [reach?_of_buffered hb] at hx
      exact ⟨x, hx, UInt64.le_refl x⟩
  | succeed hr | drop hr =>
      refine ⟨x, ?_, UInt64.le_refl x⟩
      rw [← hx, reach?, reach?, hr]
      cases s.buffered <;> rfl
  | supersede hr hb =>
      refine ⟨x, ?_, UInt64.le_refl x⟩
      rw [← hx, reach?_of_buffered hb]
      exact reach?_of_buffered hb
  | putBack hr hb =>
      rw [reach?_of_running hb hr] at hx
      exact ⟨x, hx, UInt64.le_refl x⟩
  | @putBeneath r b _ hr hb =>
      rw [reach?_of_buffered hb] at hx
      obtain rfl := Option.some.inj hx
      exact ⟨_, reach?_of_buffered rfl, (le_max_offset r.lastOffset b.lastOffset).2⟩

theorem Reaches.step (h : s.Reaches o) (hstep : Step mode s seen core)
    (hlate : s.Late floor seen) : core.Reaches o := by
  obtain ⟨x, hx, hle⟩ := h
  exact (hstep.reach hlate hx).trans hle

theorem Reaches.woken {n : Nat} (h : core.Reaches o) (hwoken : Woken core n s) : s.Reaches o := by
  cases hwoken <;> exact h

/-- All that the slot has lies within its reach. -/
structure Within (s : Slot) : Prop where
  settled : ∀ p v, s.settled = some (p, v) → s.Reaches p.offset
  running : ∀ r, s.running = some r → r.position.offset ≤ r.lastOffset ∧ s.Reaches r.lastOffset
  buffered : ∀ b, s.buffered = some b → b.position.offset ≤ b.lastOffset

theorem Within.step (h : s.Within) (hstep : Step mode s seen core) (hlate : s.Late floor seen) :
    core.Within := by
  have hkeeps {x : UInt64} (hx : s.Reaches x) : core.Reaches x := hx.step hstep hlate
  cases hstep with
  | keep | refuse | rest => exact ⟨h.settled, h.running, h.buffered⟩
  | @accept e position lastOffset =>
      refine ⟨fun p v hp => hkeeps (h.settled p v hp), fun r hr => ?_, fun b hb => ?_⟩
      · exact ⟨(h.running r hr).1, hkeeps (h.running r hr).2⟩
      · have hnew := (hlate _ _ _ rfl).1
        obtain rfl := Option.some.inj hb
        cases hwaits : s.buffered with
        | none => exact hnew
        | some b =>
            cases mode with
            | complete => exact UInt64.le_trans hnew (le_max_offset b.lastOffset lastOffset).2
            | delta key? => exact Position.earlier_within (h.buffered b hwaits) hnew
  | @start b _ hb hr =>
      refine ⟨fun p v hp => hkeeps (h.settled p v hp), ?_, nofun⟩
      rintro _ ⟨⟩
      exact ⟨h.buffered b hb, _, reach?_of_running rfl rfl, UInt64.le_refl _⟩
  | succeed hr | drop hr =>
      refine ⟨?_, nofun, h.buffered⟩
      rintro _ _ ⟨⟩
      exact hkeeps (h.running _ hr).2
  | supersede hr hb =>
      exact ⟨fun p v hp => hkeeps (h.settled p v hp), nofun, h.buffered⟩
  | putBack hr hb =>
      refine ⟨fun p v hp => hkeeps (h.settled p v hp), nofun, ?_⟩
      rintro _ ⟨⟩
      exact (h.running _ hr).1
  | putBeneath hr hb =>
      refine ⟨fun p v hp => hkeeps (h.settled p v hp), nofun, ?_⟩
      rintro _ ⟨⟩
      exact Position.earlier_within (h.running _ hr).1 (h.buffered _ hb)

theorem Within.woken {n : Nat} (h : core.Within) (hwoken : Woken core n s) : s.Within := by
  cases hwoken with
  | asleep => exact h
  | woken => exact ⟨h.settled, h.running, h.buffered⟩

/-- The slot has nothing, and what left it last is `left`, or something came in that ends
behind `floor`. -/
def Untouched (s : Slot) (left : Option (Position × Version)) (floor : UInt64) : Prop :=
  s.buffered = none ∧ s.running = none ∧ s.settled = left ∨ s.Reaches floor

theorem Untouched.step {left : Option (Position × Version)} (h : s.Untouched left floor)
    (hstep : Step mode s seen core) (hlate : s.Late floor seen) : core.Untouched left floor := by
  rcases h with ⟨hb, hr, hleft⟩ | h
  · cases hstep with
    | keep | refuse | rest => exact .inl ⟨hb, hr, hleft⟩
    | @accept e position lastOffset =>
        have hreaches := s.reaches_buffer mode e position lastOffset
        exact .inr (hreaches.trans (hlate _ _ _ rfl).2.1)
    | start hb' => cases hb.symm.trans hb'
    | succeed hr' | drop hr' | supersede hr' | putBack hr' | putBeneath hr' =>
        cases hr.symm.trans hr'
  · exact .inr (h.step hstep hlate)

theorem Untouched.woken {left : Option (Position × Version)} {n : Nat}
    (h : core.Untouched left floor) (hwoken : Woken core n s) : s.Untouched left floor := by
  cases hwoken <;> exact h

end Slot

end Conflux
