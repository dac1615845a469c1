import Conflux.Proofs.Aggregator.Totals
import Conflux.Proofs.Trials
import Mathlib.Algebra.Order.BigOperators.Group.List
import Mathlib.Algebra.Order.Group.Nat

/-!
Once nothing is inserted any more, the work ends. A failed bundle gets a new ticket, a bundle
that is processed may release others, and tickets that go bad are written again; yet no order of
the moves and no luck of the handlers keeps the workers busy for ever.

Each slot has so many `chances` left: what waits can be handed out once in any case, and until
it has had its attempts; where nothing waits, what is at work can come back. Whenever a run
begins, a chance is gone, and nothing but an insert gives one back. So a move makes the `load`
smaller, which weighs what there is to do:

- a ticket in the queue counts two and in a hand one, so taking and redeeming it each count one;
- a rest counts three, as it leaves one ticket behind at most;
- a chance and a run count so much that the end of a run pays for a rest, for a ticket of its own
  slot and for one ticket for each type that waits for the one that ran.
-/

namespace Conflux

/-- No type has more types waiting for it than this. -/
def Registry.fanOut (r : Registry) : Nat := (r.waiters.values.map List.length).sum

theorem Registry.length_dependents_le (r : Registry) (t : String) :
    (r.dependents t).length ≤ r.fanOut := by
  rw [dependents, fanOut]
  cases hts : r.waiters.get? t with
  | none => exact Nat.zero_le _
  | some ts =>
      have hmem : ts ∈ r.waiters.values :=
        List.mem_map_of_mem (f := Prod.snd) (Table.get?_eq_some_iff.1 hts)
      exact List.le_sum_of_mem (List.mem_map_of_mem hmem)

theorem ReadyQueue.size_pushAll (q : ReadyQueue) (ts : List Ticket) :
    (q.pushAll ts).size = q.size + ts.length := by
  rw [size, (q.pushAll_perm ts).length_eq, List.length_append, size, Nat.add_comm]

/-! ### How many tickets are written -/

namespace Leaf

theorem length_wake_le (l : Leaf) (r : Registry) (t : String) : (l.wake r t).2.length ≤ 1 := by
  obtain ⟨k, _, hw⟩ := l.wake_eq r t
  rw [hw]
  split <;> simp

theorem length_wakeAll_le (l : Leaf) (r : Registry) (ts : List String) :
    (l.wakeAll r ts).2.length ≤ ts.length := by
  induction ts generalizing l with
  | nil => exact Nat.le_refl 0
  | cons t ts ih =>
      change ((l.wake r t).2 ++ ((l.wake r t).1.wakeAll r ts).2).length ≤ ts.length + 1
      rw [List.length_append]
      have hfirst := l.length_wake_le r t
      have hrest := ih (l.wake r t).1
      omega

theorem length_complete_le (l : Leaf) (r : Registry) (t : String) (verdict : Verdict) :
    (l.complete r t verdict).tickets.length ≤ 1 + r.fanOut := by
  rw [complete]
  split
  · dsimp only
    split
    · exact Nat.zero_le _
    · refine (length_wakeAll_le _ r _).trans ?_
      rw [List.length_cons, Nat.add_comm]
      refine Nat.add_le_add_left ?_ 1
      split
      · exact r.length_dependents_le t
      · exact Nat.zero_le _
  · exact Nat.zero_le _

theorem length_endRest_le (l : Leaf) (r : Registry) (t : String) :
    (l.endRest r t).tickets.length ≤ 1 := by
  rw [endRest]
  split
  · exact length_wake_le _ r t
  · exact Nat.zero_le _

end Leaf

namespace Aggregator

variable {a : Aggregator} {m : Nat}

theorem size_apply {α : Type} (a : Aggregator) (source : String) (e : Leaf.Effect α) :
    (a.apply source e).queue.size = a.queue.size + e.tickets.length :=
  a.queue.size_pushAll e.tickets

theorem size_complete_le (a : Aggregator) (source t : String) (verdict : Verdict) :
    (a.work (.complete source t verdict)).queue.size ≤
      a.queue.size + (1 + a.registry.fanOut) := by
  rw [work, complete]
  split
  · exact Nat.le_add_right _ _
  · next l _ =>
      rw [size_apply]
      exact Nat.add_le_add_left (l.length_complete_le a.registry t verdict) _

theorem size_endRest_le (a : Aggregator) (source t : String) :
    (a.work (.endRest source t)).queue.size ≤ a.queue.size + 1 := by
  rw [work, endRest]
  split
  · exact Nat.le_succ _
  · next l _ =>
      rw [size_apply]
      exact Nat.add_le_add_left (l.length_endRest_le a.registry t) _

end Aggregator

/-! ### The chances of a slot -/

namespace Slot

/-- How often the slot can still hand something out, if nothing comes in and `m` attempts are
allowed. -/
def chances (m : Nat) (s : Slot) : Nat :=
  match s.buffered, s.running with
  | some b, _ => max 1 (m - b.attempts)
  | none, some r => m - r.attempt
  | none, none => 0

theorem chances_le {m : Nat} (hm : 1 ≤ m) (s : Slot) : s.chances m ≤ m := by
  rw [chances]
  split <;> omega

/-- What can happen to a slot while work is drained, if `m` attempts are allowed. -/
def Happening.Drains (m : Nat) (seen : Happening) : Prop :=
  seen.accepted? = none ∧ seen.Allows m

variable {mode : SyncMode} {m n : Nat} {s core : Slot} {seen : Happening}

/-- A run that begins takes a chance, and without an insert there is no new one. -/
theorem Step.chances (h : Step mode s seen core) (hseen : seen.Drains m) :
    core.chances m + seen.begun ≤ s.chances m := by
  obtain ⟨haccepted, hallows⟩ := hseen
  cases h with
  | keep | refuse | rest => exact Nat.le_refl _
  | accept => cases haccepted
  | start hb hr =>
      simp only [Slot.chances, hb, Buffered.start, Happening.begun]
      omega
  | succeed hr | drop hr | supersede hr hb =>
      cases hb : s.buffered <;> simp [Slot.chances, hb, hr, Happening.begun]
  | putBack hr hb hlt =>
      obtain rfl : _ = m := hallows
      simp only [Slot.chances, hb, hr, Running.again, Happening.begun]
      omega
  | putBeneath hr hb hlt =>
      simp only [Slot.chances, hb, Buffered.beneath, Happening.begun]
      omega

theorem Woken.chances (h : Woken core n s) : s.chances m = core.chances m := by
  cases h <;> rfl

/-- What there is to do at a slot, where the end of a run writes at most `1 + fanOut` tickets. -/
def load (m fanOut : Nat) (s : Slot) : Nat :=
  (6 + 2 * fanOut) * (s.chances m + s.atWork) + 3 * s.resting.toNat

/-- What happens at a slot makes its load smaller by the tickets that it may write. -/
theorem Step.load (h : Step mode s seen core) (hseen : seen.Drains m) (fanOut : Nat)
    (hrests : 0 < seen.paid → s.resting = true) :
    core.load m fanOut + (3 + 2 * fanOut) * seen.ended + 3 * seen.paid ≤ s.load m fanOut := by
  have hchances := h.chances hseen
  have hwork : core.atWork + seen.ended ≤ s.atWork + seen.begun := by
    cases h with
    | keep | refuse | rest | accept => exact Nat.le_refl _
    | start => exact Nat.le_add_left _ _
    | succeed hr | drop hr | supersede hr | putBack hr | putBeneath hr =>
        simp [atWork, hr, Happening.ended, Happening.begun]
  have hrest : core.resting.toNat + seen.paid ≤ s.resting.toNat + seen.ended := by
    cases h with
    | keep | refuse | accept | start => exact Nat.le_refl _
    | succeed | drop | supersede => exact Nat.le_add_right _ _
    | putBack | putBeneath => exact Nat.le_add_left _ _
    | rest => rw [hrests Nat.one_pos]; exact Nat.le_refl _
  have hweight : (6 + 2 * fanOut) * (core.chances m + core.atWork + seen.ended) ≤
      (6 + 2 * fanOut) * (s.chances m + s.atWork) := Nat.mul_le_mul_left _ (by omega)
  have hended : (6 + 2 * fanOut) * seen.ended =
      (3 + 2 * fanOut) * seen.ended + 3 * seen.ended := by
    rw [← Nat.add_mul]
    congr 1
    omega
  rw [Nat.mul_add, hended] at hweight
  rw [Slot.load, Slot.load]
  omega

end Slot

/-! ### Moves -/

/-- An aggregator, and the tickets that were taken from its queue and are not redeemed yet. -/
structure Drain where
  aggregator : Aggregator
  held : List Ticket

namespace Drain

open Aggregator (Work)

/-- The moves that are left. Which is made, and how the handlers do, is open. -/
def Allows (m : Nat) (d : Drain) : Work → Prop
  | .pop => d.aggregator.queue.waiting ≠ []
  | .claim source t => ∃ k ∈ d.held, k.isFor source t = true
  | .complete source t verdict =>
      (d.aggregator.slot source t).running.isSome = true ∧
        (verdict = .succeeded ∨ verdict = .failed m)
  | .endRest source t => (d.aggregator.slot source t).resting = true

instance (m : Nat) (d : Drain) : (w : Work) → Decidable (d.Allows m w)
  | .pop => inferInstanceAs (Decidable (_ ≠ []))
  | .claim _ _ => inferInstanceAs (Decidable (∃ k ∈ d.held, _))
  | .complete _ _ _ => inferInstanceAs (Decidable (_ ∧ (_ ∨ _)))
  | .endRest _ _ => inferInstanceAs (Decidable (_ = true))

def step (d : Drain) : Work → Drain
  | .pop => ⟨d.aggregator.work .pop, d.aggregator.queue.waiting.head?.toList ++ d.held⟩
  | .claim source t =>
      ⟨d.aggregator.work (.claim source t), d.held.eraseP (Ticket.isFor source t)⟩
  | .complete source t verdict => ⟨d.aggregator.work (.complete source t verdict), d.held⟩
  | .endRest source t => ⟨d.aggregator.work (.endRest source t), d.held⟩

def run (d : Drain) (ws : List Work) : Drain := ws.foldl step d

/-- Each move is one that is left when it is made. -/
def Follows (m : Nat) (d : Drain) : List Work → Prop
  | [] => True
  | w :: ws => d.Allows m w ∧ (d.step w).Follows m ws

instance decidableFollows (m : Nat) : (d : Drain) → (ws : List Work) → Decidable (d.Follows m ws)
  | _, [] => inferInstanceAs (Decidable True)
  | d, w :: ws =>
      have : Decidable ((d.step w).Follows m ws) := decidableFollows m (d.step w) ws
      inferInstanceAs (Decidable (d.Allows m w ∧ (d.step w).Follows m ws))

def load (m : Nat) (d : Drain) : Nat :=
  d.aggregator.total (Slot.load m d.aggregator.registry.fanOut) + 2 * d.aggregator.queue.size +
    d.held.length

variable {m : Nat} {d : Drain} {w : Work}

theorem aggregator_step (d : Drain) (w : Work) :
    (d.step w).aggregator = d.aggregator.step (.work w) := by
  cases w <;> rfl

theorem sound_step (h : d.aggregator.Sound) (w : Work) : (d.step w).aggregator.Sound := by
  rw [aggregator_step]
  exact h.step _

/-- No slot gets a bundle, and who fails is allowed `m` attempts. -/
theorem Allows.drains (h : d.Allows m w) (source t : String) :
    (d.aggregator.happening source t (.work w)).Drains m := by
  generalize hseen : d.aggregator.happening source t (.work w) = seen
  match seen with
  | .accepted _ _ _ => cases (Aggregator.happening_eq_accepted hseen).1
  | .finished _ (.failed n) _ =>
      obtain ⟨hw, _⟩ := Aggregator.happening_eq_finished hseen
      cases hw
      obtain ⟨_, hno | hm⟩ := h
      · cases hno
      · cases hm
        exact ⟨rfl, rfl⟩
  | .finished _ .succeeded _ | .nothing | .refused | .rested | .started _ =>
      exact ⟨rfl, trivial⟩

/-- Only a rest that is on is ended. -/
theorem Allows.rests (h : d.Allows m w) {source t : String}
    (hpaid : 0 < (d.aggregator.happening source t (.work w)).paid) :
    (d.aggregator.slot source t).resting = true := by
  match w with
  | .pop => cases hpaid
  | .claim s u | .complete s u verdict =>
      rw [Aggregator.happening] at hpaid
      split at hpaid
      · split at hpaid <;> cases hpaid
      · cases hpaid
  | .endRest s u =>
      rw [Aggregator.happening] at hpaid
      split at hpaid
      · next hsu => exact hsu.1 ▸ hsu.2 ▸ h
      · cases hpaid

/-- What the move does to the loads of the slots, where `source` and `t` are those it names. -/
theorem total_step (hsound : d.aggregator.Sound) (h : d.Allows m w) (source t : String)
    (fanOut : Nat) (helsewhere : ∀ s u, ¬ (source = s ∧ t = u) →
      d.aggregator.happening s u (.work w) = .nothing)
    {seen : Slot.Happening}
    (hseen : d.aggregator.happening source t (.work w) = seen) :
    (d.aggregator.work w).total (Slot.load m fanOut) + (3 + 2 * fanOut) * seen.ended +
      3 * seen.paid ≤ d.aggregator.total (Slot.load m fanOut) := by
  subst hseen
  obtain ⟨core, hstep, htotal⟩ := hsound.total_step (.work w) source t helsewhere
  have hload := hstep.load (h.drains source t) fanOut h.rests
  have hchange : (d.aggregator.work w).total (Slot.load m fanOut) +
      (d.aggregator.slot source t).load m fanOut =
        d.aggregator.total (Slot.load m fanOut) + core.load m fanOut :=
    htotal (Slot.load m fanOut) rfl fun _ => rfl
  omega

/-- Every move does some of the work. -/
theorem load_step (hsound : d.aggregator.Sound) (h : d.Allows m w) :
    (d.step w).load m < d.load m := by
  have hregistry : (d.step w).aggregator.registry = d.aggregator.registry := by
    rw [aggregator_step, Aggregator.registry_step]
  rw [load, load, hregistry]
  match w with
  | .pop =>
      rcases d.aggregator.work_pop_cases with ⟨k, rest, hqueue, _, hw⟩ | ⟨hempty, _, _⟩
      · simp only [step, hw, hqueue, ReadyQueue.size, List.head?_cons, Option.toList_some,
          List.singleton_append, List.length_cons]
        change d.aggregator.total _ + _ + _ < _
        omega
      · exact absurd hempty h
  | .claim source t =>
      have htotal := total_step hsound h source t d.aggregator.registry.fanOut
        (fun s u hne => if_neg hne) rfl
      have hqueue : (d.aggregator.work (.claim source t)).queue = d.aggregator.queue :=
        (d.aggregator.claim_eq source t).2.2
      obtain ⟨k, hk, hfor⟩ := h
      have hheld : (d.held.eraseP (Ticket.isFor source t)).length + 1 = d.held.length := by
        have hpos := List.length_pos_of_mem hk
        rw [List.length_eraseP_of_mem hk hfor]
        omega
      simp only [step, hqueue]
      omega
  | .complete source t verdict =>
      obtain ⟨r, hr⟩ := Option.isSome_iff_exists.1 h.1
      have hseen : d.aggregator.happening source t (.work (.complete source t verdict)) =
          .finished r verdict (d.aggregator.complete source t verdict).2 := by
        rw [Aggregator.happening, if_pos ⟨rfl, rfl⟩, hr]
      have htotal := total_step hsound h source t d.aggregator.registry.fanOut
        (fun s u hne => if_neg hne) hseen
      have hsize := d.aggregator.size_complete_le source t verdict
      simp only [Slot.Happening.ended, Slot.Happening.paid] at htotal
      simp only [step]
      omega
  | .endRest source t =>
      have hseen : d.aggregator.happening source t (.work (.endRest source t)) = .rested :=
        if_pos ⟨rfl, rfl⟩
      have htotal := total_step hsound h source t d.aggregator.registry.fanOut
        (fun s u hne => if_neg hne) hseen
      have hsize := d.aggregator.size_endRest_le source t
      simp only [Slot.Happening.ended, Slot.Happening.paid] at htotal
      simp only [step]
      omega

theorem length_run_le (hsound : d.aggregator.Sound) {ws : List Work} (h : d.Follows m ws) :
    ws.length + (d.run ws).load m ≤ d.load m := by
  induction ws generalizing d with
  | nil => exact (Nat.zero_add _).le
  | cons w ws ih =>
      have hstep := load_step hsound h.1
      have hrest : ws.length + ((d.step w).run ws).load m ≤ (d.step w).load m :=
        ih (sound_step hsound w) h.2
      change ws.length + 1 + ((d.step w).run ws).load m ≤ d.load m
      omega

/-- The runs that begin at a slot use its chances up. -/
theorem chances_run (hsound : d.aggregator.Sound) {ws : List Work} (h : d.Follows m ws)
    (source t : String) :
    ((d.run ws).aggregator.slot source t).chances m +
        ((d.aggregator.happenings source t (ws.map .work)).map (·.begun)).sum ≤
      (d.aggregator.slot source t).chances m := by
  induction ws generalizing d with
  | nil => exact Nat.le_refl _
  | cons w ws ih =>
      obtain ⟨core, n, hstep, hwoken⟩ := hsound.step_slot (.work w) source t
      have hfirst := hstep.chances (h.1.drains source t)
      have hrest := ih (sound_step hsound w) h.2
      rw [aggregator_step, hwoken.chances] at hrest
      rw [List.map_cons, Aggregator.happenings, List.map_cons, List.sum_cons]
      change (((d.step w).run ws).aggregator.slot source t).chances m + _ ≤ _
      omega

/-- Nothing is left to do exactly where there is no ticket, no run and no rest. -/
theorem idle_iff : (∀ w, ¬ d.Allows m w) ↔
    d.aggregator.queue.waiting = [] ∧ d.held = [] ∧
      ∀ source t, (d.aggregator.slot source t).running = none ∧
        (d.aggregator.slot source t).resting = false := by
  constructor
  · intro h
    refine ⟨not_not.1 (h .pop), List.eq_nil_iff_forall_not_mem.2 fun k hk => ?_,
      fun source t => ⟨?_, ?_⟩⟩
    · exact h (.claim k.source k.bundleType) ⟨k, hk, by simp [Ticket.isFor]⟩
    · exact Option.not_isSome_iff_eq_none.1 fun hr =>
        h (.complete source t .succeeded) ⟨hr, .inl rfl⟩
    · exact Bool.eq_false_iff.2 (h (.endRest source t))
  · rintro ⟨hqueue, hheld, hslots⟩ w hw
    cases w with
    | pop => exact hw hqueue
    | claim source t =>
        obtain ⟨k, hk, _⟩ := hw
        rw [hheld] at hk
        cases hk
    | complete source t verdict =>
        have hr := hw.1
        rw [(hslots source t).1] at hr
        cases hr
    | endRest source t =>
        have hr : (d.aggregator.slot source t).resting = true := hw
        rw [(hslots source t).2] at hr
        cases hr

/-- From whatever state an aggregator can be in, if nothing more is inserted and all failures
allow `m` attempts: the moves come to an end, in whatever order they are made and however the
handlers do, and no later than the load of that state says. Up to then no slot hands out more
than `m` bundles. And they end only where there is no ticket, in the queue or in a hand, no
bundle at work, and no rest. -/
theorem drain_ends (calls : List Registration) (ops : List Aggregator.Operation)
    (held : List Ticket) (m : Nat) (hm : 1 ≤ m) (ws : List Work) :
    let start : Drain := ⟨(Aggregator.fresh (Registry.ofCalls calls)).run ops, held⟩
    let d := start.run ws
    start.Follows m ws →
      ws.length ≤ start.load m ∧
      (∀ source t,
        ((start.aggregator.happenings source t (ws.map .work)).map (·.begun)).sum ≤ m) ∧
      ((∀ w, ¬ d.Allows m w) ↔
        d.aggregator.queue.waiting = [] ∧ d.held = [] ∧
          ∀ source t, (d.aggregator.slot source t).running = none ∧
            (d.aggregator.slot source t).resting = false) := by
  intro start d hfollows
  have hsound : start.aggregator.Sound :=
    (Aggregator.sound_fresh (Registry.named_ofCalls calls)).run ops
  refine ⟨?_, fun source t => ?_, idle_iff⟩
  · have hlength := length_run_le hsound hfollows
    omega
  · have hbegun := chances_run hsound hfollows source t
    have hle := (start.aggregator.slot source t).chances_le hm
    omega

/-- A bundle fails, rests, fails again and is dropped. It has been handed out twice, and this
is half of the moves that the load allows. -/
theorem drain_ends_two_attempts :
    let bundle : Envelope := ⟨"1.0", "clusters", "hub", "bundle", ⟨0, 0, 0⟩, ⟨0, 1⟩, none, []⟩
    let start : Drain :=
      ⟨(Aggregator.fresh (Registry.ofCalls [.complete "clusters" 0 none])).run
        [.insert bundle ⟨"status", 0, 1⟩ 1], []⟩
    let ws : List Work :=
      [.pop, .claim "hub" "clusters", .complete "hub" "clusters" (.failed 2),
        .endRest "hub" "clusters", .pop, .claim "hub" "clusters",
        .complete "hub" "clusters" (.failed 2)]
    start.Follows 2 ws ∧ start.load 2 = 14 ∧ ws.length ≤ start.load 2 ∧
      ((start.aggregator.happenings "hub" "clusters" (ws.map .work)).map (·.begun)).sum = 2 ∧
      ∀ source t,
        ((start.aggregator.happenings source t (ws.map .work)).map (·.begun)).sum ≤ 2 := by
  intro bundle start ws
  have hfollows : start.Follows 2 ws := by decide +kernel
  obtain ⟨hlength, hbegun, _⟩ := drain_ends [.complete "clusters" 0 none]
    [.insert bundle ⟨"status", 0, 1⟩ 1] [] 2 (by decide) ws hfollows
  exact ⟨hfollows, by decide +kernel, hlength, by decide +kernel, hbegun⟩

end Drain

end Conflux
