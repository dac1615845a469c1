import Conflux.Proofs.Aggregator.Run
import Mathlib.Data.List.Perm.Basic

/-!
Any number of workers on one aggregator. A worker pops a ticket, redeems it, runs the
handler on what it got, reports the end, and begins anew; a retry leaves a rest behind
that somebody ends once. Between these moves anything else may happen.

For each slot the crew has books: how many tickets for it are about, in the queue or in
somebody's hand, how many rests, and how many workers run a handler. The flags of the
slot are the balance of the books, and this is why the flags can be trusted: no part of
the crew looks at what is in the other hands.
-/

namespace Conflux

namespace Slot

/-- At most one of a ticket, a rest and a run, and a bundle for the first two. -/
structure Orderly (s : Slot) : Prop where
  queued : s.queued = true → s.buffered.isSome = true ∧ s.resting = false ∧ s.running = none
  resting : s.resting = true → s.buffered.isSome = true ∧ s.queued = false ∧ s.running = none

namespace Happening

/-- How many tickets are used up. -/
def redeemed : Happening → Nat
  | .refused => 1
  | .started _ => 1
  | _ => 0

def begun : Happening → Nat
  | .started _ => 1
  | _ => 0

def ended : Happening → Nat
  | .finished _ _ _ => 1
  | _ => 0

/-- How many rests are to be ended later. -/
def owed : Happening → Nat
  | .finished _ _ (.retry _) => 1
  | _ => 0

/-- How many owed rests are ended. -/
def paid : Happening → Nat
  | .rested => 1
  | _ => 0

end Happening

variable {mode : SyncMode} {s core : Slot} {seen : Happening}

theorem orderly_empty : empty.Orderly where
  queued h := (nomatch h)
  resting h := (nomatch h)

/-- A ticket is redeemed where there is one, and a rest ended where there is one: then
the slot stays in order. -/
theorem Orderly.step (h : s.Orderly) (hstep : Step mode s seen core)
    (hredeemed : 0 < seen.redeemed → s.queued = true) (hpaid : 0 < seen.paid → s.resting = true) :
    core.Orderly := by
  cases hstep with
  | keep => exact h
  | accept =>
      constructor
      · intro hq
        exact ⟨rfl, (h.queued hq).2⟩
      · intro hr
        exact ⟨rfl, (h.resting hr).2⟩
  | refuse =>
      have hq : s.queued = true := hredeemed Nat.one_pos
      constructor
      · intro hno
        cases hno
      · intro hr
        have hno := (h.queued hq).2.1
        rw [show s.resting = true from hr] at hno
        cases hno
  | start hb hr hs =>
      constructor
      · intro hno
        cases hno
      · intro hno
        rw [show s.resting = true from hno] at hs
        cases hs
  | succeed hr | drop hr | supersede hr =>
      constructor
      · intro hq
        exact ⟨(h.queued hq).1, (h.queued hq).2.1, rfl⟩
      · intro hrest
        exact ⟨(h.resting hrest).1, (h.resting hrest).2.1, rfl⟩
  | putBack hr | putBeneath hr =>
      have hq : s.queued = false := by
        cases hq : s.queued with
        | false => rfl
        | true =>
            rw [(h.queued hq).2.2] at hr
            cases hr
      constructor
      · intro hno
        rw [show s.queued = true from hno] at hq
        cases hq
      · intro _
        exact ⟨rfl, hq, rfl⟩
  | rest =>
      have hr : s.resting = true := hpaid Nat.one_pos
      constructor
      · intro hq
        have hno := (h.resting hr).2.1
        rw [show s.queued = true from hq] at hno
        cases hno
      · intro hno
        cases hno

theorem Orderly.woken {n : Nat} (h : core.Orderly) (hwoken : Woken core n s) : s.Orderly := by
  cases hwoken with
  | asleep => exact h
  | woken hi hb =>
      simp only [idle, Bool.and_eq_true, Option.isNone_iff_eq_none, Bool.not_eq_true'] at hi
      constructor
      · intro _
        exact ⟨hb, hi.2, hi.1.1⟩
      · intro hr
        rw [show core.resting = true from hr] at hi
        cases hi.2

theorem Orderly.exclusive (h : s.Orderly) :
    s.queued.toNat + s.resting.toNat + s.running.isSome.toNat ≤ 1 := by
  cases hq : s.queued with
  | true =>
      obtain ⟨_, hr, hrun⟩ := h.queued hq
      rw [hr, hrun]
      exact Nat.le_refl 1
  | false =>
      cases hr : s.resting with
      | true =>
          obtain ⟨_, _, hrun⟩ := h.resting hr
          rw [hrun]
          exact Nat.le_refl 1
      | false => simpa using Bool.toNat_le s.running.isSome

/-- What happens goes into the flags: a ticket used up, a rest owed or ended, a run
begun or ended. -/
theorem Orderly.flags_step (h : s.Orderly) (hstep : Step mode s seen core)
    (hredeemed : 0 < seen.redeemed → s.queued = true) (hpaid : 0 < seen.paid → s.resting = true) :
    core.queued.toNat + seen.redeemed = s.queued.toNat ∧
      core.resting.toNat + seen.paid = s.resting.toNat + seen.owed ∧
      core.running.isSome.toNat + seen.ended = s.running.isSome.toNat + seen.begun := by
  have hrests {r : Running} (hr : s.running = some r) : s.resting = false := by
    cases hrest : s.resting with
    | false => rfl
    | true =>
        rw [(h.resting hrest).2.2] at hr
        cases hr
  cases hstep with
  | keep | accept => exact ⟨rfl, rfl, rfl⟩
  | refuse =>
      rw [hredeemed Nat.one_pos]
      exact ⟨rfl, rfl, rfl⟩
  | start hb hr hs =>
      rw [hredeemed Nat.one_pos, hr]
      exact ⟨rfl, rfl, rfl⟩
  | succeed hr | drop hr | supersede hr =>
      rw [hr]
      exact ⟨rfl, rfl, rfl⟩
  | putBack hr | putBeneath hr =>
      rw [hr, hrests hr]
      exact ⟨rfl, rfl, rfl⟩
  | rest =>
      rw [hpaid Nat.one_pos]
      exact ⟨rfl, rfl, rfl⟩

theorem Woken.flags {n : Nat} (hwoken : Woken core n s) :
    s.queued.toNat = core.queued.toNat + n ∧ s.resting = core.resting ∧
      s.running = core.running := by
  cases hwoken with
  | asleep => exact ⟨rfl, rfl, rfl⟩
  | woken hi hb =>
      simp only [idle, Bool.and_eq_true, Bool.not_eq_true'] at hi
      rw [hi.1.2]
      exact ⟨rfl, rfl, rfl⟩

/-- The bundle at work is the one that was claimed. -/
def Runs (s : Slot) (c : Claim) : Prop :=
  ∃ r, s.running = some r ∧ c.envelope = r.envelope ∧ c.position = r.position ∧
    c.attempt = r.attempt

theorem Runs.step {c : Claim} (h : s.Runs c) (hstep : Step mode s seen core)
    (hended : seen.ended = 0) : core.Runs c := by
  cases hstep with
  | keep | accept | refuse | rest => exact h
  | start _ hr =>
      obtain ⟨r, hrun, _⟩ := h
      rw [hr] at hrun
      cases hrun
  | succeed | drop | supersede | putBack | putBeneath => cases hended

theorem runs_of_started {c : Claim} (hstep : Step mode s (.started c) core) : core.Runs c := by
  cases hstep with
  | start hb hr hs => exact ⟨_, rfl, rfl, rfl, rfl⟩

end Slot

/-! ### The crew -/

inductive Hand where
  | free
  | holding (k : Ticket)
  /-- The handler runs. -/
  | working (k : Ticket) (c : Claim)

def Hand.holds (source bundleType : String) : Hand → Bool
  | .holding k => k.isFor source bundleType
  | _ => false

def Hand.worksOn (source bundleType : String) : Hand → Bool
  | .working k _ => k.isFor source bundleType
  | _ => false

structure Crew where
  aggregator : Aggregator
  hands : List Hand
  /-- The rests that were begun and are not over. -/
  rests : List (String × String)

namespace Crew

/-- Workers and rests go by their place in the list. -/
inductive Move where
  | insert (e : Envelope) (position : Position) (lastOffset : UInt64)
  | pop (worker : Nat)
  | claim (worker : Nat)
  | complete (worker : Nat) (verdict : Verdict)
  | endRest (rest : Nat)

def fresh (registry : Registry) (workers : Nat) : Crew :=
  ⟨.fresh registry, List.replicate workers .free, []⟩

/-- A worker who is not at that point, or is not there, makes no move. -/
def step (c : Crew) : Move → Crew
  | .insert e position lastOffset =>
      { c with aggregator := (c.aggregator.insert e position lastOffset).1 }
  | .pop i =>
      match c.hands[i]?, c.aggregator.pop? with
      | some .free, some (k, a) => { c with aggregator := a, hands := c.hands.set i (.holding k) }
      | _, _ => c
  | .claim i =>
      match c.hands[i]? with
      | some (.holding k) =>
          let (a, claim) := c.aggregator.claim k.source k.bundleType
          let hand := match claim with
            | some x => .working k x
            | none => .free
          { c with aggregator := a, hands := c.hands.set i hand }
      | _ => c
  | .complete i verdict =>
      match c.hands[i]? with
      | some (.working k _) =>
          let (a, completion) := c.aggregator.complete k.source k.bundleType verdict
          let begun := match completion with
            | .retry _ => [(k.source, k.bundleType)]
            | _ => []
          { aggregator := a, hands := c.hands.set i .free, rests := c.rests ++ begun }
      | _ => c
  | .endRest j =>
      match c.rests[j]? with
      | some (source, t) =>
          { c with aggregator := (c.aggregator.endRest source t).1, rests := c.rests.eraseIdx j }
      | none => c

def run (c : Crew) (moves : List Move) : Crew := moves.foldl step c

/-! ### The books of a slot -/

/-- The tickets for a slot that are about, in the queue or in a hand. -/
def tickets (c : Crew) (source t : String) : Nat :=
  c.aggregator.tickets source t + c.hands.countP (Hand.holds source t)

def atWork (c : Crew) (source t : String) : Nat := c.hands.countP (Hand.worksOn source t)

def restsOf (c : Crew) (source t : String) : Nat := c.rests.countP (· == (source, t))

structure Books (c : Crew) (source t : String) : Prop where
  orderly : (c.aggregator.slot source t).Orderly
  tickets : c.tickets source t = (c.aggregator.slot source t).queued.toNat
  rests : c.restsOf source t = (c.aggregator.slot source t).resting.toNat
  atWork : c.atWork source t = (c.aggregator.slot source t).running.isSome.toNat
  claims : ∀ k x, .working k x ∈ c.hands → k.isFor source t = true →
    (c.aggregator.slot source t).Runs x

theorem books_fresh (r : Registry) (n : Nat) (source t : String) : (fresh r n).Books source t where
  orderly := Slot.orderly_empty
  tickets := by
    change 0 + (List.replicate n Hand.free).countP _ = 0
    rw [List.countP_replicate]
    rfl
  rests := rfl
  atWork := by
    change (List.replicate n Hand.free).countP _ = 0
    rw [List.countP_replicate]
    rfl
  claims k x hk := by
    cases List.eq_of_mem_replicate hk

theorem isFor_iff {k : Ticket} {source t : String} :
    k.isFor source t = true ↔ k.source = source ∧ k.bundleType = t := by
  rw [Ticket.isFor, Bool.and_eq_true, beq_iff_eq, beq_iff_eq]

variable {c c' : Crew} {source t : String}

/-- A move that enters into the books what it did to the slot leaves them in agreement. -/
theorem Books.enter {seen : Slot.Happening} (h : c.Books source t)
    (hstep : c.aggregator.StepsAt c'.aggregator source t seen)
    (hheld : c'.hands.countP (Hand.holds source t) + seen.redeemed =
      c.hands.countP (Hand.holds source t))
    (hwork : c'.atWork source t + seen.ended = c.atWork source t + seen.begun)
    (hrests : c'.restsOf source t + seen.paid = c.restsOf source t + seen.owed)
    (hclaims : ∀ k x, .working k x ∈ c'.hands → k.isFor source t = true →
      .working k x ∈ c.hands ∨ seen = .started x) : c'.Books source t := by
  obtain ⟨core, n, hcore, hwoken, htickets⟩ := hstep
  -- A ticket that is redeemed was in a hand, so it was counted.
  have hredeemed (hpos : 0 < seen.redeemed) : (c.aggregator.slot source t).queued = true := by
    have hbooks := h.tickets
    have hle := Bool.toNat_le (c.aggregator.slot source t).queued
    rw [Crew.tickets] at hbooks
    exact Bool.toNat_eq_one.1 (by omega)
  have hpaid (hpos : 0 < seen.paid) : (c.aggregator.slot source t).resting = true := by
    have hbooks := h.rests
    have howed : seen.owed = 0 := by
      cases seen <;> first | rfl | cases hpos
    have hle := Bool.toNat_le (c.aggregator.slot source t).resting
    exact Bool.toNat_eq_one.1 (by omega)
  obtain ⟨hqueued, hresting, hrunning⟩ := h.orderly.flags_step hcore hredeemed hpaid
  obtain ⟨hqueued', hresting', hrunning'⟩ := hwoken.flags
  have hatWork : c'.atWork source t = (c'.aggregator.slot source t).running.isSome.toNat := by
    have hbooks := h.atWork
    rw [hrunning']
    omega
  refine ⟨(h.orderly.step hcore hredeemed hpaid).woken hwoken, ?_, ?_, hatWork, ?_⟩
  · have hbooks := h.tickets
    rw [Crew.tickets] at hbooks ⊢
    omega
  · have hbooks := h.rests
    rw [hresting']
    omega
  · intro k x hk hfor
    have hruns : core.Runs x := by
      rcases hclaims k x hk hfor with hold | rfl
      · by_cases hended : seen.ended = 0
        · exact (h.claims k x hold hfor).step hcore hended
        · have hone : seen.ended = 1 ∧ seen.begun = 0 := by
            cases seen <;> first | exact ⟨rfl, rfl⟩ | exact absurd rfl hended
          -- The one who was at work is done, so nobody is.
          have hpos : 0 < c'.atWork source t := List.countP_pos_iff.2 ⟨_, hk, hfor⟩
          have hle := Bool.toNat_le (c.aggregator.slot source t).running.isSome
          have hbooks := h.atWork
          omega
      · exact Slot.runs_of_started hcore
    obtain ⟨r, hr, hrest⟩ := hruns
    exact ⟨r, hrunning'.trans hr, hrest⟩

/-! ### Moves -/

/-- What was in the place goes out of the count, and what comes there goes in. -/
theorem countP_replace {α : Type} {l : List α} {i : Nat} {a : α} (h : l[i]? = some a) (b : α)
    (p : α → Bool) : (l.set i b).countP p + (p a).toNat = l.countP p + (p b).toNat := by
  obtain ⟨hi, rfl⟩ := List.getElem?_eq_some_iff.1 h
  have hbefore := (List.getElem_cons_eraseIdx_perm hi).countP_eq p
  have hafter := (List.set_perm_cons_eraseIdx hi b).countP_eq p
  rw [List.countP_cons] at hbefore hafter
  rw [hafter, ← hbefore]
  cases p l[i] <;> cases p b <;> rfl

theorem countP_remove {α : Type} {l : List α} {i : Nat} {a : α} (h : l[i]? = some a)
    (p : α → Bool) : (l.eraseIdx i).countP p + (p a).toNat = l.countP p := by
  obtain ⟨hi, rfl⟩ := List.getElem?_eq_some_iff.1 h
  rw [← (List.getElem_cons_eraseIdx_perm hi).countP_eq p, List.countP_cons]
  cases p l[i] <;> rfl

theorem isFor_of_ne {k : Ticket} (h : ¬ (k.source = source ∧ k.bundleType = t)) :
    k.isFor source t = false :=
  Bool.eq_false_iff.2 fun hfor => h (isFor_iff.1 hfor)

/-- A ticket goes from the queue into a hand. -/
theorem Books.pop (h : c.Books source t) (i : Nat) : (c.step (.pop i)).Books source t := by
  rw [step]
  split
  · next k a hi hpop =>
      rcases c.aggregator.work_pop_cases with ⟨l, rest, hqueue, hl, hwork⟩ | ⟨_, hnone, _⟩
      · rw [hl, hwork] at hpop
        cases hpop
        have hheld := countP_replace hi (.holding k) (Hand.holds source t)
        have hatWork := countP_replace hi (.holding k) (Hand.worksOn source t)
        have htickets : c.aggregator.tickets source t =
            rest.countP (Ticket.isFor source t) + (k.isFor source t).toNat := by
          rw [Aggregator.tickets, hqueue, List.countP_cons]
          cases k.isFor source t <;> rfl
        refine ⟨h.orderly, ?_, h.rests, hatWork.trans h.atWork, ?_⟩
        · have hbooks := h.tickets
          rw [Crew.tickets, htickets] at hbooks
          change rest.countP (Ticket.isFor source t) +
            (c.hands.set i (.holding k)).countP (Hand.holds source t) =
              (c.aggregator.slot source t).queued.toNat
          simp only [Hand.holds, Bool.toNat_false] at hheld
          omega
        · intro l x hl hfor
          rcases List.mem_or_eq_of_mem_set hl with hold | hnew
          · exact h.claims l x hold hfor
          · cases hnew
      · rw [hnone] at hpop
        cases hpop
  · exact h

/-- A worker's move enters into the books what it did to the slot. -/
theorem Books.enterAt {seen : Slot.Happening} {i : Nat} {old new : Hand} {a : Aggregator}
    {rests : List (String × String)} (h : c.Books source t) (hi : c.hands[i]? = some old)
    (hstep : c.aggregator.StepsAt a source t seen)
    (hheld : (new.holds source t).toNat + seen.redeemed = (old.holds source t).toNat)
    (hwork : (new.worksOn source t).toNat + seen.ended =
      (old.worksOn source t).toNat + seen.begun)
    (hrests : rests.countP (· == (source, t)) + seen.paid = c.restsOf source t + seen.owed)
    (hnew : ∀ k x, new = .working k x → k.isFor source t = true → seen = .started x) :
    Books ⟨a, c.hands.set i new, rests⟩ source t := by
  have hheld' := countP_replace hi new (Hand.holds source t)
  have hwork' := countP_replace hi new (Hand.worksOn source t)
  refine h.enter hstep ?_ ?_ hrests ?_
  · dsimp only
    omega
  · rw [Crew.atWork, Crew.atWork]
    dsimp only
    omega
  · intro k x hk hfor
    rcases List.mem_or_eq_of_mem_set hk with hold | hx
    · exact .inl hold
    · exact .inr (hnew k x hx.symm hfor)

theorem Books.claim (h : c.Books source t) (hsound : c.aggregator.Sound) (i : Nat) :
    (c.step (.claim i)).Books source t := by
  rw [step]
  split
  · next k hi =>
      have hstep := hsound.stepsAt_claim k.source k.bundleType source t
      rw [Aggregator.happening] at hstep
      dsimp only
      by_cases hk : k.source = source ∧ k.bundleType = t
      · have hfor : k.isFor source t = true := isFor_iff.2 hk
        rw [if_pos hk] at hstep
        cases hclaim : (c.aggregator.claim k.source k.bundleType).2 with
        | some x =>
            simp only [hclaim] at hstep
            refine h.enterAt hi hstep ?_ ?_ rfl ?_
            · simp [Hand.holds, hfor, Slot.Happening.redeemed]
            · simp [Hand.worksOn, hfor, Slot.Happening.ended, Slot.Happening.begun]
            · intro l y hl _
              cases hl
              rfl
        | none =>
            simp only [hclaim] at hstep
            refine h.enterAt hi hstep ?_ rfl rfl ?_
            · simp [Hand.holds, hfor, Slot.Happening.redeemed]
            · intro l y hl _
              cases hl
      · have hfor := isFor_of_ne hk
        rw [if_neg hk] at hstep
        cases (c.aggregator.claim k.source k.bundleType).2 with
        | some x =>
            refine h.enterAt hi hstep ?_ ?_ rfl ?_
            · simp [Hand.holds, hfor, Slot.Happening.redeemed]
            · simp [Hand.worksOn, hfor, Slot.Happening.ended, Slot.Happening.begun]
            · intro l y hl hl'
              cases hl
              rw [hfor] at hl'
              cases hl'
        | none =>
            refine h.enterAt hi hstep ?_ rfl rfl ?_
            · simp [Hand.holds, hfor, Slot.Happening.redeemed]
            · intro l y hl _
              cases hl
  · exact h

theorem Books.complete (h : c.Books source t) (hsound : c.aggregator.Sound) (i : Nat)
    (verdict : Verdict) : (c.step (.complete i verdict)).Books source t := by
  rw [step]
  split
  · next k x hi =>
      have hstep := hsound.stepsAt_complete k.source k.bundleType verdict source t
      rw [Aggregator.happening] at hstep
      by_cases hk : k.source = source ∧ k.bundleType = t
      · have hfor : k.isFor source t = true := isFor_iff.2 hk
        obtain ⟨rfl, rfl⟩ := hk
        obtain ⟨r, hr, _⟩ := h.claims k x (List.mem_of_getElem? hi) hfor
        simp only [and_self, if_true, hr] at hstep
        dsimp only
        generalize (c.aggregator.complete k.source k.bundleType verdict).2 = completion at hstep
        refine h.enterAt hi hstep rfl ?_ ?_ fun l y hl => by cases hl
        · simp [Hand.worksOn, hfor, Slot.Happening.ended, Slot.Happening.begun]
        · rw [List.countP_append]
          cases completion <;> simp [restsOf, Slot.Happening.paid, Slot.Happening.owed]
      · have hfor := isFor_of_ne hk
        rw [if_neg hk] at hstep
        refine h.enterAt hi hstep rfl ?_ ?_ fun l y hl => by cases hl
        · simp [Hand.worksOn, hfor, Slot.Happening.ended, Slot.Happening.begun]
        · rw [List.countP_append]
          split <;> simp_all [restsOf, Slot.Happening.paid, Slot.Happening.owed]
  · exact h

theorem Books.endRest (h : c.Books source t) (hsound : c.aggregator.Sound) (j : Nat) :
    (c.step (.endRest j)).Books source t := by
  rw [step]
  split
  · next s u hj =>
      have hstep := hsound.stepsAt_endRest s u source t
      rw [Aggregator.happening] at hstep
      have hrests := countP_remove hj (· == (source, t))
      refine h.enter hstep ?_ ?_ ?_ fun k x hk _ => .inl hk
      · split <;> rfl
      · split <;> rfl
      · rw [restsOf, restsOf, ← hrests]
        by_cases hsu : s = source ∧ u = t
        · simp [hsu, Slot.Happening.paid, Slot.Happening.owed]
        · simp [hsu, Slot.Happening.paid, Slot.Happening.owed]
  · exact h

theorem Books.insert (h : c.Books source t) (hsound : c.aggregator.Sound) (e : Envelope)
    (position : Position) (lastOffset : UInt64) :
    (c.step (.insert e position lastOffset)).Books source t := by
  have hstep := hsound.stepsAt_insert e position lastOffset source t
  rw [Aggregator.happening] at hstep
  split at hstep
  · split at hstep <;> exact h.enter hstep rfl rfl rfl fun k x hk _ => .inl hk
  · exact h.enter hstep rfl rfl rfl fun k x hk _ => .inl hk

theorem Books.step (h : c.Books source t) (hsound : c.aggregator.Sound) (m : Move) :
    (c.step m).Books source t := by
  match m with
  | .insert e position lastOffset => exact h.insert hsound e position lastOffset
  | .pop i => exact h.pop i
  | .claim i => exact h.claim hsound i
  | .complete i verdict => exact h.complete hsound i verdict
  | .endRest j => exact h.endRest hsound j

/-! ### Single flight -/

theorem aggregator_step (c : Crew) (m : Move) :
    (c.step m).aggregator = c.aggregator ∨
      ∃ o, (c.step m).aggregator = c.aggregator.step o := by
  match m with
  | .insert e position lastOffset => exact .inr ⟨.insert e position lastOffset, rfl⟩
  | .pop i =>
      rw [step]
      split
      · next k a _ hpop =>
          refine .inr ⟨.work .pop, ?_⟩
          rw [Aggregator.step, Aggregator.work, hpop]
      · exact .inl rfl
  | .claim i =>
      rw [step]
      split
      · next k _ => exact .inr ⟨.work (.claim k.source k.bundleType), rfl⟩
      · exact .inl rfl
  | .complete i verdict =>
      rw [step]
      split
      · next k _ _ => exact .inr ⟨.work (.complete k.source k.bundleType verdict), rfl⟩
      · exact .inl rfl
  | .endRest j =>
      rw [step]
      split
      · next s u _ => exact .inr ⟨.work (.endRest s u), rfl⟩
      · exact .inl rfl

theorem sound_step (h : c.aggregator.Sound) (m : Move) : (c.step m).aggregator.Sound := by
  rcases c.aggregator_step m with hsame | ⟨o, ho⟩
  · rw [hsame]
    exact h
  · rw [ho]
    exact h.step o

theorem Books.run (h : c.Books source t) (hsound : c.aggregator.Sound) (moves : List Move) :
    (c.run moves).Books source t ∧ (c.run moves).aggregator.Sound := by
  induction moves generalizing c with
  | nil => exact ⟨h, hsound⟩
  | cons m moves ih => exact ih (h.step hsound m) (sound_step hsound m)

/-- However many workers there are and however their moves and the inserts fall: of
each slot there are as many tickets about as its flag says, none or one; it has a
ticket, or rests, or runs, and never two of these; a slot with a ticket or at rest has a
bundle that waits; at most one worker runs its handler. That worker has what the slot
says is at work, and will be heard when the handler ends. -/
theorem single_flight (calls : List Registration) (workers : Nat) (moves : List Move)
    (source t : String) :
    let c := (fresh (Registry.ofCalls calls) workers).run moves
    let s := c.aggregator.slot source t
    c.tickets source t = (if s.queued then 1 else 0) ∧
      s.queued.toNat + s.resting.toNat + s.running.isSome.toNat ≤ 1 ∧
      (s.queued = true ∨ s.resting = true → s.buffered.isSome = true) ∧
      c.atWork source t ≤ 1 ∧
      ∀ k x, .working k x ∈ c.hands → k.isFor source t = true →
        (∃ r, s.running = some r ∧ x.envelope = r.envelope ∧ x.position = r.position ∧
          x.attempt = r.attempt) ∧
        ∀ verdict, (c.aggregator.complete source t verdict).2 ≠ .notInFlight := by
  intro c s
  obtain ⟨hbooks, hsound⟩ : c.Books source t ∧ c.aggregator.Sound :=
    (books_fresh _ workers source t).run
      (Aggregator.sound_fresh (Registry.named_ofCalls calls)) moves
  refine ⟨?_, hbooks.orderly.exclusive, ?_, ?_, ?_⟩
  · rw [hbooks.tickets]
    cases (c.aggregator.slot source t).queued <;> rfl
  · rintro (hq | hr)
    · exact (hbooks.orderly.queued hq).1
    · exact (hbooks.orderly.resting hr).1
  · rw [hbooks.atWork]
    exact Bool.toNat_le _
  · intro k x hk hfor
    obtain ⟨r, hr, hx⟩ := hbooks.claims k x hk hfor
    exact ⟨⟨r, hr, hx⟩, hsound.complete_ne_notInFlight hr⟩

end Crew

end Conflux
