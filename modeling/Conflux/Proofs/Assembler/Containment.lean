import Conflux.Proofs.Assembler.Family
import Conflux.Proofs.Post
import Conflux.Zstd.Plain

/-!
What goes wrong with a message stays with it. A fragment that is turned away leaves no trace. One
that spoils its message takes the record of this message away and nothing else, apart from records
that have outlived their time anyway; so the message can be sent again, and this time it comes out,
if its fragments come within the time that a record is given.
-/

namespace Conflux

namespace Assembler

open Sending

section

variable {a b : Assembler} {x : Arrival} {e : AssemblyError} {k : MessageKey}

/-! ### What a fragment leaves behind -/

/-- A sweep takes away what has expired, and nothing else. -/
theorem get?_evict_eq_filter (a : Assembler) (now : Nat) (k : MessageKey) :
    (a.evict now).opened.get? k = (a.opened.get? k).filter fun r => !r.expired a.ttl now := by
  ext r
  rw [Option.filter_eq_some_iff, Table.get?_eq_some_iff, Table.get?_eq_some_iff]
  exact List.mem_filter

theorem Added.eq_of_isRefusal (h : Added a x b (.error e)) (he : e.isRefusal = true) : b = a := by
  cases h with
  | refused => rfl
  | discarded _ _ hspoils => exact absurd (he.symm.trans hspoils) Bool.noConfusion

/-- The record of the message is taken away. Whole messages are looked at before the sweep. -/
theorem Added.eq_close (h : Added a x b (.error e)) (he : e.isRefusal = false) :
    b = a.close x.key ∨ b = (a.evict x.now).close x.key := by
  cases h with
  | refused _ hrefuses => exact absurd (he.symm.trans hrefuses) Bool.noConfusion
  | discarded hb => exact hb.imp (congrArg (close · x.key)) (congrArg (close · x.key))

/-- The record of the message is gone, and no other but by the sweep; none is new. -/
theorem Added.contained (h : Added a x b (.error e)) (he : e.isRefusal = false) :
    b.opened.get? x.key = none ∧
      (∀ k ≠ x.key, ∀ r, a.opened.get? k = some r → r.expired a.ttl x.now = false →
        b.opened.get? k = some r) ∧
      ∀ k r, b.opened.get? k = some r → a.opened.get? k = some r := by
  refine ⟨?_, fun k hk r hr hlasting => ?_, fun k r hr => ?_⟩
  · rcases h.eq_close he with rfl | rfl <;> exact Table.get?_erase_self _ _
  · have hlast : (a.evict x.now).opened.get? k = a.opened.get? k := by
      rw [get?_evict_eq_filter, hr]
      simp [hlasting]
    rw [h.opened_of_ne hlast hk.symm, hr]
  · rcases h.eq_close he with rfl | rfl
    · exact get?_of_close hr
    · exact get?_evict (get?_of_close hr)

theorem Added.eq_putRecord (h : Added a x b (.ok none)) :
    ∃ r, b = (a.evict x.now).putRecord x.key r := by
  cases h with
  | kept r => exact ⟨r, rfl⟩

/-! ### A message that comes again -/

variable [Compression] {s : Sending}

def Event.now : Event → Nat
  | arrive x => x.now
  | sweep now => now

/-- All fragments of a message come, in any order and any number of times; what comes between them
belongs to other messages. The clock does not go back, and from the first of the fragments to the
last it does not go on for longer than a record may stay incomplete. -/
structure Comes (ttl : Nat) (s : Sending) (history : List Event) : Prop where
  complete : s.Complete (arrivals history)
  told : ∀ y ∈ arrivals history, s.Sends y ∨ y.key ≠ s.key
  clock : history.Pairwise fun d e => d.now ≤ e.now
  together : ∀ y ∈ arrivals history, ∀ z ∈ arrivals history, s.Sends y → s.Sends z →
    z.now - y.now ≤ ttl

/-- No fragment of the message came so long ago that its record would have expired since. -/
def Recent (ttl : Nat) (s : Sending) (history : List Event) : Prop :=
  ∀ y ∈ arrivals history, s.Sends y → ∀ e ∈ history, e.now - y.now ≤ ttl

/-- Some fragments of the message have come, and its record is as old as one of them. -/
structure Underway (s : Sending) (history : List Event) (a : Assembler) : Prop where
  progress : Progress s (arrivals history) a
  started : ∀ r, a.opened.get? s.key = some r →
    ∃ y ∈ arrivals history, s.Sends y ∧ r.startedAt = y.now

variable {history : List Event} {ttl : Nat}

theorem ttl_react (a : Assembler) (d : Event) : (a.react d).ttl = a.ttl := by
  cases d with
  | arrive x => exact (a.added x).ttl_eq
  | sweep now => rfl

theorem ttl_undergo (a : Assembler) (history : List Event) : (a.undergo history).ttl = a.ttl := by
  induction history generalizing a with
  | nil => rfl
  | cons d history ih => exact (ih (a.react d)).trans (ttl_react a d)

/-- The record does not expire as long as the fragments are recent. -/
theorem Underway.get?_evict_eq (h : Underway s history a) {now : Nat}
    (hrecent : ∀ y ∈ arrivals history, s.Sends y → now - y.now ≤ a.ttl) :
    (a.evict now).opened.get? s.key = a.opened.get? s.key := by
  refine Assembler.get?_evict_eq fun r hr => ?_
  obtain ⟨y, hy, hsends, hstarted⟩ := h.started r hr
  rw [Assembly.expired, hstarted, decide_eq_false_iff_not]
  exact Nat.not_lt.2 (hrecent y hy hsends)

/-- Until it is complete the message is gathered further. -/
theorem Underway.react (h : Underway s history a) {d : Event}
    (hrecent : ∀ y ∈ arrivals history, s.Sends y → d.now - y.now ≤ a.ttl)
    (htold : ∀ y, d = .arrive y → s.Sends y ∨ y.key ≠ s.key)
    (hmissing : ¬ s.Complete (arrivals (history ++ [d]))) :
    Underway s (history ++ [d]) (a.react d) := by
  have hlast := h.get?_evict_eq hrecent
  rw [arrivals_concat] at hmissing
  cases d with
  | sweep now =>
      have hsame : arrivals (history ++ [.sweep now]) = arrivals history := by
        rw [arrivals_concat]
        exact List.append_nil _
      refine ⟨?_, fun r hr => ?_⟩
      · rw [hsame]
        exact h.progress.evict hlast
      · rw [hsame]
        exact h.started r (hlast.symm.trans hr)
  | arrive x =>
      have hconcat : arrivals (history ++ [.arrive x]) = arrivals history ++ [x] :=
        arrivals_concat history (.arrive x)
      refine ⟨?_, fun r hr => ?_⟩
      · rw [hconcat]
        exact h.progress.next (htold x rfl) hlast hmissing
      · rw [hconcat]
        rcases (a.added x).started hr with ⟨hkey, hstarted⟩ | ⟨known, hknown, hstarted⟩
        · exact ⟨x, List.mem_concat_self, (htold x rfl).resolve_right fun hne => hne hkey, hstarted⟩
        · obtain ⟨y, hy, hsends, hy'⟩ := h.started known hknown
          exact ⟨y, List.mem_append_left _ hy, hsends, hstarted.trans hy'⟩

theorem Recent.mono {past later : List Event} (h : Recent ttl s later) (hpast : past <+: later) :
    Recent ttl s past := by
  have hsub : arrivals past ⊆ arrivals later := (hpast.filterMap Event.arrival?).subset
  exact fun y hy hsends d hd => h y (hsub hy) hsends d (hpast.subset hd)

/-- The fragments of a message that is unknown are gathered until it is complete. -/
theorem underway_undergo (hopen : a.opened.get? s.key = none) (hnew : s.key ∉ a.completed.keys)
    (htold : ∀ y ∈ arrivals history, s.Sends y ∨ y.key ≠ s.key) (hrecent : Recent a.ttl s history)
    (hmissing : ¬ s.Complete (arrivals history)) : Underway s history (a.undergo history) := by
  induction history using List.reverseRecOn with
  | nil =>
      refine ⟨.untouched nofun hopen hnew, fun r hr => ?_⟩
      cases hopen.symm.trans hr
  | append_singleton history d ih =>
      have hsub : arrivals history ⊆ arrivals (history ++ [d]) := by
        rw [arrivals_concat]
        exact List.subset_append_left _ _
      have hbefore := ih (fun y hy => htold y (hsub hy)) (hrecent.mono (List.prefix_append _ _))
        fun hall => hmissing (hall.mono hsub)
      rw [undergo_concat]
      refine hbefore.react (fun y hy hsends => ?_) (fun y hd => ?_) hmissing
      · rw [ttl_undergo]
        exact hrecent y (hsub hy) hsends d List.mem_concat_self
      · subst hd
        refine htold y ?_
        rw [arrivals_concat]
        exact List.mem_concat_self

/-- There is an arrival with which the message becomes complete. -/
theorem exists_last_event (hall : s.Complete (arrivals history)) :
    ∃ before y after, history = before ++ .arrive y :: after ∧
      ¬ s.Complete (arrivals before) ∧ s.Complete (arrivals before ++ [y]) := by
  induction history using List.reverseRecOn with
  | nil => exact absurd hall (not_complete_of_not_sends nofun)
  | append_singleton history d ih =>
      by_cases hearly : s.Complete (arrivals history)
      · obtain ⟨before, y, after, rfl, hmissing, hcomplete⟩ := ih hearly
        exact ⟨before, y, after ++ [d], by simp, hmissing, hcomplete⟩
      · rw [arrivals_concat] at hall
        cases d with
        | arrive y => exact ⟨history, y, [], rfl, hearly, hall⟩
        | sweep now => exact absurd (by simpa [Event.arrival?] using hall) hearly

omit [Compression] in
theorem mem_arrivals_iff : x ∈ arrivals history ↔ .arrive x ∈ history := by
  constructor
  · intro hx
    obtain ⟨d, hd, hdx⟩ := List.mem_filterMap.1 hx
    cases d with
    | arrive y =>
        obtain rfl := Option.some.inj hdx
        exact hd
    | sweep now => cases hdx
  · exact fun hx => List.mem_filterMap.2 ⟨.arrive x, hx, rfl⟩

/-- With one of its fragments a message is recent. -/
theorem Comes.recent {before after : List Event} {y : Arrival}
    (h : Comes ttl s (before ++ .arrive y :: after)) (hy : s.Sends y) :
    Recent ttl s (before ++ [.arrive y]) := by
  have hsub : before ++ [.arrive y] ⊆ before ++ .arrive y :: after := by simp
  intro z hz hsends d hd
  have hlatest : d.now ≤ y.now := by
    rcases List.mem_append.1 hd with hd | hd
    · exact (List.pairwise_append.1 h.clock).2.2 d hd (.arrive y) List.mem_cons_self
    · rw [List.mem_singleton.1 hd]
      exact Nat.le_refl _
  have hlast := h.together z (mem_arrivals_iff.2 (hsub (mem_arrivals_iff.1 hz))) y
    (mem_arrivals_iff.2 (by simp)) hsends hy
  omega

/-- A message that is unknown comes out when all its fragments have come. -/
theorem Comes.comesOut (h : Comes a.ttl s history) (hopen : a.opened.get? s.key = none)
    (hnew : s.key ∉ a.completed.keys) :
    ∃ before y after whole, history = before ++ .arrive y :: after ∧
      (a.undergo before).answer y = .ok (some whole) ∧ whole.message = s.message := by
  obtain ⟨before, y, after, rfl, hmissing, hcomplete⟩ := exists_last_event h.complete
  have hsends := sends_of_complete_concat hmissing hcomplete
  have hrecent := h.recent hsends
  have hbefore : before <+: before ++ .arrive y :: after := List.prefix_append _ _
  have hunderway := underway_undergo hopen hnew
    (fun z hz => h.told z (mem_arrivals_iff.2 (hbefore.subset (mem_arrivals_iff.1 hz))))
    (hrecent.mono (List.prefix_append _ _)) hmissing
  have hlast : ((a.undergo before).evict y.now).opened.get? s.key =
      (a.undergo before).opened.get? s.key := by
    refine hunderway.get?_evict_eq fun z hz hzsends => ?_
    rw [ttl_undergo]
    refine hrecent z (mem_arrivals_iff.2 ?_) hzsends (.arrive y) List.mem_concat_self
    exact List.mem_append_left _ (mem_arrivals_iff.1 hz)
  obtain ⟨hreply, -⟩ := hunderway.progress.sent hsends hlast
  obtain ⟨whole, hout, hmessage, -⟩ := hreply.last hmissing hcomplete
  exact ⟨before, y, after, whole, rfl, hout, hmessage⟩

/-! ### Failures -/

/-- What is known to be complete is turned away, so a message that is spoiled is not known. -/
theorem not_known_of_spoiled (h : a.answer x = .error e) (he : e.isRefusal = false) :
    x.key ∉ a.completed.keys := by
  intro hknown
  have hcontains : a.completed.contains x.fragment.header.messageKey = true :=
    RecentKeys.contains_eq_true.2 hknown
  have hrefuses : a.refuses x.fragment = true := by
    rw [refuses, hcontains, Bool.or_true, Bool.true_or]
  obtain ⟨d, hd, hadd⟩ := add_of_refuses hrefuses x.now x.position
  rw [answer, hadd] at h
  cases h
  exact absurd (he.symm.trans hd) Bool.noConfusion

/-- Whatever the assembler holds and whatever fragment comes, a failure is contained. If the
fragment is turned away, nothing has changed. If it spoils its message, the record of that message
is gone, what is remembered of completed messages is as it was, and so is every other record,
unless it has outlived its time; there are no new records either. When all fragments of that
message come again after this, in any order, with repetitions, fragments of other messages and
sweeps in between, and soon enough after one another, then the message comes out. And if the
fragment is taken without completing its message, then beside the record of this message only
those have changed that had outlived their time: they are gone and have been counted. -/
theorem failures_contained (a : Assembler) (x : Arrival) :
    (∀ e, a.answer x = .error e → e.isRefusal = true → a.take x = a) ∧
    (∀ e, a.answer x = .error e → e.isRefusal = false →
      (a.take x).opened.get? x.key = none ∧ (a.take x).completed = a.completed ∧
      (∀ k ≠ x.key, ∀ r, a.opened.get? k = some r → r.expired a.ttl x.now = false →
        (a.take x).opened.get? k = some r) ∧
      (∀ k r, (a.take x).opened.get? k = some r → a.opened.get? k = some r) ∧
      ∀ s history, s.key = x.key → Comes a.ttl s history →
        ∃ before y after whole, history = before ++ .arrive y :: after ∧
          ((a.take x).undergo before).answer y = .ok (some whole) ∧
            whole.message = s.message) ∧
    (a.answer x = .ok none →
      (a.take x).completed = a.completed ∧
      (∀ k ≠ x.key, (a.take x).opened.get? k =
        (a.opened.get? k).filter fun r => !r.expired a.ttl x.now) ∧
      (a.take x).expired =
        a.expired + (a.opened.values.filter (·.expired a.ttl x.now)).length) := by
  have hadded := a.added x
  refine ⟨fun e he hrefusal => ?_, fun e he hspoils => ?_, fun hwaits => ?_⟩
  · rw [he] at hadded
    exact hadded.eq_of_isRefusal hrefusal
  · have hnew := not_known_of_spoiled he hspoils
    have httl := hadded.ttl_eq
    have hcompleted := hadded.completed_eq
    rw [he] at hadded hcompleted
    obtain ⟨hopen, hothers, hnothing⟩ := hadded.contained hspoils
    refine ⟨hopen, hcompleted, hothers, hnothing, fun s history hkey hcomes => ?_⟩
    rw [← httl] at hcomes
    rw [← hkey] at hopen hnew
    exact hcomes.comesOut hopen (hcompleted ▸ hnew)
  · rw [hwaits] at hadded
    obtain ⟨r, hr⟩ := hadded.eq_putRecord
    rw [hr]
    refine ⟨rfl, fun k hk => ?_, rfl⟩
    rw [putRecord, Table.get?_put_of_ne hk.symm, get?_evict_eq_filter]

end

open scoped Zstd

/-- It claims to be a whole message of the stream, at the time at which one was cut in pieces. -/
def garbage : Fragment := ⟨{ inPieces.header 0 with total := 1 }, [0x78]⟩

theorem arrivals_map_arrive (xs : List Arrival) : arrivals (xs.map .arrive) = xs := by
  rw [arrivals, List.filterMap_map]
  exact List.filterMap_some

/-- One fragment with every tick is soon enough, if there are not too many. -/
theorem comes_arriving {s : Sending} {ttl : Nat} {fs : List Fragment} (hall : s.fragments ⊆ fs)
    (hof : fs ⊆ s.fragments) (hsoon : fs.length ≤ ttl) :
    Comes ttl s ((arriving fs).map .arrive) where
  complete := by
    rw [arrivals_map_arrive]
    exact complete_arriving hall
  told y hy := by
    rw [arrivals_map_arrive] at hy
    obtain ⟨i, hi, rfl⟩ := List.mem_mapIdx.1 hy
    exact .inl (sends_iff.2 (hof (List.getElem_mem hi)))
  clock := by
    rw [List.pairwise_map, arriving, List.pairwise_iff_getElem]
    intro i j hi hj hij
    rw [List.getElem_mapIdx, List.getElem_mapIdx]
    exact Nat.le_of_lt hij
  together y hy z hz _ _ := by
    rw [arrivals_map_arrive] at hz
    obtain ⟨j, hj, rfl⟩ := List.mem_mapIdx.1 hz
    dsimp only
    omega

/-- The garbage comes when two of three pieces are there. They have to come again, and do so
backwards; with the last of them the message comes out. -/
theorem failures_contained_garbage :
    let a := (fresh 10 16).feed (arriving inPieces.fragments.tail)
    let x : Arrival := ⟨2, garbage, ⟨"status", 0, 2⟩⟩
    let history := (arriving inPieces.fragments.reverse).map Event.arrive
    (a.opened.get? x.key).isSome = true ∧ a.answer x = .error .document ∧
      AssemblyError.document.isRefusal = false ∧ inPieces.key = x.key ∧
      Comes a.ttl inPieces history ∧ (a.take x).opened.get? x.key = none ∧
      ∃ before y after whole, history = before ++ .arrive y :: after ∧
        ((a.take x).undergo before).answer y = .ok (some whole) ∧
          whole.message = sampleMessage := by
  intro a x history
  have hopen : (a.opened.get? x.key).isSome = true := by decide +kernel
  have hfails : a.answer x = .error .document := by decide +kernel
  have httl : a.ttl = 10 := by decide +kernel
  have hcomes : Comes a.ttl inPieces history := by
    rw [httl]
    exact comes_arriving (by simp) (by simp) (by decide +kernel)
  obtain ⟨hgone, -, -, -, hagain⟩ := (failures_contained a x).2.1 .document hfails rfl
  exact ⟨hopen, hfails, rfl, rfl, hcomes, hgone, hagain inPieces history rfl hcomes⟩

/-- A record that is given no time at all has expired when the next fragment comes: the message
does not come out, although all of it is delivered again. -/
theorem redelivery_expires :
    let a := fresh 0 16
    let x : Arrival := ⟨0, garbage, ⟨"status", 0, 0⟩⟩
    let again := arriving inPieces.fragments
    a.answer x = .error .document ∧ AssemblyError.document.isRefusal = false ∧
      inPieces.key = x.key ∧ (∀ y ∈ again, inPieces.Sends y) ∧ inPieces.Complete again ∧
      (a.take x).messages again = [] := by
  intro a x again
  have hfails : a.answer x = .error .document := by decide +kernel
  have hnothing : (a.take x).messages again = [] := by decide +kernel
  refine ⟨hfails, rfl, rfl, fun y hy => ?_, complete_arriving (List.Subset.refl _), hnothing⟩
  obtain ⟨i, hi, rfl⟩ := List.mem_mapIdx.1 hy
  exact sends_iff.2 (List.getElem_mem hi)

end Assembler

end Conflux
