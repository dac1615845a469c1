import Conflux.Proofs.Assembler.Arrivals
import Conflux.Proofs.Assembly
import Conflux.Proofs.Extent

/-!
A message comes out of the assembler once. Its fragments may come in any order, any number
of times, among those of other messages and among fragments that belong to no message at
all. As long as these have other keys, nothing expires and the memory has room, the
assembler gathers the fragments of the message in one record, gives the message out with
the last one that was missing, and from then on knows that it is done.
-/

namespace Conflux

namespace Sending

variable [Compression] {s : Sending} {f : Fragment} {past : List Arrival} {x : Arrival}
  {p : Position}

/-- A fragment of the message arrives, as it is read off its datagram. -/
def Sends (s : Sending) (x : Arrival) : Prop :=
  ∃ f ∈ s.fragments, Fragment.ofBytes f.toBytes = .ok x.fragment

def Complete (s : Sending) (past : List Arrival) : Prop :=
  ∀ f ∈ s.fragments, ∃ x ∈ past, Fragment.ofBytes f.toBytes = .ok x.fragment

def From (s : Sending) (past : List Arrival) (p : Position) : Prop :=
  ∃ x ∈ past, s.Sends x ∧ x.position = p

def came (past : List Arrival) (f : Fragment) : Bool := past.any fun x => x.fragment == f

theorem ofBytes_eq_iff (hf : f ∈ s.fragments) {g : Fragment} :
    Fragment.ofBytes f.toBytes = .ok g ↔ g = f := by
  rw [ofBytes_of_mem hf, Except.ok.injEq, eq_comm]

theorem sends_iff : s.Sends x ↔ x.fragment ∈ s.fragments := by
  constructor
  · rintro ⟨f, hf, hbytes⟩
    rwa [(ofBytes_eq_iff hf).1 hbytes]
  · intro hx
    exact ⟨x.fragment, hx, ofBytes_of_mem hx⟩

theorem complete_iff : s.Complete past ↔ ∀ f ∈ s.fragments, came past f = true := by
  refine forall₂_congr fun f hf => ?_
  simp only [ofBytes_eq_iff hf, came, List.any_eq_true, beq_iff_eq]

omit [Compression] in
theorem came_concat (past : List Arrival) (x : Arrival) (f : Fragment) :
    came (past ++ [x]) f = (came past f || x.fragment == f) := by
  simp [came]

theorem from_concat :
    s.From (past ++ [x]) p ↔ s.From past p ∨ s.Sends x ∧ x.position = p := by
  simp only [From, List.mem_append, List.mem_singleton, or_and_right, exists_or,
    exists_eq_left]

theorem Complete.mono {later : List Arrival} (h : s.Complete past) (hsub : past ⊆ later) :
    s.Complete later := by
  intro f hf
  obtain ⟨x, hx, hbytes⟩ := h f hf
  exact ⟨x, hsub hx, hbytes⟩

theorem not_complete_of_not_sends (h : ∀ x ∈ past, ¬ s.Sends x) : ¬ s.Complete past := by
  intro hall
  obtain ⟨f, hf⟩ := List.exists_mem_of_ne_nil _ s.fragments_ne_nil
  obtain ⟨x, hx, hbytes⟩ := hall f hf
  exact h x hx ⟨f, hf, hbytes⟩

/-- The last fragment that was missing is one of the message. -/
theorem sends_of_complete_concat (hbefore : ¬ s.Complete past)
    (hafter : s.Complete (past ++ [x])) : s.Sends x := by
  by_contra hno
  refine hbefore fun f hf => ?_
  obtain ⟨y, hy, hbytes⟩ := hafter f hf
  rcases List.mem_append.1 hy with hy | hy
  · exact ⟨y, hy, hbytes⟩
  · rw [List.mem_singleton.1 hy] at hbytes
    exact absurd ⟨f, hf, hbytes⟩ hno

theorem came_concat_of_not_sends (hx : ¬ s.Sends x) (hf : f ∈ s.fragments) :
    came (past ++ [x]) f = came past f := by
  have hne : x.fragment ≠ f := by
    rintro rfl
    exact hx (sends_iff.2 hf)
  rw [came_concat]
  simp [hne]

/-- If there is another fragment, it has some of the bytes. -/
theorem length_lt_of_ne_single (hf : f ∈ s.fragments) (hsingle : s.fragments ≠ [f])
    (hpos : ∀ g ∈ s.fragments, 0 < g.payload.length) : f.payload.length < s.encoded.length := by
  obtain ⟨before, after, hsplit⟩ := List.append_of_mem hf
  rw [← s.sum_length, hsplit]
  rw [hsplit] at hpos hsingle
  cases before with
  | nil =>
      cases after with
      | nil => exact absurd rfl hsingle
      | cons g gs =>
          have hg := hpos g (by simp)
          simp only [List.nil_append, List.map_cons, List.sum_cons]
          omega
  | cons g gs =>
      have hg := hpos g (by simp)
      simp only [List.cons_append, List.map_cons, List.map_append, List.sum_cons, List.sum_append]
      omega

/-- A message of a single fragment comes whole; of the others no fragment is empty. -/
theorem whole_or_nonempty (hf : f ∈ s.fragments) :
    (f.isWhole = true ∧ s.fragments = [f] ∧ f.payload = s.encoded) ∨
      f.isWhole = false ∧ ∀ g ∈ s.fragments, 0 < g.payload.length := by
  by_cases hsingle : s.fragments = [f]
  · left
    have hjoined := s.tiles.joined
    rw [hsingle, List.map_singleton, Assembly.joinFrom] at hjoined
    split at hjoined
    · next hstart =>
        have hpayload : f.payload = s.encoded := by
          simpa [Assembly.joinFrom, Except.map, Fragment.piece] using hjoined
        refine ⟨?_, hsingle, hpayload⟩
        rw [Fragment.isWhole, decide_eq_true_eq, total_of_mem hf, s.toNat_total, hpayload]
        exact ⟨UInt32.toNat_inj.1 hstart, rfl⟩
    · cases hjoined
  · right
    have hpos : ∀ g ∈ s.fragments, 0 < g.payload.length := by
      rcases s.single_or_nonempty with ⟨g, hg⟩ | hpos
      · rw [hg, List.mem_singleton] at hf
        exact absurd (hf ▸ hg) hsingle
      · exact hpos
    refine ⟨?_, hpos⟩
    have hless := length_lt_of_ne_single hf hsingle hpos
    rw [Fragment.isWhole, decide_eq_false_iff_not, total_of_mem hf, s.toNat_total]
    rintro ⟨_, hlength⟩
    omega

end Sending

namespace Assembler

open Sending

variable [Compression] {a : Assembler} {s : Sending} {past : List Arrival} {x : Arrival}

/-! ### One fragment of the message -/

theorem not_overflow (hx : x.fragment ∈ s.fragments) :
    ¬ x.fragment.header.total.toNat <
      x.fragment.header.offset.toNat + x.fragment.payload.length := by
  rw [total_of_mem hx, s.toNat_total]
  exact Nat.not_lt.2 (s.fits hx)

theorem add_of_known (hx : x.fragment ∈ s.fragments) (hknown : s.key ∈ a.completed.keys) :
    a.add x.now x.fragment x.position = (a, .error .alreadyAssembled) := by
  have hcontains : a.completed.contains x.fragment.header.messageKey = true := by
    rw [key_of_mem hx]
    exact RecentKeys.contains_eq_true.2 hknown
  rw [add, encoding_of_mem hx]
  exact if_pos hcontains

theorem add_of_unknown (hx : x.fragment ∈ s.fragments) (hnew : s.key ∉ a.completed.keys) :
    a.add x.now x.fragment x.position =
      if x.fragment.isWhole then
        (a.close s.key).finish s.key s.encoding x.fragment.payload x.position x.position.offset
      else (a.evict x.now).addToRecord x.now x.fragment s.encoding x.position := by
  have hcontains : ¬ a.completed.contains x.fragment.header.messageKey = true := by
    rw [key_of_mem hx]
    exact fun hknown => hnew (RecentKeys.contains_eq_true.1 hknown)
  rw [add, encoding_of_mem hx]
  dsimp only
  rw [if_neg hcontains, if_neg (not_overflow hx), key_of_mem hx, Fragment.isWhole]
  simp only [decide_eq_true_eq]

/-- What was sent reads back when all of it is there. -/
theorem finish_encoded (s : Sending) (position : Position) (lastOffset : UInt64) :
    (a.close s.key).finish s.key s.encoding s.encoded position lastOffset =
      ({ a.close s.key with completed := (a.completed.insert s.key).1 },
        .ok (some ⟨s.message, position, lastOffset⟩)) := by
  have hread : readMessage s.key.stream s.encoding s.encoded = .ok s.message := by
    rw [readMessage, s.decode?_encoded]
    dsimp only
    rw [s.message.decode?_encode]
    exact if_pos rfl
  rw [finish, hread]
  rfl

/-! ### Progress -/

/-- How far the assembler has come with the message. -/
inductive Progress (s : Sending) (past : List Arrival) (a : Assembler) : Prop where
  | untouched (hnone : ∀ x ∈ past, ¬ s.Sends x) (hopen : a.opened.get? s.key = none)
      (hnew : s.key ∉ a.completed.keys)
  | partly (r : Assembly) (hopen : a.opened.get? s.key = some r)
      (hgathers : r.Gathers s (came past)) (hextent : Extent (s.From past) r.position r.lastOffset)
      (hmissing : ¬ s.Complete past) (hnew : s.key ∉ a.completed.keys)
  | done (hall : s.Complete past) (hopen : a.opened.get? s.key = none)
      (hknown : s.key ∈ a.completed.keys)

/-- What is answered to a fragment of the message. -/
inductive Reply (s : Sending) (past : List Arrival) (x : Arrival) : Answer → Prop where
  | repeated (hall : s.Complete past) : Reply s past x (.error .alreadyAssembled)
  | waiting (hmissing : ¬ s.Complete (past ++ [x])) : Reply s past x (.ok none)
  | whole (hmissing : ¬ s.Complete past) (hall : s.Complete (past ++ [x])) (w : Assembled)
      (hmessage : w.message = s.message)
      (hextent : Extent (s.From (past ++ [x])) w.position w.lastOffset) :
      Reply s past x (.ok (some w))

theorem Reply.early {result : Answer} (h : Reply s past x result)
    (hmissing : ¬ s.Complete (past ++ [x])) : result = .ok none := by
  cases h with
  | repeated hall => exact absurd (hall.mono (List.subset_append_left past [x])) hmissing
  | waiting => rfl
  | whole _ hall => exact absurd hall hmissing

theorem Reply.last {result : Answer} (h : Reply s past x result) (hmissing : ¬ s.Complete past)
    (hall : s.Complete (past ++ [x])) :
    ∃ w, result = .ok (some w) ∧ w.message = s.message ∧
      Extent (s.From (past ++ [x])) w.position w.lastOffset := by
  cases h with
  | repeated hall => exact absurd hall hmissing
  | waiting hstill => exact absurd hall hstill
  | whole _ _ w hmessage hextent => exact ⟨w, rfl, hmessage, hextent⟩

theorem Reply.late {result : Answer} (h : Reply s past x result) (hall : s.Complete past) :
    result = .error .alreadyAssembled := by
  cases h with
  | repeated => rfl
  | waiting hmissing => exact absurd (hall.mono (List.subset_append_left past [x])) hmissing
  | whole hmissing => exact absurd hall hmissing

theorem Progress.closed (h : Progress s past a) (hall : s.Complete past) :
    a.opened.get? s.key = none := by
  cases h with
  | untouched _ hopen => exact hopen
  | partly _ _ _ _ hmissing => exact absurd hall hmissing
  | done _ hopen => exact hopen

/-- A fragment that is none of the message changes nothing about it. -/
theorem Progress.other (h : Progress s past a) {b : Assembler} (hx : ¬ s.Sends x)
    (hopened : b.opened.get? s.key = a.opened.get? s.key)
    (hcompleted : s.key ∈ b.completed.keys ↔ s.key ∈ a.completed.keys) :
    Progress s (past ++ [x]) b := by
  have hcomplete (hall : s.Complete (past ++ [x])) : s.Complete past := by
    by_contra hno
    exact hx (sends_of_complete_concat hno hall)
  cases h with
  | untouched hnone hopen hnew =>
      refine .untouched ?_ (hopened.trans hopen) (mt hcompleted.1 hnew)
      intro y hy
      rcases List.mem_append.1 hy with hy | hy
      · exact hnone y hy
      · rw [List.mem_singleton.1 hy]
        exact hx
  | partly r hopen hgathers hextent hmissing hnew =>
      refine .partly r (hopened.trans hopen) ?_ ?_ (mt hcomplete hmissing) (mt hcompleted.1 hnew)
      · exact hgathers.congr fun f hf => (came_concat_of_not_sends hx hf).symm
      · refine hextent.congr fun p => ?_
        rw [from_concat]
        exact ⟨.inl, fun hp => hp.resolve_right fun hp => hx hp.1⟩
  | done hall hopen hknown =>
      exact .done (hall.mono (List.subset_append_left past [x])) (hopened.trans hopen)
        (hcompleted.2 hknown)

/-- The record that a fragment of the message goes to, once its place is noted: it gathers
what came before, and reaches over the new place. -/
theorem Progress.known (h : Progress s past a) (hmissing : ¬ s.Complete past)
    (hx : s.Sends x) :
    let known := (a.opened.get? s.key).getD
      (.start (UInt32.ofNat s.encoded.length) s.encoding x.position x.now)
    s.key ∉ a.completed.keys ∧ (known.extend x.position).Gathers s (came past) ∧
      Extent (s.From (past ++ [x])) (known.extend x.position).position
        (known.extend x.position).lastOffset := by
  intro known
  have hhere (p : Position) : s.From past p ∨ p = x.position ↔ s.From (past ++ [x]) p := by
    rw [from_concat]
    simp only [hx, true_and, eq_comm]
  cases h with
  | untouched hnone hopen hnew =>
      have hknown : known = .start (UInt32.ofNat s.encoded.length) s.encoding x.position x.now := by
        simp only [known, hopen, Option.getD_none]
      have hcame : ∀ f ∈ s.fragments, came past f = false := by
        intro f hf
        rw [Bool.eq_false_iff, came, Ne, List.any_eq_true]
        rintro ⟨y, hy, heq⟩
        exact hnone y hy (sends_iff.2 ((beq_iff_eq.1 heq).symm ▸ hf))
      obtain ⟨hposition, hlast⟩ :=
        place_start (UInt32.ofNat s.encoded.length) s.encoding x.position x.now
      refine ⟨hnew, ?_, ?_⟩
      · rw [hknown]
        exact (Assembly.gathers_start s _ hcame x.position x.now).extend x.position
      · rw [hknown, hposition, hlast]
        refine (Extent.single x.position).congr fun p => ?_
        rw [← hhere]
        refine ⟨.inr, fun hp => hp.resolve_left ?_⟩
        rintro ⟨y, hy, hsends, _⟩
        exact hnone y hy hsends
  | partly r hopen hgathers hextent _ hnew =>
      have hknown : known = r := by
        simp only [known, hopen, Option.getD_some]
      rw [hknown]
      exact ⟨hnew, hgathers.extend x.position, (hextent.extend x.position).congr hhere⟩
  | done hall => exact absurd hall hmissing

/-! ### One step -/

variable {b : Assembler} {result : Answer}

theorem take_answer (h : a.add x.now x.fragment x.position = (b, result)) :
    a.take x = b ∧ a.answer x = result := by
  rw [take, answer, h]
  exact ⟨rfl, rfl⟩

/-- What becomes of a message with one of its fragments, and what is answered. When the message
comes out it has to be remembered. -/
def Advances (s : Sending) (past : List Arrival) (x : Arrival) (a : Assembler) : Prop :=
  Reply s past x (a.answer x) ∧
    (((a.answer x).message?.isSome = true → s.key ∈ (a.take x).completed.keys) →
      Progress s (past ++ [x]) (a.take x))

/-- The message comes out. -/
theorem Progress.completes (hmissing : ¬ s.Complete past)
    (hall : s.Complete (past ++ [x])) {position : Position} {lastOffset : UInt64}
    (hextent : Extent (s.From (past ++ [x])) position lastOffset) {c : Assembler}
    (hadd : a.add x.now x.fragment x.position =
      (c.close s.key).finish s.key s.encoding s.encoded position lastOffset) :
    Advances s past x a := by
  rw [finish_encoded] at hadd
  obtain ⟨htake, hanswer⟩ := take_answer hadd
  have hopen : (a.take x).opened.get? s.key = none := by
    rw [htake]
    exact Table.get?_erase_self _ _
  rw [Advances, hanswer]
  exact ⟨.whole hmissing hall _ rfl hextent, fun hremembers => .done hall hopen (hremembers rfl)⟩

/-- The message still waits for some fragment. -/
theorem Progress.waits (hmissing : ¬ s.Complete (past ++ [x])) {c : Assembler}
    (hnew : s.key ∉ c.completed.keys) {r : Assembly} (hgathers : r.Gathers s (came (past ++ [x])))
    (hextent : Extent (s.From (past ++ [x])) r.position r.lastOffset)
    (hadd : a.add x.now x.fragment x.position = (c.putRecord s.key r, .ok none)) :
    Advances s past x a := by
  obtain ⟨htake, hanswer⟩ := take_answer hadd
  rw [Advances, htake, hanswer]
  exact ⟨.waiting hmissing,
    fun _ => .partly r (Table.get?_put_self _ _ _) hgathers hextent hmissing hnew⟩

/-- The only fragment of a message. -/
theorem Progress.only (h : Progress s past a) (hmissing : ¬ s.Complete past)
    (hwhole : x.fragment.isWhole = true) (hone : s.fragments = [x.fragment])
    (hpayload : x.fragment.payload = s.encoded) : Advances s past x a := by
  have hx : x.fragment ∈ s.fragments := hone ▸ List.mem_singleton_self _
  have hall : s.Complete (past ++ [x]) := by
    rw [complete_iff, hone, List.forall_mem_singleton, came_concat, beq_self_eq_true, Bool.or_true]
  have hnone : ∀ p, ¬ s.From past p := by
    rintro p ⟨y, hy, hsends, _⟩
    have hsame : y.fragment = x.fragment := by
      rw [sends_iff, hone, List.mem_singleton] at hsends
      exact hsends
    refine hmissing (complete_iff.2 ?_)
    rw [hone, List.forall_mem_singleton, came, List.any_eq_true]
    exact ⟨y, hy, beq_iff_eq.2 hsame⟩
  have hextent : Extent (s.From (past ++ [x])) x.position x.position.offset := by
    refine (Extent.single x.position).congr fun p => ?_
    rw [from_concat, or_iff_right (hnone p), sends_iff, eq_comm]
    exact (and_iff_right hx).symm
  have hadd := add_of_unknown hx (h.known hmissing (sends_iff.2 hx)).1
  rw [if_pos hwhole, hpayload] at hadd
  exact completes hmissing hall hextent hadd

/-- One of the fragments of a message that has several. -/
theorem Progress.oneOf (h : Progress s past a) (hmissing : ¬ s.Complete past)
    (hx : x.fragment ∈ s.fragments)
    (hlast : (a.evict x.now).opened.get? s.key = a.opened.get? s.key)
    (hpart : x.fragment.isWhole = false) (hpos : ∀ f ∈ s.fragments, 0 < f.payload.length) :
    Advances s past x a := by
  obtain ⟨hnew, hgathers, hextent⟩ := h.known hmissing (sends_iff.2 hx)
  have hadd := add_of_unknown hx hnew
  have hnew' : s.key ∉ (a.evict x.now).completed.keys := hnew
  rw [hpart, if_neg Bool.false_ne_true, addToRecord, key_of_mem hx, total_of_mem hx, hlast] at hadd
  dsimp only at hadd
  let known := (a.opened.get? s.key).getD
    (.start (UInt32.ofNat s.encoded.length) s.encoding x.position x.now)
  let r := known.extend x.position
  have htotal : ¬ known.total ≠ UInt32.ofNat s.encoded.length := not_not.2 hgathers.total
  rw [if_neg htotal, hgathers.holds_eq hx] at hadd
  cases hcame : came past x.fragment with
  | true =>
      rw [if_pos hcame] at hadd
      have hsame : ∀ f ∈ s.fragments, came past f = came (past ++ [x]) f := by
        intro f _
        rw [came_concat]
        by_cases hf : x.fragment = f
        · rw [← hf, hcame, Bool.true_or]
        · rw [beq_eq_false_iff_ne.2 hf, Bool.or_false]
      have hstill : ¬ s.Complete (past ++ [x]) := by
        intro hall
        refine hmissing (complete_iff.2 fun f hf => ?_)
        rw [hsame f hf]
        exact complete_iff.1 hall f hf
      exact waits hstill hnew' (hgathers.congr hsame) hextent hadd
  | false =>
      rw [hcame, if_neg Bool.false_ne_true] at hadd
      have hstored : (r.store x.fragment.header.offset x.fragment.payload).Gathers s
          (came (past ++ [x])) :=
        (hgathers.store hx hcame).congr fun f _ => (came_concat past x f).symm
      have hextent' : Extent (s.From (past ++ [x]))
          (r.store x.fragment.header.offset x.fragment.payload).position
          (r.store x.fragment.header.offset x.fragment.payload).lastOffset := by
        obtain ⟨hposition, hlastOffset⟩ := place_store r x.fragment.header.offset x.fragment.payload
        rw [hposition, hlastOffset]
        exact hextent
      have hfull := (hstored.isFull_iff hpos).trans complete_iff.symm
      by_cases hall : s.Complete (past ++ [x])
      · rw [if_pos (hfull.2 hall), hstored.join_eq (complete_iff.1 hall), hstored.encoding] at hadd
        exact completes hmissing hall hextent' hadd
      · rw [if_neg (mt hfull.1 hall)] at hadd
        exact waits hall hnew' hstored hextent' hadd

/-- The records that a fragment finds have not expired; a message of one fragment looks for
none. -/
theorem Progress.advances (h : Progress s past a) (hx : s.Sends x)
    (hlast : ¬ s.Complete past → x.fragment.isWhole = false →
      (a.evict x.now).opened.get? s.key = a.opened.get? s.key) :
    Advances s past x a := by
  rw [sends_iff] at hx
  by_cases hall : s.Complete past
  · cases h with
    | untouched hnone => exact absurd hall (not_complete_of_not_sends hnone)
    | partly _ _ _ _ hmissing => exact absurd hall hmissing
    | done _ hopen hknown =>
        obtain ⟨htake, hanswer⟩ := take_answer (add_of_known hx hknown)
        rw [Advances, htake, hanswer]
        exact ⟨.repeated hall,
          fun _ => .done (hall.mono (List.subset_append_left past [x])) hopen hknown⟩
  · rcases whole_or_nonempty hx with ⟨hwhole, hone, hpayload⟩ | ⟨hpart, hpos⟩
    · exact h.only hall hwhole hone hpayload
    · exact h.oneOf hall hx (hlast hall hpart) hpart hpos

theorem Progress.sent (h : Progress s past a) (hx : s.Sends x)
    (hlast : (a.evict x.now).opened.get? s.key = a.opened.get? s.key) :
    Advances s past x a :=
  h.advances hx fun _ _ => hlast

end Assembler

end Conflux
