import Conflux.Proofs.Assembler.Provenance
import Conflux.Zstd.Plain

/-!
What holds of the records while they are open, whatever fragments come and whenever the expired
records are swept. A record counts the bytes of its pieces and has fewer of them than its message.
It does not keep all the fragments that it is given: of those with one offset only the first is
stored, and of the others it is only noted where they came from. So the fragments that a record
has taken in cannot be read off it; they are followed over the history, beside the assembler.

A record is changed where it stands in the table, and when it is full it is taken out of the table
again. `addInPlace?` goes through these steps and gives up when the full record is not there, which
does not happen.
-/

namespace Conflux

namespace Assembly

variable {r known : Assembly} {k : MessageKey} {inside : List Arrival} {x : Arrival}
  {offset : UInt32} {ps : List (UInt32 × Bytes)}

/-! ### Pieces in their places -/

theorem perm_placePiece (offset : UInt32) (payload : Bytes) (ps : List (UInt32 × Bytes)) :
    (placePiece offset payload ps).Perm ((offset, payload) :: ps) := by
  induction ps with
  | nil => exact .refl _
  | cons p ps ih =>
      rw [placePiece]
      split
      · exact .refl _
      · exact (ih.cons p).trans (.swap _ p ps)

theorem ascending_placePiece (h : ps.Pairwise fun p q => p.1 < q.1)
    (hnew : ∀ p ∈ ps, p.1 ≠ offset) (payload : Bytes) :
    (placePiece offset payload ps).Pairwise fun p q => p.1 < q.1 := by
  induction ps with
  | nil => exact List.pairwise_singleton _ _
  | cons p ps ih =>
      obtain ⟨hp, hps⟩ := List.pairwise_cons.1 h
      rw [placePiece]
      split
      · next hlt =>
          refine List.pairwise_cons.2 ⟨fun q hq => ?_, h⟩
          rcases List.mem_cons.1 hq with rfl | hq
          · exact hlt
          · exact UInt32.lt_trans hlt (hp q hq)
      · next hnot =>
          refine List.pairwise_cons.2 ⟨fun q hq => ?_, ih hps fun q hq => hnew q (.tail p hq)⟩
          rcases List.mem_cons.1 ((perm_placePiece offset payload ps).mem_iff.1 hq) with rfl | hq
          · exact UInt32.lt_of_le_of_ne (UInt32.not_lt.1 hnot) (hnew p List.mem_cons_self)
          · exact hp q hq

/-! ### A record and the fragments it has taken in -/

def firstAt? (inside : List Arrival) (offset : UInt32) : Option Arrival :=
  inside.find? fun y => y.fragment.header.offset == offset

/-- The record of `k` has taken in the fragments `inside`, in this order. Of those with the same
offset it has stored the first. -/
structure Keeps (r : Assembly) (k : MessageKey) (inside : List Arrival) : Prop where
  alike : ∀ y ∈ inside, y.key = k ∧ y.fragment.header.total = r.total
  stored : ∀ p, p ∈ r.pieces ↔ (firstAt? inside p.1).map (·.fragment.piece) = some p
  ascending : r.pieces.Pairwise fun p q => p.1 < q.1
  fits : ∀ p ∈ r.pieces, p.1.toNat + p.2.length ≤ r.total.toNat
  received : r.received = (r.pieces.map (·.2.length)).sum

theorem keeps_start (total : UInt32) (encoding : Encoding) (position : Position) (now : Nat)
    (k : MessageKey) : (start total encoding position now).Keeps k [] where
  alike y hy := by cases hy
  stored p := by simp [start, firstAt?]
  ascending := .nil
  fits p hp := by cases hp
  received := rfl

theorem holds_iff : r.holds offset = true ↔ ∃ p ∈ r.pieces, p.1 = offset := by
  rw [holds, List.any_eq_true]
  simp only [beq_iff_eq]

theorem Keeps.holds_eq (h : r.Keeps k inside) (offset : UInt32) :
    r.holds offset = (firstAt? inside offset).isSome := by
  rw [Bool.eq_iff_iff, holds_iff]
  constructor
  · rintro ⟨p, hp, rfl⟩
    rw [← Option.isSome_map, (h.stored p).1 hp, Option.isSome_some]
  · intro hsome
    obtain ⟨y, hy⟩ := Option.isSome_iff_exists.1 hsome
    have hoffset : y.fragment.header.offset = offset := by
      have hfound := List.find?_some hy
      exact beq_iff_eq.1 hfound
    refine ⟨y.fragment.piece, (h.stored _).2 ?_, hoffset⟩
    rw [show y.fragment.piece.1 = offset from hoffset, hy, Option.map_some]

theorem firstAt?_concat (inside : List Arrival) (x : Arrival) (offset : UInt32) :
    firstAt? (inside ++ [x]) offset = (firstAt? inside offset).or
      (if x.fragment.header.offset = offset then some x else none) := by
  rw [firstAt?, List.find?_append, ← firstAt?, List.find?_singleton]
  simp only [beq_iff_eq]

theorem Keeps.alike_concat (h : r.Keeps k inside) (hkey : x.key = k)
    (htotal : x.fragment.header.total = r.total) :
    ∀ y ∈ inside ++ [x], y.key = k ∧ y.fragment.header.total = r.total := by
  intro y hy
  rcases List.mem_append.1 hy with hy | hy
  · exact h.alike y hy
  · obtain rfl := List.mem_singleton.1 hy
    exact ⟨hkey, htotal⟩

/-- A fragment with an offset that the record has is only noted. -/
theorem Keeps.again (h : known.Keeps k inside) (hkey : x.key = k)
    (htotal : x.fragment.header.total = known.total)
    (hheld : known.holds x.fragment.header.offset = true) :
    (known.extend x.position).Keeps k (inside ++ [x]) where
  alike := h.alike_concat hkey htotal
  stored p := by
    refine (h.stored p).trans ?_
    rw [firstAt?_concat]
    by_cases hp : x.fragment.header.offset = p.1
    · -- One with this offset came before.
      rw [h.holds_eq, hp] at hheld
      obtain ⟨y, hy⟩ := Option.isSome_iff_exists.1 hheld
      rw [hy, Option.some_or]
    · rw [if_neg hp, Option.or_none]
  ascending := h.ascending
  fits := h.fits
  received := h.received

/-- A fragment with a new offset is stored. -/
theorem Keeps.more (h : known.Keeps k inside) (hkey : x.key = k)
    (htotal : x.fragment.header.total = known.total)
    (hnew : known.holds x.fragment.header.offset = false)
    (hfits : x.fragment.header.offset.toNat + x.fragment.payload.length ≤ known.total.toNat) :
    ((known.extend x.position).store x.fragment.header.offset x.fragment.payload).Keeps k
      (inside ++ [x]) := by
  have hheld : ¬ (known.extend x.position).holds x.fragment.header.offset = true := by
    rw [show (known.extend x.position).holds _ = known.holds _ from rfl, hnew]
    exact Bool.false_ne_true
  have hnone : ∀ p ∈ known.pieces, p.1 ≠ x.fragment.header.offset := by
    intro p hp heq
    exact Bool.false_ne_true (hnew.symm.trans (holds_iff.2 ⟨p, hp, heq⟩))
  have hmem (p : UInt32 × Bytes) :
      p ∈ placePiece x.fragment.header.offset x.fragment.payload known.pieces ↔
        p = x.fragment.piece ∨ p ∈ known.pieces := by
    rw [(perm_placePiece _ _ _).mem_iff, List.mem_cons]
    rfl
  rw [store, if_neg hheld]
  refine ⟨h.alike_concat hkey htotal, fun p => ?_, ascending_placePiece h.ascending hnone _, ?_, ?_⟩
  · refine (hmem p).trans ?_
    rw [firstAt?_concat]
    by_cases hp : x.fragment.header.offset = p.1
    · have hfirst : firstAt? inside p.1 = none := by
        rw [← Option.not_isSome_iff_eq_none, ← h.holds_eq, ← hp, hnew]
        exact Bool.false_ne_true
      rw [hfirst, if_pos hp, Option.none_or, Option.map_some, Option.some.injEq,
        or_iff_left fun hold => hnone p hold hp.symm, eq_comm]
    · rw [if_neg hp, Option.or_none, ← h.stored p, or_iff_right]
      rintro rfl
      exact hp rfl
  · intro p hp
    rcases (hmem p).1 hp with rfl | hp
    · exact hfits
    · exact h.fits p hp
  · exact (congrArg (· + _) h.received).trans (sum_length_placePiece _ _ _).symm

theorem Keeps.grown (h : known.Keeps k inside) (hkey : x.key = k)
    (htotal : x.fragment.header.total = known.total)
    (hfits : x.fragment.header.offset.toNat + x.fragment.payload.length ≤ known.total.toNat)
    (hr : known.Grown x r) : r.Keeps k (inside ++ [x]) := by
  cases hr with
  | again hheld => exact h.again hkey htotal hheld
  | more hnew => exact h.more hkey htotal hnew hfits

/-- What holds of an open record that has taken in the fragments `inside`. Where it begins and ends
is told by all of them, also by those that it has not stored. -/
structure Unfinished (r : Assembly) (k : MessageKey) (inside : List Arrival) : Prop
    extends r.Keeps k inside where
  unfilled : r.received < r.total.toNat
  extent : Extent (fun p => ∃ y ∈ inside, y.position = p) r.position r.lastOffset

theorem isFull_eq_false_iff : r.isFull = false ↔ r.received < r.total.toNat := by
  rw [isFull, decide_eq_false_iff_not, Nat.not_le]

end Assembly

namespace Assembler

variable {a : Assembler} {x : Arrival} {k : MessageKey} {r : Assembly}
  {inside : MessageKey → List Arrival}

/-! ### In place -/

section

variable [Compression]

/-- Takes the record of a message out of the table and joins what it has. There may be none. -/
def takeOut? (a : Assembler) (k : MessageKey) : Option (Assembler × Answer) :=
  (a.opened.get? k).map fun r =>
    match r.join with
    | .ok encoded => (a.close k).finish k r.encoding encoded r.position r.lastOffset
    | .error gap => (a.close k, .error (.gap gap))

/-- Puts a fragment into the record of its message, which is opened in the table if need be and
changed there. If it is full then, it is taken out. -/
def addToRecordInPlace? (a : Assembler) (now : Nat) (f : Fragment) (encoding : Encoding)
    (position : Position) : Option (Assembler × Answer) :=
  let k := f.header.messageKey
  match (a.opened.get? k).filter fun r => r.total ≠ f.header.total with
  | some r => some (a.close k, .error (.sizeConflict f.header.total r.total))
  | none =>
      let r := (a.opened.get? k).getD (.start f.header.total encoding position now)
      let a := a.putRecord k r
      let r := r.extend position
      let a := a.putRecord k r
      if r.holds f.header.offset then some (a, .ok none)
      else
        let r := r.store f.header.offset f.payload
        let a := a.putRecord k r
        if r.received < r.total.toNat then some (a, .ok none) else a.takeOut? k

/-- Takes a fragment in the same way as `add`, but for the record that is changed in place. -/
def addInPlace? (a : Assembler) (now : Nat) (f : Fragment) (position : Position) :
    Option (Assembler × Answer) :=
  let h := f.header
  match Encoding.ofCode? h.encoding with
  | none => some (a, .error (.unknownEncoding h.encoding))
  | some encoding =>
      if a.completed.contains h.messageKey then some (a, .error .alreadyAssembled)
      else if h.total.toNat < h.offset.toNat + f.payload.length then
        some (a, .error (.overflow h.offset f.payload.length h.total))
      else if h.offset = 0 ∧ f.payload.length = h.total.toNat then
        some ((a.close h.messageKey).finish h.messageKey encoding f.payload position
          position.offset)
      else (a.evict now).addToRecordInPlace? now f encoding position

omit [Compression] in
theorem putRecord_putRecord (a : Assembler) (k : MessageKey) (r s : Assembly) :
    (a.putRecord k r).putRecord k s = a.putRecord k s := by
  rw [putRecord, putRecord, putRecord, Table.put_put]

omit [Compression] in
theorem close_putRecord (a : Assembler) (k : MessageKey) (r : Assembly) :
    (a.putRecord k r).close k = a.close k := by
  rw [putRecord, close, close, Table.erase_put]

/-- A record that has just been put there is there. -/
theorem takeOut?_putRecord (a : Assembler) (k : MessageKey) (r : Assembly) :
    (a.putRecord k r).takeOut? k = some (match r.join with
      | .ok encoded => (a.close k).finish k r.encoding encoded r.position r.lastOffset
      | .error gap => (a.close k, .error (.gap gap))) := by
  rw [takeOut?, close_putRecord, putRecord, Table.get?_put_self, Option.map_some]

theorem addToRecordInPlace?_eq_some (a : Assembler) (now : Nat) (f : Fragment)
    (encoding : Encoding) (position : Position) :
    a.addToRecordInPlace? now f encoding position =
      some (a.addToRecord now f encoding position) := by
  let known := (a.opened.get? f.header.messageKey).getD
    (.start f.header.total encoding position now)
  rw [addToRecordInPlace?, addToRecord]
  dsimp only
  split
  · next r hr =>
      obtain ⟨hopen, hconflict⟩ := Option.filter_eq_some_iff.1 hr
      rw [hopen, Option.getD_some, if_pos (of_decide_eq_true hconflict)]
  · next hnone =>
      have htotal : known.total = f.header.total := by
        cases hopen : a.opened.get? f.header.messageKey with
        | none => simp only [known, hopen, Option.getD_none, Assembly.start]
        | some r =>
            rw [hopen, Option.filter_eq_none_iff] at hnone
            simpa [known, hopen] using hnone r rfl
      simp only [putRecord_putRecord, takeOut?_putRecord]
      rw [if_neg (not_not.2 htotal)]
      let stored := (known.extend position).store f.header.offset f.payload
      by_cases hheld : (known.extend position).holds f.header.offset = true
      · rw [if_pos hheld, if_pos hheld]
      · rw [if_neg hheld, if_neg hheld]
        by_cases hless : stored.received < stored.total.toNat
        · have hopen : ¬ stored.isFull = true :=
            Bool.eq_false_iff.1 (Assembly.isFull_eq_false_iff.2 hless)
          rw [if_pos hless, if_neg hopen]
        · have hfull : stored.isFull = true :=
            Bool.not_eq_false _ ▸ mt Assembly.isFull_eq_false_iff.1 hless
          exact (if_neg hless).trans (congrArg some (if_pos hfull).symm)

theorem addInPlace?_eq_some (a : Assembler) (now : Nat) (f : Fragment) (position : Position) :
    a.addInPlace? now f position = some (a.add now f position) := by
  rw [addInPlace?, add]
  cases Encoding.ofCode? f.header.encoding with
  | none => rfl
  | some encoding =>
      dsimp only
      rw [addToRecordInPlace?_eq_some, ← apply_ite some, ← apply_ite some, ← apply_ite some]

/-! ### What is open -/

/-- The fragments in the record of `k` after an event, if those in it before were `inside`. One
that has to wait for the rest of its message goes into the record that it finds, or else into a new
one. What was in a record that is gone does not matter any more. -/
def takeIn (a : Assembler) (k : MessageKey) (inside : List Arrival) : Event → List Arrival
  | .sweep _ => inside
  | .arrive x =>
      if x.key = k ∧ a.answer x = .ok none then
        (if (a.found? x.now x.fragment).isSome then inside else []) ++ [x]
      else inside

/-- The fragments that the record of `k` has taken in, the repeated ones among them. -/
def takenIn (a : Assembler) (k : MessageKey) (inside : List Arrival) : List Event → List Arrival
  | [] => inside
  | e :: events => (a.react e).takenIn k (a.takeIn k inside e) events

/-- The open records are those of messages that are not remembered as completed, and they have
taken in the fragments `inside`. -/
structure Consistent (a : Assembler) (inside : MessageKey → List Arrival) : Prop where
  records : ∀ k r, a.opened.get? k = some r → r.Unfinished k (inside k)
  apart : ∀ k r, a.opened.get? k = some r → k ∉ a.completed.keys

/-- A record that is full is not left open, and a fragment whose record stays open has to wait. -/
theorem waits_addToRecord {a : Assembler} (encoding : Encoding)
    (hopen : ∀ s, a.opened.get? x.key = some s → s.isFull = false)
    (hr : (a.addToRecord x.now x.fragment encoding x.position).1.opened.get? x.key = some r) :
    r.isFull = false ∧ (a.addToRecord x.now x.fragment encoding x.position).2 = .ok none := by
  have hput {s : Assembly} (h : (a.putRecord x.key s).opened.get? x.key = some r) : r = s := by
    rw [putRecord, Table.get?_put_self] at h
    exact (Option.some.inj h).symm
  rw [addToRecord] at hr ⊢
  dsimp only at hr ⊢
  split at hr
  · cases (get?_close a x.key).symm.trans hr
  · next htotal =>
      rw [if_neg htotal]
      split at hr
      · next hheld =>
          rw [if_pos hheld]
          refine ⟨?_, rfl⟩
          obtain rfl := hput hr
          cases hknown : a.opened.get? x.key with
          | none =>
              -- A new record has nothing at any offset.
              rw [show a.opened.get? x.fragment.header.messageKey = none from hknown] at hheld
              cases hheld
          | some s =>
              rw [show a.opened.get? x.fragment.header.messageKey = some s from hknown]
              exact hopen s hknown
      · next hnew =>
          rw [if_neg hnew]
          split at hr
          · split at hr
            · cases (get?_close_finish a x.key _ _ _ _).symm.trans hr
            · cases (get?_close a x.key).symm.trans hr
          · next hfull =>
              rw [if_neg hfull]
              obtain rfl := hput hr
              exact ⟨Bool.eq_false_iff.2 hfull, rfl⟩

theorem waits_take (htakes : a.refuses x.fragment = false)
    (hopen : ∀ s, a.opened.get? x.key = some s → s.isFull = false)
    (hr : (a.take x).opened.get? x.key = some r) :
    r.isFull = false ∧ a.answer x = .ok none := by
  obtain ⟨encoding, -, hadd⟩ := add_of_takes htakes x.now x.position
  rw [take, hadd] at hr
  rw [answer, hadd]
  cases hwhole : x.fragment.isWhole with
  | true =>
      rw [hwhole, if_pos rfl] at hr
      cases (get?_close_finish a x.key _ _ _ _).symm.trans hr
  | false =>
      rw [hwhole, if_neg Bool.false_ne_true] at hr
      rw [if_neg Bool.false_ne_true]
      exact waits_addToRecord encoding (fun s hs => hopen s (get?_evict hs)) hr

namespace Consistent

omit [Compression] in
theorem fresh (ttl remembered : Nat) : (fresh ttl remembered).Consistent fun _ => [] where
  records k r hr := by cases hr
  apart k r hr := by cases hr

theorem waits (h : a.Consistent inside) (htakes : a.refuses x.fragment = false)
    (hr : (a.take x).opened.get? x.key = some r) :
    r.received < r.total.toNat ∧ a.answer x = .ok none := by
  have hopen (s : Assembly) (hs : a.opened.get? x.key = some s) : s.isFull = false :=
    Assembly.isFull_eq_false_iff.2 (h.records x.key s hs).unfilled
  obtain ⟨hunfilled, hwaits⟩ := waits_take htakes hopen hr
  exact ⟨Assembly.isFull_eq_false_iff.1 hunfilled, hwaits⟩

omit [Compression] in
/-- What a fragment finds, and what that has taken in. -/
theorem found (h : a.Consistent inside) (x : Arrival) (encoding : Encoding) :
    ((a.found? x.now x.fragment).getD
      (.start x.fragment.header.total encoding x.position x.now)).Keeps x.key
        (if (a.found? x.now x.fragment).isSome then inside x.key else []) := by
  cases hfound : a.found? x.now x.fragment with
  | none => exact Assembly.keeps_start _ _ _ _ _
  | some s => exact (h.records x.key s (get?_of_found? hfound)).toKeeps

/-- With the fragment the record extends to where it came from. -/
theorem extent (h : a.Consistent inside) (htakes : a.refuses x.fragment = false)
    (hr : (a.take x).opened.get? x.key = some r) :
    Extent (fun p => ∃ y ∈ (if (a.found? x.now x.fragment).isSome then inside x.key else []) ++ [x],
      y.position = p) r.position r.lastOffset := by
  have hspan := (takes_add htakes x.now x.position).own r hr
  rw [span] at hspan
  cases hfound : a.found? x.now x.fragment with
  | none =>
      rw [hfound] at hspan
      obtain ⟨hposition, hlast⟩ := Prod.mk.inj hspan
      rw [hposition, hlast]
      exact (Extent.single x.position).congr fun p => by simp [eq_comm]
  | some s =>
      rw [hfound] at hspan
      obtain ⟨hposition, hlast⟩ := Prod.mk.inj hspan
      rw [hposition, hlast]
      have hbefore := (h.records x.key s (get?_of_found? hfound)).extent
      exact (hbefore.extend x.position).congr fun p => by simp [or_and_right, exists_or, eq_comm]

/-- The record that a fragment is put into is as it should be, if it stays open. -/
theorem own (h : a.Consistent inside) (htakes : a.refuses x.fragment = false)
    (hr : (a.take x).opened.get? x.key = some r) :
    r.Unfinished x.key
      ((if (a.found? x.now x.fragment).isSome then inside x.key else []) ++ [x]) := by
  obtain ⟨encoding, -, hfiles⟩ := files_take htakes
  obtain ⟨htotal, hgrown⟩ := hfiles.own r hr
  obtain ⟨-, -, hfits⟩ := refuses_eq_false_iff.1 htakes
  exact {
    toKeeps := (h.found x encoding).grown rfl htotal.symm
      (hfits.trans_eq (congrArg UInt32.toNat htotal.symm)) hgrown
    unfilled := (h.waits htakes hr).1
    extent := h.extent htakes hr }

/-- What is remembered as completed with a fragment has no record then. -/
theorem not_mem_completed_take (h : a.Consistent inside) (htakes : a.refuses x.fragment = false)
    (hr : (a.take x).opened.get? k = some r) : k ∉ (a.take x).completed.keys := by
  have hcompleted := (a.added x).completed_eq
  by_cases hk : x.key = k
  · subst hk
    rw [(h.waits htakes hr).2] at hcompleted
    rw [hcompleted]
    exact (refuses_eq_false_iff.1 htakes).2.1
  · have hold : k ∉ a.completed.keys :=
      h.apart k r ((takes_add htakes x.now x.position).others k r hk hr)
    rw [hcompleted]
    split
    · intro hmem
      rcases RecentKeys.mem_of_mem_insert hmem with hmem | rfl
      · exact hold hmem
      · exact hk rfl
    · exact hold

theorem arrive (h : a.Consistent inside) (x : Arrival) :
    (a.take x).Consistent fun k => a.takeIn k (inside k) (.arrive x) := by
  cases htakes : a.refuses x.fragment with
  | true =>
      -- Nothing has changed, and no record has taken in anything.
      obtain ⟨e, -, hadd⟩ := add_of_refuses htakes x.now x.position
      have hsame (k : MessageKey) : a.takeIn k (inside k) (.arrive x) = inside k := by
        refine if_neg fun hwaits => ?_
        rw [answer, hadd] at hwaits
        cases hwaits.2
      rw [take, hadd]
      simp only [hsame]
      exact h
  | false =>
      refine ⟨fun k r hr => ?_, fun k r hr => h.not_mem_completed_take htakes hr⟩
      by_cases hk : x.key = k
      · subst hk
        rw [takeIn, if_pos ⟨rfl, (h.waits htakes hr).2⟩]
        exact h.own htakes hr
      · rw [takeIn, if_neg fun hwaits => hk hwaits.1]
        exact h.records k r ((takes_add htakes x.now x.position).others k r hk hr)

theorem react (h : a.Consistent inside) (e : Event) :
    (a.react e).Consistent fun k => a.takeIn k (inside k) e := by
  cases e with
  | arrive x => exact h.arrive x
  | sweep now =>
      exact ⟨fun k r hr => h.records k r (get?_evict hr), fun k r hr => h.apart k r (get?_evict hr)⟩

theorem undergo (h : a.Consistent inside) (events : List Event) :
    (a.undergo events).Consistent fun k => a.takenIn k (inside k) events := by
  induction events generalizing a inside with
  | nil => exact h
  | cons e events ih => exact ih (h.react e)

end Consistent

/-- Whatever comes and whenever the expired records are swept, each open record is that of a
message with some bytes, of which it does not have all yet. It counts the bytes of its pieces, which
lie within the message, and it lies where the fragments lie that it has taken in, from the first of
them to the highest offset of them all, the repeated ones included. No message with an open record
is remembered as completed. And a record that has just become full is in the table, so that it can
be taken out. -/
theorem open_records_consistent (ttl remembered : Nat) (history : List Event) :
    let a := (fresh ttl remembered).undergo history
    (∀ k r, a.opened.get? k = some r →
      0 < r.total.toNat ∧ r.Unfinished k ((fresh ttl remembered).takenIn k [] history) ∧
        k ∉ a.completed.keys) ∧
    ∀ x, a.addInPlace? x.now x.fragment x.position = some (a.take x, a.answer x) := by
  intro a
  have hconsistent := (Consistent.fresh ttl remembered).undergo history
  refine ⟨fun k r hr => ?_, fun x => addInPlace?_eq_some a _ _ _⟩
  have hrecord := hconsistent.records k r hr
  exact ⟨Nat.zero_lt_of_lt hrecord.unfilled, hrecord, hconsistent.apart k r hr⟩

end

open scoped Zstd

def half : Fragment := ⟨{ inPieces.header 0 with total := 4 }, [1, 2]⟩

/-- Half of a message comes, and comes again from an earlier place. -/
def halfTwice : List Event :=
  [.arrive ⟨0, half, ⟨"status", 0, 5⟩⟩, .sweep 7, .arrive ⟨9, half, ⟨"status", 0, 2⟩⟩]

theorem open_records_consistent_half_twice :
    let k := half.header.messageKey
    let inside := (fresh 10 10).takenIn k [] halfTwice
    inside.map (·.position.offset) = [5, 2] ∧
      ∃ r, ((fresh 10 10).undergo halfTwice).opened.get? k = some r ∧
        (r.received, r.position, r.lastOffset) = (2, ⟨"status", 0, 2⟩, 5) ∧
          r.Unfinished k inside ∧ k ∉ ((fresh 10 10).undergo halfTwice).completed.keys := by
  intro k inside
  have hrecord : (((fresh 10 10).undergo halfTwice).opened.get? k).map
      (fun r => (r.received, r.position, r.lastOffset)) = some (2, ⟨"status", 0, 2⟩, 5) := by
    decide +kernel
  obtain ⟨r, hr, hplace⟩ := Option.map_eq_some_iff.1 hrecord
  obtain ⟨hrecords, -⟩ := open_records_consistent 10 10 halfTwice
  obtain ⟨-, hunfinished, hunknown⟩ := hrecords k r hr
  exact ⟨by decide +kernel, r, hr, hplace, hunfinished, hunknown⟩

end Assembler

end Conflux
