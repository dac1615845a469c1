import Conflux.Proofs.Assembler.Delivery
import Conflux.Proofs.Extent
import Conflux.Zstd.Plain

/-!
Where a message comes from. The fragments may be of any kind here: cut from no message at
all, with offsets that overlap, with other payloads in the same place, with totals and
encodings that do not agree; and the expired records may be swept at any time. Still, a
message that comes out is made of fragments that came. They were put into one record, they
have the total in common, and they lie in a row from its first byte to its last.

A record counts bytes, and it is complete when it has as many as it should have. That alone
says nothing about where they lie. What settles it is the joining of the pieces, which goes
through them in the order of their offsets and stops where one does not begin where the
piece before it ended.
-/

namespace Conflux

/-! ### Fragments in a row -/

namespace Fragment

/-- The first begins at `start`, each of the others where the one before it ends, and the
last one ends at `stop`. -/
def InRow (start stop : Nat) : List Fragment → Prop
  | [] => start = stop
  | f :: fs => f.header.offset.toNat = start ∧ InRow (start + f.payload.length) stop fs

def content (fs : List Fragment) : Bytes := fs.flatMap (·.payload)

/-- Pieces that can be joined are those of fragments in a row. -/
theorem inRow_of_joinFrom {start : Nat} {b : Bytes} {fs : List Fragment}
    (h : Assembly.joinFrom start (fs.map piece) = .ok b) :
    InRow start (start + b.length) fs ∧ content fs = b := by
  induction fs generalizing start b with
  | nil =>
      obtain rfl := Except.ok.inj h
      exact ⟨rfl, rfl⟩
  | cons f fs ih =>
      rw [List.map_cons, Assembly.joinFrom] at h
      split at h
      · next hstart =>
          cases hrest : Assembly.joinFrom (start + f.piece.2.length) (fs.map piece) with
          | error gap =>
              rw [hrest] at h
              cases h
          | ok rest =>
              rw [hrest] at h
              obtain rfl := Except.ok.inj h
              obtain ⟨hrow, hcontent⟩ := ih hrest
              refine ⟨⟨hstart, ?_⟩, ?_⟩
              · rw [List.length_append, ← Nat.add_assoc]
                exact hrow
              · rw [content, List.flatMap_cons, ← content, hcontent]
                rfl
      · cases h

end Fragment

namespace Assembly

variable {r known : Assembly} {k : MessageKey} {used : List Arrival} {x : Arrival}

theorem inRow_of_join {fs : List Fragment} {b : Bytes} (hpieces : r.pieces = fs.map Fragment.piece)
    (h : r.join = .ok b) : Fragment.InRow 0 r.total.toNat fs ∧ Fragment.content fs = b := by
  rw [join, hpieces] at h
  split at h
  · next c hjoined =>
      split at h
      · next hlength =>
          obtain rfl := Except.ok.inj h
          obtain ⟨hrow, hcontent⟩ := Fragment.inRow_of_joinFrom hjoined
          rw [Nat.zero_add, hlength] at hrow
          exact ⟨hrow, hcontent⟩
      · cases h
  · cases h

theorem placePiece_map (f : Fragment) (fs : List Fragment) :
    ∃ gs : List Fragment, gs.Perm (f :: fs) ∧
      placePiece f.header.offset f.payload (fs.map Fragment.piece) = gs.map Fragment.piece := by
  induction fs with
  | nil => exact ⟨[f], .refl _, rfl⟩
  | cons g gs ih =>
      rw [List.map_cons, placePiece]
      split
      · exact ⟨f :: g :: gs, .refl _, rfl⟩
      · obtain ⟨hs, hperm, hplace⟩ := ih
        refine ⟨g :: hs, (hperm.cons g).trans (.swap f g gs), ?_⟩
        rw [hplace, List.map_cons]

theorem join_eq_ok {ps : List (UInt32 × Bytes)} {b : Bytes} (hpieces : r.pieces = ps)
    (hjoined : joinFrom 0 ps = .ok b) (hlength : b.length = r.total.toNat) : r.join = .ok b := by
  rw [join, hpieces, hjoined]
  exact if_pos hlength

/-- A fragment that is all of its message needs no others. -/
theorem join_start (h : x.fragment.isWhole = true) (encoding : Encoding) :
    (((start x.fragment.header.total encoding x.position x.now).extend x.position).store
      x.fragment.header.offset x.fragment.payload).join = .ok x.fragment.payload := by
  rw [Fragment.isWhole, decide_eq_true_eq] at h
  obtain ⟨hoffset, hlength⟩ := h
  have hjoined : joinFrom 0 [x.fragment.piece] = .ok x.fragment.payload := by
    rw [joinFrom, show x.fragment.piece.1.toNat = 0 from congrArg UInt32.toNat hoffset, if_pos rfl]
    exact congrArg Except.ok (List.append_nil _)
  exact join_eq_ok rfl hjoined hlength

/-! ### What a record is made of -/

/-- A record that the fragments `used` were put into, in this order. -/
structure FilledBy (r : Assembly) (k : MessageKey) (used : List Arrival) : Prop where
  alike : ∀ y ∈ used, y.key = k ∧ y.fragment.header.total = r.total
  encoding : ∀ first, used.head? = some first →
    Encoding.ofCode? first.fragment.header.encoding = some r.encoding
  pieces : ∃ row : List Fragment, row.Perm (used.map (·.fragment)) ∧
    r.pieces = row.map Fragment.piece
  position : ∀ y ∈ used, r.position ≤ y.position
  lastOffset : ∀ y ∈ used, y.position.offset ≤ r.lastOffset

theorem filledBy_start (total : UInt32) (encoding : Encoding) (position : Position) (now : Nat)
    (k : MessageKey) : (start total encoding position now).FilledBy k [] where
  alike y hy := by cases hy
  encoding first h := by cases h
  pieces := ⟨[], .refl _, rfl⟩
  position y hy := by cases hy
  lastOffset y hy := by cases hy

theorem FilledBy.extend (h : r.FilledBy k used) (position : Position) :
    (r.extend position).FilledBy k used where
  alike := h.alike
  encoding := h.encoding
  pieces := h.pieces
  position y hy := le_trans (Position.earlier_le_left _ _) (h.position y hy)
  lastOffset y hy :=
    UInt64.le_trans (h.lastOffset y hy) (le_max_offset r.lastOffset position.offset).1

/-- A fragment that is new to the record is put in its place. The first of them all must
have the encoding of the record. -/
theorem FilledBy.store (h : r.FilledBy k used)
    (hnew : r.holds x.fragment.header.offset = false) (hkey : x.key = k)
    (htotal : x.fragment.header.total = r.total)
    (hfirst : used = [] → Encoding.ofCode? x.fragment.header.encoding = some r.encoding) :
    ((r.extend x.position).store x.fragment.header.offset x.fragment.payload).FilledBy k
      (used ++ [x]) := by
  have hextended := h.extend x.position
  have hheld : ¬ (r.extend x.position).holds x.fragment.header.offset = true := by
    rw [show (r.extend x.position).holds _ = r.holds _ from rfl, hnew]
    exact Bool.false_ne_true
  rw [Assembly.store, if_neg hheld]
  have hmem {y : Arrival} (hy : y ∈ used ++ [x]) : y ∈ used ∨ y = x := by
    rwa [List.mem_append, List.mem_singleton] at hy
  refine ⟨?_, ?_, ?_, ?_, ?_⟩
  · intro y hy
    rcases hmem hy with hy | rfl
    · exact h.alike y hy
    · exact ⟨hkey, htotal⟩
  · intro first hhead
    cases used with
    | nil =>
        obtain rfl := Option.some.inj hhead
        exact hfirst rfl
    | cons y ys => exact h.encoding first hhead
  · obtain ⟨row, hperm, hpieces⟩ := h.pieces
    obtain ⟨row', hperm', hplace⟩ := placePiece_map x.fragment row
    refine ⟨row', ?_, ?_⟩
    · rw [List.map_append, List.map_singleton]
      exact hperm'.trans ((hperm.cons _).trans (List.perm_append_singleton _ _).symm)
    · rw [← hplace, ← hpieces]
      rfl
  · intro y hy
    rcases hmem hy with hy | rfl
    · exact hextended.position y hy
    · exact r.position.earlier_le_right y.position
  · intro y hy
    rcases hmem hy with hy | rfl
    · exact hextended.lastOffset y hy
    · exact (le_max_offset r.lastOffset y.position.offset).2

/-- What becomes of a record with a fragment: only its extent is noted if it has a piece at
the same offset, and otherwise the payload is stored as well. -/
inductive Grown (known : Assembly) (x : Arrival) : Assembly → Prop where
  | again (h : known.holds x.fragment.header.offset = true) :
      Grown known x (known.extend x.position)
  | more (h : known.holds x.fragment.header.offset = false) :
      Grown known x
        ((known.extend x.position).store x.fragment.header.offset x.fragment.payload)

theorem FilledBy.grown (h : known.FilledBy k used) (hkey : x.key = k)
    (htotal : x.fragment.header.total = known.total)
    (hfirst : used = [] → Encoding.ofCode? x.fragment.header.encoding = some known.encoding)
    (hr : known.Grown x r) : r.FilledBy k used ∧ used ≠ [] ∨ r.FilledBy k (used ++ [x]) := by
  cases hr with
  | again hheld =>
      refine .inl ⟨h.extend x.position, ?_⟩
      rintro rfl
      -- A record without fragments has nothing at any offset.
      obtain ⟨row, hperm, hpieces⟩ := h.pieces
      rw [List.map_nil, List.perm_nil] at hperm
      rw [holds, hpieces, hperm] at hheld
      cases hheld
  | more hnew => exact .inr (h.store hnew hkey htotal hfirst)

end Assembly

/-! ### What a message is made of -/

section

variable [Compression]

theorem Assembler.decoded_of_readMessage {stream : Digest} {encoding : Encoding} {encoded : Bytes}
    {m : Message} (h : readMessage stream encoding encoded = .ok m) :
    ∃ decoded, encoding.decode? encoded = some decoded ∧ Message.decode? decoded = some m := by
  rw [readMessage] at h
  split at h
  · cases h
  · next decoded hdecoded =>
      split at h
      · cases h
      · next m' hm =>
          split at h
          · cases h
            exact ⟨decoded, hdecoded, hm⟩
          · cases h

/-- The message came out with the fragment `x`, and is made of the fragments `used`. -/
structure Assembled.MadeOf (whole : Assembled) (x : Arrival) (used : List Arrival) : Prop where
  alike : ∀ y ∈ used, y.key = x.key ∧ y.fragment.header.total = x.fragment.header.total
  /-- Put in a row, their payloads are what the message was encoded to, under the encoding
  that the first of them declares. -/
  content : ∃ first encoding row decoded, used.head? = some first ∧
    Encoding.ofCode? first.fragment.header.encoding = some encoding ∧
    row.Perm (used.map (·.fragment)) ∧ Fragment.InRow 0 x.fragment.header.total.toNat row ∧
    encoding.decode? (Fragment.content row) = some decoded ∧
    Message.decode? decoded = some whole.message
  stream : streamId whole.message.key = x.fragment.header.stream
  position : ∀ y ∈ used, whole.position ≤ y.position
  lastOffset : ∀ y ∈ used, y.position.offset ≤ whole.lastOffset

theorem Assembly.FilledBy.madeOf {r : Assembly} {x : Arrival} {used : List Arrival}
    {whole : Assembled} {encoded : Bytes} (h : r.FilledBy x.key used) (hx : x ∈ used)
    (hjoin : r.join = .ok encoded)
    (hread : Assembler.readMessage x.key.stream r.encoding encoded = .ok whole.message)
    (hposition : whole.position = r.position) (hlast : whole.lastOffset = r.lastOffset) :
    whole.MadeOf x used where
  alike y hy := ⟨(h.alike y hy).1, (h.alike y hy).2.trans (h.alike x hx).2.symm⟩
  content := by
    have hne : used ≠ [] := List.ne_nil_of_mem hx
    obtain ⟨row, hperm, hpieces⟩ := h.pieces
    obtain ⟨hrow, hcontent⟩ := inRow_of_join hpieces hjoin
    obtain ⟨first, hhead⟩ := Option.ne_none_iff_exists'.1 (mt List.head?_eq_none_iff.1 hne)
    obtain ⟨decoded, hdecoded, hmessage⟩ := Assembler.decoded_of_readMessage hread
    refine ⟨first, r.encoding, row, decoded, hhead, h.encoding first hhead, hperm, ?_, ?_, hmessage⟩
    · rwa [(h.alike x hx).2]
    · rwa [hcontent]
  stream := Assembler.readMessage_ok hread
  position y hy := hposition ▸ h.position y hy
  lastOffset y hy := hlast ▸ h.lastOffset y hy

namespace Assembler

variable {a b : Assembler} {x : Arrival} {k : MessageKey} {whole : Assembled}

/-- What comes of a fragment that is put into the record `known`. -/
structure Files (x : Arrival) (known : Assembly) (b : Assembler) (result : Answer) : Prop where
  own : ∀ r, b.opened.get? x.key = some r →
    known.total = x.fragment.header.total ∧ known.Grown x r
  out : ∀ whole, result = .ok (some whole) →
    known.total = x.fragment.header.total ∧
      known.holds x.fragment.header.offset = false ∧
        let r := (known.extend x.position).store x.fragment.header.offset x.fragment.payload
        ∃ encoded, r.join = .ok encoded ∧
          readMessage x.key.stream r.encoding encoded = .ok whole.message ∧
          whole.position = r.position ∧ whole.lastOffset = r.lastOffset

theorem finish_ok {encoding : Encoding} {encoded : Bytes} {position : Position}
    {lastOffset : UInt64} (h : (a.finish k encoding encoded position lastOffset).2 =
      .ok (some whole)) :
    readMessage k.stream encoding encoded = .ok whole.message ∧ whole.position = position ∧
      whole.lastOffset = lastOffset := by
  rw [finish] at h
  split at h
  · next m hm =>
      cases h
      exact ⟨hm, rfl, rfl⟩
  · cases h

omit [Compression] in
/-- Neither finishing a message nor giving it up leaves a record of it. -/
theorem get?_close (a : Assembler) (k : MessageKey) : (a.close k).opened.get? k = none :=
  Table.get?_erase_self _ _

theorem get?_close_finish (a : Assembler) (k : MessageKey) (encoding : Encoding)
    (encoded : Bytes) (position : Position) (lastOffset : UInt64) :
    ((a.close k).finish k encoding encoded position lastOffset).1.opened.get? k = none := by
  rw [finish]
  split <;> exact get?_close a k

theorem files_addToRecord (a : Assembler) (x : Arrival) (encoding : Encoding) :
    let after := a.addToRecord x.now x.fragment encoding x.position
    Files x ((a.opened.get? x.key).getD (.start x.fragment.header.total encoding x.position x.now))
      after.1 after.2 := by
  let known := (a.opened.get? x.key).getD
    (.start x.fragment.header.total encoding x.position x.now)
  have hput {r r' : Assembly} (h : (a.putRecord x.key r).opened.get? x.key = some r') :
      r' = r := by
    rw [putRecord, Table.get?_put_self] at h
    exact (Option.some.inj h).symm
  change let after := a.addToRecord x.now x.fragment encoding x.position
    Files x known after.1 after.2
  intro after
  simp only [after, addToRecord]
  split
  · refine ⟨fun r hr => ?_, fun whole hout => by cases hout⟩
    cases (get?_close a x.key).symm.trans hr
  · next htotal =>
      have htotal : known.total = x.fragment.header.total := not_not.1 htotal
      split
      · next hheld =>
          refine ⟨fun r hr => ?_, fun whole hout => by cases hout⟩
          obtain rfl := hput hr
          exact ⟨htotal, .again hheld⟩
      · next hnew =>
          have hnew : known.holds x.fragment.header.offset = false := Bool.eq_false_iff.2 hnew
          split
          · split
            · next encoded hjoin =>
                refine ⟨fun r hr => ?_, fun whole hout => ?_⟩
                · cases (get?_close_finish a x.key _ _ _ _).symm.trans hr
                · exact ⟨htotal, hnew, encoded, hjoin, finish_ok hout⟩
            · refine ⟨fun r hr => ?_, fun whole hout => by cases hout⟩
              cases (get?_close a x.key).symm.trans hr
          · refine ⟨fun r hr => ?_, fun whole hout => by cases hout⟩
            obtain rfl := hput hr
            exact ⟨htotal, .more hnew⟩

/-- The record that a fragment is put into: the one it finds, or a new one. For a fragment
that is all of its message the new one is as good as there. -/
theorem files_take (h : a.refuses x.fragment = false) :
    ∃ encoding, Encoding.ofCode? x.fragment.header.encoding = some encoding ∧
      Files x ((a.found? x.now x.fragment).getD
        (.start x.fragment.header.total encoding x.position x.now)) (a.take x) (a.answer x) := by
  obtain ⟨encoding, hcode, hadd⟩ := add_of_takes h x.now x.position
  refine ⟨encoding, hcode, ?_⟩
  rw [take, answer, hadd, found?]
  cases hwhole : x.fragment.isWhole with
  | false =>
      simp only [Bool.false_eq_true, if_false]
      exact files_addToRecord (a.evict x.now) x encoding
  | true =>
      simp only [if_true, Option.getD_none]
      refine ⟨fun r hr => ?_, fun whole hout => ?_⟩
      · have hgone := get?_close_finish a x.key encoding x.fragment.payload x.position
          x.position.offset
        cases hgone.symm.trans hr
      · obtain ⟨hread, hposition, hlast⟩ := finish_ok hout
        obtain ⟨hposition', hlast'⟩ :=
          place_start x.fragment.header.total encoding x.position x.now
        obtain ⟨hstored, hstored'⟩ := place_store
          ((Assembly.start x.fragment.header.total encoding x.position x.now).extend x.position)
          x.fragment.header.offset x.fragment.payload
        refine ⟨rfl, rfl, x.fragment.payload, Assembly.join_start hwhole encoding, hread, ?_, ?_⟩
        · rw [hposition, hstored, hposition']
        · rw [hlast, hstored', hlast']

/-! ### Histories -/

inductive Event where
  | arrive (x : Arrival)
  | sweep (now : Nat)

def Event.arrival? : Event → Option Arrival
  | arrive x => some x
  | sweep _ => none

def arrivals (history : List Event) : List Arrival := history.filterMap Event.arrival?

def react (a : Assembler) : Event → Assembler
  | .arrive x => a.take x
  | .sweep now => a.evict now

def undergo (a : Assembler) (history : List Event) : Assembler := history.foldl react a

/-- The fragment is taken and finds no record of its message. -/
def Begins (a : Assembler) (x : Arrival) : Prop :=
  a.refuses x.fragment = false ∧ a.found? x.now x.fragment = none

/-- The fragments `used` of a message, in the order in which they came: with the first of
them the message began, and it has not begun anew since then. -/
inductive Collected (ttl remembered : Nat) (k : MessageKey) : List Event → List Arrival → Prop where
  | first {history : List Event} {x : Arrival} (hkey : x.key = k)
      (hbegins : ((fresh ttl remembered).undergo history).Begins x) :
      Collected ttl remembered k (history ++ [.arrive x]) [x]
  | next {history : List Event} {used : List Arrival} {x : Arrival}
      (h : Collected ttl remembered k history used) (hkey : x.key = k)
      (hgoes : ¬ ((fresh ttl remembered).undergo history).Begins x) :
      Collected ttl remembered k (history ++ [.arrive x]) (used ++ [x])
  | other {history : List Event} {used : List Arrival} {e : Event}
      (h : Collected ttl remembered k history used)
      (hgoes : ∀ x, e = .arrive x → x.key = k →
        ¬ ((fresh ttl remembered).undergo history).Begins x) :
      Collected ttl remembered k (history ++ [e]) used

variable {ttl remembered : Nat} {history : List Event} {used : List Arrival}

theorem undergo_concat (a : Assembler) (history : List Event) (e : Event) :
    a.undergo (history ++ [e]) = (a.undergo history).react e := by
  rw [undergo, List.foldl_append]
  rfl

omit [Compression] in
theorem arrivals_concat (history : List Event) (e : Event) :
    arrivals (history ++ [e]) = arrivals history ++ e.arrival?.toList := by
  rw [arrivals, List.filterMap_append, ← arrivals]
  cases e <;> rfl

/-- They are fragments that came, in the order in which they came. -/
theorem Collected.sublist (h : Collected ttl remembered k history used) :
    used.Sublist (arrivals history) := by
  induction h with
  | first =>
      rw [arrivals_concat]
      exact List.sublist_append_right _ _
  | next _ _ _ ih =>
      rw [arrivals_concat]
      exact ih.append (.refl _)
  | other _ _ ih =>
      rw [arrivals_concat]
      exact ih.trans (List.sublist_append_left _ _)

theorem Collected.ne_nil (h : Collected ttl remembered k history used) : used ≠ [] := by
  induction h with
  | first => exact List.cons_ne_nil _ _
  | next => exact List.append_ne_nil_of_right_ne_nil _ (List.cons_ne_nil _ _)
  | other _ _ ih => exact ih

/-- The records that are open, and what they are made of. -/
def Accounted (ttl remembered : Nat) (history : List Event) : Prop :=
  ∀ k r, ((fresh ttl remembered).undergo history).opened.get? k = some r →
    ∃ used, r.FilledBy k used ∧ Collected ttl remembered k history used

/-- What a fragment finds, and what it was made of. -/
theorem Accounted.found (h : Accounted ttl remembered history) {x : Arrival}
    (htakes : ((fresh ttl remembered).undergo history).refuses x.fragment = false)
    (encoding : Encoding) :
    let known := (((fresh ttl remembered).undergo history).found? x.now x.fragment).getD
      (.start x.fragment.header.total encoding x.position x.now)
    ∃ used, known.FilledBy x.key used ∧ (used = [] → known.encoding = encoding) ∧
      Collected ttl remembered x.key (history ++ [.arrive x]) (used ++ [x]) ∧
      (used ≠ [] → Collected ttl remembered x.key (history ++ [.arrive x]) used) := by
  intro known
  cases hfound : ((fresh ttl remembered).undergo history).found? x.now x.fragment with
  | none =>
      refine ⟨[], ?_, ?_, .first rfl ⟨htakes, hfound⟩, fun hne => absurd rfl hne⟩
      · simp only [known, hfound, Option.getD_none]
        exact Assembly.filledBy_start _ _ _ _ _
      · intro _
        simp only [known, hfound, Option.getD_none]
        rfl
  | some r =>
      have hknown : known = r := by
        simp only [known, hfound, Option.getD_some]
      have hopened : ((fresh ttl remembered).undergo history).opened.get? x.key = some r :=
        get?_of_found? hfound
      have hgoes : ¬ ((fresh ttl remembered).undergo history).Begins x := by
        rintro ⟨_, hnone⟩
        cases hnone.symm.trans hfound
      obtain ⟨used, hfilled, hcollected⟩ := h x.key r hopened
      refine ⟨used, hknown ▸ hfilled, ?_, .next hcollected rfl hgoes, fun _ => ?_⟩
      · rintro rfl
        exact absurd rfl hcollected.ne_nil
      · refine .other hcollected ?_
        rintro _ ⟨rfl⟩ _
        exact hgoes

/-- A sweep opens no record. -/
theorem Accounted.sweep (h : Accounted ttl remembered history) (now : Nat) :
    Accounted ttl remembered (history ++ [.sweep now]) := by
  intro k r hr
  rw [undergo_concat] at hr
  obtain ⟨used, hfilled, hcollected⟩ := h k r (get?_evict hr)
  refine ⟨used, hfilled, .other hcollected ?_⟩
  rintro x ⟨⟩

/-- A fragment that is taken is put into the record of its message, and into no other. -/
theorem Accounted.arrive (h : Accounted ttl remembered history) (x : Arrival) :
    Accounted ttl remembered (history ++ [.arrive x]) := by
  let a := (fresh ttl remembered).undergo history
  intro k r hr
  rw [undergo_concat] at hr
  change (a.take x).opened.get? k = some r at hr
  cases htakes : a.refuses x.fragment with
  | true =>
      -- Nothing has changed, and the message did not begin with this fragment.
      obtain ⟨e, -, hadd⟩ := add_of_refuses htakes x.now x.position
      rw [take, hadd] at hr
      obtain ⟨used, hfilled, hcollected⟩ := h k r hr
      refine ⟨used, hfilled, .other hcollected ?_⟩
      rintro _ ⟨⟩ _ ⟨hno, _⟩
      cases hno.symm.trans htakes
  | false =>
      by_cases hk : x.key = k
      · subst hk
        obtain ⟨encoding, hcode, hfiles⟩ := files_take htakes
        obtain ⟨htotal, hgrown⟩ := hfiles.own r hr
        obtain ⟨used, hfilled, hencoding, hadded, hkept⟩ := h.found htakes encoding
        have hfirst (hnil : used = []) := (hencoding hnil).symm ▸ hcode
        rcases hfilled.grown rfl htotal.symm hfirst hgrown with ⟨hr, hne⟩ | hr
        · exact ⟨used, hr, hkept hne⟩
        · exact ⟨used ++ [x], hr, hadded⟩
      · have hothers := (takes_add htakes x.now x.position).others k r hk hr
        obtain ⟨used, hfilled, hcollected⟩ := h k r hothers
        refine ⟨used, hfilled, .other hcollected ?_⟩
        rintro _ ⟨⟩ hkey
        exact absurd hkey hk

theorem accounted (ttl remembered : Nat) (history : List Event) :
    Accounted ttl remembered history := by
  induction history using List.reverseRecOn with
  | nil =>
      intro k r hr
      cases hr
  | append_singleton history e ih =>
      cases e with
      | arrive x => exact ih.arrive x
      | sweep now => exact ih.sweep now

theorem capacity_undergo (a : Assembler) (history : List Event) :
    (a.undergo history).completed.capacity = a.completed.capacity := by
  induction history using List.reverseRecOn with
  | nil => rfl
  | append_singleton history e ih =>
      rw [undergo_concat]
      refine Eq.trans ?_ ih
      cases e with
      | sweep => rfl
      | arrive x =>
          change ((a.undergo history).take x).completed.capacity = _
          rw [((a.undergo history).added x).completed_eq]
          split
          · exact RecentKeys.capacity_insert _ _
          · rfl

/-- The fragments that a message is made of were put into one record. -/
theorem madeOf_of_answer {x : Arrival}
    (h : ((fresh ttl remembered).undergo history).answer x = .ok (some whole)) :
    ∃ used, used.getLast? = some x ∧
      Collected ttl remembered x.key (history ++ [.arrive x]) used ∧ whole.MadeOf x used := by
  obtain ⟨encoding, hcode, hfiles⟩ := files_take (refuses_of_add h)
  obtain ⟨htotal, hnew, encoded, hjoin, hread, hposition, hlast⟩ := hfiles.out whole h
  obtain ⟨used, hfilled, hencoding, hadded, _⟩ :=
    (accounted ttl remembered history).found (refuses_of_add h) encoding
  have hfirst (hnil : used = []) := (hencoding hnil).symm ▸ hcode
  have hstored := hfilled.store hnew rfl htotal.symm hfirst
  refine ⟨used ++ [x], List.getLast?_concat, hadded, ?_⟩
  exact hstored.madeOf List.mem_concat_self hjoin hread hposition hlast

/-- A message that comes out is made of fragments that came, whatever fragments they are and
whatever else came: they were put into one record since it was opened, the last of them just
now. The message was not remembered as completed before, and now it is. -/
theorem made_of_fragments (ttl remembered : Nat) (history : List Event) (x : Arrival)
    (h : ((fresh ttl remembered).undergo history).answer x = .ok (some whole)) :
    let a := (fresh ttl remembered).undergo history
    (x.key ∉ a.completed.keys ∧ (remembered ≠ 0 → x.key ∈ (a.take x).completed.keys)) ∧
      ∃ used, used.Sublist (arrivals (history ++ [.arrive x])) ∧ used.getLast? = some x ∧
        Collected ttl remembered x.key (history ++ [.arrive x]) used ∧ whole.MadeOf x used := by
  intro a
  have htakes : a.refuses x.fragment = false := refuses_of_add h
  refine ⟨⟨?_, fun hremembered => ?_⟩, ?_⟩
  · rw [refuses, Bool.or_eq_false_iff, Bool.or_eq_false_iff] at htakes
    exact of_decide_eq_false htakes.1.2
  · have hcompleted := (a.added x).completed_eq
    rw [h] at hcompleted
    rw [hcompleted]
    refine RecentKeys.mem_insert_self ?_
    rwa [capacity_undergo]
  · obtain ⟨used, hlast, hcollected, hmade⟩ := madeOf_of_answer h
    exact ⟨used, hcollected.sublist, hlast, hcollected, hmade⟩

end Assembler

end

namespace Assembler

open scoped Zstd

/-- The pieces of a message from the last to the second. One comes again with another payload,
and others come that are part of nothing. -/
def crossed : List Event :=
  (arriving (inPieces.fragments.tail.reverse ++
    stray :: inPieces.fragments.tail.map fun f => { f with payload := [0] })).map .arrive ++
      [.sweep 9]

def closing : Arrival := ⟨9, inPieces.fragments.headD stray, ⟨"status", 0, 9⟩⟩

theorem made_of_fragments_crossed :
    let whole := ⟨sampleMessage, ⟨"status", 0, 0⟩, 9⟩
    ((fresh 10 10).undergo crossed).answer closing = .ok (some whole) ∧
      ∃ used, used.getLast? = some closing ∧
        Collected 10 10 closing.key (crossed ++ [.arrive closing]) used ∧
          whole.MadeOf closing used := by
  intro whole
  have hanswer : ((fresh 10 10).undergo crossed).answer closing = .ok (some whole) := by
    decide +kernel
  obtain ⟨_, used, _, hlast, hcollected, hmade⟩ := made_of_fragments 10 10 crossed closing hanswer
  exact ⟨hanswer, used, hlast, hcollected, hmade⟩

end Assembler

end Conflux
