import Conflux.Assembler
import Conflux.Proofs.Stretch

/-!
What taking a fragment does to the open records, and what comes out. A fragment that the
assembler refuses changes nothing. Any other one touches the record of its own message
only; that record, if it stays open, and the message, if it comes out, lie where the
record lay that the fragment found and where the fragment itself was. Sweeping can take
other records away, and nothing else happens to them.
-/

namespace Conflux

/-- The fragment is turned away, for what it is or for what is known of its message. -/
def AssemblyError.isRefusal : AssemblyError → Bool
  | .unknownEncoding _ | .alreadyAssembled | .overflow _ _ _ => true
  | _ => false

def Fragment.isWhole (f : Fragment) : Bool :=
  decide (f.header.offset = 0 ∧ f.payload.length = f.header.total.toNat)

namespace Assembler

/-- The fragment is turned away before anything is done with it. -/
def refuses (a : Assembler) (f : Fragment) : Bool :=
  (Encoding.ofCode? f.header.encoding).isNone || a.completed.contains f.header.messageKey ||
    decide (f.header.total.toNat < f.header.offset.toNat + f.payload.length)

/-- The record that the fragment finds. A whole message looks for none. -/
def found? (a : Assembler) (now : Nat) (f : Fragment) : Option Assembly :=
  if f.isWhole then none else (a.evict now).opened.get? f.header.messageKey

/-- Where the content lies that the fragment completes, or goes to. -/
def span (a : Assembler) (now : Nat) (f : Fragment) (position : Position) : Position × UInt64 :=
  match a.found? now f with
  | some r => (r.position.earlier position, max r.lastOffset position.offset)
  | none => (position, position.offset)

/-- What comes of a fragment that is not turned away. -/
structure Takes (a : Assembler) (f : Fragment) (span : Position × UInt64) (b : Assembler)
    (result : Except AssemblyError (Option Assembled)) : Prop where
  others : ∀ k r, f.header.messageKey ≠ k → b.opened.get? k = some r → a.opened.get? k = some r
  own : ∀ r, b.opened.get? f.header.messageKey = some r → (r.position, r.lastOffset) = span
  out : ∀ w, result = .ok (some w) →
    (w.position, w.lastOffset) = span ∧ streamId w.message.key = f.header.stream

theorem refuses_eq_false_iff {a : Assembler} {f : Fragment} :
    a.refuses f = false ↔ (Encoding.ofCode? f.header.encoding).isSome = true ∧
      f.header.messageKey ∉ a.completed.keys ∧
        f.header.offset.toNat + f.payload.length ≤ f.header.total.toNat := by
  rw [refuses, Bool.or_eq_false_iff, Bool.or_eq_false_iff, and_assoc, Option.isNone_eq_false_iff,
    RecentKeys.contains, decide_eq_false_iff_not, decide_eq_false_iff_not, Nat.not_lt]

theorem get?_evict {a : Assembler} {now : Nat} {k : MessageKey} {r : Assembly}
    (h : (a.evict now).opened.get? k = some r) : a.opened.get? k = some r := by
  rw [Table.get?_eq_some_iff] at h ⊢
  exact (List.mem_filter.1 h).1

theorem get?_of_found? {a : Assembler} {now : Nat} {f : Fragment} {r : Assembly}
    (h : a.found? now f = some r) : a.opened.get? f.header.messageKey = some r := by
  rw [found?] at h
  split at h
  · cases h
  · exact get?_evict h

theorem get?_of_close {a : Assembler} {k l : MessageKey} {r : Assembly}
    (h : (a.close l).opened.get? k = some r) :
    a.opened.get? k = some r := by
  rw [close, Table.get?_erase] at h
  split at h
  · cases h
  · exact h

theorem takes_put {a : Assembler} {f : Fragment} {r : Assembly} {span : Position × UInt64}
    (h : (r.position, r.lastOffset) = span) :
    a.Takes f span (a.putRecord f.header.messageKey r) (.ok none) := by
  refine ⟨?_, ?_, ?_⟩
  · intro k s hk hs
    rwa [putRecord, Table.get?_put_of_ne hk] at hs
  · intro s hs
    rw [putRecord, Table.get?_put_self] at hs
    cases hs
    exact h
  · intro w hw
    cases hw

theorem takes_close (a : Assembler) (f : Fragment) (span : Position × UInt64)
    (e : AssemblyError) : a.Takes f span (a.close f.header.messageKey) (.error e) := by
  refine ⟨?_, ?_, ?_⟩
  · intro k s hk hs
    rwa [close, Table.get?_erase, if_neg hk] at hs
  · intro s hs
    rw [close, Table.get?_erase_self] at hs
    cases hs
  · intro w hw
    cases hw

theorem place_start (total : UInt32) (encoding : Encoding) (position : Position) (now : Nat) :
    ((Assembly.start total encoding position now).extend position).position = position ∧
      ((Assembly.start total encoding position now).extend position).lastOffset =
        position.offset := by
  constructor
  · rcases position.earlier_eq_or position with h | h <;> exact h
  · rcases max_offset_eq_or position.offset position.offset with h | h <;> exact h

theorem place_store (r : Assembly) (offset : UInt32) (payload : Bytes) :
    (r.store offset payload).position = r.position ∧
      (r.store offset payload).lastOffset = r.lastOffset := by
  rw [Assembly.store]
  split <;> exact ⟨rfl, rfl⟩

variable [Compression]

theorem add_of_refuses {a : Assembler} {f : Fragment} (h : a.refuses f = true) (now : Nat)
    (position : Position) :
    ∃ e : AssemblyError, e.isRefusal = true ∧ a.add now f position = (a, .error e) := by
  simp only [refuses, Bool.or_eq_true, Option.isNone_iff_eq_none, decide_eq_true_eq] at h
  rw [add]
  split
  · exact ⟨_, rfl, rfl⟩
  · next encoding hencoding =>
      rw [hencoding] at h
      by_cases hknown : a.completed.contains f.header.messageKey = true
      · exact ⟨_, rfl, if_pos hknown⟩
      · rw [if_neg hknown]
        rcases h with (h | h) | h
        · cases h
        · exact absurd h hknown
        · exact ⟨_, rfl, if_pos h⟩

/-- Only what is taken can complete a message. -/
theorem refuses_of_add {a : Assembler} {f : Fragment} {now : Nat} {position : Position}
    {whole : Assembled} (h : (a.add now f position).2 = .ok (some whole)) :
    a.refuses f = false := by
  cases hrefuses : a.refuses f with
  | false => rfl
  | true =>
      obtain ⟨e, -, hadd⟩ := add_of_refuses hrefuses now position
      rw [hadd] at h
      cases h

theorem add_of_takes {a : Assembler} {f : Fragment} (h : a.refuses f = false) (now : Nat)
    (position : Position) :
    ∃ encoding, Encoding.ofCode? f.header.encoding = some encoding ∧ a.add now f position =
      if f.isWhole then
        (a.close f.header.messageKey).finish f.header.messageKey encoding f.payload position
          position.offset
      else (a.evict now).addToRecord now f encoding position := by
  simp only [refuses, Bool.or_eq_false_iff, decide_eq_false_iff_not] at h
  obtain ⟨⟨hencoding, hknown⟩, hfits⟩ := h
  rw [add]
  split
  · next hnone =>
      rw [hnone] at hencoding
      cases hencoding
  · next encoding hcode =>
      refine ⟨encoding, hcode, ?_⟩
      rw [hknown, if_neg Bool.false_ne_true, if_neg hfits]
      by_cases hwhole : f.header.offset = 0 ∧ f.payload.length = f.header.total.toNat
      · rw [if_pos hwhole, Fragment.isWhole, decide_eq_true hwhole, if_pos rfl]
      · rw [if_neg hwhole, Fragment.isWhole, decide_eq_false hwhole, if_neg Bool.false_ne_true]

theorem readMessage_ok {stream : Digest} {encoding : Encoding} {encoded : Bytes} {m : Message}
    (h : readMessage stream encoding encoded = .ok m) : streamId m.key = stream := by
  rw [readMessage] at h
  split at h
  · cases h
  · split at h
    · cases h
    · split at h
      · next hstream =>
          cases h
          exact hstream
      · cases h

/-- Content that is no message of its stream is not turned away: it has been joined already. -/
theorem readMessage_error {stream : Digest} {encoding : Encoding} {encoded : Bytes}
    {e : AssemblyError} (h : readMessage stream encoding encoded = .error e) :
    e.isRefusal = false := by
  rw [readMessage] at h
  split at h
  · cases h
    rfl
  · split at h
    · cases h
      rfl
    · split at h
      · cases h
      · cases h
        rfl

/-- Finishing touches no record, and the message has the place it was given. -/
theorem takes_finish {a b : Assembler} {f : Fragment}
    (hb : ∀ k, b.opened.get? k = if f.header.messageKey = k then none else a.opened.get? k)
    (encoding : Encoding) (encoded : Bytes) (position : Position) (lastOffset : UInt64) :
    let after := b.finish f.header.messageKey encoding encoded position lastOffset
    a.Takes f (position, lastOffset) after.1 after.2 := by
  intro after
  have hopened : after.1.opened = b.opened := by
    simp only [after, finish]
    split <;> rfl
  refine ⟨?_, ?_, ?_⟩
  · intro k r hk hr
    rwa [hopened, hb, if_neg hk] at hr
  · intro r hr
    rw [hopened, hb, if_pos rfl] at hr
    cases hr
  · intro w hw
    simp only [after, finish] at hw
    split at hw
    · next m hm =>
        cases hw
        exact ⟨rfl, readMessage_ok hm⟩
    · cases hw

theorem takes_addToRecord (a : Assembler) (now : Nat) (f : Fragment) (encoding : Encoding)
    (position : Position) :
    let after := a.addToRecord now f encoding position
    let span := match a.opened.get? f.header.messageKey with
      | some r => (r.position.earlier position, max r.lastOffset position.offset)
      | none => (position, position.offset)
    a.Takes f span after.1 after.2 := by
  intro after span
  let known := (a.opened.get? f.header.messageKey).getD
    (.start f.header.total encoding position now)
  have hspan : ((known.extend position).position, (known.extend position).lastOffset) = span := by
    simp only [known, span]
    cases a.opened.get? f.header.messageKey with
    | some r => rfl
    | none =>
        -- A record that is opened for the fragment begins and ends with it.
        obtain ⟨hposition, hlast⟩ := place_start f.header.total encoding position now
        exact Prod.ext hposition hlast
  obtain ⟨hposition, hlast⟩ := place_store (known.extend position) f.header.offset f.payload
  simp only [after, addToRecord]
  split
  · exact takes_close a f span _
  · split
    · exact takes_put hspan
    · split
      · split
        · have hfinish := takes_finish (a := a) (f := f)
            (b := a.close f.header.messageKey) (fun k => Table.get?_erase _ _ k)
          rw [← hspan, ← hposition, ← hlast]
          exact hfinish _ _ _ _
        · exact takes_close a f span _
      · refine takes_put ?_
        rw [← hspan, ← hposition, ← hlast]

/-- What taking a fragment does. -/
theorem takes_add {a : Assembler} {f : Fragment} (h : a.refuses f = false) (now : Nat)
    (position : Position) :
    a.Takes f (a.span now f position) (a.add now f position).1 (a.add now f position).2 := by
  obtain ⟨encoding, _, hadd⟩ := add_of_takes h now position
  rw [hadd, span, found?]
  cases hwhole : f.isWhole with
  | true =>
      simp only [if_true]
      exact takes_finish (fun k => Table.get?_erase _ _ k) encoding f.payload position
        position.offset
  | false =>
      simp only [Bool.false_eq_true, if_false]
      have htakes := (a.evict now).takes_addToRecord now f encoding position
      exact ⟨fun k r hk hr => get?_evict (htakes.others k r hk hr), htakes.own, htakes.out⟩

end Assembler

end Conflux
