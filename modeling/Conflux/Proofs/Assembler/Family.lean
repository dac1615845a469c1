import Conflux.Proofs.Assembler.Provenance

/-!
A log of messages that were cut from it, and of nothing else. Then what comes out of the
assembler is one of these messages, as it was sent, and all of its fragments have come;
that holds whatever expires, whatever is forgotten and however often a fragment comes. And
with its last fragment a message does come out, if its record has not expired meanwhile. It
may come out again later, for what is remembered may be forgotten.
-/

namespace Conflux

/-! ### One row of fragments -/

namespace Fragment

variable {start stop : Nat} {fs gs : List Fragment}

theorem InRow.length_content (h : InRow start stop fs) :
    start + (content fs).length = stop := by
  induction fs generalizing start with
  | nil => exact h
  | cons f fs ih =>
      have hrest := ih h.2
      rw [content, List.flatMap_cons, List.length_append, ← content]
      omega

/-- There is one way only to fill a stretch with fragments that are known by their offset
and are not empty. -/
theorem InRow.eq (h : InRow start stop fs) (h' : InRow start stop gs)
    (hfs : ∀ f ∈ fs, 0 < f.payload.length) (hgs : ∀ g ∈ gs, 0 < g.payload.length)
    (hsame : ∀ f ∈ fs, ∀ g ∈ gs, f.header.offset = g.header.offset → f = g) : fs = gs := by
  have hempty {f : Fragment} {fs : List Fragment} (hrow : InRow stop stop (f :: fs))
      (hpos : 0 < f.payload.length) : False := by
    have hlength := hrow.length_content
    rw [content, List.flatMap_cons, List.length_append] at hlength
    omega
  induction fs generalizing start gs with
  | nil =>
      obtain rfl : start = stop := h
      cases gs with
      | nil => rfl
      | cons g gs => exact (hempty h' (hgs g List.mem_cons_self)).elim
  | cons f fs ih =>
      cases gs with
      | nil =>
          obtain rfl : start = stop := h'
          exact (hempty h (hfs f List.mem_cons_self)).elim
      | cons g gs =>
          have hoffset : f.header.offset = g.header.offset :=
            UInt32.toNat_inj.1 (h.1.trans h'.1.symm)
          obtain rfl := hsame f List.mem_cons_self g List.mem_cons_self hoffset
          rw [ih h.2 h'.2 (fun e he => hfs e (List.mem_cons_of_mem f he))
            (fun e he => hgs e (List.mem_cons_of_mem f he)) fun d hd e he =>
              hsame d (List.mem_cons_of_mem f hd) e (List.mem_cons_of_mem f he)]

end Fragment

namespace Sending

open Fragment

variable [Compression] {s : Sending} {row : List Fragment}

/-- Fragments of a message in a row from its first byte to its last are all of it. -/
theorem eq_encoded_of_inRow (hne : row ≠ []) (hrow : InRow 0 s.encoded.length row)
    (hmem : ∀ f ∈ row, f ∈ s.fragments) : content row = s.encoded ∧ s.fragments ⊆ row := by
  obtain ⟨f, hf⟩ := List.exists_mem_of_ne_nil row hne
  obtain ⟨hall, hcontent⟩ := inRow_of_joinFrom s.tiles.joined
  rw [Nat.zero_add] at hall
  rcases whole_or_nonempty (hmem f hf) with ⟨_, hone, hpayload⟩ | ⟨_, hpos⟩
  · rw [hone] at hmem ⊢
    refine ⟨?_, List.cons_subset.2 ⟨hf, List.nil_subset row⟩⟩
    cases row with
    | nil => exact absurd rfl hne
    | cons g gs =>
        -- What comes behind the only fragment of the message can only be empty.
        obtain rfl : g = f := List.mem_singleton.1 (hmem g List.mem_cons_self)
        have hlength := hrow.length_content
        rw [content, List.flatMap_cons, List.length_append, ← content, hpayload] at hlength
        have hrest : content gs = [] := List.eq_nil_of_length_eq_zero (by omega)
        rw [content, List.flatMap_cons, ← content, hrest, hpayload, List.append_nil]
  · have heq : row = s.fragments := hrow.eq hall (fun g hg => hpos g (hmem g hg)) hpos
      fun g hg e he => Assembly.eq_of_offset_eq s.ascending (hmem g hg) he
    rw [heq]
    exact ⟨hcontent, List.Subset.refl _⟩

end Sending

namespace Assembler

open Sending

variable [Compression]

/-- Only fragments of these messages come, which have different keys. -/
structure Only (family : List Sending) (xs : List Arrival) : Prop where
  distinct : (family.map Sending.key).Nodup
  sent : ∀ x ∈ xs, ∃ s ∈ family, s.Sends x

variable {family : List Sending} {xs past : List Arrival} {s : Sending} {x : Arrival}
  {ttl remembered : Nat}

theorem Only.mono (h : Only family xs) (hpast : past ⊆ xs) : Only family past :=
  ⟨h.distinct, fun x hx => h.sent x (hpast hx)⟩

/-- By its key a fragment is known to be of the message. -/
theorem Only.sends (h : Only family xs) (hs : s ∈ family) (hx : x ∈ xs) (hkey : x.key = s.key) :
    s.Sends x := by
  obtain ⟨t, ht, hsends⟩ := h.sent x hx
  have hkeys : t.key = s.key := (key_of_mem (sends_iff.1 hsends)).symm.trans hkey
  rwa [← List.inj_on_of_nodup_map h.distinct ht hs hkeys]

/-- What comes out is one of the messages, and it has come completely. -/
theorem Only.of_answer {history : List Event} {whole : Assembled}
    (h : Only family (arrivals (history ++ [.arrive x])))
    (hout : ((fresh ttl remembered).undergo history).answer x = .ok (some whole)) :
    ∃ s ∈ family, s.Sends x ∧ s.Complete (arrivals (history ++ [.arrive x])) ∧
      whole.message = s.message := by
  obtain ⟨used, hlast, hcollected, hmade⟩ := madeOf_of_answer hout
  have hused := hcollected.sublist.subset
  have hx : x ∈ used := List.mem_of_getLast? hlast
  obtain ⟨s, hs, hsends⟩ := h.sent x (hused hx)
  have hkey : x.key = s.key := key_of_mem (sends_iff.1 hsends)
  have hall : ∀ y ∈ used, y.fragment ∈ s.fragments := fun y hy =>
    sends_iff.1 (h.sends hs (hused hy) ((hmade.alike y hy).1.trans hkey))
  obtain ⟨first, encoding, row, decoded, hfirst, hencoding, hperm, hrow, hdecoded, hmessage⟩ :=
    hmade.content
  have hmem : ∀ f ∈ row, f ∈ s.fragments := by
    intro f hf
    obtain ⟨y, hy, rfl⟩ := List.mem_map.1 (hperm.subset hf)
    exact hall y hy
  have hne : row ≠ [] :=
    List.ne_nil_of_mem (hperm.symm.subset (List.mem_map_of_mem hx))
  rw [total_of_mem (hall x hx), s.toNat_total] at hrow
  obtain ⟨hcontent, hsub⟩ := eq_encoded_of_inRow hne hrow hmem
  refine ⟨s, hs, hsends, ?_, ?_⟩
  · intro f hf
    obtain ⟨y, hy, rfl⟩ := List.mem_map.1 (hperm.subset (hsub hf))
    exact ⟨y, hused hy, ofBytes_of_mem hf⟩
  · -- The fragments declare the encoding of the message, so it is read as it was written.
    have hfirst := hall first (List.mem_of_mem_head? hfirst)
    obtain rfl : s.encoding = encoding :=
      Option.some.inj ((encoding_of_mem hfirst).symm.trans hencoding)
    rw [hcontent, s.decode?_encoded] at hdecoded
    obtain rfl := Option.some.inj hdecoded
    exact Option.some.inj (hmessage.symm.trans s.message.decode?_encode)

/-! ### Coming out -/

/-- A message of which something is missing is not remembered as completed. -/
theorem Progress.not_known {a : Assembler} (h : Progress s past a) (hmissing : ¬ s.Complete past) :
    s.key ∉ a.completed.keys := by
  cases h with
  | untouched _ _ hnew => exact hnew
  | partly _ _ _ _ _ hnew => exact hnew
  | done hall => exact absurd hall hmissing

/-- A fragment of another message does not complete this one. -/
theorem Progress.passes {a b : Assembler} {result : Answer} (h : Progress s past a)
    (hmissing : ¬ s.Complete past) (hsends : ¬ s.Sends x) (hadded : Added a x b result)
    (hother : x.key ≠ s.key) (hopened : b.opened.get? s.key = a.opened.get? s.key) :
    Progress s (past ++ [x]) b := by
  refine h.other hsends hopened (iff_of_false ?_ (h.not_known hmissing))
  rw [hadded.completed_eq]
  split
  · intro hmem
    rcases RecentKeys.mem_of_mem_insert hmem with hmem | hkey
    · exact h.not_known hmissing hmem
    · exact hother hkey.symm
  · exact h.not_known hmissing

/-- A sweep that leaves the record of the message changes nothing about it. -/
theorem Progress.evict {a : Assembler} {now : Nat} (h : Progress s past a)
    (hopened : (a.evict now).opened.get? s.key = a.opened.get? s.key) :
    Progress s past (a.evict now) := by
  cases h with
  | untouched hnone hopen hnew => exact .untouched hnone (hopened.trans hopen) hnew
  | partly r hopen hgathers hextent hmissing hnew =>
      exact .partly r (hopened.trans hopen) hgathers hextent hmissing hnew
  | done hall hopen hknown => exact .done hall (hopened.trans hopen) hknown

/-- Before its last fragment a message does not come out, so nothing has to be remembered. -/
theorem Advances.early {a : Assembler} (h : Advances s past x a)
    (hmissing : ¬ s.Complete (past ++ [x])) : Progress s (past ++ [x]) (a.take x) := by
  refine h.2 fun hout => ?_
  rw [h.1.early hmissing] at hout
  cases hout

/-- Until it is complete a message is gathered further, whatever comes. -/
theorem Progress.next {a : Assembler} (h : Progress s past a)
    (htold : s.Sends x ∨ x.key ≠ s.key)
    (hlast : (a.evict x.now).opened.get? s.key = a.opened.get? s.key)
    (hmissing : ¬ s.Complete (past ++ [x])) : Progress s (past ++ [x]) (a.take x) := by
  rcases htold with hsends | hother
  · exact (h.sent hsends hlast).early hmissing
  · have hbefore : ¬ s.Complete past := fun hall =>
      hmissing (hall.mono (List.subset_append_left past [x]))
    have hnot : ¬ s.Sends x := fun hsends => hother (key_of_mem (sends_iff.1 hsends))
    have hadded := a.added x
    exact h.passes hbefore hnot hadded hother (hadded.opened_of_ne hlast hother)

/-- No fragment of the message has been there for so long that its record would expire. -/
def Lasting (ttl : Nat) (s : Sending) (xs : List Arrival) : Prop :=
  ∀ x ∈ xs, s.Sends x → ∀ y ∈ xs, y.now - x.now ≤ ttl

theorem Lasting.mono (h : Lasting ttl s xs) (hpast : past ⊆ xs) : Lasting ttl s past :=
  fun x hx hsends y hy => h x (hpast hx) hsends y (hpast hy)

theorem Only.get?_evict (h : Only family (past ++ [x])) (hs : s ∈ family)
    (hlasting : Lasting ttl s (past ++ [x])) :
    (((fresh ttl remembered).feed past).evict x.now).opened.get? s.key =
      ((fresh ttl remembered).feed past).opened.get? s.key := by
  refine (steady_feed ttl remembered past).get?_evict fun y hy hkey => ?_
  have hy : y ∈ past ++ [x] := List.mem_append_left [x] hy
  exact hlasting y hy (h.sends hs hy hkey) x List.mem_concat_self

/-- As long as its record does not expire, the fragments of a message are gathered until it is
complete. What happens to other messages meanwhile does not matter, nor what is forgotten. -/
theorem Only.progress (h : Only family xs) (hs : s ∈ family) (hlasting : Lasting ttl s xs)
    (hmissing : ¬ s.Complete xs) : Progress s xs ((fresh ttl remembered).feed xs) := by
  induction xs using List.reverseRecOn with
  | nil => exact .untouched (fun x hx => by cases hx) rfl fun hmem => by cases hmem
  | append_singleton past x ih =>
      have hpast : past ⊆ past ++ [x] := List.subset_append_left past [x]
      have hbefore : ¬ s.Complete past := fun hall => hmissing (hall.mono hpast)
      have hprogress := ih (h.mono hpast) (hlasting.mono hpast) hbefore
      have hlast : (((fresh ttl remembered).feed past).evict x.now).opened.get? s.key =
          ((fresh ttl remembered).feed past).opened.get? s.key := h.get?_evict hs hlasting
      rw [feed_append]
      change Progress s (past ++ [x]) (((fresh ttl remembered).feed past).take x)
      refine hprogress.next ?_ hlast hmissing
      by_cases hkey : x.key = s.key
      · exact .inl (h.sends hs List.mem_concat_self hkey)
      · exact .inr hkey

/-- The clock does not go back, and the fragments of each message come soon enough after one
another. -/
structure Timely (ttl : Nat) (family : List Sending) (xs : List Arrival) : Prop where
  clock : xs.Pairwise fun x y => x.now ≤ y.now
  together : ∀ s ∈ family, ∀ x ∈ xs, ∀ y ∈ xs, s.Sends x → s.Sends y → y.now - x.now ≤ ttl

theorem Timely.of_prefix (h : Timely ttl family xs) (hpast : past <+: xs) :
    Timely ttl family past :=
  ⟨h.clock.sublist hpast.sublist,
    fun s hs x hx y hy => h.together s hs x (hpast.subset hx) y (hpast.subset hy)⟩

/-- With one of its fragments a message is recent. -/
theorem Timely.lasting (h : Timely ttl family (past ++ [x])) (hs : s ∈ family)
    (hsends : s.Sends x) : Lasting ttl s (past ++ [x]) := by
  intro y hy hysends z hz
  have htogether := h.together s hs y hy x List.mem_concat_self hysends hsends
  have hlatest : z.now ≤ x.now := by
    rcases List.mem_append.1 hz with hz | hz
    · exact (List.pairwise_append.1 h.clock).2.2 z hz x (List.mem_singleton_self x)
    · rw [List.mem_singleton.1 hz]
  omega

theorem Only.comesOut (h : Only family (past ++ [x])) (hs : s ∈ family)
    (htimely : Timely ttl family (past ++ [x])) (hmissing : ¬ s.Complete past)
    (hall : s.Complete (past ++ [x])) :
    ∃ whole, ((fresh ttl remembered).feed past).answer x = .ok (some whole) ∧
      whole.message = s.message := by
  have hpast : past ⊆ past ++ [x] := List.subset_append_left past [x]
  have hsends := sends_of_complete_concat hmissing hall
  have hlasting := htimely.lasting hs hsends
  have hprogress : Progress s past ((fresh ttl remembered).feed past) :=
    (h.mono hpast).progress hs (hlasting.mono hpast) hmissing
  obtain ⟨hreply, _⟩ := hprogress.sent hsends (h.get?_evict hs hlasting)
  obtain ⟨whole, hout, hmessage, _⟩ := hreply.last hmissing hall
  exact ⟨whole, hout, hmessage⟩

end Assembler

end Conflux
