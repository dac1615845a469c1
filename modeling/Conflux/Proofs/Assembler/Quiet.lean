import Conflux.Proofs.Assembler.Family

/-!
Runs in which nothing expires, as the counter of the assembler has it in the end. The clock may
go back, and sweeps may come at any time; but no record was too old at any of them, so each
leaves the records as they are. A message is then gathered as if there were no clock, and comes
out with its last fragment.
-/

namespace Conflux.Assembler

open Sending

variable [Compression] {a b : Assembler} {x : Arrival} {result : Answer} {k : MessageKey}
  {s : Sending} {past : List Arrival}

omit [Compression] in
/-- A sweep that counts nothing takes nothing away. -/
theorem get?_evict_of_expired {now : Nat} (h : (a.evict now).expired = a.expired)
    (k : MessageKey) : (a.evict now).opened.get? k = a.opened.get? k := by
  have hnone : a.overdue now = 0 := Nat.left_eq_add.1 h.symm
  rw [overdue, List.length_eq_zero_iff, List.filter_eq_nil_iff] at hnone
  refine get?_evict_eq fun r hr => Bool.eq_false_iff.2 (hnone r ?_)
  exact List.mem_map_of_mem (Table.get?_eq_some_iff.1 hr)

omit [Compression] in
theorem Added.expired_le (h : Added a x b result) : a.expired ≤ b.expired := by
  have hevict : a.expired ≤ (a.evict x.now).expired := Nat.le_add_right _ _
  cases h with
  | refused => exact Nat.le_refl _
  | kept => exact hevict
  | discarded hb | completed hb =>
      rcases hb with rfl | rfl
      · exact Nat.le_refl _
      · exact hevict

theorem expired_le_react (a : Assembler) (e : Event) : a.expired ≤ (a.react e).expired := by
  cases e with
  | arrive x => exact (a.added x).expired_le
  | sweep now => exact Nat.le_add_right _ _

omit [Compression] in
/-- Where nothing expires, a fragment leaves the records of other messages as they are. -/
theorem Added.opened_of_quiet (h : Added a x b result) (hquiet : b.expired = a.expired)
    (hk : x.key ≠ k) : b.opened.get? k = a.opened.get? k := by
  have hclose {c : Assembler} (hc : c = a ∨ c = a.evict x.now) (hquiet : c.expired = a.expired) :
      (c.close x.key).opened.get? k = a.opened.get? k := by
    rw [close, Table.get?_erase, if_neg hk]
    rcases hc with rfl | rfl
    · rfl
    · exact get?_evict_of_expired hquiet k
  cases h with
  | refused => rfl
  | kept => rw [putRecord, Table.get?_put_of_ne hk, get?_evict_of_expired hquiet]
  | discarded hb => exact hclose hb hquiet
  | completed hb => exact hclose hb hquiet

theorem expired_finish (a : Assembler) (k : MessageKey) (encoding : Encoding) (encoded : Bytes)
    (position : Position) (lastOffset : UInt64) :
    (a.finish k encoding encoded position lastOffset).1.expired = a.expired := by
  rw [finish]
  split <;> rfl

theorem expired_addToRecord (a : Assembler) (now : Nat) (f : Fragment) (encoding : Encoding)
    (position : Position) : (a.addToRecord now f encoding position).1.expired = a.expired := by
  rw [addToRecord]
  dsimp only
  split
  · rfl
  · split
    · rfl
    · split
      · split
        · exact expired_finish _ _ _ _ _ _
        · rfl
      · rfl

/-- A fragment finds the record of its message, if nothing expires when it is taken. -/
theorem Progress.advances_of_quiet (h : Progress s past a) (hx : s.Sends x)
    (hquiet : (a.take x).expired = a.expired) : Advances s past x a := by
  refine h.advances hx fun hmissing hpart => get?_evict_of_expired ?_ s.key
  have hadd := add_of_unknown (sends_iff.1 hx) (h.not_known hmissing)
  rw [hpart, if_neg Bool.false_ne_true] at hadd
  rw [← hquiet, take, hadd, expired_addToRecord]

variable {ttl remembered : Nat} {family : List Sending} {history : List Event}

/-- Until it is complete a message is gathered, whatever comes between. -/
theorem Only.gathers (h : Only family (arrivals history)) (hs : s ∈ family)
    (hquiet : ((fresh ttl remembered).undergo history).expired = 0)
    (hmissing : ¬ s.Complete (arrivals history)) :
    Progress s (arrivals history) ((fresh ttl remembered).undergo history) := by
  induction history using List.reverseRecOn with
  | nil => exact .untouched nofun rfl nofun
  | append_singleton history e ih =>
      rw [undergo_concat] at hquiet ⊢
      have hle := expired_le_react ((fresh ttl remembered).undergo history) e
      have hbefore : ((fresh ttl remembered).undergo history).expired = 0 := by omega
      have hsame := hquiet.trans hbefore.symm
      rw [arrivals_concat] at h hmissing ⊢
      cases e with
      | arrive x =>
          have hpast : arrivals history ⊆ arrivals history ++ [x] := List.subset_append_left _ _
          have hearly : ¬ s.Complete (arrivals history) := fun hall => hmissing (hall.mono hpast)
          have hprogress := ih (h.mono hpast) hbefore hearly
          by_cases hsends : s.Sends x
          · exact (hprogress.advances_of_quiet hsends hsame).early hmissing
          · have hx : x ∈ arrivals history ++ [x] := List.mem_concat_self
            have hother : x.key ≠ s.key := fun hkey => hsends (h.sends hs hx hkey)
            have hadded := ((fresh ttl remembered).undergo history).added x
            exact hprogress.passes hearly hsends hadded hother
              (hadded.opened_of_quiet hsame hother)
      | sweep now =>
          have hnothing : arrivals history ++ (Event.sweep now).arrival?.toList =
              arrivals history := List.append_nil _
          rw [hnothing] at h hmissing ⊢
          exact (ih h hbefore hmissing).evict (get?_evict_of_expired hsame s.key)

/-- With the last of its fragments a message comes out. -/
theorem Only.comesOut_of_quiet (h : Only family (arrivals (history ++ [.arrive x])))
    (hs : s ∈ family)
    (hquiet : ((fresh ttl remembered).undergo (history ++ [.arrive x])).expired = 0)
    (hmissing : ¬ s.Complete (arrivals history))
    (hall : s.Complete (arrivals (history ++ [.arrive x]))) :
    ∃ whole, ((fresh ttl remembered).undergo history).answer x = .ok (some whole) ∧
      whole.message = s.message := by
  rw [undergo_concat] at hquiet
  rw [arrivals_concat] at h hall
  have hle := expired_le_react ((fresh ttl remembered).undergo history) (.arrive x)
  have hbefore : ((fresh ttl remembered).undergo history).expired = 0 := by omega
  have hsends := sends_of_complete_concat hmissing hall
  have hprogress := (h.mono (List.subset_append_left _ _)).gathers hs hbefore hmissing
  obtain ⟨hreply, _⟩ := hprogress.advances_of_quiet hsends
    (hquiet.trans hbefore.symm)
  obtain ⟨whole, hout, hmessage, _⟩ := hreply.last hmissing hall
  exact ⟨whole, hout, hmessage⟩

end Conflux.Assembler
