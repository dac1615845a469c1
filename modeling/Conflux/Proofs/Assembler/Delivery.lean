import Conflux.Proofs.Assembler.Reassembly
import Conflux.Zstd.Plain
import Mathlib.Data.Nat.Find

/-!
Many messages at once. Their fragments are told apart by the keys they carry, so that each
message makes its way through the assembler as if there were no other: what comes in between
neither delays it nor brings it out a second time.
-/

namespace Conflux

namespace Assembler

open Sending

theorem take_concat {xs : List Arrival} {i : Nat} {x : Arrival} (hx : xs[i]? = some x) :
    xs.take i ++ [x] = xs.take (i + 1) := by
  rw [List.take_add_one, hx, Option.toList_some]

section

variable [Compression] {ttl remembered : Nat} {past xs : List Arrival} {s : Sending}
  {x : Arrival} {i : Nat}

/-! ### One message among others -/

/-- What arrives has another key than the message or is part of it, and the assembler has
time and memory enough. -/
structure Undisturbed (ttl remembered : Nat) (s : Sending) (xs : List Arrival) : Prop where
  told : ∀ x ∈ xs, s.Sends x ∨ x.key ≠ s.key
  lasting : ∀ x ∈ xs, ∀ y ∈ xs, y.now - x.now ≤ ttl
  room : ((fresh ttl remembered).messages xs).length ≤ remembered

namespace Undisturbed

theorem of_prefix (h : Undisturbed ttl remembered s xs) (hpast : past <+: xs) :
    Undisturbed ttl remembered s past := by
  have hroom : ((fresh ttl remembered).messages past).length ≤
      ((fresh ttl remembered).messages xs).length := by
    obtain ⟨later, rfl⟩ := hpast
    rw [messages_append, List.length_append]
    exact Nat.le_add_right _ _
  exact ⟨fun x hx => h.told x (hpast.subset hx),
    fun x hx y hy => h.lasting x (hpast.subset hx) y (hpast.subset hy), Nat.le_trans hroom h.room⟩

theorem step (h : Undisturbed ttl remembered s (past ++ [x]))
    (hprogress : Progress s past ((fresh ttl remembered).feed past)) :
    Progress s (past ++ [x]) ((fresh ttl remembered).feed (past ++ [x])) ∧
      (s.Sends x → Reply s past x (((fresh ttl remembered).feed past).answer x)) := by
  have hx : x ∈ past ++ [x] := List.mem_append_right past (List.mem_singleton_self x)
  have hsteady := steady_feed ttl remembered past
  have hremembered : s.key ∈ (((fresh ttl remembered).feed past).take x).completed.keys ↔
      s.key ∈ ((fresh ttl remembered).feed past).completed.keys ∨
        (((fresh ttl remembered).feed past).answer x).message?.isSome = true ∧ s.key = x.key :=
    hsteady.mem_completed_iff h.room
  have hlast : (((fresh ttl remembered).feed past).evict x.now).opened.get? s.key =
      ((fresh ttl remembered).feed past).opened.get? s.key :=
    hsteady.get?_evict fun y hy _ => h.lasting y (List.mem_append_left [x] hy) x hx
  rw [feed_append]
  change Progress s (past ++ [x]) (((fresh ttl remembered).feed past).take x) ∧ _
  rcases h.told x hx with hsends | hother
  · have hkey : s.key = x.key := (key_of_mem (sends_iff.1 hsends)).symm
    obtain ⟨hreply, hnext⟩ := hprogress.sent hsends hlast
    exact ⟨hnext fun hout => hremembered.2 (.inr ⟨hout, hkey⟩), fun _ => hreply⟩
  · have hnot : ¬ s.Sends x := fun hsends => hother (key_of_mem (sends_iff.1 hsends))
    have hsame := ((fresh ttl remembered).feed past).added x |>.opened_of_ne hlast hother
    refine ⟨hprogress.other hnot hsame ?_, fun hsends => absurd hsends hnot⟩
    rw [hremembered, or_iff_left fun hout => hother hout.2.symm]

theorem progress (h : Undisturbed ttl remembered s past) :
    Progress s past ((fresh ttl remembered).feed past) := by
  induction past using List.reverseRecOn with
  | nil =>
      refine .untouched (fun x hx => ?_) rfl fun hmem => ?_
      · cases hx
      · cases hmem
  | append_singleton past x ih => exact (h.step (ih (h.of_prefix ⟨[x], rfl⟩))).1

/-- What is answered to a fragment of the message. -/
theorem reply (h : Undisturbed ttl remembered s xs) (hx : xs[i]? = some x)
    (hsends : s.Sends x) :
    Reply s (xs.take i) x (((fresh ttl remembered).feed (xs.take i)).answer x) := by
  have hhere : Undisturbed ttl remembered s (xs.take i ++ [x]) :=
    h.of_prefix (take_concat hx ▸ List.take_prefix (i + 1) xs)
  exact (hhere.step (h.of_prefix (List.take_prefix i xs)).progress).2 hsends

end Undisturbed

/-- The message comes out with the `n`-th arrival, which brings the last fragment that was
missing. It comes out as it was sent, and with the extent of its fragments up to there. The
fragments before wait, and those after are known already. -/
structure ComesOut (a : Assembler) (xs : List Arrival) (s : Sending) (n : Nat)
    (whole : Assembled) : Prop where
  missing : ¬ s.Complete (xs.take n)
  complete : s.Complete (xs.take (n + 1))
  message : whole.message = s.message
  extent : Extent (s.From (xs.take (n + 1))) whole.position whole.lastOffset
  last : ∃ x, xs[n]? = some x ∧ s.Sends x
  answers : ∀ i x, xs[i]? = some x → s.Sends x → (a.answers xs)[i]? =
    some (if i < n then .ok none else if i = n then .ok (some whole) else .error .alreadyAssembled)
  closed : ∀ i, n < i → (a.feed (xs.take i)).opened.get? s.key = none

/-- There is an arrival with which the message becomes complete. -/
theorem exists_last (hall : s.Complete xs) :
    ∃ n x, xs[n]? = some x ∧ ¬ s.Complete (xs.take n) ∧ s.Complete (xs.take (n + 1)) := by
  classical
  have hexists : ∃ n, s.Complete (xs.take n) := ⟨xs.length, by rwa [List.take_length]⟩
  cases hfirst : Nat.find hexists with
  | zero =>
      have hnothing : s.Complete (xs.take 0) := hfirst ▸ Nat.find_spec hexists
      refine absurd hnothing (not_complete_of_not_sends fun x hx => ?_)
      cases hx
  | succ n =>
      have hcomplete : s.Complete (xs.take (n + 1)) := hfirst ▸ Nat.find_spec hexists
      have hmissing : ¬ s.Complete (xs.take n) := Nat.find_min hexists (by omega)
      cases hx : xs[n]? with
      | none =>
          rw [List.take_add_one, hx, Option.toList_none, List.append_nil] at hcomplete
          exact absurd hcomplete hmissing
      | some x => exact ⟨n, x, hx, hmissing, hcomplete⟩

theorem Undisturbed.comesOut (h : Undisturbed ttl remembered s xs)
    (hall : s.Complete xs) : ∃ n whole, ComesOut (fresh ttl remembered) xs s n whole := by
  obtain ⟨n, x, hx, hmissing, hcomplete⟩ := exists_last hall
  have hlater {i j : Nat} (hij : i ≤ j) (hi : s.Complete (xs.take i)) : s.Complete (xs.take j) :=
    hi.mono (List.take_subset_take_left xs hij)
  have hbrought : s.Complete (xs.take n ++ [x]) := by rwa [take_concat hx]
  have hsends : s.Sends x := sends_of_complete_concat hmissing hbrought
  obtain ⟨whole, hout, hmessage, hextent⟩ := (h.reply hx hsends).last hmissing hbrought
  rw [take_concat hx] at hextent
  refine ⟨n, whole, hmissing, hcomplete, hmessage, hextent, ⟨x, hx, hsends⟩, ?_, ?_⟩
  · intro i y hy hysends
    have hreply := h.reply hy hysends
    rw [getElem?_answers, hy, Option.map_some]
    rcases Nat.lt_trichotomy i n with hlt | rfl | hgt
    · have hstill : ¬ s.Complete (xs.take i ++ [y]) := by
        rw [take_concat hy]
        exact fun hdone => hmissing (hlater hlt hdone)
      rw [if_pos hlt, hreply.early hstill]
    · obtain rfl : x = y := Option.some.inj (hx.symm.trans hy)
      rw [if_neg (Nat.lt_irrefl i), if_pos rfl, hout]
    · rw [if_neg (Nat.lt_asymm hgt), if_neg (Nat.ne_of_gt hgt),
        hreply.late (hlater hgt hcomplete)]
  · intro i hi
    have hprogress := (h.of_prefix (List.take_prefix i xs)).progress
    exact hprogress.closed (hlater hi hcomplete)

/-! ### All of them -/

/-- Messages with different keys, and arrivals that bring all of their fragments: in any
order, repeated, and among fragments with keys of their own, whatever these are. There is
time for all, and room to remember every message that comes out. -/
structure Traffic (ttl remembered : Nat) (family : List Sending) (xs : List Arrival) : Prop where
  distinct : (family.map Sending.key).Nodup
  complete : ∀ s ∈ family, s.Complete xs
  told : ∀ x ∈ xs, (∃ s ∈ family, s.Sends x) ∨ ∀ s ∈ family, x.key ≠ s.key
  lasting : ∀ x ∈ xs, ∀ y ∈ xs, y.now - x.now ≤ ttl
  room : ((fresh ttl remembered).messages xs).length ≤ remembered

variable {family : List Sending}

theorem Traffic.undisturbed (h : Traffic ttl remembered family xs) (hs : s ∈ family) :
    Undisturbed ttl remembered s xs := by
  refine ⟨fun x hx => ?_, h.lasting, h.room⟩
  rcases h.told x hx with ⟨t, ht, hsends⟩ | hother
  · have hkey : x.key = t.key := key_of_mem (sends_iff.1 hsends)
    by_cases heq : t.key = s.key
    · left
      rwa [← List.inj_on_of_nodup_map h.distinct ht hs heq]
    · right
      rwa [hkey]
  · exact .inr (hother s hs)

/-- Each message comes out once. -/
theorem each_message_once (h : Traffic ttl remembered family xs) :
    ∀ s ∈ family, ∃ n whole, ComesOut (fresh ttl remembered) xs s n whole := by
  intro s hs
  exact (h.undisturbed hs).comesOut (h.complete s hs)

end

/-! ### Two messages

One is cut into pieces. The other is compressed, though it is one of those that stay as they
are: a plain block in a frame. The pieces come from the last to the first, most of them twice,
around the other message and a fragment of neither. -/

open scoped Zstd

def sampleMessage : Message :=
  ⟨"hub.clusters", "clusters", "StatusBundle", "0.1", "", [1, 2, 3, 4, 5]⟩

def inPieces : Sending where
  message := sampleMessage
  encoding := .identity
  ceiling := 40
  timestamp := 7
  fragments := (Fragment.ofMessage sampleMessage .identity 40 7).toOption.getD []
  cut := by decide +kernel

def plainMessage : Message := ⟨"hub.A", "A", "StatusBundle", "0.2", "大阪", [6, 7, 8]⟩

def compressed : Sending where
  message := plainMessage
  encoding := .zstd
  ceiling := 65000
  timestamp := 8
  fragments := (Fragment.ofMessage plainMessage .zstd 65000 8).toOption.getD []
  cut := by decide +kernel

/-- It has more bytes than it declares. -/
def stray : Fragment := ⟨{ inPieces.header 0 with timestamp := 9, total := 3 }, [1, 2, 3, 4]⟩

def mixed : List Fragment :=
  inPieces.fragments.tail ++ stray :: compressed.fragments ++ inPieces.fragments.reverse ++
    compressed.fragments

def arriving (fs : List Fragment) : List Arrival :=
  fs.mapIdx fun i f => ⟨i, f, ⟨"status", 0, UInt64.ofNat i⟩⟩

theorem complete_arriving {s : Sending} {fs : List Fragment} (h : s.fragments ⊆ fs) :
    s.Complete (arriving fs) := by
  intro f hf
  obtain ⟨i, hi, hget⟩ := List.getElem_of_mem (h hf)
  refine ⟨⟨i, fs[i], ⟨"status", 0, UInt64.ofNat i⟩⟩, List.mem_mapIdx.2 ⟨i, hi, rfl⟩, ?_⟩
  rw [hget]
  exact ofBytes_of_mem hf

theorem mem_mixed {f : Fragment} (hf : f ∈ mixed) :
    f ∈ inPieces.fragments ∨ f ∈ compressed.fragments ∨ f = stray := by
  simp only [mixed, List.mem_append, List.mem_cons, List.mem_reverse] at hf
  rcases hf with ((hf | hf | hf) | hf) | hf
  · exact .inl (List.mem_of_mem_tail hf)
  · exact .inr (.inr hf)
  · exact .inr (.inl hf)
  · exact .inl hf
  · exact .inr (.inl hf)

theorem traffic_mixed : Traffic 10 10 [inPieces, compressed] (arriving mixed) where
  distinct := by
    have hne : inPieces.key ≠ compressed.key := by
      intro h
      exact absurd (congrArg MessageKey.timestamp h) (by decide)
    simpa using hne
  complete := by
    intro s hs
    refine complete_arriving fun f hf => ?_
    rcases List.mem_pair.1 hs with rfl | rfl <;> simp [mixed, hf]
  told := by
    intro x hx
    obtain ⟨i, hi, rfl⟩ := List.mem_mapIdx.1 hx
    rcases mem_mixed (List.getElem_mem hi) with hf | hf | hf
    · exact .inl ⟨inPieces, List.mem_pair.2 (.inl rfl), sends_iff.2 hf⟩
    · exact .inl ⟨compressed, List.mem_pair.2 (.inr rfl), sends_iff.2 hf⟩
    · refine .inr fun s hs h => ?_
      rw [Arrival.key, hf] at h
      have htimestamp : 9 = s.timestamp := congrArg MessageKey.timestamp h
      rcases List.mem_pair.1 hs with rfl | rfl
      · exact absurd htimestamp (by decide)
      · exact absurd htimestamp (by decide)
  lasting := by
    intro x _ y hy
    obtain ⟨i, hi, rfl⟩ := List.mem_mapIdx.1 hy
    have hlength : mixed.length ≤ 10 := by decide +kernel
    dsimp only
    omega
  room := by
    have hlength : mixed.length ≤ 10 := by decide +kernel
    have hle := length_messages_le (fresh 10 10) (arriving mixed)
    rw [arriving, List.length_mapIdx] at hle
    exact Nat.le_trans hle hlength

theorem each_message_once_mixed :
    Traffic 10 10 [inPieces, compressed] (arriving mixed) ∧
      ∀ s ∈ [inPieces, compressed], ∃ n whole,
        ComesOut (fresh 10 10) (arriving mixed) s n whole :=
  ⟨traffic_mixed, each_message_once traffic_mixed⟩

end Assembler

end Conflux
