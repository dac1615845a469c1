import Conflux.Proofs.Fragment
import Mathlib.Data.List.Nodup

/-!
The record of a message of which some fragments have come. Its pieces are those of the
fragments that have come, in the order in which they were cut, whatever the order in which
they came. So the record is full when all have come and not before, and what it joins then
is what was cut.
-/

namespace Conflux

namespace Assembly

/-! ### Pieces in their places -/

theorem placePiece_of_forall_lt {offset : UInt32} {ps : List (UInt32 × Bytes)}
    (h : ∀ p ∈ ps, offset < p.1) (payload : Bytes) :
    placePiece offset payload ps = (offset, payload) :: ps := by
  cases ps with
  | nil => rfl
  | cons p ps => rw [placePiece, if_pos (h p List.mem_cons_self)]

theorem sum_length_placePiece (offset : UInt32) (payload : Bytes) (ps : List (UInt32 × Bytes)) :
    ((placePiece offset payload ps).map (·.2.length)).sum =
      (ps.map (·.2.length)).sum + payload.length := by
  induction ps with
  | nil => simp [placePiece]
  | cons p ps ih =>
      rw [placePiece]
      split
      · simp only [List.map_cons, List.sum_cons]
        omega
      · simp only [List.map_cons, List.sum_cons, ih]
        omega

variable {fs : List Fragment} {f : Fragment} {came : Fragment → Bool}

/-- A fragment that comes takes its place among those that came before. -/
theorem placePiece_filter (hfs : fs.Pairwise fun f g => f.header.offset < g.header.offset)
    (hf : f ∈ fs) (hnew : came f = false) :
    placePiece f.header.offset f.payload ((fs.filter came).map Fragment.piece) =
      (fs.filter fun g => came g || f == g).map Fragment.piece := by
  induction fs with
  | nil => cases hf
  | cons g gs ih =>
      obtain ⟨hlt, hgs⟩ := List.pairwise_cons.1 hfs
      rcases List.mem_cons.1 hf with rfl | hf
      · -- It is the first; those behind it are as they were.
        have hrest : (gs.filter fun h => came h || f == h) = gs.filter came := by
          refine List.filter_congr fun h hh => ?_
          have hne : f ≠ h := by
            intro hfh
            have hlt' := hlt h hh
            rw [hfh] at hlt'
            exact UInt32.lt_irrefl _ hlt'
          simp [hne]
        rw [List.filter_cons_of_neg (by simp [hnew]), List.filter_cons_of_pos (by simp), hrest]
        refine placePiece_of_forall_lt (fun p hp => ?_) f.payload
        obtain ⟨h, hh, rfl⟩ := List.mem_map.1 hp
        exact hlt h (List.mem_filter.1 hh).1
      · have hgf : g.header.offset < f.header.offset := hlt f hf
        have hne : f ≠ g := by
          intro hfg
          rw [hfg] at hgf
          exact UInt32.lt_irrefl _ hgf
        cases hg : came g with
        | true =>
            have hbehind : ¬ f.header.offset < g.piece.1 := UInt32.lt_asymm hgf
            rw [List.filter_cons_of_pos hg, List.filter_cons_of_pos (by simp [hg]), List.map_cons,
              List.map_cons, placePiece, if_neg hbehind, ih hgs hf]
        | false =>
            rw [List.filter_cons_of_neg (by simp [hg]),
              List.filter_cons_of_neg (by simp [hg, hne]), ih hgs hf]

/-- By its offset a fragment is known. -/
theorem eq_of_offset_eq (hfs : fs.Pairwise fun f g => f.header.offset < g.header.offset)
    {g : Fragment} (hg : g ∈ fs) (hf : f ∈ fs) (h : g.header.offset = f.header.offset) : g = f := by
  have hdistinct : (fs.map (·.header.offset)).Nodup := by
    rw [List.Nodup, List.pairwise_map]
    refine hfs.imp ?_
    intro a b hlt heq
    rw [heq] at hlt
    exact UInt32.lt_irrefl _ hlt
  exact List.inj_on_of_nodup_map hdistinct hg hf h

theorem any_filter (hfs : fs.Pairwise fun f g => f.header.offset < g.header.offset)
    (hf : f ∈ fs) :
    (((fs.filter came).map Fragment.piece).any fun p => p.1 == f.header.offset) = came f := by
  rw [Bool.eq_iff_iff, List.any_eq_true]
  constructor
  · rintro ⟨p, hp, heq⟩
    obtain ⟨g, hg, rfl⟩ := List.mem_map.1 hp
    obtain ⟨hmem, hcame⟩ := List.mem_filter.1 hg
    rw [← eq_of_offset_eq hfs hmem hf (beq_iff_eq.1 heq)]
    exact hcame
  · intro hcame
    refine ⟨f.piece, List.mem_map_of_mem (List.mem_filter.2 ⟨hf, hcame⟩), ?_⟩
    exact beq_self_eq_true _

/-- As much as there is in all comes only with all of it. -/
theorem sum_le_sum_filter_iff (hpos : ∀ f ∈ fs, 0 < f.payload.length) :
    (fs.map (·.payload.length)).sum ≤ ((fs.filter came).map (·.payload.length)).sum ↔
      ∀ f ∈ fs, came f = true := by
  have hle (gs : List Fragment) : ((gs.filter came).map (·.payload.length)).sum ≤
      (gs.map (·.payload.length)).sum := by
    induction gs with
    | nil => exact Nat.le_refl _
    | cons g gs ih =>
        cases hg : came g with
        | true =>
            rw [List.filter_cons_of_pos hg, List.map_cons, List.map_cons, List.sum_cons,
              List.sum_cons]
            omega
        | false =>
            rw [List.filter_cons_of_neg (by simp [hg]), List.map_cons, List.sum_cons]
            omega
  induction fs with
  | nil => simp
  | cons g gs ih =>
      obtain ⟨hall, hsum⟩ := ih fun f hf => hpos f (List.mem_cons_of_mem g hf)
      have hg := hpos g List.mem_cons_self
      rw [List.forall_mem_cons]
      cases hcame : came g with
      | true =>
          rw [List.filter_cons_of_pos hcame, List.map_cons, List.map_cons, List.sum_cons,
            List.sum_cons, Nat.add_le_add_iff_left]
          exact ⟨fun h => ⟨rfl, hall h⟩, fun h => hsum h.2⟩
      | false =>
          have hless := hle gs
          rw [List.filter_cons_of_neg (by simp [hcame]), List.map_cons, List.sum_cons]
          constructor
          · intro hle'
            omega
          · rintro ⟨hno, _⟩
            cases hno

/-! ### Records -/

variable [Compression]

/-- A record of the message of which these fragments have come. -/
structure Gathers (r : Assembly) (s : Sending) (came : Fragment → Bool) : Prop where
  total : r.total = UInt32.ofNat s.encoded.length
  encoding : r.encoding = s.encoding
  pieces : r.pieces = (s.fragments.filter came).map Fragment.piece
  received : r.received = (r.pieces.map (·.2.length)).sum

variable {r : Assembly} {s : Sending}

theorem gathers_start (s : Sending) (came : Fragment → Bool)
    (hnone : ∀ f ∈ s.fragments, came f = false) (position : Position) (now : Nat) :
    (start (UInt32.ofNat s.encoded.length) s.encoding position now).Gathers s came := by
  have hempty : s.fragments.filter came = [] := by
    rw [List.filter_eq_nil_iff]
    intro f hf
    rw [hnone f hf]
    exact Bool.false_ne_true
  refine ⟨rfl, rfl, ?_, rfl⟩
  rw [hempty]
  rfl

theorem Gathers.extend (h : r.Gathers s came) (position : Position) :
    (r.extend position).Gathers s came :=
  ⟨h.total, h.encoding, h.pieces, h.received⟩

theorem Gathers.congr (h : r.Gathers s came) {came' : Fragment → Bool}
    (hsame : ∀ f ∈ s.fragments, came f = came' f) : r.Gathers s came' := by
  refine ⟨h.total, h.encoding, ?_, h.received⟩
  rw [h.pieces, List.filter_congr hsame]

theorem Gathers.holds_eq (h : r.Gathers s came) (hf : f ∈ s.fragments) :
    r.holds f.header.offset = came f := by
  rw [holds, h.pieces]
  exact any_filter s.ascending hf

theorem Gathers.store (h : r.Gathers s came) (hf : f ∈ s.fragments) (hnew : came f = false) :
    (r.store f.header.offset f.payload).Gathers s fun g => came g || f == g := by
  have hnot : ¬ r.holds f.header.offset = true := by
    rw [h.holds_eq hf, hnew]
    exact Bool.false_ne_true
  rw [Assembly.store, if_neg hnot]
  refine ⟨h.total, h.encoding, ?_, ?_⟩
  · dsimp only
    rw [h.pieces]
    exact placePiece_filter s.ascending hf hnew
  · dsimp only
    rw [sum_length_placePiece, h.received]

/-- A record is full when all fragments have come, and not before. -/
theorem Gathers.isFull_iff (h : r.Gathers s came)
    (hpos : ∀ f ∈ s.fragments, 0 < f.payload.length) :
    r.isFull = true ↔ ∀ f ∈ s.fragments, came f = true := by
  have hcame : r.received = ((s.fragments.filter came).map (·.payload.length)).sum := by
    rw [h.received, h.pieces, List.map_map]
    rfl
  rw [isFull, decide_eq_true_eq, h.total, s.toNat_total, hcame, ← s.sum_length]
  exact sum_le_sum_filter_iff hpos

/-- What has come in all is what was cut. -/
theorem Gathers.join_eq (h : r.Gathers s came) (hall : ∀ f ∈ s.fragments, came f = true) :
    r.join = .ok s.encoded := by
  have hpieces : r.pieces = s.fragments.map Fragment.piece := by
    rw [h.pieces, List.filter_eq_self.2 hall]
  rw [join, hpieces, s.tiles.joined]
  dsimp only
  rw [h.total, s.toNat_total, if_pos rfl]

end Assembly

end Conflux
