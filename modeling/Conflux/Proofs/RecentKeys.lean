import Conflux.RecentKeys
import Mathlib.Data.Finset.Card
import Mathlib.Data.List.DropRight

/-!
What the memory of recent keys knows. Taking in a key does one of two things: nothing at all if
the key is known, and otherwise the row of keys becomes the last that fit of the row with the new
key at its end. So, after any keys at all, the row is the last that fit of the keys that were new
when they came; and no key stands in it twice.

The row tells the oldest key, but to look for a key one has to go through it. With a set of the
same keys at its side one need not. The two are changed one after the other, and they agree as
long as no key stands in the row twice: the oldest key that is taken out of both would otherwise
be left in the row and not in the set.
-/

namespace Conflux

theorem rtake_append_of_length_le {α : Type} {front rest : List α} {n : Nat}
    (h : rest.length ≤ n) :
    (front ++ rest).rtake n = front.rtake (n - rest.length) ++ rest := by
  rw [List.rtake, List.rtake, List.length_append, List.drop_append_of_le_length (by omega)]
  congr 2
  omega

/-- What has been dropped once does not come back with what is put behind. -/
theorem rtake_rtake_append {α : Type} (front rest : List α) (n : Nat) :
    (front.rtake n ++ rest).rtake n = (front ++ rest).rtake n := by
  rw [List.rtake_eq_reverse_take_reverse, List.rtake_eq_reverse_take_reverse,
    List.rtake_eq_reverse_take_reverse, List.reverse_append, List.reverse_append,
    List.reverse_reverse, List.take_append, List.take_append, List.take_take,
    Nat.min_eq_left (Nat.sub_le _ _)]

namespace RecentKeys

variable {κ : Type} [DecidableEq κ] {w : RecentKeys κ} {k l : κ}

@[simp] theorem capacity_insert (w : RecentKeys κ) (k : κ) :
    (w.insert k).1.capacity = w.capacity := by
  rw [insert]
  split
  · rfl
  · split
    · rfl
    · split <;> rfl

theorem length_insert_le (w : RecentKeys κ) (k : κ) :
    (w.insert k).1.keys.length ≤ w.keys.length + 1 := by
  rw [insert]
  split
  · exact Nat.le_succ _
  · split
    · exact Nat.le_succ _
    · split
      · rw [List.length_append, List.length_drop, List.length_singleton]
        omega
      · exact Nat.le_of_eq List.length_append

/-- With room to spare, nothing is forgotten for a new key. -/
theorem mem_insert_of_room (h : w.keys.length < w.capacity) {k l : κ} :
    l ∈ (w.insert k).1.keys ↔ l ∈ w.keys ∨ l = k := by
  have hcapacity : w.capacity ≠ 0 := by omega
  have hroom : w.keys.length ≠ w.capacity := by omega
  rw [insert, if_neg hcapacity]
  by_cases hk : w.contains k = true
  · rw [if_pos hk]
    constructor
    · exact .inl
    · rintro (hl | rfl)
      · exact hl
      · exact contains_eq_true.1 hk
  · rw [if_neg hk, if_neg hroom, List.mem_append, List.mem_singleton]

theorem mem_insert_self (h : w.capacity ≠ 0) {k : κ} : k ∈ (w.insert k).1.keys := by
  rw [insert, if_neg h]
  split
  · next hk => exact contains_eq_true.1 hk
  · split <;> exact List.mem_append_right _ (List.mem_singleton_self k)

/-- No key is remembered but those that were, and the new one. -/
theorem mem_of_mem_insert (h : l ∈ (w.insert k).1.keys) : l ∈ w.keys ∨ l = k := by
  rw [insert] at h
  split at h
  · exact .inl h
  · split at h
    · exact .inl h
    · split at h
      · exact (List.mem_append.1 h).imp List.mem_of_mem_drop List.mem_singleton.1
      · exact (List.mem_append.1 h).imp_right List.mem_singleton.1

/-- No key is remembered twice, and no more of them than fit. -/
structure Sound (w : RecentKeys κ) : Prop where
  nodup : w.keys.Nodup
  fits : w.keys.length ≤ w.capacity

omit [DecidableEq κ] in
theorem sound_empty (capacity : Nat) : (empty capacity : RecentKeys κ).Sound where
  nodup := List.nodup_nil
  fits := Nat.zero_le _

theorem Sound.insert_known (h : w.Sound) (hk : k ∈ w.keys) : w.insert k = (w, false) := by
  have hlength : 0 < w.keys.length := List.length_pos_of_mem hk
  have hcapacity : w.capacity ≠ 0 := by
    have hfits := h.fits
    omega
  rw [insert, if_neg hcapacity, if_pos (contains_eq_true.2 hk)]

/-- A new key is put behind the others. What does not fit any more is forgotten. -/
theorem Sound.insert_new (h : w.Sound) (hk : k ∉ w.keys) :
    w.insert k = ({ w with keys := (w.keys ++ [k]).rtake w.capacity }, true) := by
  have hfits := h.fits
  rw [insert]
  by_cases hzero : w.capacity = 0
  · have hnil : w.keys = [] := by
      rw [hzero, Nat.le_zero] at hfits
      exact List.length_eq_zero_iff.1 hfits
    rw [if_pos hzero, hzero, List.rtake_zero, ← hnil, ← hzero]
  · rw [if_neg hzero, if_neg (mt contains_eq_true.1 hk),
      rtake_append_of_length_le (show [k].length ≤ w.capacity from Nat.pos_of_ne_zero hzero),
      List.rtake, List.length_singleton]
    split
    · next hfull =>
        rw [show w.keys.length - (w.capacity - 1) = 1 by omega]
    · next hroom =>
        rw [show w.keys.length - (w.capacity - 1) = 0 by omega, List.drop_zero]

theorem Sound.insert (h : w.Sound) (k : κ) : (w.insert k).1.Sound := by
  by_cases hk : k ∈ w.keys
  · rw [h.insert_known hk]
    exact h
  · rw [h.insert_new hk]
    have hnodup : (w.keys ++ [k]).Nodup := by
      rw [← List.concat_eq_append]
      exact h.nodup.concat hk
    refine ⟨hnodup.sublist (List.drop_sublist _ _), ?_⟩
    change ((w.keys ++ [k]).drop _).length ≤ w.capacity
    rw [List.length_drop]
    omega

def insertAll (w : RecentKeys κ) (ks : List κ) : RecentKeys κ :=
  ks.foldl (fun w k => (w.insert k).1) w

theorem insertAll_cons (w : RecentKeys κ) (k : κ) (ks : List κ) :
    w.insertAll (k :: ks) = (w.insert k).1.insertAll ks := rfl

theorem Sound.insertAll (h : w.Sound) (ks : List κ) : (w.insertAll ks).Sound := by
  induction ks generalizing w with
  | nil => exact h
  | cons k ks ih => exact ih (h.insert k)

/-! ### How long a key is remembered -/

/-- `k` is remembered, and what has come after it is among `others`. -/
def Recalls (w : RecentKeys κ) (k : κ) (others : Finset κ) : Prop :=
  ∃ front back, w.keys = front ++ k :: back ∧ ∀ l ∈ back, l ∈ others

theorem Sound.recalls_new (h : w.Sound) (hk : k ∉ w.keys) (hroom : w.capacity ≠ 0)
    (others : Finset κ) : (w.insert k).1.Recalls k others := by
  refine ⟨w.keys.rtake (w.capacity - 1), [], ?_, fun l hl => nomatch hl⟩
  rw [h.insert_new hk]
  exact rtake_append_of_length_le (Nat.pos_of_ne_zero hroom)

/-- What stands behind `k` is not the whole row, so it is not yet `k` that has to go. -/
theorem Sound.recalls_insert (h : w.Sound) {others : Finset κ} (hk : w.Recalls k others)
    (hroom : others.card < w.capacity) (hl : l ≠ k → l ∈ others) :
    (w.insert l).1.Recalls k others := by
  obtain ⟨front, back, hkeys, hback⟩ := hk
  by_cases hknown : l ∈ w.keys
  · rw [h.insert_known hknown]
    exact ⟨front, back, hkeys, hback⟩
  · have hlk : l ≠ k := by
      rintro rfl
      exact hknown (hkeys ▸ List.mem_append_right _ List.mem_cons_self)
    have hnew : ∀ m ∈ back ++ [l], m ∈ others := by
      intro m hm
      rcases List.mem_append.1 hm with hm | hm
      · exact hback m hm
      · rw [List.mem_singleton.1 hm]
        exact hl hlk
    have hnodup : (back ++ [l]).Nodup := by
      rw [← List.concat_eq_append]
      refine List.Nodup.concat ?_ ?_
      · exact fun hm => hknown (hkeys ▸ List.mem_append_right _ (List.mem_cons_of_mem k hm))
      · have hall := h.nodup
        rw [hkeys] at hall
        exact (List.nodup_cons.1 (List.Nodup.of_append_right hall)).2
    have hfew : (back ++ [l]).length ≤ others.card := by
      rw [← List.toFinset_card_of_nodup hnodup]
      refine Finset.card_le_card fun m hm => ?_
      exact hnew m (List.mem_toFinset.1 hm)
    refine ⟨front.rtake (w.capacity - (k :: (back ++ [l])).length), back ++ [l], ?_, hnew⟩
    rw [h.insert_new hknown, hkeys, List.append_assoc, List.cons_append]
    exact rtake_append_of_length_le (Nat.lt_of_le_of_lt hfew hroom)

theorem Sound.recalls_insertAll (h : w.Sound) {others : Finset κ} (hk : w.Recalls k others)
    (hroom : others.card < w.capacity) {ls : List κ} (hls : ∀ l ∈ ls, l ≠ k → l ∈ others) :
    (w.insertAll ls).Recalls k others := by
  induction ls generalizing w with
  | nil => exact hk
  | cons l ls ih =>
      have hnext := h.recalls_insert hk hroom (hls l List.mem_cons_self)
      rw [← w.capacity_insert l] at hroom
      exact ih (h.insert l) hnext hroom fun m hm => hls m (List.mem_cons_of_mem l hm)

/-- A key that was new is remembered until as many others have come after it as fit. -/
theorem Sound.mem_insertAll (h : w.Sound) (hk : k ∉ w.keys) {ls : List κ}
    (hroom : (ls.toFinset.erase k).card < w.capacity) :
    k ∈ ((w.insert k).1.insertAll ls).keys := by
  have hstart := h.recalls_new hk (Nat.ne_zero_of_lt hroom) (ls.toFinset.erase k)
  rw [← w.capacity_insert k] at hroom
  obtain ⟨front, back, hkeys, _⟩ := (h.insert k).recalls_insertAll hstart hroom fun l hl hne =>
    Finset.mem_erase_of_ne_of_mem hne (List.mem_toFinset.2 hl)
  rw [hkeys]
  exact List.mem_append_right _ List.mem_cons_self

end RecentKeys

/-! ### A row and a set of its keys -/

/-- A memory of recent keys that keeps them in a set as well, so as to look them up. -/
structure IndexedKeys (κ : Type) [DecidableEq κ] [Hashable κ] where
  capacity : Nat
  /-- The remembered keys, the oldest first. -/
  order : List κ
  members : Std.HashSet κ

namespace IndexedKeys

variable {κ : Type} [DecidableEq κ] [Hashable κ]

def empty (capacity : Nat) : IndexedKeys κ := ⟨capacity, [], ∅⟩

def contains (c : IndexedKeys κ) (k : κ) : Bool := c.members.contains k

def size (c : IndexedKeys κ) : Nat := c.order.length

def forgetOldest (c : IndexedKeys κ) : IndexedKeys κ :=
  match c.order with
  | [] => c
  | oldest :: rest => { c with order := rest, members := c.members.erase oldest }

def remember (c : IndexedKeys κ) (k : κ) : IndexedKeys κ :=
  { c with order := c.order ++ [k], members := c.members.insert k }

def insert (c : IndexedKeys κ) (k : κ) : IndexedKeys κ × Bool :=
  if c.capacity = 0 then (c, true)
  else if c.contains k then (c, false)
  else if c.order.length = c.capacity then (c.forgetOldest.remember k, true)
  else (c.remember k, true)

def insertAll (c : IndexedKeys κ) (ks : List κ) : IndexedKeys κ :=
  ks.foldl (fun c k => (c.insert k).1) c

/-- Those of the keys that are not known when they come. -/
def recorded (c : IndexedKeys κ) : List κ → List κ
  | [] => []
  | k :: ks =>
      let rest := (c.insert k).1.recorded ks
      if c.contains k then rest else k :: rest

def queue (c : IndexedKeys κ) : RecentKeys κ := ⟨c.capacity, c.order⟩

variable {c : IndexedKeys κ} {k : κ}

/-- The row is in order, and the set has the same keys. -/
structure Sound (c : IndexedKeys κ) : Prop where
  row : c.queue.Sound
  contains_iff : ∀ k, c.contains k = true ↔ k ∈ c.order

theorem sound_empty (capacity : Nat) : (empty capacity : IndexedKeys κ).Sound where
  row := RecentKeys.sound_empty capacity
  contains_iff k := by
    simp [contains, empty]

theorem Sound.contains_eq (h : c.Sound) (k : κ) : c.contains k = c.queue.contains k := by
  rw [Bool.eq_iff_iff, h.contains_iff, RecentKeys.contains_eq_true]
  rfl

theorem queue_forgetOldest (c : IndexedKeys κ) :
    c.forgetOldest.queue = { c.queue with keys := c.order.drop 1 } := by
  rw [forgetOldest]
  split
  · next hnil => rw [queue, hnil, List.drop_nil]
  · next hcons =>
      rw [hcons]
      rfl

/-- As the oldest key stands in the row only once, it is in neither of the two any more. -/
theorem Sound.contains_forgetOldest (h : c.Sound) (k : κ) :
    c.forgetOldest.contains k = true ↔ k ∈ c.forgetOldest.order := by
  have hnodup : c.order.Nodup := h.row.nodup
  have hk := h.contains_iff k
  rw [forgetOldest]
  split
  · exact hk
  · next oldest rest hcons =>
      rw [hcons, List.nodup_cons] at hnodup
      rw [hcons, List.mem_cons] at hk
      change (c.members.erase oldest).contains k = true ↔ k ∈ rest
      rw [Std.HashSet.contains_erase, Bool.and_eq_true, Bool.not_eq_true', beq_eq_false_iff_ne]
      change _ ∧ c.contains k = true ↔ _
      rw [hk]
      constructor
      · rintro ⟨hne, rfl | hrest⟩
        · exact absurd rfl hne
        · exact hrest
      · intro hrest
        refine ⟨?_, .inr hrest⟩
        rintro rfl
        exact hnodup.1 hrest

theorem contains_remember (h : ∀ k, c.contains k = true ↔ k ∈ c.order) (k l : κ) :
    (c.remember k).contains l = true ↔ l ∈ (c.remember k).order := by
  change (c.members.insert k).contains l = true ↔ l ∈ c.order ++ [k]
  rw [Std.HashSet.contains_insert, Bool.or_eq_true, beq_iff_eq, List.mem_append,
    List.mem_singleton, ← h l, or_comm, eq_comm (a := k)]
  rfl

/-- The set makes no difference to what is answered and to what is remembered. -/
theorem Sound.insert_queue (h : c.Sound) (k : κ) :
    ((c.insert k).1.queue, (c.insert k).2) = c.queue.insert k := by
  rw [IndexedKeys.insert, RecentKeys.insert, h.contains_eq]
  by_cases hzero : c.capacity = 0
  · rw [if_pos hzero, if_pos (show c.queue.capacity = 0 from hzero)]
  · rw [if_neg hzero, if_neg (show ¬ c.queue.capacity = 0 from hzero)]
    split
    · rfl
    · by_cases hfull : c.order.length = c.capacity
      · rw [if_pos hfull, if_pos (show c.queue.keys.length = c.queue.capacity from hfull)]
        have hqueue := c.queue_forgetOldest
        change ({ c.forgetOldest.queue with keys := c.forgetOldest.queue.keys ++ [k] }, true) = _
        rw [hqueue]
        rfl
      · rw [if_neg hfull, if_neg (show ¬ c.queue.keys.length = c.queue.capacity from hfull)]
        rfl

theorem Sound.queue_insert (h : c.Sound) (k : κ) : (c.insert k).1.queue = (c.queue.insert k).1 :=
  congrArg Prod.fst (h.insert_queue k)

theorem Sound.insert (h : c.Sound) (k : κ) : (c.insert k).1.Sound where
  row := h.queue_insert k ▸ h.row.insert k
  contains_iff := by
    rw [IndexedKeys.insert]
    split
    · exact h.contains_iff
    · split
      · exact h.contains_iff
      · split
        · exact contains_remember h.contains_forgetOldest k
        · exact contains_remember h.contains_iff k

theorem Sound.insertAll (h : c.Sound) (ks : List κ) : (c.insertAll ks).Sound := by
  induction ks generalizing c with
  | nil => exact h
  | cons k ks ih => exact ih (h.insert k)

theorem Sound.queue_insertAll (h : c.Sound) (ks : List κ) :
    (c.insertAll ks).queue = c.queue.insertAll ks := by
  induction ks generalizing c with
  | nil => rfl
  | cons k ks ih =>
      rw [RecentKeys.insertAll_cons, ← h.queue_insert k]
      exact ih (h.insert k)

theorem Sound.insert_known (h : c.Sound) (hk : k ∈ c.order) : c.insert k = (c, false) := by
  have hcapacity : c.capacity ≠ 0 :=
    Nat.ne_zero_of_lt (Nat.lt_of_lt_of_le (List.length_pos_of_mem hk) h.row.fits)
  rw [IndexedKeys.insert, if_neg hcapacity, if_pos ((h.contains_iff k).2 hk)]

theorem Sound.insert_new (h : c.Sound) (hk : k ∉ c.order) :
    ((c.insert k).1.queue, (c.insert k).2) =
      ({ c.queue with keys := (c.order ++ [k]).rtake c.capacity }, true) :=
  (h.insert_queue k).trans (h.row.insert_new hk)

/-! ### The last keys that were new -/

/-- The row is what was remembered and what has been new since then, as far as it fits. -/
theorem Sound.order_insertAll (h : c.Sound) (ks : List κ) :
    (c.insertAll ks).order = (c.order ++ c.recorded ks).rtake c.capacity := by
  induction ks generalizing c with
  | nil =>
      have hfits : c.order.length ≤ c.capacity := h.row.fits
      change c.order = (c.order ++ []).rtake c.capacity
      rw [List.append_nil, List.rtake, Nat.sub_eq_zero_of_le hfits, List.drop_zero]
  | cons k ks ih =>
      change ((c.insert k).1.insertAll ks).order = _
      rw [ih (h.insert k), recorded]
      by_cases hk : k ∈ c.order
      · rw [if_pos ((h.contains_iff k).2 hk), h.insert_known hk]
      · rw [if_neg (mt (h.contains_iff k).1 hk)]
        have hnew := congrArg Prod.fst (h.insert_new hk)
        have horder : (c.insert k).1.order = (c.order ++ [k]).rtake c.capacity :=
          congrArg RecentKeys.keys hnew
        have hcapacity : (c.insert k).1.capacity = c.capacity :=
          congrArg RecentKeys.capacity hnew
        rw [horder, hcapacity, rtake_rtake_append, List.append_assoc, List.singleton_append]

/-- The memory knows the keys of `window` and no others, the oldest of them first. -/
structure Remembers (c : IndexedKeys κ) (window : List κ) : Prop where
  order_eq : c.order = window
  distinct : window.Nodup
  contains_iff : ∀ k, c.contains k = true ↔ k ∈ window
  size_eq : c.size = window.length
  answer_iff : ∀ k, (c.insert k).2 = false ↔ k ∈ window
  /-- A key that is known already refreshes nothing, and nothing goes for it. -/
  again : ∀ k ∈ window, (c.insert k).1 = c

theorem Sound.remembers (h : c.Sound) : c.Remembers c.order where
  order_eq := rfl
  distinct := h.row.nodup
  contains_iff := h.contains_iff
  size_eq := rfl
  answer_iff k := by
    constructor
    · intro hanswer
      by_contra hk
      have hnew := congrArg Prod.snd (h.insert_new hk)
      cases hnew.symm.trans hanswer
    · intro hk
      rw [h.insert_known hk]
  again k hk := by rw [h.insert_known hk]

/-- After any keys, those are known that fit, of the keys that were new, the last ones. -/
theorem remembers_insertAll (capacity : Nat) (ks : List κ) :
    ((empty capacity).insertAll ks).Remembers
      (((empty capacity).recorded ks).rtake capacity) := by
  have hsound : (empty capacity : IndexedKeys κ).Sound := sound_empty capacity
  have horder : ((empty capacity).insertAll ks).order =
      ((empty capacity).recorded ks).rtake capacity := hsound.order_insertAll ks
  rw [← horder]
  exact (hsound.insertAll ks).remembers

end IndexedKeys

end Conflux
