import Conflux.OffsetStore
import Conflux.Proofs.Extent
import Conflux.Proofs.Files.Replacement
import Conflux.Proofs.Json.ReadBack

/-!
Which offsets survive. The file of a store can be read back, so whoever opens it gets the
offsets that were last written, and these never go back. They are the offsets of the store
itself unless a write has failed. Then the store is ahead of its file, and an advance that
moves nothing further is acknowledged although what it was given is not in the file.
-/

namespace Conflux

/-! ### What the file says -/

namespace Position

theorem toJson_indented (p : Position) (depth : Nat) (rest : Bytes) :
    p.toJson.indented depth ++ rest =
      0x7b :: Json.line (depth + 1) "topic" (Json.quote p.topic)
        (0x2c :: Json.line (depth + 1) "partition" (Bytes.ofText (Decimal.write p.partition.toNat))
          (0x2c :: Json.line (depth + 1) "offset" (Bytes.ofText (Decimal.write p.offset.toNat))
            (Json.newline depth ++ 0x7d :: rest))) := by
  have hnumber (n : Nat) : Json.intText n = Decimal.write n := by simp [Json.intText]
  simp [toJson, Json.indented, Json.indentedMembers, Json.line, hnumber]

theorem field_topic (t : String) (rest : Bytes) :
    field "topic" (0x20 :: (Json.quote t ++ rest)) = some (.topic t, rest) := by
  have hread : Json.string? (0x20 :: (Json.quote t ++ rest)) = some (t, rest) :=
    Json.string?_of_quote (by rw [Json.skipBlank_cons_of_blank rfl, Json.skipBlank_quote])
  simp [field, hread]

theorem field_partition (n : UInt32) {rest : Bytes} (hrest : Json.endsNumeral rest) :
    field "partition" (0x20 :: (Bytes.ofText (Decimal.write n.toNat) ++ rest)) =
      some (.partition n.toNat, rest) := by
  have hn := n.toNat_lt
  have hread : Json.natural? Decimal.maxUInt32
      (0x20 :: (Bytes.ofText (Decimal.write n.toNat) ++ rest)) = some (n.toNat, rest) :=
    Json.natural?_write (by grind [Decimal.maxUInt32]) (by grind [Json.Numeral.wordBound]) hrest
  simp [field, hread]

theorem field_offset (n : UInt64) {rest : Bytes} (hrest : Json.endsNumeral rest) :
    field "offset" (0x20 :: (Bytes.ofText (Decimal.write n.toNat) ++ rest)) =
      some (.offset n.toNat, rest) := by
  have hn := n.toNat_lt
  have hread : Json.natural? Decimal.maxUInt64
      (0x20 :: (Bytes.ofText (Decimal.write n.toNat) ++ rest)) = some (n.toNat, rest) :=
    Json.natural?_write (by grind [Decimal.maxUInt64]) (by grind [Json.Numeral.wordBound]) hrest
  simp [field, hread]

/-- A printed position is read back. -/
theorem read?_indented (p : Position) {depth : Nat} {s rest : Bytes}
    (hs : Json.skipBlank s = p.toJson.indented depth ++ rest) :
    Position.read? s = some (p, rest) := by
  have hclose : Json.skipBlank (Json.newline depth ++ 0x7d :: rest) = 0x7d :: rest := by
    rw [Json.skipBlank_newline, Json.skipBlank_cons rfl]
  rw [toJson_indented] at hs
  rw [read?, Json.record?, hs]
  generalize hitem : (fun _ : Nat => Json.member? fun k r =>
    if k ∈ fieldNames then (field k r).map fun p => (some p.1, p.2)
    else (Json.skipValue? r).map fun p => (none, p.2)) = item
  have hmember {name : String} {x : Field} {s text rest : Bytes} (i : Nat)
      (hname : name ∈ fieldNames)
      (hs : Json.skipBlank s = Json.skipBlank (Json.line (depth + 1) name text rest))
      (hfield : field name (0x20 :: (text ++ rest)) = some (x, rest)) :
      item i s = some ((name, some x), rest) := by
    rw [← hitem]
    exact Json.member?_line hs (by simp [hname, hfield])
  have hoffset := Json.Reads.last
    (hmember 2 (by decide) rfl (field_offset p.offset (Json.endsNumeral_newline depth _))) hclose
  have hpartition := hoffset.more
    (hmember 1 (by decide) rfl (field_partition p.partition (Json.endsNumeral_comma _)))
    (Json.skipBlank_cons rfl _) (by decide)
  obtain ⟨r, hr⟩ := Json.skipBlank_line_eq_cons (depth + 1) "topic" (Json.quote p.topic) _
  have htopic := hpartition.more
    (hmember 0 (by decide) ((Json.skipBlank_cons rfl r).trans hr.symm) (field_topic p.topic _))
    (Json.skipBlank_cons rfl _) (by decide)
  have hall := htopic.sequence? hr (by decide) (by simp [Json.line]; omega)
  simp [hall, ofFields?, Json.distinctNames, List.lookup_cons]

end Position

namespace OffsetStore

theorem decode?_encode (s : OffsetStore) : decode? s.encode = some s.positions := by
  have hprint : ∀ p : Position, ∃ t, p.toJson.indented (0 + 1) = 0x7b :: t := by
    intro p
    have htext := p.toJson_indented (0 + 1) []
    rw [List.append_nil] at htext
    exact ⟨_, htext⟩
  have hlist := Json.list?_indented hprint (fun p _ _ => p.read?_indented) s.positions []
  rw [List.append_nil] at hlist
  rw [decode?, Json.whole?, encode, Json.pretty, hlist]
  rfl

/-- The offsets in a list, read entry by entry into a table that there was before. -/
theorem get?_foldl_update (q : Partition) {es : List (Partition × UInt64)}
    (hes : es.Pairwise fun a b => a.1 < b.1) (t : ByPartition UInt64) :
    ((es.map fun e => e.1.at e.2).foldl
        (fun t p => t.update p.partitionKey fun _ => p.offset) t).get? q =
      (ByPartition.find? q es).or (t.get? q) := by
  induction es generalizing t with
  | nil => rfl
  | cons e es ih =>
      obtain ⟨hfirst, hes⟩ := List.pairwise_cons.1 hes
      rw [List.map_cons, List.foldl_cons, ih hes, ByPartition.get?_update, ByPartition.find?]
      by_cases hq : q = e.1
      · rw [hq, ByPartition.find?_eq_none_of_lt hfirst]
        simp [Partition.at, Position.partitionKey]
      · simp [hq, Ne.symm hq, Partition.at, Position.partitionKey]

/-- The offsets of a store are those in the list of its positions. -/
theorem get?_ofPositions (s : OffsetStore) (q : Partition) :
    (ofPositions s.positions).get? q = s.get? q := by
  rw [ofPositions, positions, get?_foldl_update q s.offsets.ascending]
  exact Option.or_none

/-! ### Offsets -/

def offset (s : OffsetStore) (q : Partition) : UInt64 := (s.get? q).getD 0

/-- The highest offset of a partition in a list, and no less than `start`. -/
def highest (q : Partition) (start : UInt64) (ps : List Position) : UInt64 :=
  ps.foldl (fun o p => if p.partitionKey = q then max o p.offset else o) start

section

variable {q : Partition} {start : UInt64} {ps : List Position}

theorem highest_append (q : Partition) (start : UInt64) (ps rs : List Position) :
    highest q start (ps ++ rs) = highest q (highest q start ps) rs :=
  List.foldl_append

theorem max_le_iff {a b x : UInt64} : max a b ≤ x ↔ a ≤ x ∧ b ≤ x := by
  obtain ⟨hleft, hright⟩ := le_max_offset a b
  constructor
  · intro h
    exact ⟨UInt64.le_trans hleft h, UInt64.le_trans hright h⟩
  · rintro ⟨ha, hb⟩
    rcases max_offset_eq_or a b with h | h <;> rwa [h]

theorem highest_le_iff {x : UInt64} :
    highest q start ps ≤ x ↔ start ≤ x ∧ ∀ p ∈ ps, p.partitionKey = q → p.offset ≤ x := by
  induction ps generalizing start with
  | nil => simp [highest]
  | cons p ps ih =>
      rw [highest, List.foldl_cons, ← highest, ih]
      by_cases hp : p.partitionKey = q
      · simp [hp, max_le_iff, and_assoc]
      · simp [hp]

theorem highest_le_append (q : Partition) (start : UInt64) (ps rs : List Position) :
    highest q start ps ≤ highest q start (ps ++ rs) := by
  rw [highest_append]
  exact (highest_le_iff.1 (UInt64.le_refl _)).1

end

theorem offset_advanceOne (offsets : ByPartition UInt64) (p : Position) (q : Partition) :
    ((advanceOne offsets p).1.get? q).getD 0 = highest q ((offsets.get? q).getD 0) [p] := by
  by_cases hq : p.partitionKey = q
  · simp [advanceOne, ByPartition.get?_update, highest, hq]
  · simp [advanceOne, ByPartition.get?_update, highest, hq]

/-- The offsets after a list of positions. -/
theorem offset_advanceAll (offsets : ByPartition UInt64) (ps : List Position) (q : Partition) :
    ((advanceAll offsets ps).1.get? q).getD 0 = highest q ((offsets.get? q).getD 0) ps := by
  induction ps generalizing offsets with
  | nil => rfl
  | cons p ps ih => 
      rw [advanceAll, ih, offset_advanceOne, ← highest_append]
      rfl

/-- If nothing moved, the offsets are what they were. -/
theorem highest_of_unmoved {offsets : ByPartition UInt64} {ps : List Position}
    (h : (advanceAll offsets ps).2 = 0) (q : Partition) :
    highest q ((offsets.get? q).getD 0) ps = (offsets.get? q).getD 0 := by
  induction ps generalizing offsets with
  | nil => rfl
  | cons p ps ih =>
      simp only [advanceAll, Nat.add_eq_zero_iff, ite_eq_right_iff, Nat.one_ne_zero,
        imp_false] at h
      obtain ⟨hrest, hmoved⟩ := h
      have hfirst : highest q ((offsets.get? q).getD 0) [p] = (offsets.get? q).getD 0 := by
        by_cases hq : p.partitionKey = q
        · have hle : p.offset ≤ (offsets.get? q).getD 0 := by
            simpa [advanceOne, hq] using hmoved
          simp only [highest, List.foldl_cons, List.foldl_nil, if_pos hq]
          exact UInt64.le_antisymm (max_le_iff.2 ⟨UInt64.le_refl _, hle⟩) (le_max_offset _ _).1
        · simp [highest, hq]
      rw [← List.singleton_append, highest_append, ← offset_advanceOne, ih hrest,
        offset_advanceOne, hfirst]

/-- What an advance can answer, and what it does to the file. The offsets move whatever the
answer is. -/
theorem advance_cases {t t' : Files.Tree} {s s' : OffsetStore} {ps : List Position}
    {fault : Option Files.Tree.Fault} {r : Except Files.WriteError Nat}
    (h : advance t s ps fault = (t', s', r)) :
    s'.path = s.path ∧ (∀ q, s'.offset q = highest q (s.offset q) ps) ∧
      (r = .ok 0 ∧ t' = t ∧ (∀ q, s'.offset q = s.offset q) ∨
        (∃ n, r = .ok (n + 1) ∧ t.replaceWith s.path s'.encode fault = (t', .ok ())) ∨
        ∃ e, r = .error e ∧ t.replaceWith s.path s'.encode fault = (t', .error e)) := by
  have hoffsets (q : Partition) := offset_advanceAll s.offsets ps q
  rw [advance] at h
  simp only at h
  split at h
  · next hmoved =>
      cases h
      refine ⟨rfl, hoffsets, .inl ⟨rfl, rfl, fun q => ?_⟩⟩
      exact (hoffsets q).trans (highest_of_unmoved hmoved q)
  · next hmoved =>
      obtain ⟨n, hn⟩ := Nat.exists_eq_succ_of_ne_zero hmoved
      generalize hwrite : t.replaceWith s.path _ fault = write at h
      obtain ⟨u, result⟩ := write
      cases h
      refine ⟨rfl, hoffsets, .inr ?_⟩
      cases result with
      | ok _ => exact .inl ⟨n, by rw [hn]; rfl, hwrite⟩
      | error e => exact .inr ⟨e, rfl, hwrite⟩

/-! ### Opening -/

/-- The file at a path says these offsets. One that is missing says zero everywhere. -/
def Says (t : Files.Tree) (path : Files.Path) (offsets : Partition → UInt64) : Prop :=
  t.node? path = none ∧ (∀ q, offsets q = 0) ∨
    ∃ b ps, t.read? path = .ok b ∧ decode? b = some ps ∧
      ∀ q, ((ofPositions ps).get? q).getD 0 = offsets q

section

variable {t t' : Files.Tree} {path : Files.Path} {s : OffsetStore}
  {offsets : Partition → UInt64}

theorem open?_cases (h : open? t path = .ok s) :
    s.path = path ∧ (t.read? path = .error .notFound ∧ s.offsets = .empty ∨
      ∃ b ps, t.read? path = .ok b ∧ decode? b = some ps ∧ s.offsets = ofPositions ps) := by
  rw [open?] at h
  split at h
  · next b hread =>
      split at h
      · next ps hdecode =>
          cases h
          exact ⟨rfl, .inr ⟨b, ps, hread, hdecode, rfl⟩⟩
      · cases h
  · next hread =>
      cases h
      exact ⟨rfl, .inl ⟨hread, rfl⟩⟩
  · cases h

theorem says_of_open (h : open? t path = .ok s)
    (hfile : t.node? path = none ∨ ∃ b, t.read? path = .ok b) : Says t path s.offset := by
  rcases (open?_cases h).2 with ⟨hread, hempty⟩ | ⟨b, ps, hread, hdecode, hoffsets⟩
  · rcases hfile with hnone | ⟨b, hb⟩
    · exact .inl ⟨hnone, fun q => by rw [offset, get?, hempty]; rfl⟩
    · rw [hread] at hb
      cases hb
  · exact .inr ⟨b, ps, hread, hdecode, fun q => by rw [offset, get?, hoffsets]⟩

theorem Says.offset_eq (h : Says t path offsets) (hopen : open? t path = .ok s)
    (q : Partition) : s.offset q = offsets q := by
  rw [offset, get?]
  rcases (open?_cases hopen).2 with ⟨hread, hempty⟩ | ⟨b, ps, hread, hdecode, hoffsets⟩
  · rcases h with ⟨_, hzero⟩ | ⟨b, _, hb, _⟩
    · rw [hempty, hzero]
      rfl
    · rw [hread] at hb
      cases hb
  · rcases h with ⟨hnone, _⟩ | ⟨b', ps', hb, hps, htold⟩
    · have hnode := (Files.Tree.read?_eq_ok_iff.1 hread).2
      rw [hnone] at hnode
      cases hnode
    · cases hread.symm.trans hb
      cases hdecode.symm.trans hps
      rw [hoffsets, htold]

theorem Says.spares (h : Says t path offsets) (hspares : Files.Tree.Spares path t t') :
    Says t' path offsets := by
  rcases h with ⟨hnone, hzero⟩ | ⟨b, ps, hread, hps⟩
  · exact .inl ⟨hspares.node.trans hnone, hzero⟩
  · exact .inr ⟨b, ps, hspares.read? hread, hps⟩

/-- What was written for a store says its offsets. -/
theorem says_of_encode (h : t.read? path = .ok s.encode) :
    Says t path s.offset ∧ ∃ s', open? t path = .ok s' := by
  refine ⟨.inr ⟨s.encode, s.positions, h, decode?_encode s, fun q => ?_⟩, ?_⟩
  · rw [get?_ofPositions, offset]
  · rw [open?, h]
    simp [decode?_encode]

end

/-! ### Sessions -/

inductive Operation where
  | advance (ps : List Position) (fault : Option Files.Tree.Fault)
  | reopen

/-- A store and its file, with the positions that each of the two has been given. -/
structure Session where
  tree : Files.Tree
  store : OffsetStore
  given : List Position
  written : List Position
  /-- A write has failed, and there has been none since. -/
  behind : Bool

namespace Session

def start (tree : Files.Tree) (store : OffsetStore) : Session := ⟨tree, store, [], [], false⟩

def step (s : Session) : Operation → Session
  | .advance ps fault =>
      let given := s.given ++ ps
      match advance s.tree s.store ps fault with
      | (tree, store, .ok 0) =>
          ⟨tree, store, given, if s.behind then s.written else given, s.behind⟩
      | (tree, store, .ok (_ + 1)) => ⟨tree, store, given, given, false⟩
      | (tree, store, .error _) => ⟨tree, store, given, s.written, true⟩
  | .reopen =>
      match open? s.tree s.store.path with
      | .ok store => ⟨s.tree, store, s.written, s.written, false⟩
      | .error _ => s

def run (s : Session) (ops : List Operation) : Session := ops.foldl step s

def passed (ops : List Operation) : List Position :=
  ops.flatMap fun op =>
    match op with
    | .advance ps _ => ps
    | .reopen => []

/-- The store stands where its positions have taken it and the file where those that were
written have; the two agree unless a write has failed. -/
structure Sound (path : Files.Path) (loaded : Partition → UInt64) (s : Session) : Prop where
  place : s.store.path = path
  memory : ∀ q, s.store.offset q = highest q (loaded q) s.given
  file : Says s.tree path fun q => highest q (loaded q) s.written
  lags : s.written <+: s.given
  level : s.behind = false → s.written = s.given ∧ ∃ r, open? s.tree path = .ok r

section

variable {path : Files.Path} {loaded : Partition → UInt64} {s : Session}

theorem sound_start {tree : Files.Tree} {store : OffsetStore}
    (hopen : open? tree path = .ok store)
    (hfile : tree.node? path = none ∨ ∃ b, tree.read? path = .ok b) :
    Sound path store.offset (start tree store) where
  place := (open?_cases hopen).1
  memory _ := rfl
  file := says_of_open hopen hfile
  lags := List.prefix_rfl
  level _ := ⟨rfl, store, hopen⟩

theorem Sound.advance (htemporary : Files.Tree.temporary path ≠ path)
    (h : Sound path loaded s) (ps : List Position) (fault : Option Files.Tree.Fault) :
    Sound path loaded (s.step (.advance ps fault)) := by
  rcases hadvance : OffsetStore.advance s.tree s.store ps fault with ⟨t', store, r⟩
  obtain ⟨hplace, hoffset, hcase⟩ := advance_cases hadvance
  have hmemory (q : Partition) : store.offset q = highest q (loaded q) (s.given ++ ps) := by
    rw [hoffset, h.memory, highest_append]
  have hlags : s.written <+: s.given ++ ps := h.lags.trans (List.prefix_append s.given ps)
  rw [step, hadvance]
  rcases hcase with ⟨rfl, rfl, hstill⟩ | ⟨n, rfl, hwrite⟩ | ⟨e, rfl, hwrite⟩
  · -- Nothing was written, so the file has to be as it should be already.
    by_cases hbehind : s.behind = true
    · simp only [hbehind, if_true]
      exact ⟨hplace.trans h.place, hmemory, h.file, hlags, nofun⟩
    · rw [Bool.not_eq_true] at hbehind
      obtain ⟨hlevel, hopen⟩ := h.level hbehind
      have htold : (fun q => highest q (loaded q) s.written) =
          fun q => highest q (loaded q) (s.given ++ ps) := by
        funext q
        rw [hlevel, ← h.memory, ← hstill, hmemory]
      simp only [hbehind, Bool.false_eq_true, if_false]
      exact ⟨hplace.trans h.place, hmemory, htold ▸ h.file, List.prefix_rfl,
        fun _ => ⟨rfl, hopen⟩⟩
  · rw [h.place] at hwrite
    obtain ⟨htold, hopen⟩ := says_of_encode (Files.Tree.read?_replaceWith htemporary hwrite)
    exact ⟨hplace.trans h.place, hmemory, funext hmemory ▸ htold, List.prefix_rfl,
      fun _ => ⟨rfl, hopen⟩⟩
  · rw [h.place] at hwrite
    exact ⟨hplace.trans h.place, hmemory,
      h.file.spares (Files.Tree.Spares.replaceWith htemporary hwrite), hlags, nofun⟩

theorem Sound.reopen (h : Sound path loaded s) : Sound path loaded (s.step .reopen) := by
  rw [step]
  cases hopen : open? s.tree s.store.path with
  | ok store =>
      rw [h.place] at hopen
      exact ⟨(open?_cases hopen).1, h.file.offset_eq hopen, h.file, List.prefix_rfl,
        fun _ => ⟨rfl, store, hopen⟩⟩
  | error e => exact h

theorem Sound.step (htemporary : Files.Tree.temporary path ≠ path)
    (h : Sound path loaded s) : (op : Operation) → Sound path loaded (s.step op)
  | .advance ps fault => h.advance htemporary ps fault
  | .reopen => h.reopen

theorem Sound.run (htemporary : Files.Tree.temporary path ≠ path)
    (h : Sound path loaded s) (ops : List Operation) : Sound path loaded (s.run ops) := by
  induction ops generalizing s with
  | nil => exact h
  | cons op ops ih => exact ih (h.step htemporary op)

/-- What was written stays written. -/
theorem Sound.written_step (h : Sound path loaded s) (op : Operation) :
    s.written <+: (s.step op).written := by
  have hgiven (ps : List Position) : s.written <+: s.given ++ ps :=
    h.lags.trans (List.prefix_append s.given ps)
  cases op with
  | advance ps fault =>
      rw [Session.step]
      split
      · dsimp only
        split
        · exact List.prefix_rfl
        · exact hgiven ps
      · exact hgiven ps
      · exact List.prefix_rfl
  | reopen =>
      rw [Session.step]
      split
      · exact List.prefix_rfl
      · exact List.prefix_rfl

theorem Sound.written_run (htemporary : Files.Tree.temporary path ≠ path)
    (h : Sound path loaded s) (ops : List Operation) : s.written <+: (s.run ops).written := by
  induction ops generalizing s with
  | nil => exact List.prefix_rfl
  | cons op ops ih => exact (h.written_step op).trans (ih (h.step htemporary op))

/-- Nothing is lost as long as no store is given up while its file is behind. -/
theorem Sound.given_run (htemporary : Files.Tree.temporary path ≠ path)
    (h : Sound path loaded s) {ops : List Operation}
    (hlevel : ∀ front, front ++ [.reopen] <+: ops → (s.run front).behind = false) :
    (s.run ops).given = s.given ++ passed ops := by
  induction ops generalizing s with
  | nil => exact (List.append_nil s.given).symm
  | cons op ops ih =>
      have hstep : (s.step op).given = s.given ++ passed [op] := by
        cases op with
        | advance ps fault =>
            rw [Session.step]
            split <;> simp [passed]
        | reopen =>
            have hbehind : s.behind = false := hlevel [] (by simp)
            rw [Session.step]
            split
            · simp [passed, (h.level hbehind).1]
            · simp [passed]
      have hrest := ih (h.step htemporary op) fun front hfront =>
        hlevel (op :: front) (List.prefix_cons_inj op |>.2 hfront)
      rw [Session.run, List.foldl_cons, ← Session.run, hrest, hstep, List.append_assoc]
      simp [passed]

end

theorem step_of_ok {s : Session} {ps : List Position} {fault : Option Files.Tree.Fault} {n : Nat}
    (h : (advance s.tree s.store ps fault).2.2 = .ok n) (hready : n ≠ 0 ∨ s.behind = false) :
    (s.step (.advance ps fault)).tree = (advance s.tree s.store ps fault).1 ∧
      (s.step (.advance ps fault)).given = s.given ++ ps ∧
        (s.step (.advance ps fault)).behind = false := by
  rw [step]
  split
  · next hzero =>
      rw [hzero] at h ⊢
      cases h
      exact ⟨rfl, rfl, hready.resolve_left fun hn => hn rfl⟩
  · next hmoved =>
      rw [hmoved]
      exact ⟨rfl, rfl, rfl⟩
  · next herror =>
      rw [herror] at h
      cases h

/-- The file says at any time what was written, and that is never taken back. An advance that
is acknowledged has been written, with all that the store was given before it: unless it had
nothing to move and the file was behind already. The path is one on which nothing goes back up, and
the file is not its own temporary file. -/
theorem acknowledged_durable {dir : Files.Path} {name : String} {tree : Files.Tree}
    {loaded : OffsetStore} (hplain : ".." ∉ dir ++ [name])
    (hextension : Files.Path.extension? name ≠ some "tmp")
    (hopen : open? tree (dir ++ [name]) = .ok loaded)
    (hfile : tree.node? (dir ++ [name]) = none ∨ ∃ b, tree.read? (dir ++ [name]) = .ok b)
    (ops more : List Operation) :
    let path := dir ++ [name]
    let s := (start tree loaded).run ops
    (∀ ps fault n, (advance s.tree s.store ps fault).2.2 = .ok n → n ≠ 0 ∨ s.behind = false →
      ∃ r, open? (advance s.tree s.store ps fault).1 path = .ok r ∧
        ∀ q, r.offset q = highest q (loaded.offset q) (s.given ++ ps)) ∧
    ((∀ front, front ++ [.reopen] <+: ops →
        ((start tree loaded).run front).behind = false) → s.given = passed ops) ∧
    ∀ r r', open? s.tree path = .ok r → open? (s.run more).tree path = .ok r' →
      ∀ q, r.offset q ≤ r'.offset q := by
  intro path s
  have hname : name ≠ ".." := by
    rintro rfl
    exact hplain List.mem_concat_self
  have htemporary : Files.Tree.temporary path ≠ path :=
    Files.Tree.temporary_concat_ne dir hname hextension
  have hstart := sound_start hopen hfile
  have hs : s.Sound path loaded.offset := hstart.run htemporary ops
  refine ⟨?_, ?_, ?_⟩
  · intro ps fault n hn hready
    have hnext := hs.advance htemporary ps fault
    obtain ⟨htree, hgiven, hbehind⟩ := step_of_ok hn hready
    obtain ⟨hlevel, r, hr⟩ := hnext.level hbehind
    refine ⟨r, htree ▸ hr, fun q => ?_⟩
    rw [hnext.file.offset_eq hr, hlevel, hgiven]
  · intro hlevel
    exact hstart.given_run htemporary hlevel
  · intro r r' hr hr' q
    obtain ⟨added, hadded⟩ := hs.written_run htemporary more
    rw [hs.file.offset_eq hr, (hs.run htemporary more).file.offset_eq hr']
    simp only [← hadded]
    exact highest_le_append q _ s.written added

/-- A write fails, and the next advance writes the offsets of both. -/
theorem acknowledged_durable_after_failure :
    let path : Files.Path := ["offsets.json"]
    let ops : List Operation := [.advance [⟨"status", 0, 12⟩] (some ⟨3, 0⟩)]
    let s := (start .empty ⟨path, .empty⟩).run ops
    let next := advance s.tree s.store [⟨"status", 1, 5⟩] none
    s.behind = true ∧ next.2.2 = .ok 1 ∧ ∃ r, open? next.1 path = .ok r ∧
      ∀ q, r.offset q = highest q 0 [⟨"status", 0, 12⟩, ⟨"status", 1, 5⟩] := by
  intro path ops s next
  have hnext : next.2.2 = .ok 1 := by decide +kernel
  have hgiven : s.given ++ [⟨"status", 1, 5⟩] = [⟨"status", 0, 12⟩, ⟨"status", 1, 5⟩] := by
    decide +kernel
  have hplain : ".." ∉ [] ++ ["offsets.json"] := by decide
  have hextension : Files.Path.extension? "offsets.json" ≠ some "tmp" := by decide +kernel
  have hopen : open? .empty ([] ++ ["offsets.json"]) = .ok ⟨path, .empty⟩ := rfl
  have hwritten := (acknowledged_durable hplain hextension hopen (.inl rfl) ops []).1
    [⟨"status", 1, 5⟩] none 1 (by decide +kernel) (.inl (by decide))
  rw [hgiven] at hwritten
  exact ⟨by decide +kernel, hnext, hwritten⟩

/-- A write fails, and the same offset is passed again: there is nothing to move, so the
advance is acknowledged, and nothing is written. -/
theorem acknowledged_unwritten :
    let path : Files.Path := ["offsets.json"]
    let ps : List Position := [⟨"status", 0, 12⟩]
    let first := advance .empty ⟨path, .empty⟩ ps (some ⟨3, 0⟩)
    let second := advance first.1 first.2.1 ps none
    (open? .empty path).map (·.positions) = .ok [] ∧ first.2.2 = .error .rename ∧
      second.2.2 = .ok 0 ∧ (open? second.1 path).map (·.offset ⟨"status", 0⟩) = .ok 0 ∧
        highest ⟨"status", 0⟩ 0 (ps ++ ps) = 12 := by
  decide +kernel

end Session

end OffsetStore

end Conflux
