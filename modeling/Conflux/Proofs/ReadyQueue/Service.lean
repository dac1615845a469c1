import Conflux.Proofs.ReadyQueue
import Mathlib.Data.List.MinMax
import Mathlib.Data.List.ReduceOption

/-!
How a queue serves. Tickets that wait in a line, in the order they came, say what is to be had: a
pop takes the first of those with the smallest priority. Any other way to keep the tickets serves
the same if each push and each pop keeps it in step with the line. Of the line itself it is then
shown that tickets of one priority leave in the order they came, whatever comes between.
-/

namespace Conflux

inductive Request where
  | push (t : Ticket)
  | pop
deriving DecidableEq, Repr

def pushed : List Request → List Ticket
  | [] => []
  | .push t :: requests => t :: pushed requests
  | .pop :: requests => pushed requests

structure Discipline (σ : Type) where
  empty : σ
  push : σ → Ticket → σ
  pop? : σ → Option (Ticket × σ)
  size : σ → Nat

namespace Discipline

variable {σ : Type} (d : Discipline σ)

/-- The answer to a request, and what is then kept. Only a pop has something to answer. -/
def serve (q : σ) : Request → Option Ticket × σ
  | .push t => (none, d.push q t)
  | .pop =>
      match d.pop? q with
      | none => (none, q)
      | some (t, rest) => (some t, rest)

def answers (q : σ) : List Request → List (Option Ticket)
  | [] => []
  | r :: requests => (d.serve q r).1 :: answers (d.serve q r).2 requests

def after (q : σ) (requests : List Request) : σ :=
  requests.foldl (fun q r => (d.serve q r).2) q

def next? (q : σ) : Option Ticket := (d.serve q .pop).1

theorem getElem?_answers (q : σ) (before rest : List Request) :
    (d.answers q (before ++ .pop :: rest))[before.length]? =
      some (d.next? (d.after q before)) := by
  induction before generalizing q with
  | nil => rfl
  | cons r before ih => exact ih _

theorem after_cons (q : σ) (r : Request) (requests : List Request) :
    d.after q (r :: requests) = d.after (d.serve q r).2 requests :=
  rfl

end Discipline

/-! ### The line -/

/-- Among `earlier ++ t :: later`, as they came, `t` is the first of those with the smallest
priority. -/
structure Leads (t : Ticket) (earlier later : List Ticket) : Prop where
  earlier : ∀ u ∈ earlier, t.priority < u.priority
  later : ∀ u ∈ later, t.priority ≤ u.priority

/-- The tickets wait in the order they came. -/
def inLine : Discipline (List Ticket) where
  empty := []
  push line t := line ++ [t]
  pop? line := (line.argmin Ticket.priority).map fun t => (t, line.erase t)
  size := List.length

section
variable {t : Ticket} {line earlier later rest : List Ticket}

theorem Leads.not_mem (h : Leads t earlier later) : t ∉ earlier :=
  fun ht => Nat.lt_irrefl _ (h.earlier t ht)

theorem Leads.le (h : Leads t earlier later) {u : Ticket} (hu : u ∈ earlier ++ t :: later) :
    t.priority ≤ u.priority := by
  rw [List.mem_append, List.mem_cons] at hu
  obtain hu | rfl | hu := hu
  · exact (h.earlier u hu).le
  · exact le_rfl
  · exact h.later u hu

theorem Leads.argmin (h : Leads t earlier later) :
    (earlier ++ t :: later).argmin Ticket.priority = some t := by
  rw [List.argmin_eq_some_iff]
  refine ⟨by simp, fun u hu => h.le hu, fun u _ hut => ?_⟩
  have hnot : u ∉ earlier := fun hu => Nat.not_lt.mpr hut (h.earlier u hu)
  rw [List.idxOf_append_of_notMem h.not_mem, List.idxOf_append_of_notMem hnot,
    List.idxOf_cons_self]
  omega

theorem Leads.erase (h : Leads t earlier later) :
    (earlier ++ t :: later).erase t = earlier ++ later := by
  rw [List.erase_append_right _ h.not_mem, List.erase_cons_head]

theorem pop?_inLine_iff :
    inLine.pop? line = some (t, rest) ↔
      ∃ earlier later, line = earlier ++ t :: later ∧ rest = earlier ++ later ∧
        Leads t earlier later := by
  constructor
  · intro hpop
    obtain ⟨u, hu, hut⟩ := Option.map_eq_some_iff.mp hpop
    cases hut
    obtain ⟨hmem, hmin, hfirst⟩ := List.argmin_eq_some_iff.mp hu
    obtain ⟨earlier, later, hnot, hline, herase⟩ := List.exists_erase_eq hmem
    refine ⟨earlier, later, hline, herase, ⟨fun u hu => ?_, fun u hu => ?_⟩⟩
    · refine Nat.lt_of_not_le fun hle => ?_
      -- else `u` would be one of the smallest that came before `t`
      have hidx := hfirst u (by simp [hline, hu]) hle
      have hlt := List.idxOf_lt_length_iff.mpr hu
      rw [hline, List.idxOf_append_of_notMem hnot, List.idxOf_append_of_mem hu] at hidx
      omega
    · exact hmin u (by simp [hline, hu])
  · rintro ⟨earlier, later, rfl, rfl, h⟩
    change Option.map _ _ = _
    rw [h.argmin, Option.map_some, h.erase]

theorem pop?_inLine_eq_none : inLine.pop? line = none ↔ line = [] := by
  change Option.map _ _ = none ↔ _
  rw [Option.map_eq_none_iff, List.argmin_eq_none]

theorem serve_pop_inLine (line : List Ticket) :
    line = [] ∧ inLine.serve line .pop = (none, []) ∨
      ∃ earlier t later, line = earlier ++ t :: later ∧ Leads t earlier later ∧
        inLine.serve line .pop = (some t, earlier ++ later) := by
  rw [Discipline.serve]
  cases hpop : inLine.pop? line with
  | none =>
      have hline := pop?_inLine_eq_none.mp hpop
      exact .inl ⟨hline, by rw [hline]⟩
  | some taken =>
      obtain ⟨t, rest⟩ := taken
      obtain ⟨earlier, later, hline, rfl, h⟩ := pop?_inLine_iff.mp hpop
      exact .inr ⟨earlier, t, later, hline, h, rfl⟩

theorem next?_inLine_iff :
    inLine.next? line = some t ↔
      ∃ earlier later, line = earlier ++ t :: later ∧ Leads t earlier later := by
  rw [Discipline.next?]
  constructor
  · intro hnext
    obtain ⟨-, hserve⟩ | ⟨earlier, u, later, hline, hleads, hserve⟩ := serve_pop_inLine line
    · rw [hserve] at hnext
      cases hnext
    · rw [hserve] at hnext
      cases hnext
      exact ⟨earlier, later, hline, hleads⟩
  · rintro ⟨earlier, later, hline, hleads⟩
    rw [Discipline.serve, pop?_inLine_iff.mpr ⟨earlier, later, hline, rfl, hleads⟩]

theorem next?_inLine_eq_none : inLine.next? line = none ↔ line = [] := by
  rw [Discipline.next?]
  obtain ⟨rfl, hserve⟩ | ⟨earlier, t, later, rfl, -, hserve⟩ := serve_pop_inLine line
  · simp [hserve]
  · simp [hserve]

/-- What leads comes before all others of its priority, so it may as well be taken out in front. -/
theorem Leads.filter (h : Leads t earlier later) (p : Nat) :
    (earlier ++ t :: later).filter (·.priority = p) =
      [t].filter (·.priority = p) ++ (earlier ++ later).filter (·.priority = p) := by
  by_cases hp : t.priority = p
  · have hnone : earlier.filter (·.priority = p) = [] := by
      rw [List.filter_eq_nil_iff]
      intro u hu hup
      have hlt := h.earlier u hu
      have heq := of_decide_eq_true hup
      omega
    simp [hnone, hp]
  · simp [hp]

/-- Tickets of one priority leave the line in the order they came. -/
theorem filter_inLine (line : List Ticket) (requests : List Request) (p : Nat) :
    (line ++ pushed requests).filter (·.priority = p) =
      ((inLine.answers line requests).reduceOption ++ inLine.after line requests).filter
        (·.priority = p) := by
  induction requests generalizing line with
  | nil => rw [pushed, List.append_nil, Discipline.answers, Discipline.after]; rfl
  | cons r requests ih =>
      rw [Discipline.answers, Discipline.after_cons]
      cases r with
      | push t =>
          rw [pushed, List.append_cons]
          exact ih (line ++ [t])
      | pop =>
          rw [pushed]
          obtain ⟨rfl, hserve⟩ | ⟨earlier, t, later, rfl, hleads, hserve⟩ := serve_pop_inLine line
          · rw [hserve]
            exact ih []
          · rw [hserve, List.reduceOption_cons_of_some, List.cons_append, List.filter_append,
              hleads.filter, List.append_assoc, ← List.filter_append, ih, ← List.filter_append]
            rfl

theorem sublist_inLine (line : List Ticket) (requests : List Request) :
    (inLine.after line requests).Sublist (line ++ pushed requests) := by
  induction requests generalizing line with
  | nil => rw [pushed, List.append_nil]; exact .refl _
  | cons r requests ih =>
      rw [Discipline.after_cons]
      cases r with
      | push t =>
          rw [pushed, List.append_cons]
          exact ih (line ++ [t])
      | pop =>
          rw [pushed]
          obtain ⟨rfl, hserve⟩ | ⟨earlier, t, later, rfl, hleads, hserve⟩ := serve_pop_inLine line
          · rw [hserve]
            exact ih []
          · rw [hserve]
            refine (ih _).trans (.append_right ?_ _)
            exact (List.sublist_cons_self t later).append_left earlier

/-- Lists of tickets are alike up to order if their parts of each priority are. -/
theorem perm_of_filter {line' : List Ticket}
    (h : ∀ p, line.filter (·.priority = p) = line'.filter (·.priority = p)) : line.Perm line' := by
  rw [List.perm_iff_count]
  intro t
  have hcount : ∀ l : List Ticket, l.count t = (l.filter (·.priority = t.priority)).count t :=
    fun l => (List.count_filter (by simp)).symm
  rw [hcount line, hcount line', h]

end

/-! ### In step with the line -/

/-- What is asked of a stable priority queue over the whole of `requests`. -/
structure Discipline.ServesStably {σ : Type} (d : Discipline σ) (requests : List Request) :
    Prop where
  /-- It gives what the line gives. -/
  answers : d.answers d.empty requests = inLine.answers [] requests
  size : d.size (d.after d.empty requests) = (inLine.after [] requests).length
  /-- What still waits stands as it was pushed. -/
  waiting : (inLine.after [] requests).Sublist (pushed requests)
  /-- No ticket is lost, doubled or made. -/
  conserved : ((d.answers d.empty requests).reduceOption ++ inLine.after [] requests).Perm
    (pushed requests)
  /-- Tickets of one priority leave in the order they were pushed, and those that still wait are
  the last. -/
  in_turn : ∀ p, ((d.answers d.empty requests).reduceOption ++ inLine.after [] requests).filter
    (·.priority = p) = (pushed requests).filter (·.priority = p)
  /-- A pop gets the ticket that leads those that wait. -/
  pop_some : ∀ before rest, requests = before ++ .pop :: rest → ∀ t,
    ((d.answers d.empty requests)[before.length]? = some (some t) ↔
      ∃ earlier later, inLine.after [] before = earlier ++ t :: later ∧ Leads t earlier later)
  /-- A pop gets nothing only when nothing waits. -/
  pop_none : ∀ before rest, requests = before ++ .pop :: rest →
    ((d.answers d.empty requests)[before.length]? = some none ↔ inLine.after [] before = [])

/-- `Holds left q line` lasts as long as no more than `left` pushes are to come, and as long as it
does `d` gives what the line gives. -/
structure Discipline.KeepsStep {σ : Type} (d : Discipline σ)
    (Holds : Nat → σ → List Ticket → Prop) : Prop where
  size : ∀ {left q line}, Holds left q line → d.size q = line.length
  push : ∀ {left q line} t, Holds (left + 1) q line → Holds left (d.push q t) (line ++ [t])
  pop_none : ∀ {left q line}, Holds left q line → d.pop? q = none → line = []
  pop_some : ∀ {left q line t rest}, Holds left q line → d.pop? q = some (t, rest) →
    ∃ earlier later, line = earlier ++ t :: later ∧ Leads t earlier later ∧
      Holds left rest (earlier ++ later)

namespace Discipline.KeepsStep

variable {σ : Type} {d : Discipline σ} {Holds : Nat → σ → List Ticket → Prop} {q : σ}
  {line : List Ticket} {left : Nat}

theorem pop (h : d.KeepsStep Holds) (hq : Holds left q line) :
    (d.serve q .pop).1 = (inLine.serve line .pop).1 ∧
      Holds left (d.serve q .pop).2 (inLine.serve line .pop).2 := by
  rw [serve, serve]
  cases hpop : d.pop? q with
  | none =>
      obtain rfl := h.pop_none hq hpop
      rw [pop?_inLine_eq_none.mpr rfl]
      exact ⟨rfl, hq⟩
  | some taken =>
      obtain ⟨t, rest⟩ := taken
      obtain ⟨earlier, later, hline, hleads, hrest⟩ := h.pop_some hq hpop
      rw [pop?_inLine_iff.mpr ⟨earlier, later, hline, rfl, hleads⟩]
      exact ⟨rfl, hrest⟩

theorem run (h : d.KeepsStep Holds) (requests : List Request)
    (hq : Holds (left + (pushed requests).length) q line) :
    d.answers q requests = inLine.answers line requests ∧
      Holds left (d.after q requests) (inLine.after line requests) := by
  induction requests generalizing q line with
  | nil => exact ⟨rfl, hq⟩
  | cons r requests ih =>
      rw [Discipline.answers, Discipline.answers, after_cons, after_cons]
      cases r with
      | push t =>
          obtain ⟨hanswers, hafter⟩ := ih (h.push t hq)
          exact ⟨congrArg _ hanswers, hafter⟩
      | pop =>
          obtain ⟨hanswer, hrest⟩ := h.pop hq
          obtain ⟨hanswers, hafter⟩ := ih hrest
          exact ⟨by rw [hanswer, hanswers], hafter⟩

theorem servesStably (h : d.KeepsStep Holds) {requests : List Request}
    (hempty : Holds (pushed requests).length d.empty []) : d.ServesStably requests := by
  rw [← Nat.zero_add (pushed requests).length] at hempty
  obtain ⟨hanswers, hafter⟩ := h.run requests hempty
  have hfilter := filter_inLine [] requests
  constructor
  case answers => exact hanswers
  case size => exact h.size hafter
  case waiting => exact sublist_inLine [] requests
  case conserved =>
    rw [hanswers]
    exact perm_of_filter fun p => (hfilter p).symm
  case in_turn =>
    rw [hanswers]
    exact fun p => (hfilter p).symm
  case pop_some =>
    intro before rest hrequests t
    rw [hanswers, hrequests, getElem?_answers, Option.some_inj, next?_inLine_iff]
  case pop_none =>
    intro before rest hrequests
    rw [hanswers, hrequests, getElem?_answers, Option.some_inj, next?_inLine_eq_none]

end Discipline.KeepsStep

/-! ### Kept in the order they leave -/

namespace ReadyQueue

variable {t : Ticket} {waiting line : List Ticket}

/-- The tickets are kept in the order they leave. -/
def discipline : Discipline ReadyQueue := ⟨empty, push, ReadyQueue.pop?, ReadyQueue.size⟩

/-- The tickets of `line` wait by priority, those of one priority as they are in the line. -/
structure Sorts (waiting line : List Ticket) : Prop where
  sorted : waiting.Pairwise (·.priority ≤ ·.priority)
  alike : ∀ p, waiting.filter (·.priority = p) = line.filter (·.priority = p)

theorem sorts_nil : Sorts [] [] := ⟨.nil, fun _ => rfl⟩

theorem Sorts.perm (h : Sorts waiting line) : waiting.Perm line := perm_of_filter h.alike

theorem pairwise_place (t : Ticket) (hsorted : waiting.Pairwise (·.priority ≤ ·.priority)) :
    (place t waiting).Pairwise (·.priority ≤ ·.priority) := by
  induction waiting with
  | nil => exact List.pairwise_singleton _ _
  | cons u us ih =>
      obtain ⟨hfirst, hrest⟩ := List.pairwise_cons.mp hsorted
      rw [place]
      split
      · rename_i hlt
        refine List.pairwise_cons.mpr ⟨fun w hw => ?_, hsorted⟩
        obtain rfl | hw := List.mem_cons.mp hw
        · exact hlt.le
        · exact hlt.le.trans (hfirst w hw)
      · rename_i hle
        refine List.pairwise_cons.mpr ⟨fun w hw => ?_, ih hrest⟩
        obtain rfl | hw := List.mem_cons.mp ((place_perm t us).mem_iff.mp hw)
        · exact Nat.le_of_not_lt hle
        · exact hfirst w hw

theorem filter_place (t : Ticket) (hsorted : waiting.Pairwise (·.priority ≤ ·.priority)) (p : Nat) :
    (place t waiting).filter (·.priority = p) = (waiting ++ [t]).filter (·.priority = p) := by
  induction waiting with
  | nil => rfl
  | cons u us ih =>
      obtain ⟨hfirst, hrest⟩ := List.pairwise_cons.mp hsorted
      rw [place]
      split
      · rename_i hlt
        -- all that wait have a larger priority, so `t` leads them although it came last
        have hleads : Leads t (u :: us) [] := by
          refine ⟨fun w hw => ?_, fun w hw => absurd hw List.not_mem_nil⟩
          obtain rfl | hw := List.mem_cons.mp hw
          · exact hlt
          · exact hlt.trans_le (hfirst w hw)
        rw [hleads.filter, List.append_nil, ← List.filter_append]
        rfl
      · rw [List.cons_append, List.filter_cons, ih hrest, List.filter_cons]

theorem Sorts.push (h : Sorts waiting line) (t : Ticket) :
    Sorts (place t waiting) (line ++ [t]) := by
  refine ⟨pairwise_place t h.sorted, fun p => ?_⟩
  rw [filter_place t h.sorted, List.filter_append, h.alike, List.filter_append]

theorem Sorts.pop (h : Sorts (t :: waiting) line) :
    ∃ earlier later, line = earlier ++ t :: later ∧ Leads t earlier later ∧
      Sorts waiting (earlier ++ later) := by
  obtain ⟨hfirst, hrest⟩ := List.pairwise_cons.mp h.sorted
  have hle : ∀ u ∈ line, t.priority ≤ u.priority := by
    intro u hu
    obtain rfl | hu := List.mem_cons.mp (h.perm.mem_iff.mpr hu)
    · exact le_rfl
    · exact hfirst u hu
  -- in the line too `t` is the first of its priority
  have hown := (h.alike t.priority).symm
  rw [List.filter_cons_of_pos (by simp), List.filter_eq_cons_iff] at hown
  obtain ⟨earlier, later, rfl, hearlier, -, -⟩ := hown
  have hleads : Leads t earlier later := by
    refine ⟨fun u hu => ?_, fun u hu => hle u (by simp [hu])⟩
    refine Nat.lt_of_le_of_ne (hle u (by simp [hu])) fun heq => hearlier u hu ?_
    exact decide_eq_true heq.symm
  refine ⟨earlier, later, rfl, hleads, hrest, fun p => ?_⟩
  have halike := h.alike p
  rw [hleads.filter, ← List.singleton_append, List.filter_append] at halike
  exact List.append_cancel_left halike

theorem keepsStep : discipline.KeepsStep fun _ q line => Sorts q.waiting line where
  size hq := hq.perm.length_eq
  push t hq := hq.push t
  pop_none {_ q line} hq hpop := by
    obtain ⟨_ | ⟨t, waiting⟩⟩ := q
    · exact hq.perm.symm.eq_nil
    · cases hpop
  pop_some {_ q line t rest} hq hpop := by
    obtain ⟨_ | ⟨u, waiting⟩⟩ := q
    · cases hpop
    · cases hpop
      exact hq.pop

end ReadyQueue

end Conflux
