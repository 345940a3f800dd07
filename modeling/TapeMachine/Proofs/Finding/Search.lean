import TapeMachine.Finding
import TapeMachine.Proofs.Execution.Run

/-!
# The search for states

The search leaves each state that it meets by all its moves. A state is pending once at most, so the
number of pending states and the number of states that are not met yet go down together by one with
each round (`Search.remaining`), and the rounds that `reachable` allows suffice. What it meets is
closed under the moves of the table (`contains_reachable_of_hasRule`).
-/

namespace TapeMachine

/-- The states that the moves of a state lead to are those that its rules enter if they move. -/
theorem Table.mem_successors_iff {t : Table} {q q' : State} :
    q' ∈ t.successors q ↔ ∃ r ∈ t.rules, r.trigger.state = q ∧
      r.transition.action.isHalting = false ∧ r.transition.next = q' := by
  simp only [successors, rulesFrom, List.mem_map, List.mem_filter, decide_eq_true_iff,
    Bool.not_eq_true', and_assoc]

namespace Search

variable {s : Search} {t : Table} {q q' : State} {qs : List State} {U : Finset State}

/-- A search that meets a state has met it and what it had met before. -/
theorem contains_meet :
    (s.meet q).met.contains q' = true ↔ q = q' ∨ s.met.contains q' = true := by
  rw [meet]
  split
  · next hq =>
    constructor
    · exact .inr
    · rintro (rfl | h)
      · exact hq
      · exact h
  · exact SortedSet.contains_add s.met q q'

/-- Meeting a state makes it pending if it was not met before. -/
theorem mem_pending_meet :
    q' ∈ (s.meet q).pending ↔ q' ∈ s.pending ∨ q' = q ∧ s.met.contains q' = false := by
  rw [meet]
  split
  · next hq =>
    constructor
    · exact .inl
    · rintro (h | ⟨rfl, h⟩)
      · exact h
      · rw [hq] at h
        cases h
  · next hq =>
    rw [List.mem_append, List.mem_singleton]
    refine or_congr_right ?_
    constructor
    · rintro rfl
      exact ⟨rfl, by simpa using hq⟩
    · exact And.left

/-- A search that meets states has met them and what it had met before. -/
theorem contains_foldl_meet :
    (qs.foldl meet s).met.contains q' = true ↔ q' ∈ qs ∨ s.met.contains q' = true := by
  induction qs generalizing s with
  | nil => simp
  | cons q qs ih =>
    rw [List.foldl_cons, ih, contains_meet, List.mem_cons, or_left_comm, ← or_assoc, @eq_comm _ q]

/-- Meeting states leaves the pending ones pending, and makes pending those that were not met
before. -/
theorem mem_pending_foldl_meet :
    q' ∈ (qs.foldl meet s).pending ↔
      q' ∈ s.pending ∨ q' ∈ qs ∧ s.met.contains q' = false := by
  induction qs generalizing s with
  | nil => simp
  | cons q qs ih =>
    rw [List.foldl_cons, ih, mem_pending_meet, List.mem_cons]
    simp only [← Bool.not_eq_true, contains_meet]
    by_cases hq : q' = q
    · subst hq
      simp
    · simp [hq, Ne.symm hq]

/-- The number of rounds that are left if all states to be met belong to `U`. -/
def remaining (U : Finset State) (s : Search) : Nat :=
  s.pending.length + (U.filter fun q ↦ s.met.contains q = false).card

/-- Meeting a state leaves as many rounds. -/
theorem remaining_meet (hq : q ∈ U) : (s.meet q).remaining U = s.remaining U := by
  by_cases hm : s.met.contains q = true
  · rw [meet, if_pos hm]
  · have hfilter : (U.filter fun q' ↦ (s.meet q).met.contains q' = false) =
        (U.filter fun q' ↦ s.met.contains q' = false).erase q := by
      ext q'
      rw [Finset.mem_erase, Finset.mem_filter, Finset.mem_filter, ← Bool.not_eq_true,
        contains_meet, not_or, Bool.not_eq_true, @eq_comm _ q]
      exact and_left_comm
    have hmem : q ∈ U.filter fun q' ↦ s.met.contains q' = false :=
      Finset.mem_filter.mpr ⟨hq, by simpa using hm⟩
    have hpos := Finset.card_pos.mpr ⟨q, hmem⟩
    rw [remaining, hfilter, Finset.card_erase_of_mem hmem, remaining, meet, if_neg hm,
      List.length_append, List.length_singleton]
    omega

/-- Meeting states leaves as many rounds. -/
theorem remaining_foldl_meet (hqs : ∀ q ∈ qs, q ∈ U) :
    (qs.foldl meet s).remaining U = s.remaining U := by
  induction qs generalizing s with
  | nil => rfl
  | cons q qs ih =>
    rw [List.foldl_cons, ih fun q' hq' ↦ hqs q' (List.mem_cons_of_mem _ hq'),
      remaining_meet (hqs q List.mem_cons_self)]

/-- A state that was met is pending, or has been left by all its moves. -/
def Explored (t : Table) (s : Search) : Prop :=
  ∀ q, s.met.contains q = true → q ∈ s.pending ∨
    ∀ q' ∈ t.successors q, s.met.contains q' = true

/-- A round leaves the first pending state by all its moves. -/
theorem Explored.leave {rest : List State} {met : SortedSet State}
    (h : Explored t ⟨q :: rest, met⟩) :
    Explored t ((t.successors q).foldl meet ⟨rest, met⟩) := by
  intro p hp
  by_cases hmet : met.contains p = true
  · rcases h p hmet with hpending | hleft
    · rcases List.mem_cons.mp hpending with rfl | hrest
      · exact .inr fun q' hq' ↦ contains_foldl_meet.mpr (.inl hq')
      · exact .inl (mem_pending_foldl_meet.mpr (.inl hrest))
    · exact .inr fun q' hq' ↦ contains_foldl_meet.mpr (.inr (hleft q' hq'))
  · have hsucc := (contains_foldl_meet.mp hp).resolve_right hmet
    exact .inl (mem_pending_foldl_meet.mpr (.inr ⟨hsucc, by simpa using hmet⟩))

/-- The search ends in `last`: as long as a state is pending, the first one is left by all its
moves. No number of rounds bounds it. -/
inductive Exhausts (t : Table) : Search → Search → Prop
  /-- Nothing is pending. -/
  | done {met : SortedSet State} : Exhausts t ⟨[], met⟩ ⟨[], met⟩
  /-- The first pending state is left, and the search goes on. -/
  | leave {q : State} {rest : List State} {met : SortedSet State} {last : Search} :
      Exhausts t ((t.successors q).foldl meet ⟨rest, met⟩) last →
      Exhausts t ⟨q :: rest, met⟩ last

/-- With rounds enough a search comes to its end. -/
theorem exhausts_explore (hU : ∀ q, ∀ q' ∈ t.successors q, q' ∈ U) {rounds : Nat}
    (hr : s.remaining U ≤ rounds) : s.Exhausts t (explore t rounds s) := by
  induction rounds generalizing s with
  | zero =>
    obtain ⟨pending, met⟩ := s
    have hnil : pending.length = 0 := by
      simp only [remaining] at hr
      omega
    obtain rfl := List.length_eq_zero_iff.mp hnil
    exact .done
  | succ rounds ih =>
    obtain ⟨pending, met⟩ := s
    cases pending with
    | nil => exact .done
    | cons q rest =>
      refine .leave (ih ?_)
      rw [remaining_foldl_meet (hU q)]
      simp only [remaining, List.length_cons] at hr ⊢
      omega

/-- What every round keeps, a search keeps to its end. -/
theorem Exhausts.preserves {P : Search → Prop}
    (hP : ∀ q rest met, P ⟨q :: rest, met⟩ → P ((t.successors q).foldl meet ⟨rest, met⟩))
    {last : Search} (h : s.Exhausts t last) (hs : P s) : P last := by
  induction h with
  | done => exact hs
  | leave _ ih => exact ih (hP _ _ _ hs)

/-- At its end a search has nothing pending. -/
theorem Exhausts.pending_eq_nil {last : Search} (h : s.Exhausts t last) : last.pending = [] := by
  induction h with
  | done => rfl
  | leave _ ih => exact ih

/-- A search forgets nothing. -/
theorem Exhausts.contains {last : Search} (h : s.Exhausts t last)
    (hq : s.met.contains q = true) : last.met.contains q = true :=
  h.preserves (P := fun s ↦ s.met.contains q = true)
    (fun _ _ _ hq ↦ contains_foldl_meet.mpr (.inr hq)) hq

/-- At its end a search has left every state that it met. -/
theorem Exhausts.closed {last : Search} (h : s.Exhausts t last) (hs : s.Explored t)
    (hq : last.met.contains q = true) : ∀ q' ∈ t.successors q, last.met.contains q' = true := by
  have hexplored : last.Explored t := h.preserves (fun _ _ _ ↦ Explored.leave) hs
  refine (hexplored q hq).resolve_left ?_
  rw [h.pending_eq_nil]
  exact List.not_mem_nil

/-- The search that has met one state. -/
def startingAt (q : State) : Search := meet ⟨[], SortedMap.empty⟩ q

theorem contains_startingAt : (startingAt q).met.contains q' = true ↔ q = q' := by
  rw [startingAt, contains_meet]
  exact or_iff_left (by simp [SortedSet.contains])

theorem explored_startingAt (t : Table) (q : State) : (startingAt q).Explored t := by
  intro p hp
  exact .inl (mem_pending_meet.mpr (.inr ⟨(contains_startingAt.mp hp).symm, rfl⟩))

theorem remaining_startingAt (hq : q ∈ U) : (startingAt q).remaining U = U.card := by
  have hall : (U.filter fun q' ↦ SortedSet.contains SortedMap.empty q' = false) = U :=
    Finset.filter_true_of_mem fun _ _ ↦ rfl
  rw [startingAt, remaining_meet hq, remaining, hall, List.length_nil, Nat.zero_add]

end Search

namespace Machine

variable {m : Machine} {q : State}

/-- The rounds that are allowed for take the search from the start state to its end. -/
theorem exists_exhausts_reachable (m : Machine) :
    ∃ last, (Search.startingAt m.start).Exhausts m.table last ∧ last.met = m.reachable := by
  have hU : ∀ q, ∀ q' ∈ m.table.successors q, q' ∈ m.runStates := by
    intro q q' hq'
    obtain ⟨r, hr, -, -, rfl⟩ := Table.mem_successors_iff.mp hq'
    exact next_mem_runStates hr
  have hstart : m.start ∈ m.runStates := Finset.mem_insert_self _ _
  exact ⟨_, Search.exhausts_explore hU
    ((Search.remaining_startingAt hstart).trans_le (card_runStates_le m)), rfl⟩

/-- The search meets the start state. -/
theorem contains_reachable_start (m : Machine) : m.reachable.contains m.start = true := by
  obtain ⟨last, hlast, hmet⟩ := m.exists_exhausts_reachable
  rw [← hmet]
  exact hlast.contains (Search.contains_startingAt.mpr rfl)

/-- The search meets every state that a rule enters with a move from a state that it meets. -/
theorem contains_reachable_of_hasRule {s : Symbol} {t : Transition} {d : Int}
    (hq : m.reachable.contains q = true) (ht : m.HasRule q s t) (hd : t.action.MovesBy d) :
    m.reachable.contains t.next = true := by
  obtain ⟨last, hlast, hmet⟩ := m.exists_exhausts_reachable
  have ha : t.action.isHalting = false := Action.isHalting_eq_false_iff.mpr ⟨d, hd⟩
  rw [← hmet] at hq ⊢
  exact hlast.closed (Search.explored_startingAt m.table m.start) hq _
    (Table.mem_successors_iff.mpr ⟨_, ht, rfl, ha, rfl⟩)

end Machine

end TapeMachine
