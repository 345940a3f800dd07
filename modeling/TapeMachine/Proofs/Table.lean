import Mathlib.Data.Finset.Card
import TapeMachine.Proofs.SortedMap

/-!
# Tables as finite maps

A table is built by definitions, one after the other. What it holds is read off the definitions:
each trigger has the transition of the last definition for it, a definition answers with the
transition that it replaces, and the rules are listed by state and then by symbol
(`defineAll_finite_map`). Tables of other definitions are equal if they give the same look-ups, so
the order of definitions for different triggers does not matter.
-/

namespace TapeMachine

/-- A trigger comes before another if its state has a smaller number, or if the states are the same
and its symbol has a smaller code point. -/
def Trigger.Before (a b : Trigger) : Prop :=
  a.state.index < b.state.index ∨ a.state = b.state ∧ a.symbol.char.toNat < b.symbol.char.toNat

/-- The order of the triggers is the order of their places. -/
theorem Trigger.before_iff {a b : Trigger} : a.Before b ↔ rank a < rank b :=
  rank_lt_rank_iff.symm

namespace Table

variable {t : Table} {calls earlier later : List Rule} {r : Rule}

/-! ### Definitions one after the other -/

/-- Defines rules one after the other. The answers are the transitions that they replace. -/
def defineAll (t : Table) : List Rule → List (Option Transition) × Table
  | [] => ([], t)
  | r :: calls =>
    let rest := (t.define r).defineAll calls
    (t.replaced r :: rest.1, rest.2)

/-- The table after definitions, whatever they answer. -/
theorem defineAll_snd (t : Table) (calls : List Rule) :
    (t.defineAll calls).2 = calls.foldl define t := by
  induction calls generalizing t with
  | nil => rfl
  | cons r calls ih => exact ih (t.define r)

/-- Definitions are made in the table that those before them have left. -/
theorem defineAll_append (t : Table) (earlier later : List Rule) :
    t.defineAll (earlier ++ later) =
      ((t.defineAll earlier).1 ++ ((t.defineAll earlier).2.defineAll later).1,
        ((t.defineAll earlier).2.defineAll later).2) := by
  induction earlier generalizing t with
  | nil => rfl
  | cons r earlier ih => rw [List.cons_append, defineAll, ih, defineAll, List.cons_append]

/-! ### Look-ups -/

/-- Of the rules for a trigger the last makes this transition. -/
def LastFor (calls : List Rule) (k : Trigger) (tr : Transition) : Prop :=
  ∃ earlier later, calls = earlier ++ ⟨k, tr⟩ :: later ∧ ∀ r ∈ later, r.trigger ≠ k

/-- The last rule for a trigger is the first one from behind. -/
theorem lastFor_iff {k : Trigger} {tr : Transition} :
    LastFor calls k tr ↔
      (calls.reverse.find? fun r ↦ r.trigger = k).map Rule.transition = some tr := by
  rw [Option.map_eq_some_iff]
  constructor
  · rintro ⟨earlier, later, rfl, hlater⟩
    refine ⟨⟨k, tr⟩, List.find?_eq_some_iff_append.mpr ⟨by simp, later.reverse, earlier.reverse,
      by simp, fun r hr ↦ ?_⟩, rfl⟩
    simpa using hlater r (List.mem_reverse.mp hr)
  · rintro ⟨r, hr, rfl⟩
    obtain ⟨hk, later, earlier, hcalls, hlater⟩ := List.find?_eq_some_iff_append.mp hr
    obtain rfl : r.trigger = k := of_decide_eq_true hk
    refine ⟨earlier.reverse, later.reverse, ?_, fun d hd ↦ ?_⟩
    · simpa using congrArg List.reverse hcalls
    · simpa using hlater d (List.mem_reverse.mp hd)

/-- After definitions each trigger has the transition of the last rule for it, or what it had. -/
theorem lookup_foldl_define (calls : List Rule) (t : Table) (q : State) (s : Symbol) :
    (calls.foldl define t).lookup q s =
      ((calls.reverse.find? fun r ↦ r.trigger = ⟨q, s⟩).map Rule.transition).or (t.lookup q s) := by
  induction calls generalizing t with
  | nil => rfl
  | cons r calls ih =>
    rw [List.foldl_cons, ih, List.reverse_cons, List.find?_append, Option.map_or, Option.or_assoc]
    congr 1
    by_cases hr : r.trigger = ⟨q, s⟩
    · have hself := t.lookup_define_self r
      rw [hr] at hself
      simp [hr, hself]
    · simp [hr, t.lookup_define_of_ne hr]

/-- A table of definitions has the transition of the last rule for each trigger. -/
theorem lookup_defineAll (calls : List Rule) (q : State) (s : Symbol) :
    (defineAll SortedMap.empty calls).2.lookup q s =
      (calls.reverse.find? fun r ↦ r.trigger = ⟨q, s⟩).map Rule.transition := by
  rw [defineAll_snd, lookup_foldl_define, lookup, SortedMap.find?_empty, Option.or_none]

/-! ### Listings -/

/-- The rules are listed in the order of their triggers. -/
theorem pairwise_rules (t : Table) : t.rules.Pairwise fun a b ↦ a.trigger.Before b.trigger := by
  rw [rules, List.pairwise_map]
  exact t.ascending.imp Trigger.before_iff.mpr

/-- As many rules are listed as triggers have one. -/
theorem size_eq_card (t : Table) : t.size = (t.rules.map Rule.trigger).toFinset.card := by
  have hkeys : t.rules.map Rule.trigger = t.keys := by
    rw [rules, List.map_map]
    rfl
  have hnodup : t.keys.Nodup :=
    t.pairwise_keys.imp fun hlt heq ↦ absurd (congrArg rank heq) (Nat.ne_of_lt hlt)
  rw [hkeys, List.toFinset_card_of_nodup hnodup, SortedMap.keys, List.length_map]
  rfl

/-- The rules of a state are listed together, behind those of the smaller states and before those of
the greater ones. -/
theorem rules_eq_append (t : Table) (q : State) :
    t.rules = (t.rules.filter fun r ↦ r.trigger.state.index < q.index) ++ t.rulesFrom q ++
      t.rules.filter fun r ↦ q.index < r.trigger.state.index := by
  have hascending : t.rules.Pairwise fun a b ↦ rank a.trigger < rank b.trigger :=
    t.pairwise_rules.imp Trigger.before_iff.mp
  have hcross {a b : Rule} (h : a.trigger.state.index < b.trigger.state.index) :
      rank a.trigger < rank b.trigger := Trigger.before_iff.mp (.inl h)
  refine eq_of_pairwise_lt hascending ?_ fun r ↦ ?_
  · simp only [List.pairwise_append, List.mem_append, rulesFrom, List.mem_filter, decide_eq_true_eq]
    refine ⟨⟨hascending.filter _, hascending.filter _, ?_⟩, hascending.filter _, ?_⟩
    · rintro a ⟨-, ha⟩ b ⟨-, rfl⟩
      exact hcross ha
    · rintro a (⟨-, ha⟩ | ⟨-, rfl⟩) b ⟨-, hb⟩
      · exact hcross (Nat.lt_trans ha hb)
      · exact hcross hb
  · have hstate : r.trigger.state = q ↔ r.trigger.state.index = q.index :=
      (rank_eq_rank_iff (a := r.trigger.state)).symm
    simp only [List.mem_append, rulesFrom, List.mem_filter, decide_eq_true_eq, hstate]
    have := Nat.lt_trichotomy r.trigger.state.index q.index
    tauto

/-! ### What a table holds -/

/-- A table is the finite map that definitions leave. -/
structure HoldsLast (calls : List Rule) (t : Table) : Prop where
  /-- A trigger has the transition of the last rule for it. -/
  lookup_eq_some : ∀ q s tr, t.lookup q s = some tr ↔ LastFor calls ⟨q, s⟩ tr
  /-- A trigger has none if there is no rule for it. -/
  lookup_eq_none : ∀ q s, t.lookup q s = none ↔ ∀ r ∈ calls, r.trigger ≠ ⟨q, s⟩
  /-- The last rules for the triggers are listed, and nothing else. -/
  mem_rules : ∀ r, r ∈ t.rules ↔ LastFor calls r.trigger r.transition
  /-- They are listed by state, and then by symbol. -/
  ascending : t.rules.Pairwise fun a b ↦ a.trigger.Before b.trigger
  /-- They are as many as there are different triggers. -/
  size_eq : t.size = (calls.map Rule.trigger).toFinset.card
  /-- The rules of a state are a part of this listing. -/
  rulesFrom_part : ∀ q, ∃ before after, t.rules = before ++ t.rulesFrom q ++ after ∧
    (∀ r ∈ before, r.trigger.state.index < q.index) ∧ (∀ r ∈ t.rulesFrom q, r.trigger.state = q) ∧
    ∀ r ∈ after, q.index < r.trigger.state.index

/-- The table of definitions holds the last rule for each trigger. -/
theorem holdsLast_defineAll (calls : List Rule) :
    HoldsLast calls (defineAll SortedMap.empty calls).2 := by
  set t := (defineAll SortedMap.empty calls).2
  have hlookup (k : Trigger) (tr : Transition) :
      t.lookup k.state k.symbol = some tr ↔ LastFor calls k tr := by
    rw [lastFor_iff, lookup_defineAll]
  have hnone (k : Trigger) :
      t.lookup k.state k.symbol = none ↔ ∀ r ∈ calls, r.trigger ≠ k := by
    rw [lookup_defineAll, Option.map_eq_none_iff, List.find?_eq_none]
    simp only [List.mem_reverse, decide_eq_true_eq, ne_eq]
  have hmem (r : Rule) : r ∈ t.rules ↔ LastFor calls r.trigger r.transition :=
    mem_rules_iff.trans (hlookup r.trigger r.transition)
  refine
    { lookup_eq_some := fun q s tr ↦ hlookup ⟨q, s⟩ tr
      lookup_eq_none := fun q s ↦ hnone ⟨q, s⟩
      mem_rules := hmem
      ascending := t.pairwise_rules
      size_eq := ?_
      rulesFrom_part := fun q ↦ ⟨_, _, t.rules_eq_append q, ?_, ?_, ?_⟩ }
  · rw [size_eq_card]
    congr 1
    ext k
    rw [List.mem_toFinset, List.mem_toFinset, List.mem_map, List.mem_map]
    constructor
    · rintro ⟨r, hr, rfl⟩
      obtain ⟨earlier, later, rfl, -⟩ := (hmem r).mp hr
      exact ⟨r, List.mem_append_right _ List.mem_cons_self, rfl⟩
    · rintro ⟨r, hr, rfl⟩
      have hsome := mt (hnone r.trigger).mp fun h ↦ h r hr rfl
      obtain ⟨tr, htr⟩ := Option.ne_none_iff_exists'.mp hsome
      exact ⟨⟨r.trigger, tr⟩, mem_rules_iff.mpr htr, rfl⟩
  · exact fun r hr ↦ of_decide_eq_true (List.mem_filter.mp hr).2
  · exact fun r hr ↦ of_decide_eq_true (List.mem_filter.mp hr).2
  · exact fun r hr ↦ of_decide_eq_true (List.mem_filter.mp hr).2

/-- Definitions for different triggers may be made in either order. -/
theorem define_comm (t : Table) {a b : Rule} (h : a.trigger ≠ b.trigger) :
    (t.define a).define b = (t.define b).define a := by
  refine ext_lookup fun q s ↦ ?_
  by_cases ha : a.trigger = ⟨q, s⟩
  · have hb : b.trigger ≠ ⟨q, s⟩ := fun hb ↦ h (ha.trans hb.symm)
    have hself := t.lookup_define_self a
    have hself' := (t.define b).lookup_define_self a
    rw [ha] at hself hself'
    rw [lookup_define_of_ne _ hb, hself, hself']
  · rw [lookup_define_of_ne _ ha]
    by_cases hb : b.trigger = ⟨q, s⟩
    · have hself := t.lookup_define_self b
      have hself' := (t.define a).lookup_define_self b
      rw [hb] at hself hself'
      rw [hself, hself']
    · rw [lookup_define_of_ne _ hb, lookup_define_of_ne _ ha, lookup_define_of_ne _ hb]

/-- A table is the finite map that the definitions before it leave. One more definition answers with
what was found for its trigger before, and leaves all other look-ups alone. Tables are equal exactly
if they give the same look-ups, and two neighbouring definitions for different triggers may change
places. -/
theorem defineAll_finite_map (calls : List Rule) :
    let run := defineAll SortedMap.empty
    let t := (run calls).2
    HoldsLast calls t ∧
      (∀ r, (run (calls ++ [r])).1 =
          (run calls).1 ++ [t.lookup r.trigger.state r.trigger.symbol] ∧
        ∀ q s, r.trigger ≠ ⟨q, s⟩ → (run (calls ++ [r])).2.lookup q s = t.lookup q s) ∧
      (∀ others, t = (run others).2 ↔ ∀ q s, t.lookup q s = (run others).2.lookup q s) ∧
      ∀ a b later, a.trigger ≠ b.trigger →
        (run (calls ++ a :: b :: later)).2 = (run (calls ++ b :: a :: later)).2 := by
  intro run t
  refine ⟨holdsLast_defineAll calls, fun r ↦ ⟨?_, fun q s hne ↦ ?_⟩, fun others ↦ ?_,
    fun a b later hne ↦ ?_⟩
  · simp only [run, defineAll_append]
    rfl
  · simp only [run, defineAll_append]
    exact lookup_define_of_ne t hne
  · exact ⟨fun h _ _ ↦ h ▸ rfl, ext_lookup⟩
  · simp only [run, defineAll_append]
    change (((t.define a).define b).defineAll later).2 = (((t.define b).define a).defineAll later).2
    rw [define_comm t hne]

/-- Of three definitions the last replaces the first, and the first two may change places. -/
theorem defineAll_finite_map_again :
    let a : Rule := ⟨⟨⟨1⟩, ⟨'a', .refl true⟩⟩, ⟨⟨0⟩, ⟨'a', .refl true⟩, .moveLeft⟩⟩
    let b : Rule := ⟨⟨⟨0⟩, ⟨'b', .refl true⟩⟩, ⟨⟨1⟩, ⟨'b', .refl true⟩, .moveRight⟩⟩
    let again : Rule := ⟨a.trigger, ⟨⟨1⟩, ⟨'b', .refl true⟩, .accept⟩⟩
    let run := defineAll SortedMap.empty
    a.trigger ≠ b.trigger ∧ (run [a, b, again]).1 = [none, none, some a.transition] ∧
      (run [a, b, again]).2.rules = [b, again] ∧ (run [a, b, again]).2 = (run [b, a, again]).2 := by
  intro a b again run
  have hne : a.trigger ≠ b.trigger := by decide
  have hanswers := ((defineAll_finite_map [a, b]).2.1 again).1
  exact ⟨hne, hanswers.trans (by decide), by decide,
    (defineAll_finite_map []).2.2.2 a b [again] hne⟩

end Table

end TapeMachine
