import TapeMachine.Table

/-!
# Rebuilding maps and sets

A finite map is rebuilt from its entries, whatever the order of the insertions, and a finite set
from its members. What is listed in strictly ascending order is listed in one way only
(`Lists.unique`).
-/

namespace TapeMachine

variable {κ ν : Type} [Ranked κ]

private theorem valueOf?_eq_none {k : κ} {l : List (κ × ν)} (h : ∀ e ∈ l, rank k < rank e.1) :
    valueOf? k l = none := by
  cases hv : valueOf? k l with
  | none => rfl
  | some v =>
    have hlt := h _ (mem_of_valueOf? hv)
    simp only at hlt
    omega

namespace SortedMap

/-- After the entries of a list with ascending keys have been inserted, each of its keys has its
value there, and every other key the old one. -/
theorem find?_foldl_insert {l : List (κ × ν)} (hl : Ascending l) (m : SortedMap κ ν) (k : κ) :
    (l.foldl (fun m e ↦ m.insert e.1 e.2) m).find? k = (valueOf? k l).or (m.find? k) := by
  induction l generalizing m with
  | nil => rfl
  | cons e l ih =>
    have he := List.pairwise_cons.mp hl
    rw [List.foldl_cons, ih he.2, find?_insert, valueOf?]
    by_cases hk : rank e.1 = rank k
    · have hnone : valueOf? k l = none := by
        apply valueOf?_eq_none
        intro d hd
        rw [← hk]
        exact he.1 d hd
      rw [if_pos hk, if_pos hk, hnone, Option.none_or, Option.some_or]
    · rw [if_neg hk, if_neg hk]

/-- A map is rebuilt from its entries. -/
theorem foldl_insert_entries (m : SortedMap κ ν) :
    m.entries.foldl (fun m e ↦ m.insert e.1 e.2) empty = m := by
  apply ext_find?
  intro k
  rw [find?_foldl_insert m.ascending, find?_empty, Option.or_none]
  rfl

end SortedMap

/-- Sets with the same members are equal. -/
theorem SortedSet.ext_contains {a b : SortedSet κ}
    (h : ∀ k, a.contains k = true ↔ b.contains k = true) : a = b := by
  apply SortedMap.ext_find?
  intro k
  have hk : (a.find? k).isSome = (b.find? k).isSome := Bool.eq_iff_iff.mpr (h k)
  cases hv : a.find? k <;> cases hw : b.find? k <;> simp_all

/-- A set is rebuilt from its members. -/
theorem SortedSet.ofList_toList (s : SortedSet κ) : ofList s.toList = s :=
  ext_contains fun _ ↦ contains_ofList.trans mem_toList_iff

/-- Lists that strictly ascend by the same key are equal if they have the same members. -/
theorem eq_of_pairwise_lt {α : Type} {key : α → Nat} {l l' : List α}
    (hl : l.Pairwise fun a b ↦ key a < key b) (hl' : l'.Pairwise fun a b ↦ key a < key b)
    (h : ∀ a, a ∈ l ↔ a ∈ l') : l = l' := by
  have hnodup {l : List α} (hl : l.Pairwise fun a b ↦ key a < key b) : l.Nodup := by
    refine List.Pairwise.imp ?_ hl
    rintro a b hlt rfl
    exact Nat.lt_irrefl _ hlt
  exact List.Perm.eq_of_pairwise
    (fun _ _ _ _ hab hba ↦ absurd (Nat.lt_trans hab hba) (Nat.lt_irrefl _)) hl hl'
    ((List.perm_ext_iff_of_nodup (hnodup hl) (hnodup hl')).mpr h)

/-- A list holds what satisfies a predicate and nothing else, each once, in ascending order. -/
structure Lists (P : κ → Prop) (l : List κ) : Prop where
  ascending : l.Pairwise fun a b ↦ rank a < rank b
  mem_iff : ∀ k, k ∈ l ↔ P k

/-- What satisfies a predicate is listed in one way only. -/
theorem Lists.unique {P : κ → Prop} {l l' : List κ} (h : Lists P l) (h' : Lists P l') : l = l' :=
  eq_of_pairwise_lt h.ascending h'.ascending fun k ↦ (h.mem_iff k).trans (h'.mem_iff k).symm

/-- A list has members exactly if something satisfies the predicate. -/
theorem Lists.ne_nil_iff {P : κ → Prop} {l : List κ} (h : Lists P l) : l ≠ [] ↔ ∃ k, P k := by
  simp only [← h.mem_iff]
  constructor
  · exact List.exists_mem_of_ne_nil l
  · rintro ⟨k, hk⟩
    exact List.ne_nil_of_mem hk

/-- A table is rebuilt from its rules. -/
theorem Table.foldl_define_rules (t : Table) : t.rules.foldl define SortedMap.empty = t := by
  rw [rules, List.foldl_map]
  exact SortedMap.foldl_insert_entries t

/-- A rule of a table with a further rule is that rule or was there before. -/
theorem Table.eq_or_mem_of_mem_rules_define {t : Table} {r r' : Rule}
    (h : r ∈ (t.define r').rules) : r = r' ∨ r ∈ t.rules := by
  obtain ⟨e, he, rfl⟩ := List.mem_map.mp h
  rcases mem_placeEntry he with rfl | he
  · exact .inl rfl
  · exact .inr (List.mem_map_of_mem he)

/-- A rule of a table that is built from rules is one of them. -/
theorem Table.mem_of_mem_rules_foldl_define {rules : List Rule} {t : Table} {r : Rule}
    (h : r ∈ (rules.foldl define t).rules) : r ∈ rules ∨ r ∈ t.rules := by
  induction rules generalizing t with
  | nil => exact .inr h
  | cons r' rules ih =>
    rcases ih h with hmem | hmem
    · exact .inl (List.mem_cons_of_mem _ hmem)
    · rcases eq_or_mem_of_mem_rules_define hmem with rfl | hmem
      · exact .inl List.mem_cons_self
      · exact .inr hmem

end TapeMachine
