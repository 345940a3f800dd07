/-!
# Finite maps in ascending order

A finite map as the list of its entries, strictly ascending by key. Keys are placed in order by a
natural number of their own. Two maps with the same look-ups are equal (`SortedMap.ext_find?`), so
the order of the insertions that built them cannot be seen.
-/

namespace TapeMachine

/-- Values that are placed in order by a natural number of their own. -/
class Ranked (α : Type) where
  /-- The place of a value in the order. -/
  rank : α → Nat
  /-- Different values have different places. -/
  rank_inj : ∀ {a b : α}, rank a = rank b → a = b

export Ranked (rank rank_inj)

/-- A natural number is its own place. -/
instance : Ranked Nat := ⟨id, id⟩

variable {κ ν : Type} [Ranked κ]

/-- Values of equal rank are equal, and only those. -/
theorem rank_eq_rank_iff {a b : κ} : rank a = rank b ↔ a = b :=
  ⟨rank_inj, fun h ↦ h ▸ rfl⟩

/-- Entries strictly ascend by key. -/
def Ascending (entries : List (κ × ν)) : Prop :=
  entries.Pairwise fun a b ↦ rank a.1 < rank b.1

/-- Puts an entry in its place, instead of the entry with its key if there is one. -/
def placeEntry (k : κ) (v : ν) : List (κ × ν) → List (κ × ν)
  | [] => [(k, v)]
  | e :: rest =>
    if rank k < rank e.1 then (k, v) :: e :: rest
    else if rank k = rank e.1 then (k, v) :: rest
    else e :: placeEntry k v rest

/-- The value of the first entry with a key. -/
def valueOf? (k : κ) : List (κ × ν) → Option ν
  | [] => none
  | e :: rest => if rank e.1 = rank k then some e.2 else valueOf? k rest

theorem mem_placeEntry {k : κ} {v : ν} {e : κ × ν} {l : List (κ × ν)}
    (h : e ∈ placeEntry k v l) : e = (k, v) ∨ e ∈ l := by
  induction l with
  | nil => simpa [placeEntry] using h
  | cons d rest ih =>
    unfold placeEntry at h
    split at h
    · simpa using h
    · split at h
      · rcases List.mem_cons.1 h with h | h
        · exact .inl h
        · exact .inr (List.mem_cons_of_mem _ h)
      · rcases List.mem_cons.1 h with h | h
        · exact .inr (h ▸ List.mem_cons_self)
        · exact (ih h).imp_right (List.mem_cons_of_mem _)

theorem ascending_placeEntry (k : κ) (v : ν) {l : List (κ × ν)} (h : Ascending l) :
    Ascending (placeEntry k v l) := by
  induction l with
  | nil => simp [placeEntry, Ascending]
  | cons d rest ih =>
    have hd := List.pairwise_cons.1 h
    unfold placeEntry
    split
    next hlt =>
      refine List.pairwise_cons.2 ⟨fun e he ↦ ?_, h⟩
      rcases List.mem_cons.1 he with he | he
      · exact he ▸ hlt
      · exact Nat.lt_trans hlt (hd.1 e he)
    next hge =>
      split
      next heq => exact List.pairwise_cons.2 ⟨fun e he ↦ heq ▸ hd.1 e he, hd.2⟩
      next hne =>
        refine List.pairwise_cons.2 ⟨fun e he ↦ ?_, ih hd.2⟩
        rcases mem_placeEntry he with he | he
        · subst he; simp only; omega
        · exact hd.1 e he

theorem valueOf?_placeEntry (k k' : κ) (v : ν) (l : List (κ × ν)) :
    valueOf? k' (placeEntry k v l) = if rank k = rank k' then some v else valueOf? k' l := by
  induction l with
  | nil => simp [placeEntry, valueOf?]
  | cons d rest ih => grind [placeEntry, valueOf?]

theorem mem_of_valueOf? {k : κ} {v : ν} {l : List (κ × ν)} (h : valueOf? k l = some v) :
    (k, v) ∈ l := by
  induction l with
  | nil => simp [valueOf?] at h
  | cons d rest ih =>
    unfold valueOf? at h
    split at h
    next heq =>
      have hk := rank_inj heq
      have hv : d.2 = v := by simpa using h
      exact List.mem_cons.2 (.inl (Prod.ext hk.symm hv.symm))
    next => exact List.mem_cons_of_mem _ (ih h)

theorem valueOf?_of_mem {k : κ} {v : ν} {l : List (κ × ν)} (hl : Ascending l)
    (h : (k, v) ∈ l) : valueOf? k l = some v := by
  induction l with
  | nil => simp at h
  | cons d rest ih =>
    have hd := List.pairwise_cons.1 hl
    unfold valueOf?
    rcases List.mem_cons.1 h with h | h
    · subst h; simp
    · have hlt := hd.1 _ h
      simp only at hlt
      rw [if_neg (by omega)]
      exact ih hd.2 h

theorem eq_of_valueOf?_eq {l m : List (κ × ν)} (hl : Ascending l) (hm : Ascending m)
    (h : ∀ k, valueOf? k l = valueOf? k m) : l = m := by
  induction l generalizing m with
  | nil =>
    cases m with
    | nil => rfl
    | cons e rest => simpa [valueOf?] using h e.1
  | cons d rest ih =>
    cases m with
    | nil => simpa [valueOf?] using h d.1
    | cons e rest' =>
      have hd := List.pairwise_cons.1 hl
      have he := List.pairwise_cons.1 hm
      have hde : (d.1, d.2) ∈ e :: rest' :=
        mem_of_valueOf? ((h d.1).symm.trans (by simp [valueOf?]))
      have hed : (e.1, e.2) ∈ d :: rest :=
        mem_of_valueOf? ((h e.1).trans (by simp [valueOf?]))
      have heq : d = e := by
        rcases List.mem_cons.1 hde with hde | hde
        · exact hde
        · rcases List.mem_cons.1 hed with hed | hed
          · exact hed.symm
          · have h1 := he.1 _ hde
            have h2 := hd.1 _ hed
            simp only at h1 h2
            omega
      subst heq
      refine congrArg (d :: ·) (ih hd.2 he.2 fun k ↦ ?_)
      have hk := h k
      by_cases hdk : d.1 = k
      · have hnone : ∀ t : List (κ × ν), (∀ a ∈ t, rank d.1 < rank a.1) →
            valueOf? k t = none := by
          intro t ht
          cases hf : valueOf? k t with
          | none => rfl
          | some v =>
            have := ht _ (mem_of_valueOf? hf)
            simp only [hdk] at this
            omega
        rw [hnone rest hd.1, hnone rest' he.1]
      · simpa [valueOf?, rank_eq_rank_iff, hdk] using hk

/-- A finite map, held as its entries in ascending order. -/
structure SortedMap (κ ν : Type) [Ranked κ] where
  entries : List (κ × ν)
  ascending : Ascending entries

namespace SortedMap

/-- Maps are equal if their entries are. -/
instance [DecidableEq κ] [DecidableEq ν] : DecidableEq (SortedMap κ ν) := fun a b ↦
  decidable_of_iff (a.entries = b.entries) (by cases a; cases b; simp)

/-- The map without entries. -/
def empty : SortedMap κ ν := ⟨[], List.Pairwise.nil⟩

instance : EmptyCollection (SortedMap κ ν) := ⟨empty⟩

instance : Inhabited (SortedMap κ ν) := ⟨empty⟩

/-- The value of a key. -/
def find? (m : SortedMap κ ν) (k : κ) : Option ν := valueOf? k m.entries

/-- Gives a key its value, which replaces an earlier one. -/
def insert (m : SortedMap κ ν) (k : κ) (v : ν) : SortedMap κ ν :=
  ⟨placeEntry k v m.entries, ascending_placeEntry k v m.ascending⟩

/-- The keys in ascending order. -/
def keys (m : SortedMap κ ν) : List κ := m.entries.map Prod.fst

/-- The number of keys. -/
def size (m : SortedMap κ ν) : Nat := m.entries.length

/-- Nothing is found in the empty map. -/
@[simp] theorem find?_empty (k : κ) : (empty : SortedMap κ ν).find? k = none := rfl

/-- After an insertion its key has the new value, and every other key the old one. -/
theorem find?_insert (m : SortedMap κ ν) (k k' : κ) (v : ν) :
    (m.insert k v).find? k' = if rank k = rank k' then some v else m.find? k' :=
  valueOf?_placeEntry k k' v m.entries

/-- An inserted key has the inserted value. -/
@[simp] theorem find?_insert_self (m : SortedMap κ ν) (k : κ) (v : ν) :
    (m.insert k v).find? k = some v := by
  simp [find?_insert]

/-- An insertion leaves the other keys alone. -/
theorem find?_insert_of_ne (m : SortedMap κ ν) {k k' : κ} (v : ν) (h : k ≠ k') :
    (m.insert k v).find? k' = m.find? k' := by
  simp [find?_insert, rank_eq_rank_iff, h]

/-- The entries are exactly the keys with the values found for them. -/
theorem mem_entries_iff {m : SortedMap κ ν} {k : κ} {v : ν} :
    (k, v) ∈ m.entries ↔ m.find? k = some v :=
  ⟨valueOf?_of_mem m.ascending, mem_of_valueOf?⟩

/-- Maps with the same look-ups are equal. -/
theorem ext_find? {a b : SortedMap κ ν} (h : ∀ k, a.find? k = b.find? k) : a = b := by
  have := eq_of_valueOf?_eq a.ascending b.ascending h
  cases a
  cases b
  simpa using this

/-- The keys strictly ascend. -/
theorem pairwise_keys (m : SortedMap κ ν) : m.keys.Pairwise fun a b ↦ rank a < rank b :=
  List.pairwise_map.2 m.ascending

/-- A key is listed if a value is found for it. -/
theorem mem_keys_iff {m : SortedMap κ ν} {k : κ} : k ∈ m.keys ↔ (m.find? k).isSome := by
  simp [keys, Option.isSome_iff_exists, ← mem_entries_iff]

end SortedMap

/-- A finite set, as the map that gives its members no further value. -/
abbrev SortedSet (κ : Type) [Ranked κ] : Type := SortedMap κ Unit

namespace SortedSet

/-- Membership. -/
def contains (s : SortedSet κ) (k : κ) : Bool := (s.find? k).isSome

/-- The set with one more member, if it was none before. -/
def add (s : SortedSet κ) (k : κ) : SortedSet κ := SortedMap.insert s k ()

/-- The set of the members of a list. -/
def ofList (ks : List κ) : SortedSet κ := ks.foldl add SortedMap.empty

/-- The members in ascending order. -/
def toList (s : SortedSet κ) : List κ := SortedMap.keys s

/-- The members after adding one. -/
theorem contains_add (s : SortedSet κ) (k k' : κ) :
    (s.add k).contains k' = true ↔ k = k' ∨ s.contains k' = true := by
  by_cases h : k = k'
  · subst h; simp [add, contains]
  · simp [add, contains, h, SortedMap.find?_insert_of_ne]

/-- The list holds the members. -/
theorem mem_toList_iff {s : SortedSet κ} {k : κ} : k ∈ s.toList ↔ s.contains k = true :=
  SortedMap.mem_keys_iff

/-- The list holds each member once, in ascending order. -/
theorem pairwise_toList (s : SortedSet κ) : s.toList.Pairwise fun a b ↦ rank a < rank b :=
  SortedMap.pairwise_keys s

/-- The set of a list holds what the list holds. -/
theorem contains_ofList {ks : List κ} {k : κ} : (ofList ks).contains k = true ↔ k ∈ ks := by
  suffices h : ∀ s : SortedSet κ, (ks.foldl add s).contains k = true ↔
      s.contains k = true ∨ k ∈ ks by
    simpa [ofList, contains] using h SortedMap.empty
  induction ks with
  | nil => simp
  | cons a rest ih =>
    intro s
    simp only [List.foldl_cons, ih, contains_add, List.mem_cons]
    constructor
    · rintro ((rfl | h) | h) <;> simp_all
    · rintro (h | rfl | h) <;> simp_all

end SortedSet

end TapeMachine
