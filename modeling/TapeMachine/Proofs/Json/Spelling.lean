import TapeMachine.JsonForm
import Mathlib.Data.List.Forall2
import Mathlib.Data.List.Nodup

/-!
# The spellings of a value

Which JSON values denote a value. A record may be an object or an array, a variant without parts may
be a text or an object with a null. `Spelled` states for a type which spellings its values have, and
that its reader takes these and no others.
-/

namespace TapeMachine

/-- A computation goes well exactly if its first step does and what follows it does. -/
theorem bind_eq_ok_iff {ε α β : Type} {x : Except ε α} {f : α → Except ε β} {b : β} :
    (x >>= f) = .ok b ↔ ∃ a, x = .ok a ∧ f a = .ok b := by
  cases x <;> simp [bind, Except.bind]

theorem mapError_eq_ok_iff {ε ε' α : Type} {f : ε → ε'} {x : Except ε α} {a : α} :
    x.mapError f = .ok a ↔ x = .ok a := by
  cases x <;> simp [Except.mapError]

theorem map_eq_ok_iff {ε α β : Type} {f : α → β} {x : Except ε α} {b : β} :
    f <$> x = .ok b ↔ ∃ a, x = .ok a ∧ f a = b := by
  cases x <;> simp [Functor.map, Except.map]

/-- A step that does nothing goes well. -/
theorem pure_eq_ok_iff {ε α : Type} {a b : α} : (pure a : Except ε α) = .ok b ↔ a = b := by
  simp [pure, Except.pure]

/-- A value that is given on a condition. -/
theorem ite_eq_ok_iff {ε α : Type} {c : Prop} [Decidable c] {e : ε} {a b : α} :
    (if c then pure a else throw e : Except ε α) = .ok b ↔ c ∧ a = b := by
  split <;> simp_all [pure, Except.pure, throw, throwThe, MonadExceptOf.throw]

namespace Json

/-- The fields have a value of the name for which `P` holds. -/
def HasField (fields : List (String × Json)) (name : String) (P : Json → Prop) : Prop :=
  ∃ j, field? name fields = some j ∧ P j

/-- A record: an object that has each of the named parts, in any order and among others, or an array
of the parts in their order. -/
inductive IsRecord (parts : List (String × (Json → Prop))) : Json → Prop
  | object {fields : List (String × Json)} (h : ∀ p ∈ parts, HasField fields p.1 p.2) :
      IsRecord parts (.object fields)
  | array {items : List Json} (h : List.Forall₂ (fun p j ↦ p.2 j) parts items) :
      IsRecord parts (.array items)

theorem isRecord_object_iff {parts : List (String × (Json → Prop))}
    {fields : List (String × Json)} :
    IsRecord parts (.object fields) ↔ ∀ p ∈ parts, HasField fields p.1 p.2 :=
  ⟨fun | .object h => h, .object⟩

/-- An array is a record exactly if it has as many items and each part is in its place. -/
theorem isRecord_array_iff {parts : List (String × (Json → Prop))} {items : List Json} :
    IsRecord parts (.array items) ↔
      items.length = parts.length ∧ ∀ x ∈ parts.zipIdx, ∃ j, items[x.2]? = some j ∧ x.1.2 j := by
  have hcases : IsRecord parts (.array items) ↔ List.Forall₂ (fun p j ↦ p.2 j) parts items :=
    ⟨fun | .array h => h, .array⟩
  rw [hcases, List.forall₂_iff_get, eq_comm]
  refine and_congr_right fun hl ↦ ⟨fun h x hx ↦ ?_, fun h i hp hj ↦ ?_⟩
  · obtain ⟨hi, hx⟩ := List.getElem?_eq_some_iff.mp (List.mem_zipIdx_iff_getElem?.mp hx)
    have hj : x.2 < items.length := hl ▸ hi
    refine ⟨items[x.2], List.getElem?_eq_getElem hj, ?_⟩
    rw [← hx]
    exact h x.2 hi hj
  · obtain ⟨j, hget, h⟩ := h (parts[i], i)
      (List.mem_zipIdx_iff_getElem?.mpr (List.getElem?_eq_getElem hp))
    obtain ⟨hj', rfl⟩ := List.getElem?_eq_some_iff.mp hget
    exact h

/-- Every part of a record is there. -/
theorem IsRecord.exists_of_mem {parts : List (String × (Json → Prop))} {j : Json}
    (h : IsRecord parts j) {p : String × (Json → Prop)} (hp : p ∈ parts) : ∃ i, p.2 i := by
  cases h with
  | object h =>
    obtain ⟨i, -, hi⟩ := h p hp
    exact ⟨i, hi⟩
  | array h =>
    obtain ⟨i, hi⟩ := List.mem_iff_getElem?.mp hp
    obtain ⟨j, -, hj⟩ := (isRecord_array_iff.mp (.array h)).2 (p, i)
      (List.mem_zipIdx_iff_getElem?.mpr hi)
    exact ⟨j, hj⟩

/-- A variant without parts: its name, or an object with its name and null. -/
inductive IsUnit (name : String) : Json → Prop
  | string : IsUnit name (.string name)
  | object : IsUnit name (.object [(name, .null)])

end Json

open Json JsonForm

/-! ## Parts of records and variants -/

theorem required_eq_ok_iff {α : Type} {o : Option α} {a : α} : required o = .ok a ↔ o = some a := by
  cases o <;> simp [required]

section Parts

variable {α : Type} [JsonForm α] {a : α}

/-- A field that must be there is read exactly if there is one of its name that is read. -/
theorem present_eq_ok_some_iff {fields : List (String × Json)} {name : String} :
    present fields name = .ok (some a) ↔ HasField fields name fun j ↦ ofJson j = .ok a := by
  unfold present HasField
  split
  · next hf => simp [hf]
  · next j hf =>
    cases ho : (ofJson j : Except FormError α) <;> simp [hf, ho, Functor.map, Except.map]

/-- An element is read exactly if there is one at its place that is read. -/
theorem element_eq_ok_iff {items : List Json} {i : Nat} :
    element items i = .ok a ↔ ∃ j, items[i]? = some j ∧ ofJson j = .ok a := by
  unfold element
  split
  · next h => simp [h]
  · next j h => simp [h]

end Parts

/-- What a value names as a variant, and what it gives along with the name. -/
theorem variant?_eq_some_iff {j : Json} {name : String} {content : Option Json} :
    variant? j = some (name, content) ↔
      j = .string name ∧ content = none ∨
        ∃ value, j = .object [(name, value)] ∧ content = some value := by
  constructor
  · intro h
    unfold variant? at h
    split at h
    · cases h
      exact .inl ⟨rfl, rfl⟩
    · cases h
      exact .inr ⟨_, rfl, rfl⟩
    · cases h
  · rintro (⟨rfl, rfl⟩ | ⟨value, rfl, rfl⟩) <;> rfl

theorem isUnit_iff {content : Option Json} :
    isUnit content = true ↔ content = none ∨ content = some .null := by
  unfold isUnit
  split <;> simp_all

/-- A variant without parts is named with nothing but its name, or with a null. -/
theorem variant?_unit_iff {j : Json} {name : String} :
    (∃ content, variant? j = some (name, content) ∧ isUnit content = true) ↔ IsUnit name j := by
  simp only [variant?_eq_some_iff, isUnit_iff]
  constructor
  · rintro ⟨content, ⟨rfl, rfl⟩ | ⟨value, rfl, rfl⟩, h⟩
    · exact .string
    · rcases h with h | h
      · cases h
      · cases h
        exact .object
  · rintro (_ | _)
    · exact ⟨none, .inl ⟨rfl, rfl⟩, .inl rfl⟩
    · exact ⟨some .null, .inr ⟨.null, rfl, rfl⟩, .inr rfl⟩

/-- A search by name finds the entry of the name, where no two entries share one. -/
theorem find?_name_eq_some_iff {β : Type} {variants : List (String × β)}
    (hd : (variants.map Prod.fst).Nodup) {name : String} {v : String × β} :
    (variants.find? fun w ↦ w.1 = name) = some v ↔ v ∈ variants ∧ v.1 = name := by
  constructor
  · intro h
    exact ⟨List.mem_of_find?_eq_some h, by simpa using List.find?_some h⟩
  · rintro ⟨hv, rfl⟩
    cases h : variants.find? fun w ↦ w.1 = v.1 with
    | none =>
      have := List.find?_eq_none.mp h v hv
      simp at this
    | some w =>
      have hw := List.mem_of_find?_eq_some h
      have hn : w.1 = v.1 := by simpa using List.find?_some h
      rw [List.inj_on_of_nodup_map hd hw hv hn]

/-- A variant without parts is read exactly from its own name. -/
theorem ofUnitVariants_eq_ok_iff {β : Type} {variants : List (String × β)}
    (hd : (variants.map Prod.fst).Nodup) {j : Json} {b : β} :
    ofUnitVariants variants j = .ok b ↔ ∃ name, (name, b) ∈ variants ∧ IsUnit name j := by
  constructor
  · intro h
    unfold ofUnitVariants at h
    split at h
    · cases h
    · next name content hj =>
      split at h
      · next v hv =>
        split at h
        · next hu =>
          cases h
          obtain ⟨hm, rfl⟩ := (find?_name_eq_some_iff hd).mp hv
          exact ⟨v.1, hm, variant?_unit_iff.mp ⟨content, hj, hu⟩⟩
        · cases h
      · cases h
  · rintro ⟨name, hm, hu⟩
    obtain ⟨content, hj, hc⟩ := variant?_unit_iff.mpr hu
    have hf := (find?_name_eq_some_iff hd).mpr ⟨hm, rfl⟩
    simp only [ofUnitVariants, hj, hf, hc, if_true]

/-! ## Spelled types -/

/-- Types with a JSON form whose spellings are known. -/
class Spelled (α : Type) [JsonForm α] where
  /-- The JSON values that denote a value. -/
  Spells : Json → α → Prop
  /-- The values whose numbers are within the limits of numbers. -/
  Fits : α → Prop
  /-- The symbols that stand anywhere in a value. -/
  symbols : α → List Symbol
  /-- A value is read from its spellings, and from nothing else. -/
  ofJson_eq_ok_iff {j : Json} {a : α} : ofJson j = .ok a ↔ Spells j a
  /-- No spelling denotes a number beyond the limits. -/
  fits_of_spells {j : Json} {a : α} : Spells j a → Fits a
  /-- The form in which a value is written is a spelling of it. -/
  spells_toJson {a : α} : Fits a → Spells (toJson a) a

export Spelled (Spells Fits)

/-! ## Numbers, symbols and tapes -/

theorem ofCount_eq_ok_iff {j : Json} {n : Nat} :
    ofCount j = .ok n ↔ j = .integer n ∧ n ≤ maxCount := by
  constructor
  · intro h
    unfold ofCount at h
    split at h
    · split at h
      · next hn =>
        cases h
        exact ⟨rfl, hn⟩
      · cases h
    · cases h
  · rintro ⟨rfl, hn⟩
    exact if_pos hn

theorem ofPosition_eq_ok_iff {j : Json} {n : Int} :
    ofPosition j = .ok n ↔ j = .integer n ∧ minPosition ≤ n ∧ n ≤ maxPosition := by
  constructor
  · intro h
    unfold ofPosition at h
    split at h
    · split at h
      · next hn =>
        cases h
        exact ⟨rfl, hn⟩
      · cases h
    · cases h
  · rintro ⟨rfl, hn⟩
    exact if_pos hn

/-- A count is spelled as an integer. -/
instance : Spelled Nat where
  Spells j n := j = .integer n ∧ n ≤ maxCount
  Fits n := n ≤ maxCount
  symbols _ := []
  ofJson_eq_ok_iff := ofCount_eq_ok_iff
  fits_of_spells h := h.2
  spells_toJson h := ⟨rfl, h⟩

/-- A head position is spelled as an integer. -/
instance : Spelled Int where
  Spells j n := j = .integer n ∧ minPosition ≤ n ∧ n ≤ maxPosition
  Fits n := minPosition ≤ n ∧ n ≤ maxPosition
  symbols _ := []
  ofJson_eq_ok_iff := ofPosition_eq_ok_iff
  fits_of_spells h := h.2
  spells_toJson h := ⟨rfl, h⟩

/-- A symbol is spelled as the text of its character. -/
instance : Spelled Symbol where
  Spells j s := j = .string s.text
  Fits _ := True
  symbols s := [s]
  ofJson_eq_ok_iff {j s} := by
    constructor
    · intro h
      simp only [ofJson] at h
      split at h
      · split at h
        · next c htext =>
          rw [mapError_eq_ok_iff, Symbol.ofChar_eq_ok_iff] at h
          subst h
          rw [String.toList_inj.mp (htext.trans (String.toList_singleton s.char).symm)]
          rfl
        · cases h
      · cases h
    · rintro rfl
      simp [ofJson, Symbol.text, Symbol.ofChar_char, Except.mapError]
  fits_of_spells _ := trivial
  spells_toJson _ := rfl

/-- A state is spelled as its number. -/
instance : Spelled State where
  Spells j q := Spells j q.index
  Fits q := Fits q.index
  symbols _ := []
  ofJson_eq_ok_iff {j q} := by
    rw [← Spelled.ofJson_eq_ok_iff]
    simp only [ofJson, map_eq_ok_iff]
    constructor
    · rintro ⟨n, h, rfl⟩
      exact h
    · intro h
      exact ⟨q.index, h, rfl⟩
  fits_of_spells h := Spelled.fits_of_spells h
  spells_toJson h := Spelled.spells_toJson h

/-- A tape is spelled as its text. -/
instance : Spelled Tape where
  Spells j t := j = .string t.text
  Fits _ := True
  symbols t := t.toList
  ofJson_eq_ok_iff {j t} := by
    constructor
    · intro h
      simp only [ofJson] at h
      split at h
      · next text =>
        rw [mapError_eq_ok_iff, Tape.ofChars, map_eq_ok_iff] at h
        obtain ⟨l, hl, rfl⟩ := h
        rw [Tape.text, Tape.toList_ofList, ← Symbol.ofChars_eq_ok_iff.mp hl, String.ofList_toList]
      · cases h
    · rintro rfl
      simp only [ofJson, mapError_eq_ok_iff, Tape.ofChars, map_eq_ok_iff]
      exact ⟨t.toList, Symbol.ofChars_eq_ok_iff.mpr (by simp [Tape.text]), Tape.ofList_toList t⟩
  fits_of_spells _ := trivial
  spells_toJson _ := rfl

/-! ## Variants -/

/-- An action is spelled as a variant without parts. -/
instance : Spelled Action where
  Spells j
    | .moveRight => IsUnit "MoveRight" j
    | .moveLeft => IsUnit "MoveLeft" j
    | .accept => IsUnit "Accept" j
    | .reject => IsUnit "Reject" j
  Fits _ := True
  symbols _ := []
  ofJson_eq_ok_iff {j a} := by
    rw [ofJson, instJsonFormAction, ofUnitVariants_eq_ok_iff (by decide)]
    cases a <;> simp
  fits_of_spells _ := trivial
  spells_toJson {a} _ := by cases a <;> exact .string

/-- A mode is spelled as a variant without parts. -/
instance : Spelled Mode where
  Spells j m := IsUnit m.text j
  Fits _ := True
  symbols _ := []
  ofJson_eq_ok_iff {j m} := by
    rw [ofJson, instJsonFormMode, ofUnitVariants_eq_ok_iff (by decide)]
    cases m <;> simp [Mode.text]
  fits_of_spells _ := trivial
  spells_toJson _ := .string

/-- A halt is spelled as a variant without parts, or as an object with its name and an object of its
parts. -/
instance : Spelled Halt where
  Spells j
    | .accepted => IsUnit "Accepted" j
    | .rejected => IsUnit "Rejected" j
    | .undefined state symbol => ∃ fields, j = .object [("Undefined", .object fields)] ∧
        HasField fields "state" (Spells · state) ∧ HasField fields "symbol" (Spells · symbol)
    | .outOfBounds position => ∃ fields, j = .object [("OutOfBounds", .object fields)] ∧
        HasField fields "position" (Spells · position)
  Fits
    | .accepted | .rejected => True
    | .undefined state _ => Fits state
    | .outOfBounds position => Fits position
  symbols
    | .undefined _ symbol => [symbol]
    | .accepted | .rejected | .outOfBounds _ => []
  ofJson_eq_ok_iff {j h} := by
    constructor
    · intro hr
      simp only [ofJson] at hr
      split at hr
      · next fields hj =>
        obtain ⟨-, hn⟩ | ⟨_, rfl, ⟨⟩⟩ := variant?_eq_some_iff.mp hj
        · cases hn
        simp only [bind_eq_ok_iff, required_eq_ok_iff, pure_eq_ok_iff] at hr
        obtain ⟨_, hq, _, hs, q, rfl, s, rfl, rfl⟩ := hr
        simp only [present_eq_ok_some_iff, Spelled.ofJson_eq_ok_iff] at hq hs
        exact ⟨fields, rfl, hq, hs⟩
      · next fields hj =>
        obtain ⟨-, hn⟩ | ⟨_, rfl, ⟨⟩⟩ := variant?_eq_some_iff.mp hj
        · cases hn
        simp only [bind_eq_ok_iff, required_eq_ok_iff, pure_eq_ok_iff] at hr
        obtain ⟨_, hp, p, rfl, rfl⟩ := hr
        simp only [present_eq_ok_some_iff, Spelled.ofJson_eq_ok_iff] at hp
        exact ⟨fields, rfl, hp⟩
      · rw [ofUnitVariants_eq_ok_iff (by decide)] at hr
        obtain ⟨name, hm, hu⟩ := hr
        simp only [List.mem_cons, Prod.mk.injEq, List.not_mem_nil, or_false] at hm
        obtain ⟨rfl, rfl⟩ | ⟨rfl, rfl⟩ := hm
        · exact hu
        · exact hu
    · intro hs
      cases h with
      | accepted => cases hs <;> rfl
      | rejected => cases hs <;> rfl
      | undefined state symbol =>
        obtain ⟨fields, rfl, hq, hs⟩ := hs
        simp only [← Spelled.ofJson_eq_ok_iff, ← present_eq_ok_some_iff] at hq hs
        simp only [ofJson, variant?, hq, hs, required, pure_eq_ok_iff, bind_eq_ok_iff]
        exact ⟨_, rfl, _, rfl, _, rfl, _, rfl, rfl⟩
      | outOfBounds position =>
        obtain ⟨fields, rfl, hp⟩ := hs
        simp only [← Spelled.ofJson_eq_ok_iff, ← present_eq_ok_some_iff] at hp
        simp only [ofJson, variant?, hp, required, pure_eq_ok_iff, bind_eq_ok_iff]
        exact ⟨_, rfl, _, rfl, rfl⟩
  fits_of_spells {j h} hs := by
    cases h with
    | accepted => trivial
    | rejected => trivial
    | undefined state symbol =>
      obtain ⟨_, -, ⟨i, -, hi⟩, -⟩ := hs
      exact Spelled.fits_of_spells hi
    | outOfBounds position =>
      obtain ⟨_, -, i, -, hi⟩ := hs
      exact Spelled.fits_of_spells hi
  spells_toJson {h} hf := by
    cases h with
    | accepted => exact .string
    | rejected => exact .string
    | undefined state symbol =>
      exact ⟨_, rfl, ⟨_, rfl, Spelled.spells_toJson hf⟩, ⟨_, rfl, Spelled.spells_toJson trivial⟩⟩
    | outOfBounds position => exact ⟨_, rfl, ⟨_, rfl, Spelled.spells_toJson hf⟩⟩

/-! ## Records -/

/-- A transition is spelled as a record. -/
instance : Spelled Transition where
  Spells j t := IsRecord
    [("next_state", (Spells · t.next)), ("write", (Spells · t.write)),
      ("action", (Spells · t.action))] j
  Fits t := Fits t.next
  symbols t := [t.write]
  ofJson_eq_ok_iff {j t} := by
    simp only [ofJson]
    cases j with
    | object fields =>
      simp only [isRecord_object_iff, List.forall_mem_cons, List.not_mem_nil, false_imp_iff,
        implies_true, and_true, ← Spelled.ofJson_eq_ok_iff, ← present_eq_ok_some_iff,
        bind_eq_ok_iff, required_eq_ok_iff, pure_eq_ok_iff]
      constructor
      · rintro ⟨_, ha, _, hq, _, hw, q, rfl, w, rfl, a, rfl, rfl⟩
        exact ⟨hq, hw, ha⟩
      · rintro ⟨hq, hw, ha⟩
        exact ⟨_, ha, _, hq, _, hw, _, rfl, _, rfl, _, rfl, rfl⟩
    | array items =>
      simp only [isRecord_array_iff, List.zipIdx_cons, List.zipIdx_nil, List.forall_mem_cons,
        List.not_mem_nil, false_imp_iff, implies_true, and_true, ← Spelled.ofJson_eq_ok_iff,
        ← element_eq_ok_iff, bind_eq_ok_iff, ite_eq_ok_iff, List.length_cons, List.length_nil,
        Nat.reduceAdd]
      constructor
      · rintro ⟨q, hq, w, hw, a, ha, hl, rfl⟩
        exact ⟨hl, hq, hw, ha⟩
      · rintro ⟨hl, hq, hw, ha⟩
        exact ⟨_, hq, _, hw, _, ha, hl, rfl⟩
    | _ =>
      constructor
      · intro h
        cases h
      · intro h
        cases h
  fits_of_spells {j t} h := by
    obtain ⟨i, hi⟩ := h.exists_of_mem List.mem_cons_self
    exact Spelled.fits_of_spells hi
  spells_toJson {t} hf := by
    refine .object ?_
    simp only [List.forall_mem_cons, List.not_mem_nil, false_imp_iff, implies_true, and_true]
    exact ⟨⟨_, rfl, Spelled.spells_toJson hf⟩, ⟨_, rfl, Spelled.spells_toJson trivial⟩,
      ⟨_, rfl, Spelled.spells_toJson trivial⟩⟩

/-- An input is spelled as a record. -/
instance : Spelled Run where
  Spells j r := IsRecord [("tape", (Spells · r.tape)), ("head", (Spells · r.head))] j
  Fits r := Fits r.head
  symbols r := Spelled.symbols r.tape
  ofJson_eq_ok_iff {j r} := by
    simp only [ofJson]
    cases j with
    | object fields =>
      simp only [isRecord_object_iff, List.forall_mem_cons, List.not_mem_nil, false_imp_iff,
        implies_true, and_true, ← Spelled.ofJson_eq_ok_iff, ← present_eq_ok_some_iff,
        bind_eq_ok_iff, required_eq_ok_iff, pure_eq_ok_iff]
      constructor
      · rintro ⟨_, hh, _, ht, t, rfl, h, rfl, rfl⟩
        exact ⟨ht, hh⟩
      · rintro ⟨ht, hh⟩
        exact ⟨_, hh, _, ht, _, rfl, _, rfl, rfl⟩
    | array items =>
      simp only [isRecord_array_iff, List.zipIdx_cons, List.zipIdx_nil, List.forall_mem_cons,
        List.not_mem_nil, false_imp_iff, implies_true, and_true, ← Spelled.ofJson_eq_ok_iff,
        ← element_eq_ok_iff, bind_eq_ok_iff, ite_eq_ok_iff, List.length_cons, List.length_nil,
        Nat.reduceAdd]
      constructor
      · rintro ⟨t, ht, h, hh, hl, rfl⟩
        exact ⟨hl, ht, hh⟩
      · rintro ⟨hl, ht, hh⟩
        exact ⟨_, ht, _, hh, hl, rfl⟩
    | _ =>
      constructor
      · intro h
        cases h
      · intro h
        cases h
  fits_of_spells {j r} h := by
    obtain ⟨i, hi⟩ := h.exists_of_mem (List.mem_cons_of_mem _ List.mem_cons_self)
    exact Spelled.fits_of_spells hi
  spells_toJson {r} hf := by
    refine .object ?_
    simp only [List.forall_mem_cons, List.not_mem_nil, false_imp_iff, implies_true, and_true]
    exact ⟨⟨_, rfl, Spelled.spells_toJson trivial⟩, ⟨_, rfl, Spelled.spells_toJson hf⟩⟩

/-- An outcome is spelled as a record. -/
instance : Spelled Outcome where
  Spells j o := IsRecord
    [("halt", (Spells · o.halt)), ("state", (Spells · o.state)), ("tape", (Spells · o.tape)),
      ("head", (Spells · o.head)), ("steps", (Spells · o.steps))] j
  Fits o := Fits o.halt ∧ Fits o.state ∧ Fits o.head ∧ Fits o.steps
  symbols o := Spelled.symbols o.halt ++ Spelled.symbols o.tape
  ofJson_eq_ok_iff {j o} := by
    simp only [ofJson]
    cases j with
    | object fields =>
      simp only [isRecord_object_iff, List.forall_mem_cons, List.not_mem_nil, false_imp_iff,
        implies_true, and_true, ← Spelled.ofJson_eq_ok_iff, ← present_eq_ok_some_iff,
        bind_eq_ok_iff, required_eq_ok_iff, pure_eq_ok_iff]
      constructor
      · rintro ⟨_, hr, _, hh, _, hq, _, hs, _, ht, r, rfl, q, rfl, t, rfl, h, rfl, s, rfl, rfl⟩
        exact ⟨hr, hq, ht, hh, hs⟩
      · rintro ⟨hr, hq, ht, hh, hs⟩
        exact ⟨_, hr, _, hh, _, hq, _, hs, _, ht, _, rfl, _, rfl, _, rfl, _, rfl, _, rfl, rfl⟩
    | array items =>
      simp only [isRecord_array_iff, List.zipIdx_cons, List.zipIdx_nil, List.forall_mem_cons,
        List.not_mem_nil, false_imp_iff, implies_true, and_true, ← Spelled.ofJson_eq_ok_iff,
        ← element_eq_ok_iff, bind_eq_ok_iff, ite_eq_ok_iff, List.length_cons, List.length_nil,
        Nat.reduceAdd]
      constructor
      · rintro ⟨r, hr, q, hq, t, ht, h, hh, s, hs, hl, rfl⟩
        exact ⟨hl, hr, hq, ht, hh, hs⟩
      · rintro ⟨hl, hr, hq, ht, hh, hs⟩
        exact ⟨_, hr, _, hq, _, ht, _, hh, _, hs, hl, rfl⟩
    | _ =>
      constructor
      · intro h
        cases h
      · intro h
        cases h
  fits_of_spells {j o} h := by
    have hpart {p : String × (Json → Prop)} := h.exists_of_mem (p := p)
    simp only [List.mem_cons, List.not_mem_nil, or_false] at hpart
    obtain ⟨_, hr⟩ := hpart (.inl rfl)
    obtain ⟨_, hq⟩ := hpart (.inr (.inl rfl))
    obtain ⟨_, hh⟩ := hpart (.inr (.inr (.inr (.inl rfl))))
    obtain ⟨_, hs⟩ := hpart (.inr (.inr (.inr (.inr rfl))))
    exact ⟨Spelled.fits_of_spells hr, Spelled.fits_of_spells hq, Spelled.fits_of_spells hh,
      Spelled.fits_of_spells hs⟩
  spells_toJson {o} hf := by
    obtain ⟨hr, hq, hh, hs⟩ := hf
    refine .object ?_
    simp only [List.forall_mem_cons, List.not_mem_nil, false_imp_iff, implies_true, and_true]
    exact ⟨⟨_, rfl, Spelled.spells_toJson hr⟩, ⟨_, rfl, Spelled.spells_toJson hq⟩,
      ⟨_, rfl, Spelled.spells_toJson trivial⟩, ⟨_, rfl, Spelled.spells_toJson hh⟩,
      ⟨_, rfl, Spelled.spells_toJson hs⟩⟩

end TapeMachine
