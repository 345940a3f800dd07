import Mathlib.Tactic.SplitIfs
import TapeMachine.Json.Reader
import TapeMachine.Proofs.Text.Numeral

/-!
# Written JSON is read back

A JSON value that is written in lines is read from its text again, whatever characters are in its
strings, except that of the fields of one name in an object only the last is left, in the place of
the first (`ofText?_closed_pretty`). If no name is repeated in an object, nothing is lost
(`merged_of_distinct`).
-/

namespace TapeMachine.Json

open Text

/-! ### Values that are read back -/

mutual

/-- The value in which of the fields of one name the last is left. -/
def merged : Json → Json
  | array items => array (mergedItems items)
  | object fields => object (mergedFields [] fields)
  | leaf => leaf

/-- The items of an array, each with its fields merged. -/
def mergedItems : List Json → List Json
  | [] => []
  | item :: rest => merged item :: mergedItems rest

/-- The fields of an object behind those in `held`. -/
def mergedFields (held : List (String × Json)) : List (String × Json) → List (String × Json)
  | [] => held
  | (name, value) :: rest => mergedFields (setField name (merged value) held) rest

end

mutual

/-- No number is kept as a text. -/
def integral : Json → Bool
  | number _ => false
  | array items => integralItems items
  | object fields => integralFields fields
  | null | bool _ | integer _ | string _ => true

/-- No number in the items is kept as a text. -/
def integralItems : List Json → Bool
  | [] => true
  | item :: rest => integral item && integralItems rest

/-- No number in the fields is kept as a text. -/
def integralFields : List (String × Json) → Bool
  | [] => true
  | (_, value) :: rest => integral value && integralFields rest

end

mutual

/-- No object in the value has two fields of one name. -/
def distinct : Json → Bool
  | array items => distinctItems items
  | object fields => decide (fields.map Prod.fst).Nodup && distinctFields fields
  | null | bool _ | integer _ | number _ | string _ => true

/-- No object in the items has two fields of one name. -/
def distinctItems : List Json → Bool
  | [] => true
  | item :: rest => distinct item && distinctItems rest

/-- No object in the values of the fields has two fields of one name. -/
def distinctFields : List (String × Json) → Bool
  | [] => true
  | (_, value) :: rest => distinct value && distinctFields rest

end

theorem setField_of_not_mem {name : String} {value : Json} {fields : List (String × Json)}
    (h : name ∉ fields.map Prod.fst) : setField name value fields = fields ++ [(name, value)] := by
  induction fields with
  | nil => rfl
  | cons f rest ih =>
    rw [List.map_cons, List.mem_cons, not_or] at h
    rw [setField, if_neg (Ne.symm h.1), ih h.2, List.cons_append]

mutual

/-- A value in which no name is repeated is not changed. -/
theorem merged_of_distinct : ∀ j : Json, j.distinct = true → j.merged = j
  | array items, h => by
    rw [merged, mergedItems_of_distinct items h]
  | object fields, h => by
    rw [distinct, Bool.and_eq_true, decide_eq_true_eq] at h
    rw [merged, mergedFields_of_distinct [] fields (by simpa using h.1) h.2, List.nil_append]
  | null, _ => rfl
  | bool _, _ => rfl
  | integer _, _ => rfl
  | number _, _ => rfl
  | string _, _ => rfl

private theorem mergedItems_of_distinct :
    ∀ items : List Json, distinctItems items = true → mergedItems items = items
  | [], _ => rfl
  | item :: rest, h => by
    rw [distinctItems, Bool.and_eq_true] at h
    rw [mergedItems, merged_of_distinct item h.1, mergedItems_of_distinct rest h.2]

private theorem mergedFields_of_distinct (held : List (String × Json)) :
    ∀ fields : List (String × Json), ((held ++ fields).map Prod.fst).Nodup →
      distinctFields fields = true → mergedFields held fields = held ++ fields
  | [], _, _ => (List.append_nil held).symm
  | (name, value) :: rest, hnames, h => by
    rw [distinctFields, Bool.and_eq_true] at h
    have hnew : name ∉ held.map Prod.fst := by
      rw [List.map_append, List.nodup_append] at hnames
      exact fun hmem ↦ hnames.2.2 name hmem name List.mem_cons_self rfl
    have hsame : held ++ (name, value) :: rest = (held ++ [(name, value)]) ++ rest := by simp
    rw [mergedFields, merged_of_distinct value h.1, setField_of_not_mem hnew, hsame,
      mergedFields_of_distinct _ rest (hsame ▸ hnames) h.2]

end

/-! ### Strings -/

/-- The hexadecimal digits of the codes of control characters. -/
private theorem hex4_of_lt : ∀ n < 32,
    (hex4 n).toList = ['0', '0', Nat.digitChar (n / 16), Nat.digitChar (n % 16)] ∧
      hexDigit? (Nat.digitChar (n / 16)) = some (n / 16) ∧
      hexDigit? (Nat.digitChar (n % 16)) = some (n % 16) := by
  decide

/-- The code of a control character is read. -/
private theorem readUnits_hex4 {c : Char} (hc : c.toNat < 0x20) (rest : List Char) :
    readUnits ((hex4 c.toNat).toList ++ rest) = some (c, rest) := by
  obtain ⟨hdigits, hhigh, hlow⟩ := hex4_of_lt c.toNat hc
  have hzero : hexDigit? '0' = some 0 := by decide
  have hvalue : ((0 * 16 + 0) * 16 + c.toNat / 16) * 16 + c.toNat % 16 = c.toNat := by omega
  have hcode : readHex4 ((hex4 c.toNat).toList ++ rest) = some (c.toNat, rest) := by
    simp only [hdigits, List.cons_append, List.nil_append, readHex4, hzero, hhigh, hlow,
      Option.bind_eq_bind, Option.bind_some, hvalue, Option.pure_def]
  have hpair : ¬(0xD800 ≤ c.toNat ∧ c.toNat < 0xDC00) := by omega
  have hlone : ¬(0xDC00 ≤ c.toNat ∧ c.toNat < 0xE000) := by omega
  simp only [readUnits, hcode, Option.bind_eq_bind, Option.bind_some, if_neg hpair, if_neg hlone,
    Char.ofNat_toNat, Option.pure_def]

/-- A character that is written with a backslash is read. -/
private theorem readString_backslash {n : Nat} {held cs rest : List Char} {c : Char}
    (h : readEscape cs = some (c, rest)) :
    readString (n + 1) held ('\\' :: cs) = readString n (c :: held) rest := by
  rw [readString, if_neg (by decide), if_pos rfl, h]

/-- A character is read from what it is written as in a string. -/
theorem readString_escape (n : Nat) (held : List Char) (c : Char) (rest : List Char) :
    readString (n + 1) held ((escape c).toList ++ rest) = readString n (c :: held) rest := by
  unfold escape
  split_ifs with hquote hbackslash hline hreturn htab hback hfeed hcontrol
  · exact hquote ▸ readString_backslash rfl
  · exact hbackslash ▸ readString_backslash rfl
  · exact hline ▸ readString_backslash rfl
  · exact hreturn ▸ readString_backslash rfl
  · exact htab ▸ readString_backslash rfl
  · exact hback ▸ readString_backslash rfl
  · exact hfeed ▸ readString_backslash rfl
  · rw [String.toList_append, List.append_assoc]
    exact readString_backslash (readUnits_hex4 hcontrol rest)
  · rw [Char.toString_eq_singleton, String.toList_singleton, List.singleton_append, readString,
      if_neg hquote, if_neg hbackslash, if_neg hcontrol]

/-- A character is written in one character at least. -/
theorem escape_ne_nil (c : Char) : (escape c).toList ≠ [] := by
  unfold escape
  split_ifs <;> simp

/-- The characters of a text between quotes. -/
def quoted (s : String) : List Char := '"' :: s.toList.flatMap (fun c ↦ (escape c).toList) ++ ['"']

theorem toList_quoteTo (out s : String) : (quoteTo out s).toList = out.toList ++ quoted s := by
  have hfold (cs : List Char) (acc : String) :
      (cs.foldl (fun acc c ↦ acc ++ escape c) acc).toList =
        acc.toList ++ cs.flatMap fun c ↦ (escape c).toList := by
    induction cs generalizing acc with
    | nil => simp
    | cons c cs ih =>
      rw [List.foldl_cons, ih]
      simp [String.toList_append]
  rw [quoteTo, String.foldl_eq_foldl_toList, String.toList_append, hfold]
  simp [quoted]

/-- The rest of a string is read. -/
theorem readString_flatMap (s held rest : List Char) {n : Nat}
    (hn : (s.flatMap fun c ↦ (escape c).toList).length < n) :
    readString n held ((s.flatMap fun c ↦ (escape c).toList) ++ '"' :: rest) =
      some (String.ofList (held.reverse ++ s), rest) := by
  induction s generalizing n held with
  | nil =>
    obtain ⟨n, rfl⟩ : ∃ k, n = k + 1 := ⟨n - 1, by omega⟩
    simp [readString]
  | cons c s ih =>
    have hpos := List.length_pos_iff.mpr (escape_ne_nil c)
    rw [List.flatMap_cons, List.length_append] at hn
    obtain ⟨n, rfl⟩ : ∃ k, n = k + 1 := ⟨n - 1, by omega⟩
    rw [List.flatMap_cons, List.append_assoc, readString_escape, ih _ (by omega)]
    simp

/-! ### Numbers -/

/-- The characters that may go on with a number. -/
def isNumeric (c : Char) : Bool := c.isDigit || c = '.' || c = 'e' || c = 'E'

variable {rest : List Char}

/-- Behind a number there is no digit. -/
private theorem startsOutside_isDigit (h : StartsOutside isNumeric rest) :
    StartsOutside Char.isDigit rest := by
  intro c hc
  have hnot := h c hc
  simp only [isNumeric, Bool.or_eq_false_iff] at hnot
  exact hnot.1.1.1

private theorem readFraction_of_startsOutside (h : StartsOutside isNumeric rest) :
    readFraction rest = some ([], rest) := by
  unfold readFraction
  split
  · cases h '.' rfl
  · rfl

private theorem readExponent_of_startsOutside (h : StartsOutside isNumeric rest) :
    readExponent rest = some ([], rest) := by
  unfold readExponent
  split
  · rfl
  · next e cs =>
    have hnot := h e rfl
    simp only [isNumeric, Bool.or_eq_false_iff, decide_eq_false_iff_not] at hnot
    rw [if_neg (not_or.mpr ⟨hnot.1.2, hnot.2⟩)]

/-- Only zero is written with a zero in front. -/
private theorem digits_ok (n : Nat) :
    ¬(digits n = [] ∨ (digits n).head? = some '0' ∧ (digits n).length ≠ 1) := by
  rintro (hnil | ⟨hzero, hlength⟩)
  · obtain ⟨d, ds, hds, -⟩ := exists_digit n
    rw [hds] at hnil
    cases hnil
  · obtain ⟨ds, hds⟩ := List.head?_eq_some_iff.mp hzero
    rw [eq_zero_of_digits_eq_cons hds] at hlength
    exact hlength rfl

/-- An integer is read. -/
theorem readNumber_integer (n : Int) (h : StartsOutside isNumeric rest) :
    readNumber ((Text.integer n).toList ++ rest) = some (integer n, rest) := by
  have hspan (n : Nat) : spanDigits (digits n ++ rest) = (digits n, rest) := by
    have hdigits : ∀ c ∈ digits n, c.isDigit = true := fun _ ↦ isDigit_of_mem_digits
    have hrest := startsOutside_isDigit h
    rw [spanDigits, hrest.takeWhile_append hdigits, hrest.dropWhile_append hdigits]
  cases n with
  | ofNat n =>
    have hminus : ∀ more, digits n ++ rest ≠ '-' :: more := by
      intro more
      have htext := natural_append_ne_minus n (u := rest) (v := more)
      rwa [Text.natural, String.toList_ofList] at htext
    simp only [Text.integer, Text.natural, String.toList_ofList, readNumber, hspan,
      if_neg (digits_ok n), readFraction_of_startsOutside h, readExponent_of_startsOutside h,
      Option.bind_eq_bind, Option.bind_some, signed, ofDigits_digits]
    rfl
  | negSucc n =>
    have htext : (Text.integer (.negSucc n)).toList ++ rest = '-' :: (digits (n + 1) ++ rest) := by
      simp [Text.integer, Text.natural]
    have hzero : digits (n + 1) ≠ ['0'] := fun hz ↦ absurd (eq_zero_of_digits_eq_cons hz) (by omega)
    rw [htext]
    simp only [readNumber, hspan, if_neg (digits_ok (n + 1)), readFraction_of_startsOutside h,
      readExponent_of_startsOutside h, Option.bind_eq_bind, Option.bind_some, signed,
      ofDigits_digits, hzero, and_false, not_false_eq_true, and_self, if_true]
    rfl

/-! ### White space -/

/-- The white space of JSON. -/
def isSpace (c : Char) : Bool := c = ' ' || c = '\t' || c = '\n' || c = '\r'

theorem skipSpace_eq_of_startsOutside (h : StartsOutside isSpace rest) : skipSpace rest = rest :=
  h.dropWhile_append (w := []) (by simp)

/-- White space in front of a text is skipped with the white space at its start. -/
theorem skipSpace_append {w : List Char} (hw : ∀ c ∈ w, isSpace c = true) (rest : List Char) :
    skipSpace (w ++ rest) = skipSpace rest :=
  List.dropWhile_append_of_pos hw

/-- White space is skipped up to the next other character. -/
theorem skipSpace_append_cons {w : List Char} (hw : ∀ c ∈ w, isSpace c = true) {c : Char}
    (hc : isSpace c = false) (rest : List Char) : skipSpace (w ++ c :: rest) = c :: rest := by
  rw [skipSpace_append hw, skipSpace_eq_of_startsOutside (startsOutside_cons hc)]

/-- A line begins with white space. -/
theorem isSpace_of_mem_newLine (level : Nat) :
    ∀ c ∈ (newLine level).toList, isSpace c = true := by
  intro c h
  rw [newLine, String.toList_append, String.toList_ofList, List.mem_append] at h
  rcases h with h | h
  · rw [List.mem_singleton.mp h]
    rfl
  · rw [String.toList_ofList] at h
    rw [List.eq_of_mem_replicate h]
    rfl

/-- A space is white space. -/
theorem isSpace_of_mem_space : ∀ c ∈ [' '], isSpace c = true :=
  List.forall_mem_singleton.mpr rfl

/-- White space and brackets do not go on with a number. -/
theorem startsOutside_isNumeric {w : List Char} (hw : ∀ c ∈ w, isSpace c = true) {c : Char}
    (hc : isNumeric c = false) (rest : List Char) : StartsOutside isNumeric (w ++ c :: rest) := by
  cases w with
  | nil => exact startsOutside_cons hc
  | cons d w =>
    have hd := hw d List.mem_cons_self
    apply startsOutside_cons
    simp only [isSpace, Bool.or_eq_true, decide_eq_true_eq] at hd
    rcases hd with ((rfl | rfl) | rfl) | rfl <;> rfl

/-- White space in front of a value does not count. -/
theorem readValue_append_space {w : List Char} (hw : ∀ c ∈ w, isSpace c = true) (n : Nat)
    (rest : List Char) : readValue n (w ++ rest) = readValue n rest := by
  cases n with
  | zero => rfl
  | succ n => rw [readValue, readValue, skipSpace_append hw]

/-- White space in front of the items of an array does not count. -/
theorem readItems_append_space {w : List Char} (hw : ∀ c ∈ w, isSpace c = true) (n : Nat)
    (held : List Json) (rest : List Char) :
    readItems n held (w ++ rest) = readItems n held rest := by
  cases n with
  | zero => rfl
  | succ n => rw [readItems, readItems, readValue_append_space hw]

/-- White space in front of the fields of an object does not count. -/
theorem readFields_append_space {w : List Char} (hw : ∀ c ∈ w, isSpace c = true) (n : Nat)
    (held : List (String × Json)) (rest : List Char) :
    readFields n held (w ++ rest) = readFields n held rest := by
  cases n with
  | zero => rfl
  | succ n => rw [readFields, readFields, skipSpace_append hw]

/-! ### Values -/

/-- The text stands for the value, whatever comes next that does not go on with a number. -/
structure Denotes (j : Json) (w : List Char) : Prop where
  starts : ∃ c v, w = c :: v ∧ isSpace c = false ∧ c ≠ ']'
  reads : ∀ n rest, w.length < n → StartsOutside isNumeric rest →
    readValue n (w ++ rest) = some (j, rest)

/-- The text stands for the items of an array, if the array ends behind it. -/
structure DenotesItems (items : List Json) (w : List Char) : Prop where
  starts : ∃ c v, w = c :: v ∧ isSpace c = false ∧ c ≠ ']'
  reads : ∀ n held blanks rest, w.length + 1 < n → (∀ c ∈ blanks, isSpace c = true) →
    readItems n held (w ++ (blanks ++ ']' :: rest)) =
      some (array (held.reverse ++ items), rest)

/-- The text stands for the fields of an object, if the object ends behind it. -/
structure DenotesFields (fields : List (String × Json)) (w : List Char) : Prop where
  starts : ∃ v, w = '"' :: v
  reads : ∀ n held blanks rest, w.length < n → (∀ c ∈ blanks, isSpace c = true) →
    readFields n held (w ++ (blanks ++ '}' :: rest)) =
      some (object (mergedFields held fields), rest)

theorem denotes_null : Denotes null "null".toList where
  starts := ⟨'n', ['u', 'l', 'l'], rfl, rfl, by decide⟩
  reads n rest hn _ := by
    obtain ⟨n, rfl⟩ := Nat.exists_eq_add_one_of_ne_zero (Nat.ne_zero_of_lt hn)
    rfl

theorem denotes_bool (b : Bool) : Denotes (bool b) (if b then "true" else "false").toList := by
  cases b with
  | false =>
    refine ⟨⟨'f', ['a', 'l', 's', 'e'], rfl, rfl, by decide⟩, fun n rest hn _ ↦ ?_⟩
    obtain ⟨n, rfl⟩ := Nat.exists_eq_add_one_of_ne_zero (Nat.ne_zero_of_lt hn)
    rfl
  | true =>
    refine ⟨⟨'t', ['r', 'u', 'e'], rfl, rfl, by decide⟩, fun n rest hn _ ↦ ?_⟩
    obtain ⟨n, rfl⟩ := Nat.exists_eq_add_one_of_ne_zero (Nat.ne_zero_of_lt hn)
    rfl

theorem denotes_string (s : String) : Denotes (string s) (quoted s) where
  starts := ⟨'"', _, rfl, rfl, by decide⟩
  reads n rest hn _ := by
    obtain ⟨n, rfl⟩ := Nat.exists_eq_add_one_of_ne_zero (Nat.ne_zero_of_lt hn)
    have hlength : (s.toList.flatMap fun c ↦ (escape c).toList).length < n + 1 := by
      simp only [quoted, List.length_cons, List.length_append] at hn
      omega
    have hread := readString_flatMap s.toList [] rest hlength
    have htext : quoted s ++ rest =
        '"' :: ((s.toList.flatMap fun c ↦ (escape c).toList) ++ '"' :: rest) := by
      simp [quoted]
    rw [htext, readValue]
    change (readString (n + 1) [] _).map _ = _
    rw [hread, Option.map_some, List.reverse_nil, List.nil_append, String.ofList_toList]

/-- The characters that a number begins with. -/
private def StartsNumber (c : Char) : Prop := c.isDigit = true ∨ c = '-'

private theorem exists_startsNumber (n : Int) :
    ∃ c v, (Text.integer n).toList = c :: v ∧ StartsNumber c := by
  cases n with
  | ofNat n =>
    obtain ⟨d, ds, hds, hd⟩ := exists_digit n
    refine ⟨d, ds, ?_, .inl hd⟩
    rw [Text.integer, Text.natural, String.toList_ofList, hds]
  | negSucc n =>
    refine ⟨'-', (Text.natural (n + 1)).toList, ?_, .inr rfl⟩
    rw [Text.integer, String.toList_append]
    rfl

private theorem StartsNumber.ne {c : Char} (h : StartsNumber c) {d : Char}
    (hd : (d.isDigit || d = '-') = false) : c ≠ d := by
  rintro rfl
  rcases h with h | rfl
  · simp [h] at hd
  · cases hd

private theorem StartsNumber.isSpace {c : Char} (h : StartsNumber c) : isSpace c = false := by
  simp [Json.isSpace, h.ne (d := ' ') rfl, h.ne (d := '\t') rfl, h.ne (d := '\n') rfl,
    h.ne (d := '\r') rfl]

/-- What begins like a number is read as one. -/
private theorem readValue_of_startsNumber {c : Char} (hc : StartsNumber c) (n : Nat)
    (v : List Char) : readValue (n + 1) (c :: v) = readNumber (c :: v) := by
  rw [readValue, skipSpace_eq_of_startsOutside (startsOutside_cons hc.isSpace)]
  split
  · next heq => exact absurd (List.cons.inj heq).1 (hc.ne rfl)
  · next heq => exact absurd (List.cons.inj heq).1 (hc.ne rfl)
  · next heq => exact absurd (List.cons.inj heq).1 (hc.ne rfl)
  · next heq => exact absurd (List.cons.inj heq).1 (hc.ne rfl)
  · next heq => exact absurd (List.cons.inj heq).1 (hc.ne rfl)
  · next heq => exact absurd (List.cons.inj heq).1 (hc.ne rfl)
  · rfl

theorem denotes_integer (n : Int) : Denotes (integer n) (Text.integer n).toList := by
  obtain ⟨c, v, hcv, hc⟩ := exists_startsNumber n
  refine ⟨⟨c, v, hcv, hc.isSpace, hc.ne rfl⟩, fun k rest hk hrest ↦ ?_⟩
  obtain ⟨k, rfl⟩ := Nat.exists_eq_add_one_of_ne_zero (Nat.ne_zero_of_lt hk)
  have hnumber := readNumber_integer n hrest
  rw [hcv] at hnumber ⊢
  rwa [List.cons_append, readValue_of_startsNumber hc]

theorem denotes_array_nil : Denotes (array []) "[]".toList where
  starts := ⟨'[', [']'], rfl, rfl, by decide⟩
  reads n rest hn _ := by
    obtain ⟨n, rfl⟩ := Nat.exists_eq_add_one_of_ne_zero (Nat.ne_zero_of_lt hn)
    rfl

theorem denotes_object_nil : Denotes (object []) "\x7b\x7d".toList where
  starts := ⟨'{', ['}'], rfl, rfl, by decide⟩
  reads n rest hn _ := by
    obtain ⟨n, rfl⟩ := Nat.exists_eq_add_one_of_ne_zero (Nat.ne_zero_of_lt hn)
    rfl

/-! ### Items and fields -/

variable {j : Json} {items : List Json} {fields : List (String × Json)} {name : String}
  {v w blanks blanks' : List Char}

theorem Denotes.length_pos (h : Denotes j v) : 0 < v.length := by
  obtain ⟨c, v, rfl, -⟩ := h.starts
  exact Nat.succ_pos _

/-- The last item of an array. -/
theorem DenotesItems.last (h : Denotes j v) : DenotesItems [j] v where
  starts := h.starts
  reads n held blanks rest hn hblanks := by
    obtain ⟨n, rfl⟩ := Nat.exists_eq_add_one_of_ne_zero (Nat.ne_zero_of_lt hn)
    have hvalue := h.reads n (blanks ++ ']' :: rest) (by omega)
      (startsOutside_isNumeric hblanks rfl rest)
    rw [readItems, hvalue]
    simp only [skipSpace_append_cons hblanks (c := ']') rfl]
    simp

/-- An item of an array with others behind it. -/
theorem DenotesItems.cons (h : Denotes j v) (hblanks : ∀ c ∈ blanks, isSpace c = true)
    (h' : DenotesItems items w) : DenotesItems (j :: items) (v ++ ',' :: (blanks ++ w)) where
  starts := by
    obtain ⟨c, v, rfl, hc⟩ := h.starts
    exact ⟨c, _, rfl, hc⟩
  reads n held blanks' rest hn hblanks' := by
    obtain ⟨n, rfl⟩ := Nat.exists_eq_add_one_of_ne_zero (Nat.ne_zero_of_lt hn)
    have hpos := h.length_pos
    simp only [List.length_append, List.length_cons] at hn
    have htext : (v ++ ',' :: (blanks ++ w)) ++ (blanks' ++ ']' :: rest) =
        v ++ ',' :: (blanks ++ (w ++ (blanks' ++ ']' :: rest))) := by simp
    have hvalue := h.reads n (',' :: (blanks ++ (w ++ (blanks' ++ ']' :: rest)))) (by omega)
      (startsOutside_cons rfl)
    have hitems := h'.reads n (j :: held) blanks' rest (by omega) hblanks'
    rw [htext, readItems, hvalue]
    simp only [skipSpace_eq_of_startsOutside (startsOutside_cons (c := ',') rfl)]
    rw [readItems_append_space hblanks, hitems]
    simp

/-- An array with items. -/
theorem DenotesItems.denotes_array (h : DenotesItems items w)
    (hblanks : ∀ c ∈ blanks, isSpace c = true) (hblanks' : ∀ c ∈ blanks', isSpace c = true) :
    Denotes (array items) ('[' :: (blanks ++ (w ++ (blanks' ++ [']'])))) where
  starts := ⟨'[', _, rfl, rfl, by decide⟩
  reads n rest hn _ := by
    obtain ⟨n, rfl⟩ := Nat.exists_eq_add_one_of_ne_zero (Nat.ne_zero_of_lt hn)
    simp only [List.length_append, List.length_cons, List.length_nil] at hn
    obtain ⟨c, w, rfl, hc, hclose⟩ := h.starts
    have hitems := h.reads n [] blanks' rest (by omega) hblanks'
    have htext : ('[' :: (blanks ++ (c :: w ++ (blanks' ++ [']'])))) ++ rest =
        '[' :: (blanks ++ c :: (w ++ (blanks' ++ ']' :: rest))) := by simp
    rw [htext, readValue, skipSpace_eq_of_startsOutside (startsOutside_cons rfl)]
    simp only [skipSpace_append_cons hblanks hc]
    split
    · next heq => exact absurd (List.cons.inj heq).1 hclose
    · exact hitems

/-- A field is read with its name and its value; what comes next decides how it goes on. -/
private theorem readFields_field (h : Denotes j v) (hblanks : ∀ c ∈ blanks, isSpace c = true)
    {n : Nat} (hn : (quoted name).length + v.length ≤ n) (held : List (String × Json))
    {more : List Char} (hmore : StartsOutside isNumeric more) :
    readFields (n + 1) held (quoted name ++ ':' :: (blanks ++ (v ++ more))) =
      match skipSpace more with
      | ',' :: rest => readFields n (setField name j held) rest
      | '}' :: rest => some (object (setField name j held), rest)
      | _ => none := by
  simp only [quoted, List.length_cons, List.length_append, List.length_nil] at hn
  have htext : quoted name ++ ':' :: (blanks ++ (v ++ more)) =
      '"' :: ((name.toList.flatMap fun c ↦ (escape c).toList) ++
        '"' :: ':' :: (blanks ++ (v ++ more))) := by
    simp [quoted]
  have hname := readString_flatMap name.toList [] (':' :: (blanks ++ (v ++ more)))
    (n := n + 1) (by omega)
  have hvalue : readValue n (blanks ++ (v ++ more)) = some (j, more) := by
    rw [readValue_append_space hblanks]
    exact h.reads n more (by omega) hmore
  rw [htext, readFields, skipSpace_eq_of_startsOutside (startsOutside_cons rfl)]
  simp only [hname, List.reverse_nil, List.nil_append, String.ofList_toList,
    skipSpace_eq_of_startsOutside (startsOutside_cons (P := isSpace) (c := ':') rfl)]
  generalize readValue n (blanks ++ (v ++ more)) = value at hvalue
  subst hvalue
  rfl

/-- The last field of an object. -/
theorem DenotesFields.last (h : Denotes j.merged v) (hblanks : ∀ c ∈ blanks, isSpace c = true) :
    DenotesFields [(name, j)] (quoted name ++ ':' :: (blanks ++ v)) where
  starts := ⟨_, rfl⟩
  reads n held blanks' rest hn hblanks' := by
    obtain ⟨n, rfl⟩ := Nat.exists_eq_add_one_of_ne_zero (Nat.ne_zero_of_lt hn)
    simp only [List.length_append, List.length_cons] at hn
    have htext : (quoted name ++ ':' :: (blanks ++ v)) ++ (blanks' ++ '}' :: rest) =
        quoted name ++ ':' :: (blanks ++ (v ++ (blanks' ++ '}' :: rest))) := by simp
    rw [htext, readFields_field h hblanks (by omega) held
      (startsOutside_isNumeric hblanks' rfl rest), skipSpace_append_cons hblanks' rfl]
    rfl

/-- A field of an object with others behind it. -/
theorem DenotesFields.cons (h : Denotes j.merged v) (hblanks : ∀ c ∈ blanks, isSpace c = true)
    (hblanks' : ∀ c ∈ blanks', isSpace c = true) (h' : DenotesFields fields w) :
    DenotesFields ((name, j) :: fields)
      (quoted name ++ ':' :: (blanks ++ (v ++ ',' :: (blanks' ++ w)))) where
  starts := ⟨_, rfl⟩
  reads n held blanks'' rest hn hblanks'' := by
    obtain ⟨n, rfl⟩ := Nat.exists_eq_add_one_of_ne_zero (Nat.ne_zero_of_lt hn)
    simp only [List.length_append, List.length_cons] at hn
    have hfields := h'.reads n (setField name j.merged held) blanks'' rest (by omega) hblanks''
    have htext : (quoted name ++ ':' :: (blanks ++ (v ++ ',' :: (blanks' ++ w)))) ++
        (blanks'' ++ '}' :: rest) = quoted name ++ ':' :: (blanks ++ (v ++
          (',' :: (blanks' ++ (w ++ (blanks'' ++ '}' :: rest)))))) := by simp
    rw [htext, readFields_field h hblanks (by omega) held (startsOutside_cons rfl),
      skipSpace_eq_of_startsOutside (startsOutside_cons rfl)]
    simp only
    rw [readFields_append_space hblanks', hfields]
    rfl

/-- An object with fields. -/
theorem DenotesFields.denotes_object (h : DenotesFields fields w)
    (hblanks : ∀ c ∈ blanks, isSpace c = true) (hblanks' : ∀ c ∈ blanks', isSpace c = true) :
    Denotes (object (mergedFields [] fields))
      ('{' :: (blanks ++ (w ++ (blanks' ++ ['}'])))) where
  starts := ⟨'{', _, rfl, rfl, by decide⟩
  reads n rest hn _ := by
    obtain ⟨n, rfl⟩ := Nat.exists_eq_add_one_of_ne_zero (Nat.ne_zero_of_lt hn)
    simp only [List.length_append, List.length_cons, List.length_nil] at hn
    obtain ⟨w, rfl⟩ := h.starts
    have hfields := h.reads n [] blanks' rest (by omega) hblanks'
    have htext : ('{' :: (blanks ++ ('"' :: w ++ (blanks' ++ ['}'])))) ++ rest =
        '{' :: (blanks ++ '"' :: (w ++ (blanks' ++ '}' :: rest))) := by simp
    rw [htext, readValue, skipSpace_eq_of_startsOutside (startsOutside_cons rfl)]
    simp only [skipSpace_append_cons hblanks (c := '"') rfl]
    exact hfields

/-! ### Values in lines -/

mutual

/-- A value in lines stands for the value with its fields merged. -/
theorem exists_writePretty : ∀ (j : Json), j.integral = true → ∀ (level : Nat) (out : String),
    ∃ w, (writePretty level out j).toList = out.toList ++ w ∧ Denotes j.merged w
  | null, _, _, out => ⟨_, String.toList_append, denotes_null⟩
  | bool b, _, _, out => ⟨_, String.toList_append, denotes_bool b⟩
  | integer n, _, _, out => ⟨_, String.toList_append, denotes_integer n⟩
  | number _, h, _, _ => by cases h
  | string s, _, _, out => ⟨_, toList_quoteTo out s, denotes_string s⟩
  | array [], _, _, out => ⟨_, String.toList_append, denotes_array_nil⟩
  | array (item :: rest), h, level, out => by
    obtain ⟨w, hw, hitems⟩ :=
      exists_writePrettyItems (item :: rest) (List.cons_ne_nil _ _) h (level + 1) (out ++ "[") true
    refine ⟨_, ?_, hitems.denotes_array (isSpace_of_mem_newLine (level + 1))
      (isSpace_of_mem_newLine level)⟩
    rw [writePretty, String.toList_append, String.toList_append, hw]
    simp
  | object [], _, _, out => ⟨_, String.toList_append, denotes_object_nil⟩
  | object (field :: rest), h, level, out => by
    obtain ⟨w, hw, hfields⟩ := exists_writePrettyFields (field :: rest) (List.cons_ne_nil _ _) h
      (level + 1) (out ++ "\x7b") true
    refine ⟨_, ?_, hfields.denotes_object (isSpace_of_mem_newLine (level + 1))
      (isSpace_of_mem_newLine level)⟩
    rw [writePretty, String.toList_append, String.toList_append, hw]
    simp

/-- Items in lines stand for the items with their fields merged. -/
private theorem exists_writePrettyItems : ∀ (items : List Json), items ≠ [] →
    integralItems items = true → ∀ (level : Nat) (out : String) (first : Bool),
    ∃ w, (writePrettyItems level out first items).toList =
      out.toList ++ ((if first then [] else [',']) ++ ((newLine level).toList ++ w)) ∧
        DenotesItems (mergedItems items) w
  | [], hne, _, _, _, _ => absurd rfl hne
  | [item], _, h, level, out, first => by
    rw [integralItems, Bool.and_eq_true] at h
    obtain ⟨v, hv, hitem⟩ := exists_writePretty item h.1 level
      ((if first then out else out ++ ",") ++ newLine level)
    refine ⟨v, ?_, .last hitem⟩
    rw [writePrettyItems, writePrettyItems, hv]
    cases first <;> simp
  | item :: next :: rest, _, h, level, out, first => by
    rw [integralItems, Bool.and_eq_true] at h
    obtain ⟨v, hv, hitem⟩ := exists_writePretty item h.1 level
      ((if first then out else out ++ ",") ++ newLine level)
    obtain ⟨w, hw, hitems⟩ := exists_writePrettyItems (next :: rest) (List.cons_ne_nil _ _) h.2
      level (writePretty level ((if first then out else out ++ ",") ++ newLine level) item) false
    refine ⟨_, ?_, .cons hitem (isSpace_of_mem_newLine level) hitems⟩
    rw [writePrettyItems, hw, hv]
    cases first <;> simp

/-- Fields in lines stand for these fields. -/
private theorem exists_writePrettyFields : ∀ (fields : List (String × Json)), fields ≠ [] →
    integralFields fields = true → ∀ (level : Nat) (out : String) (first : Bool),
    ∃ w, (writePrettyFields level out first fields).toList =
      out.toList ++ ((if first then [] else [',']) ++ ((newLine level).toList ++ w)) ∧
        DenotesFields fields w
  | [], hne, _, _, _, _ => absurd rfl hne
  | [(name, value)], _, h, level, out, first => by
    rw [integralFields, Bool.and_eq_true] at h
    obtain ⟨v, hv, hvalue⟩ := exists_writePretty value h.1 level
      (quoteTo ((if first then out else out ++ ",") ++ newLine level) name ++ ": ")
    refine ⟨_, ?_, .last hvalue isSpace_of_mem_space⟩
    rw [writePrettyFields, writePrettyFields, hv, String.toList_append, toList_quoteTo]
    cases first <;> simp
  | (name, value) :: field :: rest, _, h, level, out, first => by
    rw [integralFields, Bool.and_eq_true] at h
    obtain ⟨v, hv, hvalue⟩ := exists_writePretty value h.1 level
      (quoteTo ((if first then out else out ++ ",") ++ newLine level) name ++ ": ")
    obtain ⟨w, hw, hfields⟩ := exists_writePrettyFields (field :: rest) (List.cons_ne_nil _ _) h.2
      level (writePretty level
        (quoteTo ((if first then out else out ++ ",") ++ newLine level) name ++ ": ") value) false
    refine ⟨_, ?_, .cons hvalue isSpace_of_mem_space (isSpace_of_mem_newLine level) hfields⟩
    rw [writePrettyFields, hw, hv, String.toList_append, toList_quoteTo]
    cases first <;> simp

end

/-- A value that is written in lines, with a line feed behind it, is read back with its fields
merged. -/
theorem ofText?_closed_pretty {j : Json} (h : j.integral = true) :
    ofText? (Text.closed [j.pretty]) = some j.merged := by
  obtain ⟨w, hw, hj⟩ := exists_writePretty j h 0 ""
  have htext : (Text.closed [j.pretty]).toList = w ++ ['\n'] := by
    simpa [Text.toList_closed, pretty] using hw
  have hread := hj.reads (2 * (w ++ ['\n']).length + 2) ['\n'] (by simp; omega)
    (startsOutside_cons rfl)
  simp only [ofText?, htext, hread]
  rfl

end TapeMachine.Json
