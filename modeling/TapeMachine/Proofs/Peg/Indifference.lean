import TapeMachine.Proofs.Peg.Outcome

/-!
# Texts that differ in letters

Two texts differ in some letters only, and not before a certain place (`DifferIn`). An expression is
steady at a place if it fares alike on both texts from there: it is refused with the same misses, or
it matches up to the same place with the same misses, and then with the same value unless it has
read on to where the texts differ (`Steady`). An expression that tells none of the letters apart is
steady everywhere (`steady_of_blindTo`).
-/

namespace TapeMachine.Peg

variable {ρ α β : Type}

/-- The cursor at a place of a text. -/
def Cursor.atPos (text : List Char) (pos : Nat) : Cursor := ⟨text.drop pos, pos⟩

@[simp] theorem Cursor.atPos_rest (text : List Char) (pos : Nat) :
    (atPos text pos).rest = text.drop pos := rfl

/-- The texts are equally long and have the same characters at the places before `start`, and at
every other place the same character or two of the letters. -/
structure DifferIn (letters : List Char) (start : Nat) (s t : List Char) : Prop where
  length_eq : s.length = t.length
  before : ∀ i < start, s[i]? = t[i]?
  either : ∀ (i : Nat) (a b : Char), s[i]? = Option.some a → t[i]? = Option.some b →
    a = b ∨ a ∈ letters ∧ b ∈ letters

/-- The replies on two texts from a place on are alike. -/
inductive Reply.Agree (s t : List Char) (start pos : Nat) : Reply ρ α → Reply ρ α → Prop
  | refused (m : Misses ρ) : Agree s t start pos (.refused m) (.refused m)
  | matched {a b : α} {next : Nat} (m : Misses ρ) : pos ≤ next → (next ≤ start → a = b) →
      Agree s t start pos (.matched a (.atPos s next) m) (.matched b (.atPos t next) m)

namespace Reply.Agree

variable {s t : List Char} {start pos : Nat}

theorem of_refused {m : Misses ρ} {r : Reply ρ α} (h : Agree s t start pos (.refused m) r) :
    r = .refused m := by
  cases h
  rfl

theorem of_matched {a : α} {c : Cursor} {m : Misses ρ} {r : Reply ρ α}
    (h : Agree s t start pos (.matched a c m) r) :
    ∃ b next, c = .atPos s next ∧ r = .matched b (.atPos t next) m ∧ (next ≤ start → a = b) := by
  cases h with
  | @matched a b next m hle hab => exact ⟨b, next, rfl, rfl, hab⟩

end Reply.Agree

/-- At a place of two texts the expression fares alike on both. -/
def Steady (s t : List Char) (start : Nat) (e : Peg ρ α) (pos : Nat) : Prop :=
  ∀ rounds m, Reply.Agree s t start pos (e.scan rounds (.atPos s pos) m)
    (e.scan rounds (.atPos t pos) m)

/-- The expression does not tell the letters apart. -/
def blindTo (letters : List Char) : {α : Type} → Peg ρ α → Bool
  | _, .literal text => text.toList.all fun a ↦ a ∉ letters
  | _, .satisfying p => letters.all fun a ↦ letters.all fun b ↦ p a = p b
  | _, .ends => true
  | _, .seq first second => first.blindTo letters && second.blindTo letters
  | _, .choice first second => first.blindTo letters && second.blindTo letters
  | _, .optional e => e.blindTo letters
  | _, .many e => e.blindTo letters
  | _, .without e => e.blindTo letters
  | _, .map _ e => e.blindTo letters
  | _, .rule _ e => e.blindTo letters

variable {letters s t : List Char} {start pos : Nat}

/-! ### Cursors -/

namespace Cursor

/-- The start of a text is its first place. -/
theorem ofText_eq_atPos (text : List Char) : ofText text = atPos text 0 := rfl

/-- From no place of a text more is left than the text. -/
theorem length_rest_lt {rounds : Nat} (h : s.length < rounds) (pos : Nat) :
    (atPos s pos).rest.length < rounds := by
  rw [atPos_rest, List.length_drop]
  omega

/-- An expression that matches leads on, and further if it reads. -/
theorem le_of_outcome {e : Peg ρ α} {a : α} {next : Nat}
    (h : e.outcome (atPos s pos) = Option.some (a, atPos s next)) :
    pos ≤ next ∧ (e.reads = true → pos < next) := by
  obtain ⟨w, hw, hne⟩ := outcome_passes h
  have hnext : next = pos + w.length := hw.pos_eq
  refine ⟨by omega, fun hr ↦ ?_⟩
  have := List.length_pos_iff.mpr (hne hr)
  omega

end Cursor

/-! ### Texts that differ -/

/-- Two words of the same length in the same surroundings differ in their letters only. -/
theorem differIn_append {v w : List Char} (hlen : v.length = w.length)
    (hv : ∀ a ∈ v, a ∈ letters) (hw : ∀ a ∈ w, a ∈ letters) (before after : List Char) :
    DifferIn letters before.length (before ++ (v ++ after)) (before ++ (w ++ after)) where
  length_eq := by simp only [List.length_append, hlen]
  before i hi := by rw [List.getElem?_append_left hi, List.getElem?_append_left hi]
  either i a b ha hb := by
    by_cases hi : i < before.length
    · rw [List.getElem?_append_left hi] at ha hb
      exact .inl (Option.some.inj (ha.symm.trans hb))
    · rw [List.getElem?_append_right (by omega)] at ha hb
      by_cases hj : i - before.length < v.length
      · rw [List.getElem?_append_left hj] at ha
        rw [List.getElem?_append_left (hlen ▸ hj)] at hb
        exact .inr ⟨hv a (List.mem_of_getElem? ha), hw b (List.mem_of_getElem? hb)⟩
      · rw [List.getElem?_append_right (by omega)] at ha hb
        rw [hlen] at ha
        exact .inl (Option.some.inj (ha.symm.trans hb))

namespace DifferIn

/-- It does not matter which text is named first. -/
theorem symm (h : DifferIn letters start s t) : DifferIn letters start t s where
  length_eq := h.length_eq.symm
  before i hi := (h.before i hi).symm
  either i a b ha hb := (h.either i b a hb ha).imp Eq.symm And.symm

/-- A word without letters that begins at a place of one text begins there in the other. -/
theorem isPrefix (h : DifferIn letters start s t) {w : List Char} (hw : ∀ a ∈ w, a ∉ letters)
    (hs : w <+: s.drop pos) : w <+: t.drop pos := by
  induction w generalizing pos with
  | nil => exact List.nil_prefix
  | cons a w ih =>
    obtain ⟨rest, hrest⟩ := hs
    have hpos : pos < s.length := by
      refine Nat.lt_of_not_le fun hle ↦ ?_
      rw [List.drop_eq_nil_of_le hle] at hrest
      cases hrest
    have hpos' : pos < t.length := h.length_eq ▸ hpos
    rw [List.drop_eq_getElem_cons hpos, List.cons_append] at hrest
    obtain ⟨rfl, htail⟩ := List.cons.inj hrest
    have hsame : s[pos] = t[pos] := by
      refine (h.either pos _ _ (List.getElem?_eq_getElem hpos)
        (List.getElem?_eq_getElem hpos')).resolve_right fun hl ↦ ?_
      exact hw _ List.mem_cons_self hl.1
    rw [List.drop_eq_getElem_cons hpos', hsame, List.cons_prefix_cons]
    exact ⟨rfl, ih (fun b hb ↦ hw b (List.mem_cons_of_mem _ hb)) ⟨rest, htail⟩⟩

end DifferIn

/-! ### Steady expressions -/

/-- A text is read up to behind its last character. -/
theorem dropText?_drop {w : List Char} (h : w <+: s.drop pos) :
    dropText? w (s.drop pos) = Option.some (s.drop (pos + w.length)) := by
  obtain ⟨rest, hrest⟩ := h
  rw [dropText?_eq_some_iff, ← List.drop_drop, ← hrest, List.drop_left]

/-- A text is steady where it begins in both texts or in none. -/
theorem steady_literal {text : String}
    (h : text.toList <+: s.drop pos ↔ text.toList <+: t.drop pos) :
    Steady s t start (literal text : Peg ρ Unit) pos := by
  intro rounds m
  simp only [scan, Cursor.atPos]
  by_cases hs : text.toList <+: s.drop pos
  · rw [dropText?_drop hs, dropText?_drop (h.mp hs), String.length_toList]
    exact .matched m (Nat.le_add_right _ _) fun _ ↦ rfl
  · rw [dropText?_eq_none_iff.mpr hs, dropText?_eq_none_iff.mpr fun ht ↦ hs (h.mpr ht)]
    exact .refused m

private theorem isPrefix_append_iff {w x y : List Char} {c : Char} (hx : x.getLast? = Option.some c)
    (hc : c ∉ w.dropLast) : w <+: x ++ y ↔ w <+: x := by
  refine ⟨fun h ↦ ?_, fun h ↦ h.trans (List.prefix_append x y)⟩
  rcases List.prefix_or_prefix_of_prefix h (List.prefix_append x y) with hwx | ⟨z, hz⟩
  · exact hwx
  -- A longer text would hold the last character of `x` before its own last one.
  · cases z with
    | nil =>
      rw [List.append_nil] at hz
      exact hz ▸ List.prefix_rfl
    | cons a z =>
      refine absurd ?_ hc
      rw [← hz, List.dropLast_append_of_ne_nil (List.cons_ne_nil a z)]
      exact List.mem_append_left _ (List.mem_of_getLast? hx)

/-- A text is steady before the end of what two texts begin with alike, unless it may go on behind
the last character of that. -/
theorem steady_literal_of_common {text : String} {u y z : List Char} {c : Char}
    (hu : u.getLast? = Option.some c) (hc : c ∉ text.toList.dropLast) (hpos : pos < u.length) :
    Steady (u ++ y) (u ++ z) start (literal text : Peg ρ Unit) pos := by
  have hlast : (u.drop pos).getLast? = Option.some c := by
    rw [List.getLast?_drop, if_neg (by omega), hu]
  apply steady_literal
  have hle := Nat.le_of_lt hpos
  rw [List.drop_append_of_le_length hle, List.drop_append_of_le_length hle,
    isPrefix_append_iff hlast hc, isPrefix_append_iff hlast hc]

/-- A class that does not tell the letters apart is steady. -/
theorem steady_satisfying (hd : DifferIn letters start s t) {p : Char → Bool}
    (hp : ∀ a ∈ letters, ∀ b ∈ letters, p a = p b) :
    Steady s t start (satisfying p : Peg ρ Char) pos := by
  intro rounds m
  simp only [scan, Cursor.atPos]
  by_cases hpos : pos < s.length
  · have hpos' : pos < t.length := hd.length_eq ▸ hpos
    have hsame : p s[pos] = p t[pos] := by
      rcases hd.either pos _ _ (List.getElem?_eq_getElem hpos)
        (List.getElem?_eq_getElem hpos') with heq | ⟨ha, hb⟩
      · rw [heq]
      · exact hp _ ha _ hb
    rw [List.drop_eq_getElem_cons hpos, List.drop_eq_getElem_cons hpos']
    simp only [hsame]
    split
    · refine .matched m (Nat.le_succ pos) fun hle ↦ ?_
      have hbefore := hd.before pos hle
      rwa [List.getElem?_eq_getElem hpos, List.getElem?_eq_getElem hpos',
        Option.some.injEq] at hbefore
    · exact .refused m
  · rw [List.drop_eq_nil_of_le (by omega),
      List.drop_eq_nil_of_le (by have := hd.length_eq; omega)]
    exact .refused m

/-- The end is steady, for the texts are equally long. -/
theorem steady_ends (hd : DifferIn letters start s t) :
    Steady s t start (ends : Peg ρ Unit) pos := by
  intro rounds m
  have hends : s.drop pos = [] ↔ t.drop pos = [] := by
    rw [List.drop_eq_nil_iff, List.drop_eq_nil_iff, hd.length_eq]
  simp only [scan, Cursor.atPos]
  cases hs : s.drop pos with
  | nil =>
    rw [hends.mp hs]
    have h : Reply.Agree s t start pos (.matched () (.atPos s pos) m)
        (.matched () (.atPos t pos) m : Reply ρ Unit) :=
      .matched m (Nat.le_refl pos) fun _ ↦ rfl
    simpa only [Cursor.atPos, hs, hends.mp hs] using h
  | cons a rest =>
    cases ht : t.drop pos with
    | nil =>
      rw [hends.mpr ht] at hs
      cases hs
    | cons b rest' => exact .refused m

namespace Steady

variable {e e' : Peg ρ α} {f : Peg ρ β}

/-- A sequence is steady if its first part is and its second part is wherever it may begin. -/
theorem seq (h : Steady s t start e pos) (h' : ∀ q, pos ≤ q → Steady s t start f q) :
    Steady s t start (e.seq f) pos := by
  intro rounds m
  have he := h rounds m
  simp only [scan]
  generalize e.scan rounds (.atPos s pos) m = r at he ⊢
  generalize e.scan rounds (.atPos t pos) m = r' at he ⊢
  cases he with
  | refused m => exact .refused m
  | @matched a b q m hq hab =>
    have hf := h' q hq rounds m
    simp only
    generalize f.scan rounds (.atPos s q) m = r at hf ⊢
    generalize f.scan rounds (.atPos t q) m = r' at hf ⊢
    cases hf with
    | refused m => exact .refused m
    | matched m hq' hcd =>
      refine .matched m (Nat.le_trans hq hq') fun hle ↦ ?_
      rw [hab (Nat.le_trans hq' hle), hcd hle]

/-- A choice is steady if both its expressions are. -/
theorem choice (h : Steady s t start e pos) (h' : Steady s t start e' pos) :
    Steady s t start (e.choice e') pos := by
  intro rounds m
  have he := h rounds m
  simp only [scan]
  generalize e.scan rounds (.atPos s pos) m = r at he ⊢
  generalize e.scan rounds (.atPos t pos) m = r' at he ⊢
  cases he with
  | refused m => exact h' rounds m
  | matched m hq hab => exact .matched m hq hab

/-- An option is steady if its expression is. -/
theorem optional (h : Steady s t start e pos) : Steady s t start e.optional pos := by
  intro rounds m
  have he := h rounds m
  simp only [scan]
  generalize e.scan rounds (.atPos s pos) m = r at he ⊢
  generalize e.scan rounds (.atPos t pos) m = r' at he ⊢
  cases he with
  | refused m => exact .matched m (Nat.le_refl pos) fun _ ↦ rfl
  | matched m hq hab => exact .matched m hq fun hle ↦ congrArg _ (hab hle)

private theorem agree_scanMany {one : Cursor → Misses ρ → Reply ρ α}
    (h : ∀ q, pos ≤ q → ∀ m,
      Reply.Agree s t start q (one (.atPos s q) m) (one (.atPos t q) m))
    (rounds : Nat) {held held' : List α} {q : Nat} (hq : pos ≤ q) (hh : q ≤ start → held = held')
    (m : Misses ρ) :
    Reply.Agree s t start pos (scanMany one rounds held (.atPos s q) m)
      (scanMany one rounds held' (.atPos t q) m) := by
  induction rounds generalizing held held' q m with
  | zero => exact .matched m hq fun hle ↦ by rw [hh hle]
  | succ rounds ih =>
    have hone := h q hq m
    simp only [scanMany]
    generalize one (.atPos s q) m = r at hone ⊢
    generalize one (.atPos t q) m = r' at hone ⊢
    cases hone with
    | refused m => exact .matched m hq fun hle ↦ by rw [hh hle]
    | matched m hq' hab =>
      refine ih (Nat.le_trans hq hq') (fun hle ↦ ?_) m
      rw [hh (Nat.le_trans hq' hle), hab hle]

/-- A repetition is steady if its expression is steady wherever a round may begin. -/
theorem many (h : ∀ q, pos ≤ q → Steady s t start e q) : Steady s t start e.many pos := by
  intro rounds m
  exact agree_scanMany (fun q hq m ↦ h q hq rounds m) rounds (Nat.le_refl pos) (fun _ ↦ rfl) m

/-- A look-ahead is steady if its expression is. -/
theorem without (h : Steady s t start e pos) : Steady s t start e.without pos := by
  intro rounds m
  have he := h rounds m
  simp only [scan]
  generalize e.scan rounds (.atPos s pos) m = r at he ⊢
  generalize e.scan rounds (.atPos t pos) m = r' at he ⊢
  cases he with
  | refused => exact .matched m (Nat.le_refl pos) fun _ ↦ rfl
  | matched => exact .refused m

/-- Other values make no difference. -/
theorem map (h : Steady s t start e pos) (g : α → β) : Steady s t start (e.map g) pos := by
  intro rounds m
  have he := h rounds m
  simp only [scan]
  generalize e.scan rounds (.atPos s pos) m = r at he ⊢
  generalize e.scan rounds (.atPos t pos) m = r' at he ⊢
  cases he with
  | refused m => exact .refused m
  | matched m hq hab => exact .matched m hq fun hle ↦ congrArg _ (hab hle)

/-- A rule is steady if its body is. -/
theorem rule (h : Steady s t start e pos) (name : ρ) : Steady s t start (Peg.rule name e) pos := by
  intro rounds m
  have he := h rounds m
  simp only [scan]
  generalize e.scan rounds (.atPos s pos) m = r at he ⊢
  generalize e.scan rounds (.atPos t pos) m = r' at he ⊢
  cases he with
  | refused m' => exact .refused _
  | matched m hq hab => exact .matched m hq fun hle ↦ by rw [hab hle]; rfl

/-- What matches in one text matches in the other, up to the same place. -/
theorem scan_of_outcome_some (h : Steady s t start e pos) (hf : e.founded = true) {rounds : Nat}
    (hr : s.length < rounds) {a : α} {next : Nat}
    (ho : e.outcome (.atPos s pos) = Option.some (a, .atPos s next)) (m : Misses ρ) :
    ∃ b m', e.scan rounds (.atPos s pos) m = .matched a (.atPos s next) m' ∧
      e.scan rounds (.atPos t pos) m = .matched b (.atPos t next) m' ∧
        (next ≤ start → a = b) := by
  obtain ⟨m', hs⟩ := scan_eq_outcome hf (Cursor.length_rest_lt hr pos) m
  have hagree := h rounds m
  rw [ho, Reply.ofOutcome] at hs
  rw [hs] at hagree
  obtain ⟨b, q, heq, ht, hab⟩ := hagree.of_matched
  obtain rfl : next = q := congrArg Cursor.pos heq
  exact ⟨b, m', hs, ht, hab⟩

/-- What is refused in one text is refused in the other, with the same misses. -/
theorem scan_of_outcome_none (h : Steady s t start e pos) (hf : e.founded = true) {rounds : Nat}
    (hr : s.length < rounds) (ho : e.outcome (.atPos s pos) = none) (m : Misses ρ) :
    ∃ m', e.scan rounds (.atPos s pos) m = .refused m' ∧
      e.scan rounds (.atPos t pos) m = .refused m' := by
  obtain ⟨m', hs⟩ := scan_eq_outcome hf (Cursor.length_rest_lt hr pos) m
  have hagree := h rounds m
  rw [ho, Reply.ofOutcome] at hs
  rw [hs] at hagree
  exact ⟨m', hs, hagree.of_refused⟩

/-- What follows a part whose value does not count. -/
theorem right (h : Steady s t start e pos) (h' : ∀ q, pos ≤ q → Steady s t start f q) :
    Steady s t start (e.right f) pos :=
  (h.seq h').map _

end Steady

/-- An expression that tells none of the letters apart in which two texts differ is steady. -/
theorem steady_of_blindTo (hd : DifferIn letters start s t) {e : Peg ρ α}
    (he : e.blindTo letters = true) (pos : Nat) : Steady s t start e pos := by
  induction e generalizing pos with
  | literal text =>
    have hw : ∀ a ∈ text.toList, a ∉ letters := by simpa [blindTo] using he
    exact steady_literal ⟨hd.isPrefix hw, hd.symm.isPrefix hw⟩
  | satisfying p =>
    have hp : ∀ a ∈ letters, ∀ b ∈ letters, p a = p b := by simpa [blindTo] using he
    exact steady_satisfying hd hp
  | ends => exact steady_ends hd
  | seq first second ih ih' =>
    rw [blindTo, Bool.and_eq_true] at he
    exact (ih he.1 pos).seq fun q _ ↦ ih' he.2 q
  | choice first second ih ih' =>
    rw [blindTo, Bool.and_eq_true] at he
    exact (ih he.1 pos).choice (ih' he.2 pos)
  | optional e ih => exact (ih he pos).optional
  | many e ih => exact .many fun q _ ↦ ih he q
  | without e ih => exact (ih he pos).without
  | map g e ih => exact (ih he pos).map g
  | rule name e ih => exact (ih he pos).rule name

end TapeMachine.Peg
