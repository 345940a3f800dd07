import Mathlib.Data.List.DropRight
import Mathlib.Data.List.Induction
import TapeMachine.Proofs.Catalogue.RewriteA
import TapeMachine.Proofs.Execution.Sweep

/-!
# The a's at the end of a word

On a word of a's and b's with a `#` behind it, "Rewrite a's" looks for an `a` to its right. It turns
that `a` and the letter behind it into b's, goes back one cell, and looks on. So letters go by two
from the first `a` on, and an `a` is left at the end exactly if the number of a's there is odd
(`rewriteA_trailingAs`).
-/

namespace TapeMachine.Catalogue

open Execution

variable {s : Symbol} {w rest left : List Symbol} {n : Nat} {last : Execution}

/-! ### Counting from behind -/

/-- The number of a's at the end of a word. -/
def trailingAs (w : List Symbol) : Nat := (w.rtakeWhile (· = letterA)).length

/-- There are no more a's at the end than letters. -/
theorem trailingAs_le (w : List Symbol) : trailingAs w ≤ w.length :=
  (w.rtakeWhile_suffix _).length_le

/-- A letter in front counts if it is an `a` and nothing but a's are behind it. -/
theorem trailingAs_cons (s : Symbol) (w : List Symbol) :
    trailingAs (s :: w) =
      trailingAs w + if trailingAs w = w.length ∧ s = letterA then 1 else 0 := by
  have hlength : trailingAs w = (w.reverse.takeWhile (· = letterA)).length := by
    rw [trailingAs, List.rtakeWhile, List.length_reverse]
  rw [hlength, trailingAs, List.rtakeWhile, List.length_reverse, List.reverse_cons,
    List.takeWhile_append, List.length_reverse]
  by_cases hall : (w.reverse.takeWhile (· = letterA)).length = w.length
  · by_cases hs : s = letterA <;> simp [hall, hs]
  · simp [hall]

/-- A `b` in front changes nothing. -/
theorem trailingAs_letterB_cons (w : List Symbol) : trailingAs (letterB :: w) = trailingAs w := by
  rw [trailingAs_cons, if_neg fun h ↦ absurd h.2 (by decide), Nat.add_zero]

/-- An `a` in front together with the letter behind it leaves the parity as it is. -/
theorem trailingAs_pair (hs : IsLetter s) (w : List Symbol) :
    trailingAs (letterA :: s :: w) % 2 = trailingAs w % 2 := by
  have hle := trailingAs_le w
  rcases hs with rfl | rfl
  · rw [trailingAs_cons, trailingAs_cons, List.length_cons]
    simp only [and_true]
    split <;> split <;> omega
  · rw [trailingAs_cons, trailingAs_letterB_cons, List.length_cons, if_neg (by omega),
      Nat.add_zero]

/-! ### Stages of a run -/

/-- The end of a run behind a word of some length with so many a's at its end. -/
def rewritten (count length steps : Nat) : Execution :=
  if count % 2 = 1 then
    ⟨⟨1⟩, .ofList (List.replicate (length - 1) letterB ++ [letterA, hash]), length, steps,
      some .accepted⟩
  else
    ⟨⟨0⟩, .ofList (List.replicate length letterB ++ [hash]), length, steps, some .rejected⟩

/-- The end of a run depends on the parity of the number of a's. -/
theorem rewritten_congr {count count' : Nat} (h : count % 2 = count' % 2) (length steps : Nat) :
    rewritten count length steps = rewritten count' length steps := by
  rw [rewritten, rewritten, h]

/-- The machine goes on over a `b`. -/
theorem endsIn_letterB {k : Nat} (hlast : rewriteAMachine.EndsIn
    (sentRight ⟨0⟩ (List.replicate (k + 1) letterB) rest (n + 1)) last) :
    rewriteAMachine.EndsIn (sentRight ⟨0⟩ (List.replicate k letterB) (letterB :: rest) n) last :=
  .of_right RewriteAMoves.pass.hasRule hlast

/-- A run that finds no `a` rejects. -/
theorem endsIn_hash (k n : Nat) : rewriteAMachine.EndsIn
    (sentRight ⟨0⟩ (List.replicate k letterB) [hash] n) (rewritten 0 k n) := by
  have hreject : rewriteAMachine.HasRule ⟨0⟩ hash ⟨⟨0⟩, hash, .reject⟩ :=
    Machine.hasRule_iff.mpr (by decide)
  have hlast : rewritten 0 k n =
      { facing ⟨0⟩ (List.replicate k letterB) hash [] n with halt := some .rejected } := by
    simp [rewritten, facing]
  rw [hlast]
  exact (Machine.HaltsOn.rejected hreject).endsIn

/-- A run that finds an `a` at the end of the word accepts. -/
theorem endsIn_letterA_hash (k n : Nat) : rewriteAMachine.EndsIn
    (sentRight ⟨0⟩ (List.replicate k letterB) [letterA, hash] n) (rewritten 1 (k + 1) (n + 1)) := by
  have haccept : rewriteAMachine.HasRule ⟨1⟩ hash ⟨⟨1⟩, hash, .accept⟩ :=
    Machine.hasRule_iff.mpr (by decide)
  have hlast : rewritten 1 (k + 1) (n + 1) =
      { facing ⟨1⟩ (letterA :: List.replicate k letterB) hash [] (n + 1) with
        halt := some .accepted } := by
    simp [rewritten, facing]
  rw [hlast]
  exact .of_right RewriteAMoves.find.hasRule (Machine.HaltsOn.accepted haccept).endsIn

/-- An `a` and the letter behind it are turned into b's, and the head is sent to the left. -/
theorem endsIn_pair (hs : IsLetter s) (left rest : List Symbol) (n : Nat) : ∃ n', ∀ last,
    rewriteAMachine.EndsIn (sentLeft ⟨0⟩ left (letterB :: letterB :: rest) n') last →
      rewriteAMachine.EndsIn (facing ⟨0⟩ left letterA (s :: rest) n) last := by
  have hfind := RewriteAMoves.find.hasRule
  have hturn := RewriteAMoves.turn.hasRule
  have hback := RewriteAMoves.back.hasRule
  have hpass {n : Nat} {last : Execution} (hlast : rewriteAMachine.EndsIn
      (sentLeft ⟨0⟩ left (letterB :: letterB :: rest) (n + 1 + 1 + 1)) last) :
      rewriteAMachine.EndsIn (facing ⟨0⟩ left letterA (letterB :: rest) n) last :=
    .of_right hfind (.of_left hback (.of_left hturn hlast))
  rcases hs with rfl | rfl
  · -- The second `a` goes first, and then the two cells are gone over once more.
    exact ⟨_, fun last hlast ↦ .of_right hfind (.of_left hturn (hpass hlast))⟩
  · exact ⟨_, fun last hlast ↦ hpass hlast⟩

/-- Behind a first `b` the letters go by, by two from each `a` on. The head never comes back to the
left end, since there is a `b` before every `a` that is found. -/
theorem endsIn_letters (w : List Symbol) (hw : ∀ s ∈ w, IsLetter s) (j n : Nat) : ∃ steps,
    rewriteAMachine.EndsIn (sentRight ⟨0⟩ (List.replicate (j + 1) letterB) (w ++ [hash]) n)
      (rewritten (trailingAs w) (j + 1 + w.length) steps) := by
  -- A `b` is passed alone, but an `a` takes the next letter with it. The b's behind the head are
  -- more each time, so `j` is not fixed.
  induction w using List.twoStepInduction generalizing j n with
  | nil => exact ⟨n, endsIn_hash (j + 1) n⟩
  | singleton s =>
    rcases hw s List.mem_cons_self with rfl | rfl
    · exact ⟨n + 1, endsIn_letterA_hash (j + 1) n⟩
    · exact ⟨n + 1, endsIn_letterB (endsIn_hash (j + 2) (n + 1))⟩
  | cons_cons s s' w ih ih' =>
    obtain ⟨hs, hw'⟩ := List.forall_mem_cons.mp hw
    obtain ⟨hs', hw''⟩ := List.forall_mem_cons.mp hw'
    rcases hs with rfl | rfl
    · obtain ⟨n', hpair⟩ := endsIn_pair hs' (List.replicate (j + 1) letterB) (w ++ [hash]) n
      obtain ⟨steps, hsteps⟩ := ih hw'' (j + 2) (n' + 3)
      have hlength : j + 1 + (letterA :: s' :: w).length = j + 2 + 1 + w.length := by
        simp only [List.length_cons]
        omega
      refine ⟨steps, hpair _ ?_⟩
      rw [rewritten_congr (trailingAs_pair hs' w), hlength]
      exact endsIn_letterB (endsIn_letterB (endsIn_letterB hsteps))
    · obtain ⟨steps, hsteps⟩ := ih' s' hw' (j + 1) (n + 1)
      have hlength : j + 1 + (letterB :: s' :: w).length = j + 1 + 1 + (s' :: w).length := by
        rw [List.length_cons]
        omega
      rw [trailingAs_letterB_cons, hlength]
      exact ⟨steps, endsIn_letterB hsteps⟩

/-! ### Whole runs -/

/-- A run on a word begins with its first letter. -/
theorem launch_word (w : List Symbol) : rewriteAMachine.launch (.ofList (w ++ [hash])) 0 =
    sentRight ⟨0⟩ (List.replicate 0 letterB) (w ++ [hash]) 0 := by
  cases w <;> rfl

/-- A word of two letters or more that begins with an `a` sends the head off the left end. -/
theorem endsIn_launch_letterA (hs : IsLetter s) (w : List Symbol) : ∃ steps,
    rewriteAMachine.EndsIn (rewriteAMachine.launch (.ofList (letterA :: s :: w ++ [hash])) 0)
      ⟨⟨0⟩, .ofList (letterB :: letterB :: w ++ [hash]), 0, steps, some (.outOfBounds (-1))⟩ := by
  obtain ⟨n, hpair⟩ := endsIn_pair hs [] (w ++ [hash]) 0
  rw [launch_word]
  exact ⟨n, hpair _ (Machine.endsIn_of_isHalted rfl)⟩

/-- On every other word the machine tells the parity of the a's at the end. -/
theorem endsIn_launch_word (hw : ∀ s ∈ w, IsLetter s)
    (hfirst : ¬(2 ≤ w.length ∧ w.head? = some letterA)) : ∃ steps,
    rewriteAMachine.EndsIn (rewriteAMachine.launch (.ofList (w ++ [hash])) 0)
      (rewritten (trailingAs w) w.length steps) := by
  rw [launch_word]
  cases w with
  | nil => exact ⟨0, endsIn_hash 0 0⟩
  | cons s w =>
    obtain ⟨hs, hw'⟩ := List.forall_mem_cons.mp hw
    rcases hs with rfl | rfl
    · obtain rfl : w = [] := by
        apply List.eq_nil_of_length_eq_zero
        simp only [List.length_cons, List.head?_cons, and_true] at hfirst
        omega
      exact ⟨1, endsIn_letterA_hash 0 0⟩
    · obtain ⟨steps, hsteps⟩ := endsIn_letters w hw' 0 1
      rw [trailingAs_letterB_cons, List.length_cons, Nat.add_comm]
      exact ⟨steps, endsIn_letterB hsteps⟩

/-- What "Rewrite a's" does with a word of a's and b's that a `#` ends. A word of two letters or
more that begins with an `a` sends the head off the left end of the tape, after its first two
letters were turned into b's. Every other word is turned into b's and rejected, if the number of a's
at its end is even; and it is turned into b's but for an `a` as its last letter and accepted, if
that number is odd. -/
theorem rewriteA_trailingAs : ∃ p, programNamed "Rewrite a's" = .ok p ∧ p.name = "Rewrite a's" ∧
    ∀ w : List Symbol, (∀ s ∈ w, s = letterA ∨ s = letterB) →
      (2 ≤ w.length ∧ w.head? = some letterA → ∃ steps,
        p.machine.run (.ofList (w ++ [hash])) 0 = some ⟨.outOfBounds (-1), ⟨0⟩,
          .ofList (letterB :: letterB :: w.drop 2 ++ [hash]), 0, steps⟩) ∧
      (¬(2 ≤ w.length ∧ w.head? = some letterA) →
        (trailingAs w % 2 = 1 → ∃ steps,
          p.machine.run (.ofList (w ++ [hash])) 0 = some ⟨.accepted, ⟨1⟩,
            .ofList (List.replicate (w.length - 1) letterB ++ [letterA, hash]), w.length, steps⟩) ∧
        (trailingAs w % 2 = 0 → ∃ steps,
          p.machine.run (.ofList (w ++ [hash])) 0 = some ⟨.rejected, ⟨0⟩,
            .ofList (List.replicate w.length letterB ++ [hash]), w.length, steps⟩)) := by
  have hfind : machines.find? (fun n ↦ sameName n.1 "Rewrite a's") =
      some ("Rewrite a's", rewriteAMachine) := by decide
  obtain ⟨p, hp, hname, hm⟩ := exists_programNamed hfind
  refine ⟨p, hp, hname, fun w hw ↦ ⟨?_, fun hfirst ↦ ?_⟩⟩
  · rintro ⟨hlength, hhead⟩
    obtain ⟨w, rfl⟩ := List.head?_eq_some_iff.mp hhead
    obtain ⟨s, w, rfl⟩ := List.exists_cons_of_length_pos (Nat.lt_of_succ_lt_succ hlength)
    have hs : IsLetter s := hw s (List.mem_cons_of_mem _ List.mem_cons_self)
    obtain ⟨steps, hends⟩ := endsIn_launch_letterA hs w
    rw [hm]
    exact ⟨steps, Machine.run_eq_some_iff.mpr ⟨_, hends, rfl⟩⟩
  · obtain ⟨steps, hends⟩ := endsIn_launch_word hw hfirst
    rw [hm]
    constructor
    · intro hodd
      rw [rewritten, if_pos hodd] at hends
      exact ⟨steps, Machine.run_eq_some_iff.mpr ⟨_, hends, rfl⟩⟩
    · intro heven
      rw [rewritten, if_neg (by omega)] at hends
      exact ⟨steps, Machine.run_eq_some_iff.mpr ⟨_, hends, rfl⟩⟩

/-- The words `aab`, `baaa` and `bab`, one for each end. -/
theorem rewriteA_trailingAs_words :
    let gone := [letterA, letterA, letterB]
    let odd := [letterB, letterA, letterA, letterA]
    let even := [letterB, letterA, letterB]
    ((∀ s ∈ gone, s = letterA ∨ s = letterB) ∧ (∀ s ∈ odd, s = letterA ∨ s = letterB) ∧
      ∀ s ∈ even, s = letterA ∨ s = letterB) ∧
    (2 ≤ gone.length ∧ gone.head? = some letterA) ∧
    (¬(2 ≤ odd.length ∧ odd.head? = some letterA) ∧ trailingAs odd % 2 = 1) ∧
    (¬(2 ≤ even.length ∧ even.head? = some letterA) ∧ trailingAs even % 2 = 0) ∧
    ∃ p, programNamed "Rewrite a's" = .ok p ∧
      (∃ steps, p.machine.run (.ofList (gone ++ [hash])) 0 = some ⟨.outOfBounds (-1), ⟨0⟩,
        .ofList [letterB, letterB, letterB, hash], 0, steps⟩) ∧
      (∃ steps, p.machine.run (.ofList (odd ++ [hash])) 0 = some ⟨.accepted, ⟨1⟩,
        .ofList [letterB, letterB, letterB, letterA, hash], 4, steps⟩) ∧
      ∃ steps, p.machine.run (.ofList (even ++ [hash])) 0 = some ⟨.rejected, ⟨0⟩,
        .ofList [letterB, letterB, letterB, hash], 3, steps⟩ := by
  intro gone odd even
  have hgone : ∀ s ∈ gone, s = letterA ∨ s = letterB := by decide
  have hodd : ∀ s ∈ odd, s = letterA ∨ s = letterB := by decide
  have heven : ∀ s ∈ even, s = letterA ∨ s = letterB := by decide
  have hfirst : 2 ≤ gone.length ∧ gone.head? = some letterA := by decide
  have hfirst' : ¬(2 ≤ odd.length ∧ odd.head? = some letterA) := by decide
  have hfirst'' : ¬(2 ≤ even.length ∧ even.head? = some letterA) := by decide
  have hone : trailingAs odd % 2 = 1 := by decide
  have hzero : trailingAs even % 2 = 0 := by decide
  obtain ⟨p, hp, -, h⟩ := rewriteA_trailingAs
  exact ⟨⟨hgone, hodd, heven⟩, hfirst, ⟨hfirst', hone⟩, ⟨hfirst'', hzero⟩, p, hp,
    (h gone hgone).1 hfirst, ((h odd hodd).2 hfirst').1 hone, ((h even heven).2 hfirst'').2 hzero⟩

end TapeMachine.Catalogue
