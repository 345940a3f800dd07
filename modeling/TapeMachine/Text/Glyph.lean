import TapeMachine.Text.Blank
import TapeMachine.Text.Cluster
import TapeMachine.Text.Shapeless

/-!
# Glyphs

A glyph is a grapheme cluster with the number of columns that it takes on a screen of cells. Most
characters take one column, those of East Asian scripts two, and marks none. The characters of a
cluster add up, but an emoji made of several characters takes two columns in all. The widths are
those of Unicode 16.
-/

namespace TapeMachine.Text

/-- The code points that are wide or fullwidth by the Unicode property East_Asian_Width. -/
def wideRanges : List (Nat × Nat) :=
  [(0x1100, 0x115F), (0x231A, 0x231B), (0x2329, 0x232A), (0x23E9, 0x23EC), (0x23F0, 0x23F0),
    (0x23F3, 0x23F3), (0x25FD, 0x25FE), (0x2614, 0x2615), (0x2630, 0x2637), (0x2648, 0x2653),
    (0x267F, 0x267F), (0x268A, 0x268F), (0x2693, 0x2693), (0x26A1, 0x26A1), (0x26AA, 0x26AB),
    (0x26BD, 0x26BE), (0x26C4, 0x26C5), (0x26CE, 0x26CE), (0x26D4, 0x26D4), (0x26EA, 0x26EA),
    (0x26F2, 0x26F3), (0x26F5, 0x26F5), (0x26FA, 0x26FA), (0x26FD, 0x26FD), (0x2705, 0x2705),
    (0x270A, 0x270B), (0x2728, 0x2728), (0x274C, 0x274C), (0x274E, 0x274E), (0x2753, 0x2755),
    (0x2757, 0x2757), (0x2795, 0x2797), (0x27B0, 0x27B0), (0x27BF, 0x27BF), (0x2B1B, 0x2B1C),
    (0x2B50, 0x2B50), (0x2B55, 0x2B55), (0x2E80, 0x2E99), (0x2E9B, 0x2EF3), (0x2F00, 0x2FD5),
    (0x2FF0, 0x303E), (0x3041, 0x3096), (0x3099, 0x30FF), (0x3105, 0x312F), (0x3131, 0x318E),
    (0x3190, 0x31E5), (0x31EF, 0x321E), (0x3220, 0x3247), (0x3250, 0xA48C), (0xA490, 0xA4C6),
    (0xA960, 0xA97C), (0xAC00, 0xD7A3), (0xF900, 0xFAFF), (0xFE10, 0xFE19), (0xFE30, 0xFE52),
    (0xFE54, 0xFE66), (0xFE68, 0xFE6B), (0xFF01, 0xFF60), (0xFFE0, 0xFFE6), (0x16FE0, 0x16FE4),
    (0x16FF0, 0x16FF1), (0x17000, 0x187F7), (0x18800, 0x18CD5), (0x18CFF, 0x18D08),
    (0x1AFF0, 0x1AFF3), (0x1AFF5, 0x1AFFB), (0x1AFFD, 0x1AFFE), (0x1B000, 0x1B122),
    (0x1B132, 0x1B132), (0x1B150, 0x1B152), (0x1B155, 0x1B155), (0x1B164, 0x1B167),
    (0x1B170, 0x1B2FB), (0x1D300, 0x1D356), (0x1D360, 0x1D376), (0x1F004, 0x1F004),
    (0x1F0CF, 0x1F0CF), (0x1F18E, 0x1F18E), (0x1F191, 0x1F19A), (0x1F200, 0x1F202),
    (0x1F210, 0x1F23B), (0x1F240, 0x1F248), (0x1F250, 0x1F251), (0x1F260, 0x1F265),
    (0x1F300, 0x1F320), (0x1F32D, 0x1F335), (0x1F337, 0x1F37C), (0x1F37E, 0x1F393),
    (0x1F3A0, 0x1F3CA), (0x1F3CF, 0x1F3D3), (0x1F3E0, 0x1F3F0), (0x1F3F4, 0x1F3F4),
    (0x1F3F8, 0x1F43E), (0x1F440, 0x1F440), (0x1F442, 0x1F4FC), (0x1F4FF, 0x1F53D),
    (0x1F54B, 0x1F54E), (0x1F550, 0x1F567), (0x1F57A, 0x1F57A), (0x1F595, 0x1F596),
    (0x1F5A4, 0x1F5A4), (0x1F5FB, 0x1F64F), (0x1F680, 0x1F6C5), (0x1F6CC, 0x1F6CC),
    (0x1F6D0, 0x1F6D2), (0x1F6D5, 0x1F6D7), (0x1F6DC, 0x1F6DF), (0x1F6EB, 0x1F6EC),
    (0x1F6F4, 0x1F6FC), (0x1F7E0, 0x1F7EB), (0x1F7F0, 0x1F7F0), (0x1F90C, 0x1F93A),
    (0x1F93C, 0x1F945), (0x1F947, 0x1F9FF), (0x1FA70, 0x1FA7C), (0x1FA80, 0x1FA89),
    (0x1FA8F, 0x1FAC6), (0x1FACE, 0x1FADC), (0x1FADF, 0x1FAE9), (0x1FAF0, 0x1FAF8),
    (0x20000, 0x2FFFD), (0x30000, 0x3FFFD)]

/-- The code points that take no column, though they are neither extenders nor ignorable: the vowels
and trailing consonants of Hangul, marks over or under what follows them, and a caret. -/
def columnlessRanges : List (Nat × Nat) :=
  [(0x605, 0x605), (0x70F, 0x70F), (0x890, 0x891), (0x8E2, 0x8E2), (0xD4E, 0xD4E),
    (0x1160, 0x11FF), (0xA8FA, 0xA8FA), (0xD7B0, 0xD7C6), (0xD7CB, 0xD7FB), (0x111C2, 0x111C3),
    (0x113D1, 0x113D1), (0x1193F, 0x1193F), (0x11941, 0x11941), (0x11A84, 0x11A89),
    (0x11D46, 0x11D46), (0x11F02, 0x11F02)]

/-- The columns of a character by itself. A Khmer ligature takes three, two fillers that stand for
letters take two, and the mark that joins Tifinagh consonants takes one. -/
def charWidth (c : Char) : Nat :=
  if c < '\xa1' then 1
  else if c = '\u17d8' then 3
  else if c = '\u115f' || c = '\u17a4' then 2
  else if c = '\u2d7f' then 1
  else if isIgnorable c || isExtender c || inRanges columnlessRanges c.toNat then 0
  else if inRanges wideRanges c.toNat then 2
  else 1

/-- The Khmer letters that stand under the letter before them after a sign for that. -/
def subscriptRanges : List (Nat × Nat) :=
  [(0x1780, 0x1782), (0x1784, 0x1787), (0x1789, 0x178C), (0x178E, 0x1793), (0x1795, 0x1798),
    (0x179B, 0x179D), (0x17A0, 0x17A0), (0x17A2, 0x17A2), (0x17A7, 0x17A7), (0x17AB, 0x17AC),
    (0x17AF, 0x17AF)]

/-- How many of the characters after the first belong to the emoji with which a text begins, if it
begins with one: a selector or a skin tone may follow. -/
def emojiTail? (c : Char) : List Char → Option Nat
  | [] => if isPicture c then some 0 else none
  | d :: rest =>
    if d = plainSelector && hasPlainStyle c then none
    else if d = pictureSelector && isPlainEmoji c then some 1
    else if isModifier d && isModifierBase c then
      some (if rest.head? = some pictureSelector then 2 else 1)
    else if isPicture c then some (if d = pictureSelector then 1 else 0)
    else none

/-- A joiner and another emoji follow. -/
def joinsEmoji : List Char → Bool
  | c :: d :: rest => c = zeroWidthJoiner && (emojiTail? d rest).isSome
  | _ => false

/-- How many of the characters after the first make one vowel sign of Kirat Rai with it. -/
def vowelTail (c : Char) (cs : List Char) : Nat :=
  match c.toNat, (cs.take 2).map Char.toNat with
  | 0x16D63, [0x16D67, 0x16D67] => 2
  | 0x16D63, 0x16D67 :: _ | 0x16D63, 0x16D68 :: _ => 1
  | 0x16D67, 0x16D67 :: _ | 0x16D69, 0x16D67 :: _ => 1
  | _, _ => 0

/-- The columns at the start of a cluster, and how many of the characters after the first they
cover. -/
def leadingWidth (c : Char) (cs : List Char) : Nat × Nat :=
  if cs = [] then (charWidth c, 0)
  else if cs.head? = some plainSelector && hasPlainStyle c then (1, 1)
  else
    match emojiTail? c cs with
    | some n => (if joinsEmoji (cs.drop n) then 0 else 2, n)
    | none =>
      if c = '\u17d2' && cs.head?.any fun d ↦ inRanges subscriptRanges d.toNat then (0, 1)
      else (charWidth c, vowelTail c cs)

/-- The columns of what is left of a cluster behind its first `skipped` characters. -/
def widthFrom : Nat → List Char → Nat
  | _, [] => 0
  | skipped + 1, _ :: cs => widthFrom skipped cs
  | 0, c :: cs =>
    let (columns, covered) := leadingWidth c cs
    columns + widthFrom covered cs

/-- The columns of a cluster. -/
def clusterWidth (cluster : List Char) : Nat := widthFrom 0 cluster

/-- A cluster with its columns. -/
structure Glyph where
  chars : List Char
  width : Nat
  deriving DecidableEq, Repr

namespace Glyph

/-- The glyph of a cluster. -/
def ofCluster (cluster : List Char) : Glyph := ⟨cluster, clusterWidth cluster⟩

/-- A glyph at which a line may be broken: a space of no width or of any kind that does not hold its
neighbours together. -/
def isBlank (g : Glyph) : Bool :=
  g.chars = ['\u200b'] || (g.chars.all Text.isBlank && g.chars ≠ ['\u00a0'])

end Glyph

/-- The glyphs of a text. -/
def glyphs (cs : List Char) : List Glyph := (clusters cs).map Glyph.ofCluster

/-- The columns of glyphs in a row. -/
def columns : List Glyph → Nat
  | [] => 0
  | g :: gs => g.width + columns gs

/-- The first glyphs of a row that has room for so many columns. -/
def cut (room : Nat) : List Glyph → List Glyph
  | [] => []
  | g :: gs => if room < g.width then [] else g :: cut (room - g.width) gs

/-- What is cut fits. -/
theorem columns_cut_le (room : Nat) (gs : List Glyph) : columns (cut room gs) ≤ room := by
  induction gs generalizing room with
  | nil => simp [cut, columns]
  | cons g gs ih =>
    simp only [cut]
    split
    · simp [columns]
    · have h := ih (room - g.width)
      rw [columns]
      omega

/-- A row that fits is not cut. -/
theorem cut_of_columns_le {room : Nat} {gs : List Glyph} (h : columns gs ≤ room) :
    cut room gs = gs := by
  induction gs generalizing room with
  | nil => rfl
  | cons g gs ih =>
    rw [columns] at h
    have hg : ¬ room < g.width := by omega
    simp only [cut, hg, if_false]
    rw [ih (by omega)]

example : areAscending wideRanges = true := by decide +kernel
example : clusterWidth ['漢'] = 2 := by decide +kernel
example : clusterWidth ['e', '\u0301'] = 1 := by decide +kernel
example : clusterWidth ['☺', '\ufe0f'] = 2 := by decide +kernel

end TapeMachine.Text
