import WardleyMap.Text.Basic

/-!
# Blanks

What separates words is decided by one table, the characters with Unicode's `White_Space` property; the
narrower notion of a space, which a statement allows between its parts, is a space or a tab. Folding
replaces every run of blanks by one space, so a text and its folded form have the same words.
-/

namespace WardleyMap

/-- A character with the `White_Space` property, which ends a word. -/
def isBlank (c : Char) : Bool :=
  let n := c.toNat
  (0x9 ≤ n && n ≤ 0xd) || n == 0x20 || n == 0x85 || n == 0xa0 || n == 0x1680 ||
    (0x2000 ≤ n && n ≤ 0x200a) || n == 0x2028 || n == 0x2029 || n == 0x202f || n == 0x205f ||
    n == 0x3000

/-- A space or a tab, which may stand between the parts of a statement. -/
def isSpace (c : Char) : Bool :=
  c == ' ' || c == '\t'

theorem isBlank_of_isSpace {c : Char} (h : isSpace c = true) : isBlank c = true := by
  simp only [isSpace, Bool.or_eq_true, beq_iff_eq] at h
  obtain rfl | rfl := h <;> decide

/-- The table holds every blank of ASCII that the standard library knows. -/
theorem isBlank_of_isWhitespace {c : Char} (h : c.isWhitespace = true) : isBlank c = true := by
  simp only [Char.isWhitespace, Bool.or_eq_true, decide_eq_true_eq] at h
  obtain ((rfl | rfl) | rfl) | rfl := h <;> decide

namespace Text

def trimStart (s : Text) : Text :=
  s.dropWhile isBlank

def trimEnd (s : Text) : Text :=
  (s.reverse.dropWhile isBlank).reverse

def trim (s : Text) : Text :=
  s.trimStart.trimEnd

def indent (s : Text) : Nat :=
  (s.takeWhile isBlank).length

def isAllBlank (s : Text) : Bool :=
  s.all isBlank

def words (s : Text) : List Text :=
  (s.split isBlank).filter (!·.isEmpty)

def unwords (ws : List Text) : Text :=
  List.intercalate [' '] ws

/-- The text with every run of blanks turned into one space, and none at either end. -/
def fold (s : Text) : Text :=
  unwords s.words

end Text

end WardleyMap
