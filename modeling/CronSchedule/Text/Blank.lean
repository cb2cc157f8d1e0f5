/-!
# White space and words

White space is what the standard counts as such in its bidirectional classes and its separators:
the ASCII controls from tab to carriage return and the four information separators, the space, the
next-line control and the space separators. The zero-width space, the byte order mark and the
Mongolian vowel separator are not white space.

A *word* is a maximal run of characters that are not white space, with the place where it starts.
-/

namespace CronSchedule.Text

/-- The ranges of code points that are white space, ends included. -/
def blankRanges : List (Nat × Nat) :=
  [(0x09, 0x0D), (0x1C, 0x20), (0x85, 0x85), (0xA0, 0xA0), (0x1680, 0x1680), (0x2000, 0x200A),
    (0x2028, 0x2029), (0x202F, 0x202F), (0x205F, 0x205F), (0x3000, 0x3000)]

/-- Whether a character is white space. -/
def isBlank (c : Char) : Bool :=
  blankRanges.any fun r => r.1 ≤ c.toNat && c.toNat ≤ r.2

/-- A text without the white space in front. -/
def trimLeft (cs : List Char) : List Char := cs.dropWhile isBlank

/-- A text without the white space at its end. -/
def trimRight (cs : List Char) : List Char := (cs.reverse.dropWhile isBlank).reverse

/-- A text without the white space around it. -/
def trim (cs : List Char) : List Char := trimRight (trimLeft cs)

/-- A word of a text and the number of characters before it. -/
structure Word where
  /-- The characters of the word. -/
  chars : List Char
  /-- The offset of its first character. -/
  start : Nat
deriving DecidableEq, Repr

/-- The offset just past the last character. -/
def Word.stop (w : Word) : Nat := w.start + w.chars.length

/-- The words of a text that begins at offset `i`. -/
def wordsFrom (i : Nat) : List Char → List Word
  | [] => []
  | c :: cs =>
    if isBlank c then wordsFrom (i + 1) cs
    else match wordsFrom (i + 1) cs with
      | [] => [⟨[c], i⟩]
      | w :: ws => if w.start = i + 1 then ⟨c :: w.chars, i⟩ :: ws else ⟨[c], i⟩ :: w :: ws

/-- The words of a text, from left to right. -/
def words (cs : List Char) : List Word := wordsFrom 0 cs

end CronSchedule.Text
