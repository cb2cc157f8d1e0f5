/-!
# Taking texts apart

Cutting a text at a separator, and striking out every occurrence of a word.

* `pieces sep cs` are the parts of `cs` between the separators, one more than there are separators.
* `cut sep cs` is the part before the first separator and the part after it.
* `strike word cs` is `cs` without the occurrences of `word`, found from the left and not
  overlapping.
-/

namespace CronSchedule.Text

/-- The parts of a text between the separators; a text without one is its only part. -/
def pieces (sep : Char) : List Char → List (List Char)
  | [] => [[]]
  | c :: cs =>
    if c = sep then [] :: pieces sep cs
    else match pieces sep cs with
      | [] => [[c]]
      | p :: ps => (c :: p) :: ps

/-- The part of a text before the first separator and the part after it. -/
def cut (sep : Char) (cs : List Char) : List Char × List Char :=
  (cs.takeWhile (· != sep), (cs.dropWhile (· != sep)).tail)

/-- A text without the occurrences of a word; the empty word occurs nowhere. -/
def strike (word : List Char) (cs : List Char) : List Char :=
  if word.isEmpty then cs else go 0 cs
where
  /-- Strikes the word out of a text whose first `skip` characters belong to an occurrence. -/
  go : Nat → List Char → List Char
    | _, [] => []
    | skip + 1, _ :: cs => go skip cs
    | 0, c :: cs => if word.isPrefixOf (c :: cs) then go (word.length - 1) cs else c :: go 0 cs

theorem pieces_ne_nil (sep : Char) (cs : List Char) : pieces sep cs ≠ [] := by
  cases cs with
  | nil => simp [pieces]
  | cons c cs =>
    simp only [pieces]
    split
    · simp
    · split <;> simp

example : strike "AB".toList "ABABA-AB".toList = "A-".toList := by decide

end CronSchedule.Text
