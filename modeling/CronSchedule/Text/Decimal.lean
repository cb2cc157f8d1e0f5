import CronSchedule.Text.Digit

/-!
# Decimal numerals

How integers are written and how unsigned numerals are read. A numeral is a nonempty run of digits,
and it denotes a number if all of them are decimal; scripts may be mixed. Numbers are written with
ASCII digits, without leading zeros.

Numbers of any length are read and written. A runtime may convert no more than some number of
digits, 4300 unless it is told otherwise. It then refuses the field texts with longer numerals, and
fails wherever a schedule with such a number is written out: as text, in the log after a translation
and in the log of a search that finds nothing. There is no such limit here.

`digitsValue?_natDigits`: what is written reads back as the number that was written.
-/

namespace CronSchedule.Text

/-- The decimal digits of a natural number, most significant first. -/
def natDigits (n : Nat) : List Char :=
  if n < 10 then [digit n] else natDigits (n / 10) ++ [digit (n % 10)]

/-- The decimal form of an integer: its digits, after a minus sign if it is negative. -/
def decimal : Int → List Char
  | .ofNat n => natDigits n
  | .negSucc n => '-' :: natDigits (n + 1)

/-- The decimal form of an integer as a string. -/
def int (n : Int) : String := String.ofList (decimal n)

/-- The digits of a natural number, with zeros in front up to a given width. -/
def padded (width n : Nat) : List Char :=
  let ds := natDigits n
  List.replicate (width - ds.length) '0' ++ ds

/-- The number that a run of decimal digits denotes. -/
def digitsValue? (ds : List Char) : Option Nat :=
  ds.foldlM (fun n c => (digitValue? c).map (10 * n + ·)) 0

/-- A numeral: one or more digits. -/
def isNumeral (cs : List Char) : Bool :=
  !cs.isEmpty && cs.all isDigit

/-- The number that a numeral denotes, and nothing for other texts. -/
def numeral? (cs : List Char) : Option Nat :=
  if isNumeral cs then digitsValue? cs else none

/-! ### What is written reads back -/

theorem digitsValue?_append_digit (ds : List Char) {n : Nat} (h : n < 10) :
    digitsValue? (ds ++ [digit n]) = (digitsValue? ds).map (10 * · + n) := by
  simp only [digitsValue?, List.foldlM_append, List.foldlM_cons, List.foldlM_nil,
    digitValue?_digit h]
  cases List.foldlM (fun n c => (digitValue? c).map (10 * n + ·)) 0 ds <;> rfl

/-- A number that is written reads back as itself. -/
theorem digitsValue?_natDigits (n : Nat) : digitsValue? (natDigits n) = some n := by
  fun_induction natDigits n with
  | case1 n h => simp [digitsValue?, digitValue?_digit h]
  | case2 n h ih =>
    rw [digitsValue?_append_digit _ (Nat.mod_lt n (by decide : 0 < 10)), ih, Option.map_some]
    congr 1
    omega

end CronSchedule.Text
