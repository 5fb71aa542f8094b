/-!
# Integers of sixty-four bits

Integer values are signed words of sixty-four bits. Arithmetic on them is exact or fails: a
result that does not fit is reported and never wrapped.

* `Integer.ofInt?`: the word of an integer, if it fits.
* `Integer.ofNumeral?`: the word a decimal numeral denotes, if it fits.
* `Integer.numeral`: the decimal numeral of a word.

Results:
* `ofInt?_toInt`: every word is the word of its own value.
* `ofInt?_eq_some_iff`: an integer fits exactly when it is the value of a word.
-/

namespace ActionKit.Integer

/-- Whether an integer is the value of a signed word of sixty-four bits. -/
def fits (n : Int) : Bool := Int64.minValue.toInt ≤ n && n ≤ Int64.maxValue.toInt

/-- The word of an integer, if it fits. -/
def ofInt? (n : Int) : Option Int64 := if fits n then some (Int64.ofInt n) else none

/-- The number a sequence of decimal digits denotes. -/
def magnitude (digits : List Char) : Nat :=
  digits.foldl (fun n digit => 10 * n + (digit.toNat - '0'.toNat)) 0

/-- The word of a decimal numeral: an optional sign and at least one digit. -/
def ofNumeral? (numeral : List Char) : Option Int64 :=
  let (negative, digits) :=
    match numeral with
    | '-' :: digits => (true, digits)
    | '+' :: digits => (false, digits)
    | digits => (false, digits)
  if digits.isEmpty || !digits.all Char.isDigit then none
  else ofInt? (if negative then -(magnitude digits : Int) else magnitude digits)

/-- The decimal numeral of a word. -/
def numeral (word : Int64) : String :=
  let n := word.toInt
  let digits := Nat.toDigits 10 n.natAbs
  String.ofList (if n < 0 then '-' :: digits else digits)

theorem fits_iff {n : Int} :
    fits n = true ↔ Int64.minValue.toInt ≤ n ∧ n ≤ Int64.maxValue.toInt := by
  rw [fits, Bool.and_eq_true, decide_eq_true_eq, decide_eq_true_eq]

@[simp] theorem ofInt?_toInt (word : Int64) : ofInt? word.toInt = some word := by
  have h : fits word.toInt = true := fits_iff.2 ⟨word.minValue_le_toInt, word.toInt_le⟩
  simp [ofInt?, h]

theorem ofInt?_eq_some_iff {n : Int} {word : Int64} : ofInt? n = some word ↔ n = word.toInt := by
  constructor
  · intro h
    unfold ofInt? at h
    split at h
    · next hfits =>
      obtain ⟨hlo, hhi⟩ := fits_iff.1 hfits
      obtain rfl := Option.some.inj h
      rw [Int64.toInt_minValue] at hlo
      rw [Int64.toInt_maxValue] at hhi
      exact (Int64.toInt_ofInt_of_le hlo (by omega)).symm
    · simp at h
  · rintro rfl
    exact ofInt?_toInt word

end ActionKit.Integer
