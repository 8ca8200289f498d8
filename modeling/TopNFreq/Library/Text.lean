import Mathlib.Data.Nat.Digits.Lemmas
import Mathlib.Order.Fin.Basic
import Mathlib.Data.List.Lex

/-! Bytes, their classes in the "C" locale and decimal numerals. -/
namespace Library.Text

abbrev Byte := Fin 256

instance byte_neZero : NeZero 256 := ⟨by decide⟩

/-- Byte strings; `<` on them is the unsigned lexicographic order. -/
abbrev Bytes := List Byte

def tab : Byte := 9
def newline : Byte := 10
def plus : Byte := 43
def minus : Byte := 45

/-- `isspace`: blank, tab, newline, vertical tab, form feed, carriage return. -/
def isSpace (b : Byte) : Bool := b.val = 32 || (9 ≤ b.val && b.val ≤ 13)

def isDigit (b : Byte) : Bool := 48 ≤ b.val && b.val ≤ 57

def digit (d : Nat) : Byte := Fin.ofNat 256 (48 + d)

def decimal (n : Nat) : Bytes := if n = 0 then [digit 0] else (Nat.digits 10 n).reverse.map digit

/-- The decimal numeral of an integer, as `operator<<` prints it. -/
def decimalInt (z : Int) : Bytes := if z < 0 then minus :: decimal z.natAbs else decimal z.natAbs

def number (digits : Bytes) : Nat := digits.foldl (fun n b => 10 * n + (b.val - 48)) 0

/-- A decimal integer: digits behind an optional sign. -/
inductive Numeral : Bytes → Int → Prop
  | plain (digits) (nonempty : digits ≠ []) (all : ∀ b ∈ digits, isDigit b = true) : Numeral digits (number digits)
  | positive (digits) (nonempty : digits ≠ []) (all : ∀ b ∈ digits, isDigit b = true) :
      Numeral (plus :: digits) (number digits)
  | negative (digits) (nonempty : digits ≠ []) (all : ∀ b ∈ digits, isDigit b = true) :
      Numeral (minus :: digits) (-number digits)

theorem digit_val (d : Nat) (small : d < 10) : (digit d).val = 48 + d := by
  simp only [digit,Fin.val_ofNat]
  omega

theorem isDigit_digit (d : Nat) (small : d < 10) : isDigit (digit d) = true := by
  have value := digit_val d small
  simp only [isDigit,Bool.and_eq_true,decide_eq_true_eq]
  omega

theorem isDigit_decimal (n : Nat) : ∀ b ∈ decimal n, isDigit b = true := by
  intro b member
  unfold decimal at member
  split at member
  · rw [List.mem_singleton.mp member]
    exact isDigit_digit 0 (by omega)
  · obtain ⟨d,inside,rfl⟩ := List.mem_map.mp member
    exact isDigit_digit d (Nat.digits_lt_base (by omega) (List.mem_reverse.mp inside))

theorem decimal_ne_nil (n : Nat) : decimal n ≠ [] := by
  unfold decimal
  split
  · simp
  · rename_i positive
    simpa [Nat.digits_eq_nil_iff_eq_zero] using positive

private theorem number_reverse (ds : List Nat) (small : ∀ d ∈ ds, d < 10) :
    number (ds.reverse.map digit) = Nat.ofDigits 10 ds := by
  induction ds with
  | nil => rfl
  | cons d ds ih =>
    have rest := ih fun x member => small x (by simp [member])
    have value := digit_val d (small d (by simp))
    simp only [number,List.reverse_cons,List.map_append,List.foldl_append,List.map_cons,
      List.map_nil,List.foldl_cons,List.foldl_nil] at rest ⊢
    rw [rest,value,Nat.ofDigits_cons]
    omega

theorem number_decimal (n : Nat) : number (decimal n) = n := by
  unfold decimal
  split
  · rename_i zero
    subst zero
    rfl
  · rw [number_reverse _ fun d member => Nat.digits_lt_base (by omega) member]
    exact Nat.ofDigits_digits 10 n

theorem decimal_injective : Function.Injective decimal := by
  intro a b same
  rw [← number_decimal a,same,number_decimal b]

theorem isDigit_ne (b other : Byte) (isDigitB : isDigit b = true) (not : isDigit other = false) :
    b ≠ other := by
  rintro rfl
  simp [isDigitB] at not

theorem decimal_length_le (n k : Nat) (positive : 0 < k) : (decimal n).length ≤ k ↔ n < 10^k := by
  unfold decimal
  split
  · rename_i zero
    subst zero
    exact iff_of_true positive (Nat.pow_pos (by decide))
  · rw [List.length_map,List.length_reverse,Nat.digits_length_le_iff (by decide)]

theorem decimal_length_pos (n : Nat) : 0 < (decimal n).length := List.length_pos_iff.mpr (decimal_ne_nil n)

theorem decimal_mono {n m : Nat} (le : n ≤ m) : (decimal n).length ≤ (decimal m).length := by
  rw [decimal_length_le n _ (decimal_length_pos m)]
  exact le.trans_lt ((decimal_length_le m _ (decimal_length_pos m)).mp le_rfl)

theorem decimal_succ (n : Nat) : (decimal (n + 1)).length ≤ (decimal n).length + 1 := by
  rw [decimal_length_le _ _ (Nat.succ_pos _),pow_succ]
  have below := (decimal_length_le n _ (decimal_length_pos n)).mp le_rfl
  omega

theorem decimalInt_numeral (z : Int) : Numeral (decimalInt z) z := by
  have shape := decimal_ne_nil z.natAbs
  have digits := isDigit_decimal z.natAbs
  unfold decimalInt
  split
  · have value : z = -number (decimal z.natAbs) := by
      rw [number_decimal]
      omega
    conv => arg 2; rw [value]
    exact .negative _ shape digits
  · have value : z = number (decimal z.natAbs) := by
      rw [number_decimal]
      omega
    conv => arg 2; rw [value]
    exact .plain _ shape digits

theorem Numeral.nonempty {text : Bytes} {z : Int} (numeral : Numeral text z) : text ≠ [] := by
  cases numeral with
  | plain _ nonempty => exact nonempty
  | positive => exact List.cons_ne_nil _ _
  | negative => exact List.cons_ne_nil _ _

theorem Numeral.extend {text : Bytes} {z : Int} (numeral : Numeral text z) (more : Bytes)
    (digits : ∀ b ∈ more, isDigit b = true) : ∃ value, Numeral (text ++ more) value := by
  have longer {front : Bytes} (nonempty : front ≠ []) (all : ∀ b ∈ front, isDigit b = true) :
      front ++ more ≠ [] ∧ ∀ b ∈ front ++ more, isDigit b = true :=
    ⟨List.append_ne_nil_of_left_ne_nil nonempty more,
      fun b member => (List.mem_append.mp member).elim (all b) (digits b)⟩
  cases numeral with
  | plain _ nonempty all => exact ⟨_,.plain _ (longer nonempty all).1 (longer nonempty all).2⟩
  | positive _ nonempty all => exact ⟨_,.positive _ (longer nonempty all).1 (longer nonempty all).2⟩
  | negative _ nonempty all => exact ⟨_,.negative _ (longer nonempty all).1 (longer nonempty all).2⟩

end Library.Text
