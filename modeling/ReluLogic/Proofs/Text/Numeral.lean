import ReluLogic.Proofs.Text.Words
import ReluLogic.Text.Numeral

/-!
Numerals read back. The numeral of a number is a word of digits, with a minus sign below zero, and what is read from
it is the number, as long as it lies in the range of the reader. What the readers return lies in their ranges.
-/

namespace ReluLogic.Numeral

open Text (isBlank IsWord)

theorem digit?_digitChar {digit : Nat} (h : digit < 10) : digit? (digitChar digit) = some digit := by
  interval_cases digit <;> rfl

/-- A digit is neither blank nor a sign nor a stroke nor a point. -/
theorem digitChar_plain {digit : Nat} (h : digit < 10) :
    isBlank (digitChar digit) = false ∧ digitChar digit ≠ '-' ∧ digitChar digit ≠ '+' ∧ digitChar digit ≠ '/' := by
  interval_cases digit <;> decide

theorem ofNat_ne_nil (value : Nat) : ofNat value ≠ [] := by
  rw [ofNat]
  split_ifs
  · exact List.cons_ne_nil _ _
  · exact List.append_ne_nil_of_right_ne_nil _ (List.cons_ne_nil _ _)

/-- A numeral is made of digits. -/
theorem exists_digit_of_mem_ofNat {value : Nat} {c : Char} (h : c ∈ ofNat value) :
    ∃ digit < 10, c = digitChar digit := by
  induction value using ofNat.induct with
  | case1 value hlt =>
      rw [ofNat, if_pos hlt, List.mem_singleton] at h
      exact ⟨value, hlt, h⟩
  | case2 value hlt ih =>
      rw [ofNat, if_neg hlt, List.mem_append, List.mem_singleton] at h
      rcases h with h | h
      · exact ih h
      · exact ⟨value % 10, Nat.mod_lt _ (by decide), h⟩

theorem isWord_ofNat (value : Nat) : IsWord (ofNat value) where
  ne_nil := ofNat_ne_nil value
  unbroken c hc := by
    obtain ⟨digit, hdigit, rfl⟩ := exists_digit_of_mem_ofNat hc
    exact (digitChar_plain hdigit).1

theorem isWord_ofInt (value : Int) : IsWord (ofInt value) := by
  rw [ofInt]
  split_ifs
  · exact (isWord_ofNat value.natAbs).cons rfl
  · exact isWord_ofNat value.natAbs

theorem extend?_append (value : Nat) (front back : List Char) :
    extend? value (front ++ back) = (extend? value front).bind fun read => extend? read back := by
  induction front generalizing value with
  | nil => rfl
  | cons c front ih =>
      rw [List.cons_append, extend?, extend?]
      cases digit? c with
      | none => exact Option.bind_none _
      | some digit => exact ih (value * 10 + digit)

theorem extend?_ofNat (value : Nat) : extend? 0 (ofNat value) = some value := by
  induction value using ofNat.induct with
  | case1 value hlt =>
      rw [ofNat, if_pos hlt, extend?, digit?_digitChar hlt, Nat.zero_mul]
      exact congrArg some (Nat.zero_add value)
  | case2 value hlt ih =>
      have hdigits : value / 10 * 10 + value % 10 = value := Nat.div_add_mod' value 10
      rw [ofNat, if_neg hlt, extend?_append, ih, Option.bind_some, extend?,
        digit?_digitChar (Nat.mod_lt _ (by decide))]
      exact congrArg some hdigits

theorem nat?_ofNat (value : Nat) : nat? (ofNat value) = some value := by
  rw [nat?, if_neg (by rw [List.isEmpty_iff]; exact ofNat_ne_nil value), extend?_ofNat]

/-- A numeral starts with a digit. -/
theorem exists_ofNat_eq_cons (value : Nat) :
    ∃ c digits, ofNat value = c :: digits ∧ c ≠ '-' ∧ c ≠ '+' := by
  obtain ⟨c, digits, heq⟩ := List.exists_cons_of_ne_nil (ofNat_ne_nil value)
  obtain ⟨digit, hdigit, rfl⟩ := exists_digit_of_mem_ofNat (heq ▸ List.mem_cons_self : c ∈ ofNat value)
  obtain ⟨-, hminus, hplus, -⟩ := digitChar_plain hdigit
  exact ⟨_, digits, heq, hminus, hplus⟩

theorem unsigned64?_ofNat {value : Nat} (h : value ≤ unsigned64Max) : unsigned64? (ofNat value) = some value := by
  obtain ⟨c, digits, heq, -, hplus⟩ := exists_ofNat_eq_cons value
  have hhead : (ofNat value).head? ≠ some '+' := by
    rw [heq, List.head?_cons]
    exact fun hsome => hplus (Option.some.inj hsome)
  rw [unsigned64?, if_neg hhead, nat?_ofNat]
  exact if_pos h

theorem unsigned64?_le {text : List Char} {value : Nat} (h : unsigned64? text = some value) :
    value ≤ unsigned64Max := by
  obtain ⟨read, -, hread⟩ := Option.bind_eq_some_iff.mp h
  obtain ⟨hle, hsome⟩ := Option.ite_none_right_eq_some.mp hread
  cases hsome
  exact hle

theorem signed64?_ofInt {value : Int} (hmin : int64Min ≤ value) (hmax : value ≤ int64Max) :
    signed64? (ofInt value) = some value := by
  rw [ofInt]
  split_ifs with hneg
  · have hvalue : -(value.natAbs : Int) = value := by omega
    rw [signed64?, nat?_ofNat]
    change (if int64Min ≤ -(value.natAbs : Int) ∧ -(value.natAbs : Int) ≤ int64Max then some (-(value.natAbs : Int))
      else none) = some value
    rw [hvalue, if_pos ⟨hmin, hmax⟩]
  · have hvalue : (value.natAbs : Int) = value := by omega
    obtain ⟨c, digits, heq, hminus, hplus⟩ := exists_ofNat_eq_cons value.natAbs
    have hread : nat? (c :: digits) = some value.natAbs := by
      rw [← heq]
      exact nat?_ofNat _
    rw [heq, signed64?, hread]
    · change (if int64Min ≤ (value.natAbs : Int) ∧ (value.natAbs : Int) ≤ int64Max then some (value.natAbs : Int)
        else none) = some value
      rw [hvalue, if_pos ⟨hmin, hmax⟩]
    · exact fun _ hcons => hminus (List.cons.inj hcons).1
    · exact fun _ hcons => hplus (List.cons.inj hcons).1

theorem signed64?_mem {text : List Char} {value : Int} (h : signed64? text = some value) :
    int64Min ≤ value ∧ value ≤ int64Max := by
  unfold signed64? at h
  -- All three forms of a text end with the same comparison.
  split at h
  all_goals
    obtain ⟨read, -, hread⟩ := Option.bind_eq_some_iff.mp h
    obtain ⟨hrange, hsome⟩ := Option.ite_none_right_eq_some.mp hread
    cases hsome
    exact hrange

end ReluLogic.Numeral
