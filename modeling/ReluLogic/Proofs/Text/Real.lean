import ReluLogic.Decimal.Real
import ReluLogic.Proofs.Text.Numeral

/-!
Number types whose text is faithful: what is written is a word, and reading it gives the number back. Values that are
no number share the text `NaN` and are not told apart. Floating-point text is made of words whatever the value is, so
it is faithful as soon as it reads back. The text of exact rationals reads back without any assumption.
-/

namespace ReluLogic

open Text (IsWord isBlank)

namespace RealText

section

variable {α : Type} [RealText α]

/-- Whether a value is written as no number. -/
def IsNaN (value : α) : Prop :=
  write value = "NaN".toList

/-- Two values are equal, or both are no number. -/
def Alike (value other : α) : Prop :=
  value = other ∨ (IsNaN value ∧ IsNaN other)

theorem Alike.refl (value : α) : Alike value value :=
  .inl rfl

theorem Alike.write_eq {value other : α} (h : Alike value other) : write value = write other := by
  rcases h with rfl | ⟨hvalue, hother⟩
  · rfl
  · exact Eq.trans hvalue (Eq.symm hother)

end

/-- Number types whose values are all written as words. -/
class Spelled (α : Type) [RealText α] : Prop where
  isWord : ∀ value : α, IsWord (write value)

/-- Every number is written as a word, and reading the word gives the number back. -/
structure Faithful (α : Type) [RealText α] : Prop where
  isWord : ∀ value : α, IsWord (write value)
  reads : ∀ value : α, ∃ again, read? (write value) = some again ∧ Alike again value

end RealText

/-! ### Floating-point numbers -/

namespace Decimal

/-- Positional text is made of digits and at most a point. -/
theorem plain_of_mem_positional {decimal : Decimal} {c : Char} (h : c ∈ decimal.positional) :
    c = '.' ∨ ∃ digit < 10, c = Numeral.digitChar digit := by
  have hzero : ∀ count, c ∈ List.replicate count '0' → ∃ digit < 10, c = Numeral.digitChar digit :=
    fun _ hmem => ⟨0, by decide, List.eq_of_mem_replicate hmem⟩
  simp only [positional] at h
  split_ifs at h
  · rcases List.mem_append.mp h with h | h
    · exact .inr (Numeral.exists_digit_of_mem_ofNat h)
    · exact .inr (hzero _ h)
  · rcases List.mem_append.mp h with h | h
    · exact .inr (Numeral.exists_digit_of_mem_ofNat (List.mem_of_mem_take h))
    · rcases List.mem_cons.mp h with h | h
      · exact .inl h
      · exact .inr (Numeral.exists_digit_of_mem_ofNat (List.mem_of_mem_drop h))
  · rcases List.mem_append.mp h with h | h
    · rcases List.mem_cons.mp h with h | h
      · exact .inr ⟨0, by decide, h⟩
      · rcases List.mem_cons.mp h with h | h
        · exact .inl h
        · exact .inr (hzero _ h)
    · exact .inr (Numeral.exists_digit_of_mem_ofNat h)

theorem positional_ne_nil (decimal : Decimal) : decimal.positional ≠ [] := by
  simp only [positional]
  split_ifs
  · exact List.append_ne_nil_of_left_ne_nil (Numeral.ofNat_ne_nil _) _
  · exact List.append_ne_nil_of_right_ne_nil _ (List.cons_ne_nil _ _)
  · exact List.cons_ne_nil _ _

end Decimal

namespace RealText

/-- The text of a magnitude is a word, and has no letter of `NaN` in front. -/
theorem writeMagnitude_plain (bits : Nat) :
    IsWord (writeMagnitude bits) ∧ 'N' ∉ writeMagnitude bits := by
  rw [writeMagnitude]
  split_ifs
  · decide
  · decide
  · have hplain : ∀ c ∈ (binaryOfBits bits).shortest.positional, isBlank c = false ∧ c ≠ 'N' := by
      intro c hc
      rcases Decimal.plain_of_mem_positional hc with rfl | ⟨digit, hdigit, rfl⟩
      · exact ⟨rfl, by decide⟩
      · interval_cases digit <;> decide
    exact ⟨⟨Decimal.positional_ne_nil _, fun c hc => (hplain c hc).1⟩, fun hmem => (hplain 'N' hmem).2 rfl⟩

theorem isWord_writeFloat (value : Float) : IsWord (writeFloat value) := by
  simp only [writeFloat]
  split_ifs
  · decide
  · exact (writeMagnitude_plain _).1
  · exact (writeMagnitude_plain _).1.cons rfl

instance : Spelled Float where
  isWord := isWord_writeFloat

/-- Exactly the values that are no number are written as such. -/
theorem isNaN_float_iff (value : Float) : IsNaN value ↔ value.isNaN = true := by
  change writeFloat value = "NaN".toList ↔ _
  simp only [writeFloat]
  split_ifs with hnan hsign
  · exact iff_of_true rfl hnan
  · refine iff_of_false (fun heq => ?_) hnan
    have hletter := (writeMagnitude_plain value.toBits.toNat).2
    rw [heq] at hletter
    exact hletter (by decide)
  · refine iff_of_false (fun heq => ?_) hnan
    exact absurd (List.cons.inj heq).1 (by decide)

/-- Floating-point text is faithful if every value reads back, up to which value that is no number it is. -/
theorem faithful_float
    (h : ∀ value : Float, ∃ again, readFloat? (writeFloat value) = some again ∧
      (again = value ∨ (again.isNaN = true ∧ value.isNaN = true))) : Faithful Float where
  isWord := isWord_writeFloat
  reads value := by
    obtain ⟨again, hread, hagain⟩ := h value
    rw [← isNaN_float_iff, ← isNaN_float_iff] at hagain
    exact ⟨again, hread, hagain⟩

end RealText

/-! ### Exact rationals -/

namespace RealText

/-- The text of a rational: an integer, or two of them with a stroke between. -/
def writeRat (value : Rat) : List Char :=
  if value.den = 1 then Numeral.ofInt value.num else Numeral.ofInt value.num ++ '/' :: Numeral.ofNat value.den

/-- An integer of any size, with or without a minus sign. -/
def readInteger? (text : List Char) : Option Int :=
  if text.head? = some '-' then (Numeral.nat? text.tail).map fun n => -Int.ofNat n
  else (Numeral.nat? text).map Int.ofNat

/-- The rational of a text. -/
def readRat? (text : List Char) : Option Rat :=
  match Text.splitFirst '/' text with
  | none => (readInteger? text).map fun (num : Int) => (num : Rat)
  | some (before, after) =>
    (readInteger? before).bind fun (num : Int) =>
      (Numeral.nat? after).map fun (den : Nat) => (num : Rat) / (den : Rat)

end RealText

instance : RealText Rat where
  write := RealText.writeRat
  read? := RealText.readRat?

namespace RealText

theorem readInteger?_ofInt (value : Int) : readInteger? (Numeral.ofInt value) = some value := by
  rw [Numeral.ofInt]
  split_ifs with hneg
  · rw [readInteger?, if_pos List.head?_cons, List.tail_cons, Numeral.nat?_ofNat, Option.map_some,
      Int.ofNat_eq_natCast]
    congr 1
    omega
  · obtain ⟨c, digits, heq, hminus, -⟩ := Numeral.exists_ofNat_eq_cons value.natAbs
    have hhead : (Numeral.ofNat value.natAbs).head? ≠ some '-' := by
      rw [heq, List.head?_cons]
      exact fun hsome => hminus (Option.some.inj hsome)
    rw [readInteger?, if_neg hhead, Numeral.nat?_ofNat, Option.map_some, Int.ofNat_eq_natCast]
    congr 1
    omega

theorem stroke_not_mem_ofInt (value : Int) : '/' ∉ Numeral.ofInt value := by
  have hdigits : '/' ∉ Numeral.ofNat value.natAbs := by
    intro hmem
    obtain ⟨digit, hdigit, heq⟩ := Numeral.exists_digit_of_mem_ofNat hmem
    exact (Numeral.digitChar_plain hdigit).2.2.2 heq.symm
  rw [Numeral.ofInt]
  split_ifs
  · exact List.not_mem_cons_of_ne_of_not_mem (by decide) hdigits
  · exact hdigits

instance : Spelled Rat where
  isWord value := by
    change IsWord (writeRat value)
    rw [writeRat]
    split_ifs
    · exact Numeral.isWord_ofInt value.num
    · exact (Numeral.isWord_ofInt value.num).append ((Numeral.isWord_ofNat value.den).cons rfl)

/-- The text of a rational reads back. -/
theorem read?_write_rat (value : Rat) : read? (write value) = some value := by
  change readRat? (writeRat value) = some value
  rw [writeRat]
  split_ifs with hden
  · rw [readRat?, Text.splitFirst_of_not_mem (stroke_not_mem_ofInt value.num)]
    rw [readInteger?_ofInt, Option.map_some, Rat.coe_int_num_of_den_eq_one hden]
  · rw [readRat?, Text.splitFirst_append (stroke_not_mem_ofInt value.num)]
    simp only [readInteger?_ofInt, Numeral.nat?_ofNat, Option.bind_some, Option.map_some, Rat.num_div_den]

theorem faithful_rat : Faithful Rat where
  isWord := Spelled.isWord
  reads value := ⟨value, read?_write_rat value, .refl value⟩

end RealText

end ReluLogic
