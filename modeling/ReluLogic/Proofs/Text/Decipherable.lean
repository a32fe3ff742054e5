import ReluLogic.Proofs.Text.Numeral

/-!
Texts without lengths or terminators that still tell what was written. A writer is decipherable where no text that may
follow can be mistaken for more of the same: then what was written can be told, and where it ends. A numeral is
decipherable in front of anything but a digit, and a list of items in front of anything that starts no item, as long as
what starts an item does not go on with the one before.
-/

namespace ReluLogic.Text

variable {β : Type} {write : β → List Char} {stops heads : Set Char} {c : Char} {text rest other : List Char}

/-- The text does not start with one of `stops`. -/
def Clear (stops : Set Char) (text : List Char) : Prop :=
  ∀ c ∈ text.head?, c ∉ stops

theorem clear_cons (h : c ∉ stops) (rest : List Char) : Clear stops (c :: rest) := by
  intro first hfirst
  cases hfirst
  exact h

theorem Clear.mono {fewer : Set Char} (h : Clear stops text) (hsub : fewer ⊆ stops) : Clear fewer text :=
  fun c hc hmem => h c hc (hsub hmem)

/-- In front of texts that do not start with one of `stops`, a written value can be told, and where it ends. -/
def Decipherable (write : β → List Char) (stops : Set Char) : Prop :=
  ∀ ⦃first second : β⦄ ⦃rest other : List Char⦄, Clear stops rest → Clear stops other →
    write first ++ rest = write second ++ other → first = second ∧ rest = other

namespace Decipherable

/-- With an end mark a value can be told in front of every text. -/
theorem ended (h : Decipherable write stops) (hc : c ∉ stops) : Decipherable (fun value => write value ++ [c]) ∅ := by
  intro first second rest other _ _ heq
  rw [List.append_assoc, List.append_assoc] at heq
  obtain ⟨hvalue, hrest⟩ := h (clear_cons hc _) (clear_cons hc _) heq
  exact ⟨hvalue, (List.cons.inj hrest).2⟩

/-- The same text in front of every value takes nothing away. -/
theorem prefixed (h : Decipherable write stops) (lead : List Char) :
    Decipherable (fun value => lead ++ write value) stops := by
  intro first second rest other hrest hother heq
  rw [List.append_assoc, List.append_assoc] at heq
  exact h hrest hother (List.append_cancel_left heq)

end Decipherable

/-! ### Lists -/

/-- A list is written item by item, each with its number. -/
structure Itemized (write : Nat → β → List Char) (writeAll : Nat → List β → List Char) : Prop where
  nil : ∀ index, writeAll index [] = []
  cons : ∀ index item items, writeAll index (item :: items) = write index item ++ writeAll (index + 1) items

/-- Every item starts with one of `heads`. -/
def StartsIn (heads : Set Char) (text : List Char) : Prop :=
  ∃ c ∈ heads, text.head? = some c

theorem startsIn_cons (hc : c ∈ heads) (rest : List Char) : StartsIn heads (c :: rest) :=
  ⟨c, hc, rfl⟩

theorem StartsIn.append (h : StartsIn heads text) (rest : List Char) : StartsIn heads (text ++ rest) := by
  obtain ⟨c, hc, hhead⟩ := h
  exact ⟨c, hc, by rw [List.head?_append, hhead, Option.some_or]⟩

theorem StartsIn.clear (h : StartsIn heads text) (hdisjoint : Disjoint heads stops) : Clear stops text := by
  obtain ⟨c, hc, hhead⟩ := h
  intro first hfirst
  rw [hhead] at hfirst
  cases hfirst
  exact Set.disjoint_left.mp hdisjoint hc

theorem StartsIn.not_clear (h : StartsIn heads text) : ¬ Clear heads text := by
  obtain ⟨c, hc, hhead⟩ := h
  exact fun hclear => hclear c hhead hc

section Lists

variable {writeItem : Nat → β → List Char} {writeAll : Nat → List β → List Char}

/-- Behind an item comes another one or what follows the list; neither goes on with the item. -/
theorem Itemized.clear_append (hall : Itemized writeItem writeAll)
    (hheads : ∀ index item, StartsIn heads (writeItem index item)) (hdisjoint : Disjoint heads stops)
    (hrest : Clear (heads ∪ stops) rest) (index : Nat) (items : List β) :
    Clear stops (writeAll index items ++ rest) := by
  cases items with
  | nil =>
      rw [hall.nil]
      exact hrest.mono Set.subset_union_right
  | cons item items =>
      rw [hall.cons, List.append_assoc]
      exact ((hheads index item).append _).clear hdisjoint

/-- Nothing that starts no item is more of a list. -/
theorem Itemized.ne_append (hall : Itemized writeItem writeAll)
    (hheads : ∀ index item, StartsIn heads (writeItem index item)) (hrest : Clear (heads ∪ stops) rest)
    (index : Nat) (item : β) (items : List β) : rest ≠ writeAll index (item :: items) ++ other := by
  rintro rfl
  rw [hall.cons, List.append_assoc] at hrest
  exact ((hheads index item).append _).not_clear (hrest.mono Set.subset_union_left)

/-- A list of decipherable items is decipherable in front of what neither starts an item nor goes on with one. -/
theorem Itemized.decipherable (hall : Itemized writeItem writeAll)
    (hitem : ∀ index, Decipherable (writeItem index) stops)
    (hheads : ∀ index item, StartsIn heads (writeItem index item)) (hdisjoint : Disjoint heads stops) (index : Nat) :
    Decipherable (writeAll index) (heads ∪ stops) := by
  intro first second rest other hrest hother heq
  induction first generalizing index second with
  | nil =>
      cases second with
      | nil =>
          rw [hall.nil] at heq
          exact ⟨rfl, heq⟩
      | cons item items =>
          rw [hall.nil] at heq
          exact absurd heq (hall.ne_append hheads hrest index item items)
  | cons item items ih =>
      cases second with
      | nil =>
          rw [hall.nil] at heq
          exact absurd heq.symm (hall.ne_append hheads hother index item items)
      | cons item' items' =>
          rw [hall.cons, hall.cons, List.append_assoc, List.append_assoc] at heq
          obtain ⟨rfl, hbehind⟩ := hitem index (hall.clear_append hheads hdisjoint hrest _ _)
            (hall.clear_append hheads hdisjoint hother _ _) heq
          obtain ⟨rfl, hend⟩ := ih (index + 1) hbehind
          exact ⟨rfl, hend⟩

end Lists

/-! ### Runs of characters -/

section Runs

variable {p : Char → Bool} {word : List Char}

theorem takeWhile_append_of_clear (hword : ∀ c ∈ word, p c = true) (hrest : Clear {c | p c = true} rest) :
    (word ++ rest).takeWhile p = word := by
  rw [List.takeWhile_append_of_pos hword]
  cases rest with
  | nil => rw [List.takeWhile_nil, List.append_nil]
  | cons c rest => rw [List.takeWhile_cons_of_neg (hrest c rfl), List.append_nil]

/-- A run of characters of one class ends where the class does. -/
theorem run_inj {word' : List Char} (hword : ∀ c ∈ word, p c = true) (hword' : ∀ c ∈ word', p c = true)
    (hrest : Clear {c | p c = true} rest) (hother : Clear {c | p c = true} other)
    (heq : word ++ rest = word' ++ other) : word = word' ∧ rest = other := by
  have hsame : word = word' := by
    rw [← takeWhile_append_of_clear hword hrest, heq, takeWhile_append_of_clear hword' hother]
  rw [hsame] at heq
  exact ⟨hsame, List.append_cancel_left heq⟩

end Runs

end ReluLogic.Text

namespace ReluLogic.Numeral

open Text

def digits : Set Char :=
  {c | isDigit c = true}

theorem isDigit_of_mem_ofNat {value : Nat} {c : Char} (h : c ∈ ofNat value) : isDigit c = true := by
  obtain ⟨digit, hdigit, rfl⟩ := exists_digit_of_mem_ofNat h
  rw [isDigit, digit?_digitChar hdigit, Option.isSome_some]

theorem ofNat_injective : Function.Injective ofNat := by
  intro first second heq
  rw [← Option.some_inj, ← nat?_ofNat, heq, nat?_ofNat]

/-- A numeral ends where its digits do. -/
theorem decipherable_ofNat : Decipherable ofNat digits := by
  intro first second rest other hrest hother heq
  obtain ⟨hsame, hend⟩ := run_inj (fun _ => isDigit_of_mem_ofNat) (fun _ => isDigit_of_mem_ofNat) hrest hother heq
  exact ⟨ofNat_injective hsame, hend⟩

/-- The characters that the numeral of an integer may start with. -/
def signs : Set Char :=
  insert '-' digits

theorem startsIn_ofNat (value : Nat) : StartsIn digits (ofNat value) := by
  obtain ⟨c, rest, heq⟩ := List.exists_cons_of_ne_nil (ofNat_ne_nil value)
  rw [heq]
  exact startsIn_cons (isDigit_of_mem_ofNat (heq ▸ List.mem_cons_self)) rest

theorem startsIn_ofInt (value : Int) : StartsIn signs (ofInt value) := by
  rw [ofInt]
  split_ifs
  · exact startsIn_cons (Set.mem_insert _ _) _
  · obtain ⟨c, hc, hhead⟩ := startsIn_ofNat value.natAbs
    exact ⟨c, Set.mem_insert_of_mem _ hc, hhead⟩

/-- A numeral without a sign is none with one. -/
theorem ofNat_append_ne_cons (value : Nat) (rest other : List Char) : ofNat value ++ rest ≠ '-' :: other := by
  obtain ⟨c, tail, heq, hminus, -⟩ := exists_ofNat_eq_cons value
  rw [heq]
  exact fun h => hminus (List.cons.inj h).1

theorem decipherable_ofInt : Decipherable ofInt digits := by
  intro first second rest other hrest hother heq
  rw [ofInt, ofInt] at heq
  split_ifs at heq with hfirst hsecond hsecond
  · obtain ⟨hsame, hend⟩ := decipherable_ofNat hrest hother (List.cons.inj heq).2
    exact ⟨by omega, hend⟩
  · exact absurd heq.symm (ofNat_append_ne_cons _ _ _)
  · exact absurd heq (ofNat_append_ne_cons _ _ _)
  · obtain ⟨hsame, hend⟩ := decipherable_ofNat hrest hother heq
    exact ⟨by omega, hend⟩

end ReluLogic.Numeral
