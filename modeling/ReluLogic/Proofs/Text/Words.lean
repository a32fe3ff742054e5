import Mathlib
import ReluLogic.Text.Words

/-!
Cutting text that was put together from parts. A line comes back from in front of its line feed, and words come back
from behind their blanks, as long as the parts have no separators in them.
-/

namespace ReluLogic.Text

variable {isSeparator : Char → Bool} {c : Char} {part word rest : List Char}

@[simp]
theorem isBlank_space : isBlank ' ' = true := by
  decide

/-- A text without separators is a single part. -/
theorem split_of_forall (h : ∀ c ∈ part, isSeparator c = false) : split isSeparator part = [part] := by
  induction part with
  | nil => rfl
  | cons c part ih =>
      obtain ⟨hc, hpart⟩ := List.forall_mem_cons.mp h
      rw [split, hc, ih hpart, if_neg Bool.false_ne_true]

/-- A part ends at the first separator behind it. -/
theorem split_append (h : ∀ c ∈ part, isSeparator c = false) (hc : isSeparator c = true) :
    split isSeparator (part ++ c :: rest) = part :: split isSeparator rest := by
  induction part with
  | nil => rw [List.nil_append, split, if_pos hc]
  | cons first part ih =>
      obtain ⟨hfirst, hpart⟩ := List.forall_mem_cons.mp h
      rw [List.cons_append, split, hfirst, ih hpart, if_neg Bool.false_ne_true]

theorem lines_append {line : List Char} (h : '\n' ∉ line) : lines (line ++ '\n' :: rest) = line :: lines rest := by
  apply split_append
  · intro c hc
    exact beq_eq_false_iff_ne.mpr (ne_of_mem_of_not_mem hc h)
  · exact beq_self_eq_true '\n'

/-- A text that is not empty and has no blanks in it. -/
structure IsWord (text : List Char) : Prop where
  ne_nil : text ≠ []
  unbroken : ∀ c ∈ text, isBlank c = false

theorem isWord_iff {text : List Char} : IsWord text ↔ text ≠ [] ∧ text.all (!isBlank ·) = true := by
  rw [List.all_eq_true]
  constructor
  · intro h
    exact ⟨h.ne_nil, fun c hc => Bool.not_eq_true' _ ▸ h.unbroken c hc⟩
  · rintro ⟨hne, hall⟩
    exact ⟨hne, fun c hc => Bool.not_eq_true' _ ▸ hall c hc⟩

instance : DecidablePred IsWord :=
  fun _ => decidable_of_iff _ isWord_iff.symm

theorem IsWord.cons (hc : isBlank c = false) (h : IsWord word) : IsWord (c :: word) where
  ne_nil := List.cons_ne_nil c word
  unbroken := List.forall_mem_cons.mpr ⟨hc, h.unbroken⟩

theorem IsWord.append {other : List Char} (h : IsWord word) (hother : IsWord other) : IsWord (word ++ other) where
  ne_nil hnil := h.ne_nil (List.append_eq_nil_iff.mp hnil).1
  unbroken := List.forall_mem_append.mpr ⟨h.unbroken, hother.unbroken⟩

theorem IsWord.not_mem (h : IsWord word) (hc : isBlank c = true) : c ∉ word := by
  intro hmem
  rw [h.unbroken c hmem] at hc
  exact Bool.false_ne_true hc

theorem words_blank_cons (hc : isBlank c = true) : words (c :: rest) = words rest := by
  rw [words, split, if_pos hc, List.filter_cons_of_neg Bool.false_ne_true, words]

/-- A word comes back from in front of a blank, and from the end of the text. -/
theorem words_append (h : IsWord word) (hrest : ∀ c ∈ rest.head?, isBlank c = true) :
    words (word ++ rest) = word :: words rest := by
  have hkept (parts : List (List Char)) :
      (word :: parts).filter (!·.isEmpty) = word :: parts.filter (!·.isEmpty) := by
    apply List.filter_cons_of_pos
    rw [Bool.not_eq_true', List.isEmpty_eq_false_iff]
    exact h.ne_nil
  cases rest with
  | nil => rw [List.append_nil, words, split_of_forall h.unbroken, hkept]; rfl
  | cons c rest =>
      have hc : isBlank c = true := hrest c rfl
      rw [words_blank_cons hc, words, split_append h.unbroken hc, hkept, words]

/-- Nothing is cut off behind a word. -/
theorem trimEnd_append (h : IsWord word) (text : List Char) : trimEnd (text ++ word) = text ++ word := by
  have hne : word.reverse ≠ [] := List.reverse_ne_nil_iff.mpr h.ne_nil
  obtain ⟨last, front, hlast⟩ := List.exists_cons_of_ne_nil hne
  have hmem : last ∈ word := by
    rw [← List.mem_reverse, hlast]
    exact List.mem_cons_self
  rw [trimEnd, List.reverse_append, hlast, List.cons_append,
    List.dropWhile_cons_of_neg (by rw [h.unbroken last hmem]; exact Bool.false_ne_true), ← List.cons_append, ← hlast,
    ← List.reverse_append, List.reverse_reverse]

theorem trim_of_isWord (h : IsWord word) : trim word = word := by
  obtain ⟨first, tail, rfl⟩ := List.exists_cons_of_ne_nil h.ne_nil
  rw [trim, List.dropWhile_cons_of_neg (by rw [h.unbroken first List.mem_cons_self]; exact Bool.false_ne_true)]
  exact trimEnd_append h []

/-- Nothing comes before a text's first separator when the text has none. -/
theorem splitFirst_of_not_mem (h : c ∉ part) : splitFirst c part = none := by
  induction part with
  | nil => rfl
  | cons first part ih =>
      obtain ⟨hfirst, hpart⟩ := List.ne_and_not_mem_of_not_mem_cons h
      rw [splitFirst, if_neg hfirst.symm, ih hpart]
      rfl

/-- A text is cut at its first separator. -/
theorem splitFirst_append (h : c ∉ part) : splitFirst c (part ++ c :: rest) = some (part, rest) := by
  induction part with
  | nil => rw [List.nil_append, splitFirst, if_pos rfl]
  | cons first part ih =>
      obtain ⟨hfirst, hpart⟩ := List.ne_and_not_mem_of_not_mem_cons h
      rw [List.cons_append, splitFirst, if_neg hfirst.symm, ih hpart]
      rfl

/-! ### Words behind blanks -/

def spaced (parts : List (List Char)) : List Char :=
  parts.flatMap (' ' :: ·)

theorem spaced_cons (parts : List (List Char)) : spaced (part :: parts) = ' ' :: (part ++ spaced parts) :=
  rfl

variable {parts : List (List Char)}

theorem words_spaced (h : ∀ part ∈ parts, IsWord part) : words (spaced parts) = parts := by
  induction parts with
  | nil => rfl
  | cons part parts ih =>
      obtain ⟨hpart, hparts⟩ := List.forall_mem_cons.mp h
      have hnext : ∀ c ∈ (spaced parts).head?, isBlank c = true := by
        intro c hc
        cases parts with
        | nil => cases hc
        | cons next parts => cases hc; exact isBlank_space
      rw [spaced_cons, words_blank_cons isBlank_space, words_append hpart hnext, ih hparts]

theorem words_append_spaced (hpart : IsWord part) (h : ∀ part ∈ parts, IsWord part) :
    words (part ++ spaced parts) = part :: parts := by
  rw [← words_blank_cons isBlank_space, ← spaced_cons]
  exact words_spaced (List.forall_mem_cons.mpr ⟨hpart, h⟩)

/-- A letter is cut off from the words behind it. -/
theorem splitFirst_cons_spaced (hc : c ≠ ' ') :
    splitFirst ' ' (c :: spaced (part :: parts)) = some ([c], part ++ spaced parts) := by
  rw [spaced_cons, ← List.singleton_append]
  exact splitFirst_append (List.not_mem_cons_of_ne_of_not_mem hc.symm List.not_mem_nil)

theorem newline_not_mem_spaced (h : ∀ part ∈ parts, IsWord part) : '\n' ∉ spaced parts := by
  intro hmem
  obtain ⟨part, hpart, hmem⟩ := List.mem_flatMap.mp hmem
  rcases List.mem_cons.mp hmem with heq | hmem
  · exact absurd heq (by decide)
  · exact (h part hpart).not_mem rfl hmem

/-- Nothing is cut off behind words. -/
theorem trimEnd_append_spaced (h : ∀ part ∈ parts, IsWord part) (hne : parts ≠ []) (text : List Char) :
    trimEnd (text ++ spaced parts) = text ++ spaced parts := by
  obtain ⟨front, last, rfl⟩ := (List.eq_nil_or_concat' parts).resolve_left hne
  have hlast : IsWord last := h last (List.mem_append_right _ (List.mem_singleton_self last))
  have hspaced : spaced (front ++ [last]) = spaced front ++ [' '] ++ last := by
    rw [spaced, List.flatMap_append, List.flatMap_singleton, List.append_assoc]
    rfl
  rw [hspaced, ← List.append_assoc]
  exact trimEnd_append hlast _

end ReluLogic.Text
