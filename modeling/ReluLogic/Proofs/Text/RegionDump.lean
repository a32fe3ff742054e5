import ReluLogic.Proofs.Fallible
import ReluLogic.Proofs.Fraction
import ReluLogic.Proofs.Text.Real
import ReluLogic.Text.RegionDump

/-!
What the `pwl` text is read as. A line adds a prototype with coefficients, a piece with coefficients in lowest terms, or
to the last piece a boundary that names a prototype read before. So whatever the text, the dump that is read can
be written again: it is legible all along, and its dimensions agree at the end.
-/

namespace ReluLogic

open Text (IsWord)

/-- A piece that the text can hold among `count` prototypes: it has coefficients, all in lowest terms, and its
boundaries name prototypes by numbers, from one on, in the unsigned 64-bit range. -/
@[mk_iff]
structure Piece.Legible (count : Nat) (piece : Piece) : Prop where
  filled : piece.coefficients ≠ []
  lowest : ∀ coefficient ∈ piece.coefficients, coefficient.Lowest
  named : ∀ boundary ∈ piece.region, boundary.index < count ∧ boundary.index < unsigned64Max

instance (count : Nat) : DecidablePred (Piece.Legible count) :=
  fun _ => decidable_of_iff _ (Piece.legible_iff count _).symm

theorem Piece.Legible.mono {piece : Piece} {count more : Nat} (h : piece.Legible count) (hle : count ≤ more) :
    piece.Legible more where
  filled := h.filled
  lowest := h.lowest
  named boundary hboundary := ⟨(h.named boundary hboundary).1.trans_le hle, (h.named boundary hboundary).2⟩

namespace RegionDump

variable {α : Type}

/-- A dump that can be written line by line. -/
structure Legible (dump : RegionDump α) : Prop where
  prototypes : ∀ form ∈ dump.prototypes, form.coefficients ≠ []
  pieces : ∀ piece ∈ dump.pieces, piece.Legible dump.prototypes.length

/-- A legible dump over `dim` inputs. -/
@[mk_iff]
structure Regular (dim : Nat) (dump : RegionDump α) : Prop where
  prototypes : ∀ form ∈ dump.prototypes, form.coefficients.length = dim + 1
  pieces : ∀ piece ∈ dump.pieces, piece.coefficients.length = dim + 1 ∧ piece.Legible dump.prototypes.length

instance (dim : Nat) : DecidablePred (Regular dim : RegionDump α → Prop) :=
  fun _ => decidable_of_iff _ (regular_iff dim _).symm

theorem Regular.legible {dim : Nat} {dump : RegionDump α} (h : dump.Regular dim) : dump.Legible where
  prototypes form hform hnil := by
    have hlength := h.prototypes form hform
    rw [hnil] at hlength
    exact Nat.succ_ne_zero dim hlength.symm
  pieces piece hpiece := (h.pieces piece hpiece).2

/-- A dump whose prototypes and pieces agree in the number of inputs has that number, unless it is empty. -/
theorem dim?_eq {dim : Nat} {dump : RegionDump α} (hprototypes : ∀ form ∈ dump.prototypes, form.dim = dim)
    (hpieces : ∀ piece ∈ dump.pieces, piece.dim = dim) : dump.dim? = none ∨ dump.dim? = some dim := by
  obtain ⟨prototypes, pieces⟩ := dump
  cases prototypes with
  | cons form prototypes => exact .inr (congrArg some (hprototypes form List.mem_cons_self))
  | nil =>
      cases pieces with
      | cons piece pieces => exact .inr (congrArg some (hpieces piece List.mem_cons_self))
      | nil => exact .inl rfl

theorem dim?_eq_none {dump : RegionDump α} : dump.dim? = none ↔ dump.prototypes = [] ∧ dump.pieces = [] := by
  rw [dim?, Option.or_eq_none_iff, Option.map_eq_none_iff, Option.map_eq_none_iff, List.head?_eq_none_iff,
    List.head?_eq_none_iff]

theorem regular_of_nil {dump : RegionDump α} (hprototypes : dump.prototypes = []) (hpieces : dump.pieces = [])
    (dim : Nat) : dump.Regular dim where
  prototypes _ hform := absurd (hprototypes ▸ hform) List.not_mem_nil
  pieces _ hpiece := absurd (hpieces ▸ hpiece) List.not_mem_nil

theorem Regular.prototypes_dim {dim : Nat} {dump : RegionDump α} (h : dump.Regular dim) :
    ∀ form ∈ dump.prototypes, form.dim = dim := by
  intro form hform
  rw [Affine.dim, h.prototypes form hform, Nat.add_sub_cancel]

theorem Regular.pieces_dim {dim : Nat} {dump : RegionDump α} (h : dump.Regular dim) :
    ∀ piece ∈ dump.pieces, piece.dim = dim := by
  intro piece hpiece
  rw [Piece.dim, (h.pieces piece hpiece).1, Nat.add_sub_cancel]

theorem legible_empty : Legible (⟨[], []⟩ : RegionDump α) where
  prototypes _ hform := absurd hform List.not_mem_nil
  pieces _ hpiece := absurd hpiece List.not_mem_nil

end RegionDump

namespace Instance

variable {α : Type}

theorem readInteger_eq_ok {number : Nat} {token : List Char} {value : Int} :
    readInteger number token = .ok value ↔ Numeral.signed64? token = some value := by
  rw [readInteger]
  cases Numeral.signed64? token with
  | none => exact iff_of_false (fun h => by cases h) (fun h => by cases h)
  | some read => exact ⟨fun h => congrArg some (Except.ok.inj h), fun h => congrArg Except.ok (Option.some.inj h)⟩

/-- Every pair that is read becomes a fraction in lowest terms. -/
theorem lowest_of_readPairs {number : Nat} {tokens : List (List Char)} {fractions : List Fraction}
    (h : readPairs number tokens = .ok fractions) : ∀ fraction ∈ fractions, fraction.Lowest := by
  induction tokens using readPairs.induct generalizing fractions with
  | case1 numerator denominator rest ih =>
      obtain ⟨num, hnum, h⟩ := bind_eq_ok.mp h
      obtain ⟨den, hden, h⟩ := bind_eq_ok.mp h
      obtain hnum := Numeral.signed64?_mem (readInteger_eq_ok.mp hnum)
      obtain hden := Numeral.signed64?_mem (readInteger_eq_ok.mp hden)
      split_ifs at h with hlt
      obtain ⟨others, hothers, h⟩ := bind_eq_ok.mp h
      cases h
      exact List.forall_mem_cons.mpr ⟨Fraction.lowest_make hnum (by omega) hden.2, ih hothers⟩
  | case2 tokens hpair =>
      rw [readPairs] at h
      · cases h
        exact fun fraction hmem => absurd hmem List.not_mem_nil
      · exact hpair

theorem readPairs_ne_nil {number : Nat} {tokens : List (List Char)} {fractions : List Fraction}
    (hlength : tokens.length % 2 = 0) (hne : tokens ≠ []) (h : readPairs number tokens = .ok fractions) :
    fractions ≠ [] := by
  rcases tokens with _ | ⟨numerator, _ | ⟨denominator, rest⟩⟩
  · exact absurd rfl hne
  · exact absurd hlength (by decide : ¬ 1 % 2 = 0)
  · obtain ⟨num, -, h⟩ := bind_eq_ok.mp h
    obtain ⟨den, -, h⟩ := bind_eq_ok.mp h
    split_ifs at h
    obtain ⟨others, -, h⟩ := bind_eq_ok.mp h
    cases h
    exact List.cons_ne_nil _ _

theorem readFractions_spec {number : Nat} {text : List Char} {fractions : List Fraction}
    (h : readFractions number text = .ok fractions) :
    fractions ≠ [] ∧ ∀ fraction ∈ fractions, fraction.Lowest := by
  rw [readFractions] at h
  split_ifs at h with hcount
  obtain ⟨hne, hlength⟩ := not_or.mp hcount
  rw [List.isEmpty_iff] at hne
  exact ⟨readPairs_ne_nil (not_not.mp hlength) hne h, lowest_of_readPairs h⟩

/-- The last piece gets the boundary, and the others stay. -/
theorem exists_of_extendLast {boundary : Boundary} {pieces extended : List Piece}
    (h : extendLast boundary pieces = some extended) :
    ∃ (front : List Piece) (last : Piece), pieces = front ++ [last] ∧
      extended = front ++ [⟨last.coefficients, last.region ++ [boundary]⟩] := by
  induction pieces using extendLast.induct generalizing extended with
  | case1 => cases h
  | case2 piece =>
      cases h
      exact ⟨[], piece, rfl, rfl⟩
  | case3 piece rest hne ih =>
      rw [extendLast] at h
      · obtain ⟨read, hread, rfl⟩ := Option.map_eq_some_iff.mp h
        obtain ⟨front, last, rfl, rfl⟩ := ih hread
        exact ⟨piece :: front, last, rfl, rfl⟩
      · exact hne

/-- A boundary names a prototype that was read before, and goes to the last piece. -/
theorem addBoundary_spec {number : Nat} {dump after : RegionDump α} {sign : Sign} {text : List Char}
    (h : addBoundary number dump sign text = .ok after) :
    ∃ (boundary : Boundary) (front : List Piece) (last : Piece), boundary.index < dump.prototypes.length ∧
      boundary.index < unsigned64Max ∧ dump.pieces = front ++ [last] ∧
      after = ⟨dump.prototypes, front ++ [⟨last.coefficients, last.region ++ [boundary]⟩]⟩ := by
  rw [addBoundary] at h
  cases hreference : Numeral.unsigned64? (Text.trim text) with
  | none => rw [hreference] at h; cases h
  | some reference =>
      have hmax := Numeral.unsigned64?_le hreference
      simp only [hreference] at h
      split_ifs at h with hdangling
      cases hextended : extendLast ⟨reference - 1, sign⟩ dump.pieces with
      | none => rw [hextended] at h; cases h
      | some extended =>
          rw [hextended] at h
          obtain ⟨front, last, hpieces, rfl⟩ := exists_of_extendLast hextended
          obtain ⟨hzero, hle⟩ := not_or.mp hdangling
          refine ⟨⟨reference - 1, sign⟩, front, last, ?_, ?_, hpieces, (Except.ok.inj h).symm⟩
          · change reference - 1 < dump.prototypes.length
            omega
          · change reference - 1 < unsigned64Max
            omega

/-- Coefficients that are there are one more than the inputs. -/
theorem length_eq_of_dim {ι : Type} {coefficients : List ι} {dim : Nat} (hne : coefficients ≠ [])
    (h : coefficients.length - 1 = dim) : coefficients.length = dim + 1 := by
  have hpos := List.length_pos_iff.mpr hne
  omega

/-- Dimensions that were found to agree give a regular dump. -/
theorem regular_of_checkDimensions {dump : RegionDump α} (hdump : dump.Legible)
    (h : checkDimensions dump = .ok ()) : ∃ dim, dump.Regular dim := by
  rw [checkDimensions] at h
  cases hdim : dump.dim? with
  | none =>
      obtain ⟨hprototypes, hpieces⟩ := RegionDump.dim?_eq_none.mp hdim
      exact ⟨0, RegionDump.regular_of_nil hprototypes hpieces 0⟩
  | some dim =>
      simp only [hdim] at h
      split_ifs at h with hprototypes hpieces
      refine ⟨dim, fun form hform => ?_, fun piece hpiece => ⟨?_, hdump.pieces piece hpiece⟩⟩
      · refine length_eq_of_dim (hdump.prototypes form hform) (not_not.mp fun hother => hprototypes ?_)
        exact List.any_eq_true.mpr ⟨form, hform, bne_iff_ne.mpr hother⟩
      · refine length_eq_of_dim (hdump.pieces piece hpiece).filled (not_not.mp fun hother => hpieces ?_)
        exact List.any_eq_true.mpr ⟨piece, hpiece, bne_iff_ne.mpr hother⟩

theorem checkDimensions_eq_ok {dump : RegionDump α} {dim : Nat} (h : dump.Regular dim) :
    checkDimensions dump = .ok () := by
  rw [checkDimensions]
  rcases RegionDump.dim?_eq h.prototypes_dim h.pieces_dim with hdim | hdim
  · rw [hdim]
    rfl
  · have hagree : ¬ dump.prototypes.any (·.dim != dim) = true := by
      rw [List.any_eq_true]
      rintro ⟨form, hform, hother⟩
      exact bne_iff_ne.mp hother (h.prototypes_dim form hform)
    have hagree' : ¬ dump.pieces.any (·.dim != dim) = true := by
      rw [List.any_eq_true]
      rintro ⟨piece, hpiece, hother⟩
      exact bne_iff_ne.mp hother (h.pieces_dim piece hpiece)
    simp only [hdim]
    rw [if_neg hagree, if_neg hagree']
    rfl

variable [RealText α]

/-- All that a line can do. -/
theorem addLine_cases {dump after : RegionDump α} {numbered : NumberedLine} (h : addLine dump numbered = .ok after) :
    (∃ form : Affine α, form.coefficients ≠ [] ∧ after = ⟨dump.prototypes ++ [form], dump.pieces⟩) ∨
    (∃ coefficients : List Fraction, coefficients ≠ [] ∧ (∀ coefficient ∈ coefficients, coefficient.Lowest) ∧
      after = ⟨dump.prototypes, dump.pieces ++ [⟨coefficients, []⟩]⟩) ∨
    (∃ (boundary : Boundary) (front : List Piece) (last : Piece), boundary.index < dump.prototypes.length ∧
      boundary.index < unsigned64Max ∧ dump.pieces = front ++ [last] ∧
      after = ⟨dump.prototypes, front ++ [⟨last.coefficients, last.region ++ [boundary]⟩]⟩) := by
  rw [addLine] at h
  split at h
  · left
    rw [addPrototype] at h
    obtain ⟨coefficients, -, h⟩ := bind_eq_ok.mp h
    split_ifs at h with hempty
    rw [List.isEmpty_iff] at hempty
    exact ⟨⟨coefficients⟩, hempty, (Except.ok.inj h).symm⟩
  · right; left
    rw [addPiece] at h
    obtain ⟨coefficients, hcoefficients, h⟩ := bind_eq_ok.mp h
    obtain ⟨hne, hlowest⟩ := readFractions_spec hcoefficients
    exact ⟨coefficients, hne, hlowest, (Except.ok.inj h).symm⟩
  · exact .inr (.inr (addBoundary_spec h))
  · exact .inr (.inr (addBoundary_spec h))
  · cases h

/-- One line keeps a dump legible. -/
theorem legible_addLine {dump after : RegionDump α} {numbered : NumberedLine} (hdump : dump.Legible)
    (h : addLine dump numbered = .ok after) : after.Legible := by
  rcases addLine_cases h with ⟨form, hform, rfl⟩ | ⟨coefficients, hne, hlowest, rfl⟩ |
      ⟨boundary, front, last, hindex, hmax, hpieces, rfl⟩
  · have hcount : dump.prototypes.length ≤ (dump.prototypes ++ [form]).length := by
      rw [List.length_append]
      exact Nat.le_add_right _ _
    exact {
      prototypes := List.forall_mem_append.mpr ⟨hdump.prototypes, List.forall_mem_singleton.mpr hform⟩
      pieces := fun piece hpiece => (hdump.pieces piece hpiece).mono hcount }
  · have hadded : Piece.Legible dump.prototypes.length ⟨coefficients, []⟩ :=
      ⟨hne, hlowest, fun _ hboundary => absurd hboundary List.not_mem_nil⟩
    exact {
      prototypes := hdump.prototypes
      pieces := List.forall_mem_append.mpr ⟨hdump.pieces, List.forall_mem_singleton.mpr hadded⟩ }
  · have hbefore := hdump.pieces
    rw [hpieces] at hbefore
    obtain ⟨hfront, hlast⟩ := List.forall_mem_append.mp hbefore
    obtain ⟨hfilled, hlowest, hnamed⟩ := List.forall_mem_singleton.mp hlast
    have hextended : Piece.Legible dump.prototypes.length ⟨last.coefficients, last.region ++ [boundary]⟩ :=
      ⟨hfilled, hlowest, List.forall_mem_append.mpr ⟨hnamed, List.forall_mem_singleton.mpr ⟨hindex, hmax⟩⟩⟩
    exact {
      prototypes := hdump.prototypes
      pieces := List.forall_mem_append.mpr ⟨hfront, List.forall_mem_singleton.mpr hextended⟩ }

/-- Reading keeps a dump legible, line by line. -/
theorem legible_foldlM {numbered : List NumberedLine} {dump after : RegionDump α} (hdump : dump.Legible)
    (h : numbered.foldlM addLine dump = .ok after) : after.Legible := by
  induction numbered generalizing dump with
  | nil =>
      cases h
      exact hdump
  | cons line numbered ih =>
      rw [List.foldlM_cons] at h
      obtain ⟨between, hline, hrest⟩ := bind_eq_ok.mp h
      exact ih (legible_addLine hdump hline) hrest

/-- The parts of reading a dump, apart from the header. -/
theorem parse_eq_regions {text : List Char} {dump : RegionDump α} (h : parse text = .ok (.regions dump)) :
    ∃ numbered : List NumberedLine, numbered.foldlM addLine ⟨[], []⟩ = .ok dump ∧ checkDimensions dump = .ok () := by
  rw [parse] at h
  split at h
  · cases h
  · split_ifs at h
    · obtain ⟨coefficients, -, h⟩ := bind_eq_ok.mp h
      split at h <;> cases h
    · obtain ⟨read, hread, h⟩ := bind_eq_ok.mp h
      obtain ⟨_, hcheck, h⟩ := bind_eq_ok.mp h
      cases h
      exact ⟨_, hread, hcheck⟩

/-- Every dump that is read is regular. -/
theorem regular_of_parse {text : List Char} {dump : RegionDump α} (h : parse text = .ok (.regions dump)) :
    ∃ dim, dump.Regular dim := by
  obtain ⟨numbered, hread, hcheck⟩ := parse_eq_regions h
  exact regular_of_checkDimensions (legible_foldlM RegionDump.legible_empty hread) hcheck

end Instance

end ReluLogic
