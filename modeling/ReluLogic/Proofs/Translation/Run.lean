import ReluLogic.Proofs.Encoding.Session
import ReluLogic.Translation

/-!
A translation as a run of its encodings. A translation that succeeds has made one call for each piece of each
output, in order, and nothing else of it touches the allocator; so what is known of whole runs is known of it.
-/

namespace ReluLogic

namespace Encoding

variable {β δ : Type} {before after : Allocator}

theorem returns_liftExcept {computation : Except Error β} {result : β} :
    (liftExcept computation : Encoding β).Returns before result after ↔ computation = .ok result ∧ after = before := by
  cases computation with
  | error error =>
      constructor
      · intro h
        cases h
      · rintro ⟨h, -⟩
        cases h
  | ok value =>
      constructor
      · intro h
        cases h
        exact ⟨rfl, rfl⟩
      · rintro ⟨h, rfl⟩
        cases h
        rfl

theorem serveAll_append (first second : List Request) :
    ∀ before : Allocator, serveAll (first ++ second) before =
      ((serveAll first before).1 ++ (serveAll second (serveAll first before).2).1,
        (serveAll second (serveAll first before).2).2) := by
  induction first with
  | nil => exact fun _ => rfl
  | cons request first ih =>
      intro before
      rw [List.cons_append, serveAll_cons, ih, serveAll_cons, List.append_assoc]

/-- Computations that are runs one by one are a run as a whole. -/
theorem serveAll_of_mapM {step : δ → Encoding β} {requests : δ → List Request} {calls : δ → β → List Call}
    {Made : δ → β → Prop}
    (hstep : ∀ {item before result after}, (step item).Returns before result after →
      serveAll (requests item) before = (calls item result, after) ∧ Made item result) (items : List δ) :
    ∀ {before results after}, (items.mapM step).Returns before results after →
      serveAll (items.flatMap requests) before = ((List.zipWith calls items results).flatten, after) ∧
        List.Forall₂ Made items results := by
  induction items with
  | nil =>
      intro before results after h
      cases h
      exact ⟨rfl, .nil⟩
  | cons item items ih =>
      intro before results after h
      rw [List.mapM_cons] at h
      obtain ⟨result, middle, hfirst, h⟩ := returns_bind.mp h
      obtain ⟨others, last, hrest, h⟩ := returns_bind.mp h
      cases h
      obtain ⟨hserve, hmade⟩ := hstep hfirst
      obtain ⟨hserves, hmades⟩ := ih hrest
      refine ⟨?_, .cons hmade hmades⟩
      rw [List.flatMap_cons, serveAll_append, hserve, hserves]
      rfl

end Encoding

/-- The slots of a decomposition: the requested outputs with their pieces. -/
def Decomposition.slots {α : Type} (decomposition : Decomposition α) : List (Nat × List Piece) :=
  decomposition.outputs.zip decomposition.pieces

namespace Translator

open Encoding

variable {translator : Translator ℚ} {before after : Allocator} {piece : Piece} {pieces : List Piece}
  {output : Nat} {prototypes : List (Affine ℚ)}

def request (piece : Piece) : Request :=
  .encode piece.coefficients

/-- The calls for pieces that have been encoded. -/
def calls (pieces : List Piece) (modsats : List Modsat) : List Call :=
  (List.zipWith (fun piece modsat => [⟨piece.coefficients, modsat⟩]) pieces modsats).flatten

theorem mem_calls {modsats : List Modsat} {call : Call} :
    call ∈ calls pieces modsats ↔ ∃ (place : Nat) (piece : Piece), pieces[place]? = some piece ∧
      modsats[place]? = some call.modsat ∧ call.coefficients = piece.coefficients := by
  obtain ⟨coefficients, modsat⟩ := call
  rw [calls, List.mem_flatten]
  constructor
  · rintro ⟨single, hsingle, hcall⟩
    obtain ⟨place, hplace⟩ := List.mem_iff_getElem?.mp hsingle
    obtain ⟨piece, own, hpiece, hown, rfl⟩ := List.getElem?_zipWith_eq_some.mp hplace
    cases List.mem_singleton.mp hcall
    exact ⟨place, piece, hpiece, hown, rfl⟩
  · rintro ⟨place, piece, hpiece, hmodsat, rfl⟩
    exact ⟨_, List.mem_of_getElem? (List.getElem?_zipWith_eq_some.mpr ⟨piece, modsat, hpiece, hmodsat, rfl⟩),
      List.mem_singleton.mpr rfl⟩

theorem defining_calls (pieces : List Piece) :
    ∀ {modsats : List Modsat}, pieces.length = modsats.length →
      defining (calls pieces modsats) = modsats.flatMap Modsat.defining := by
  induction pieces with
  | nil =>
      intro modsats hlength
      rw [List.eq_nil_of_length_eq_zero hlength.symm]
      rfl
  | cons piece pieces ih =>
      intro modsats hlength
      cases modsats with
      | nil => cases hlength
      | cons modsat modsats => exact congrArg (modsat.defining ++ ·) (ih (Nat.succ.inj hlength))

theorem serveAll_of_encodePieces {modsats : List Modsat}
    (h : (translator.encodePieces pieces).Returns before modsats after) :
    serveAll (pieces.flatMap fun piece => [request piece]) before = (calls pieces modsats, after) ∧
      List.Forall₂ (fun piece _ => piece.coefficients.length = translator.dim + 1) pieces modsats := by
  refine serveAll_of_mapM (fun {piece before modsat after} h => ?_) pieces h
  rw [encodePiece] at h
  split_ifs at h with hlength
  · cases h
  · refine ⟨?_, not_not.mp hlength⟩
    rw [serveAll, request, serve, h]
    rfl

/-- An output that has been translated: every piece is encoded, and their formulas are joined by a table without
violations. -/
structure Translated (translator : Translator ℚ) (prototypes : List (Affine ℚ)) (slot : Nat × List Piece)
    (translation : OutputTranslation) : Prop where
  output_eq : translation.output = slot.1
  length_eq : slot.2.length = translation.modsats.length
  join : ∃ table, (translator.family prototypes slot.2).checkLatticeProperty = .ok table ∧
    (translator.family prototypes slot.2).assembleWithTable table (translation.modsats.map Modsat.phi)
      translator.threads = .ok translation.lattice

theorem serveAll_of_translatePieces (hcheck : translator.config.checkLattice = true)
    {translation : OutputTranslation}
    (h : (translator.translatePieces output prototypes pieces).Returns before translation after) :
    serveAll (pieces.flatMap fun piece => [request piece]) before = (calls pieces translation.modsats, after) ∧
      translator.Translated prototypes (output, pieces) translation := by
  rw [translatePieces, if_pos hcheck] at h
  obtain ⟨table, middle, htable, hbehind⟩ := returns_bind.mp h
  obtain ⟨modsats, last, hmodsats, hjoin⟩ := returns_bind.mp hbehind
  obtain ⟨lattice, final, hlattice, hresult⟩ := returns_bind.mp hjoin
  cases hresult
  obtain ⟨hcovered, rfl⟩ := returns_liftExcept.mp htable
  obtain ⟨hjoined, rfl⟩ := returns_liftExcept.mp hlattice
  obtain ⟨hserve, hlengths⟩ := serveAll_of_encodePieces hmodsats
  exact ⟨hserve, rfl, hlengths.length_eq, table, hcovered, hjoined⟩

def allCalls (slots : List (Nat × List Piece)) (translations : List OutputTranslation) : List Call :=
  (List.zipWith (fun slot translation => calls slot.2 translation.modsats) slots translations).flatten

variable {slots : List (Nat × List Piece)} {translations : List OutputTranslation}

theorem map_output_eq (h : List.Forall₂ (translator.Translated prototypes) slots translations) :
    translations.map OutputTranslation.output = slots.map Prod.fst := by
  induction h with
  | nil => rfl
  | cons hslot _ ih => rw [List.map_cons, List.map_cons, hslot.output_eq, ih]

theorem exists_slot {Made : Nat × List Piece → OutputTranslation → Prop} (h : List.Forall₂ Made slots translations)
    {place : Nat} {translation : OutputTranslation} (htranslation : translations[place]? = some translation) :
    ∃ slot, slots[place]? = some slot ∧ Made slot translation := by
  obtain ⟨hlt, rfl⟩ := List.getElem?_eq_some_iff.mp htranslation
  have hslot : place < slots.length := h.length_eq.symm ▸ hlt
  exact ⟨_, List.getElem?_eq_getElem hslot, h.get hslot hlt⟩

/-- Together the calls return the defining formulas of all outputs. -/
theorem defining_allCalls
    (h : List.Forall₂ (fun slot translation => slot.2.length = translation.modsats.length) slots translations) :
    defining (allCalls slots translations) = translations.flatMap OutputTranslation.defining := by
  induction h with
  | nil => rfl
  | cons hlength _ ih =>
      rw [List.flatMap_cons, ← ih, OutputTranslation.defining, ← defining_calls _ hlength]
      exact defining_append _ _

theorem mem_allCalls {place : Nat} {slot : Nat × List Piece} {translation : OutputTranslation} {call : Call}
    (hslot : slots[place]? = some slot) (htranslation : translations[place]? = some translation)
    (hcall : call ∈ calls slot.2 translation.modsats) : call ∈ allCalls slots translations :=
  List.mem_flatten.mpr ⟨_, List.mem_of_getElem?
    (List.getElem?_zipWith_eq_some.mpr ⟨slot, translation, hslot, htranslation, rfl⟩), hcall⟩

/-- A translation that succeeds has decomposed the network and translated the slots in order. -/
theorem returns_translate {α : Type} [Scalar α] {translator : Translator α} {network : Network α}
    {outputs : List Nat} {translation : Translation α}
    (h : (translator.translate network outputs).Returns before translation after) :
    translator.decompose network outputs = .ok translation.decomposition ∧
      translation.maxVariable = after.counter ∧
      (translation.decomposition.slots.mapM fun slot =>
        translator.translatePieces slot.1 translation.decomposition.prototypes slot.2).Returns before
          translation.outputs after := by
  obtain ⟨decomposition, middle, hdecomposition, hbehind⟩ := returns_bind.mp h
  obtain ⟨translations, last, htranslations, hcounter⟩ := returns_bind.mp hbehind
  obtain ⟨state, final, hstate, hresult⟩ := returns_bind.mp hcounter
  obtain ⟨hcut, rfl⟩ := returns_liftExcept.mp hdecomposition
  obtain ⟨rfl, rfl⟩ := (returns_get last).unique hstate
  obtain ⟨rfl, rfl⟩ := (returns_pure _ last).unique hresult
  exact ⟨hcut, rfl, htranslations⟩

/-- A translation is the run of the encodings of its pieces, slot by slot. -/
theorem serveAll_of_translate (hcheck : translator.config.checkLattice = true) {network : Network ℚ}
    {outputs : List Nat} {translation : Translation ℚ}
    (h : (translator.translate network outputs).Returns before translation after) :
    translator.decompose network outputs = .ok translation.decomposition ∧
      translation.maxVariable = after.counter ∧
      serveAll (translation.decomposition.slots.flatMap fun slot => slot.2.flatMap fun piece => [request piece])
        before = (allCalls translation.decomposition.slots translation.outputs, after) ∧
      List.Forall₂ (translator.Translated translation.decomposition.prototypes)
        translation.decomposition.slots translation.outputs := by
  obtain ⟨hcut, hcounter, htranslations⟩ := returns_translate h
  have hslot : ∀ {slot : Nat × List Piece} {before : Allocator} {made : OutputTranslation} {after : Allocator},
      (translator.translatePieces slot.1 translation.decomposition.prototypes slot.2).Returns before made after →
        serveAll (slot.2.flatMap fun piece => [request piece]) before =
          (calls slot.2 made.modsats, after) ∧
        translator.Translated translation.decomposition.prototypes slot made :=
    fun h => serveAll_of_translatePieces hcheck h
  obtain ⟨hserve, hmade⟩ := serveAll_of_mapM hslot _ htranslations
  exact ⟨hcut, hcounter, hserve, hmade⟩

end Translator

end ReluLogic
