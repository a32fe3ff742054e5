import ReluLogic.Proofs.Decomposition.Coefficients
import ReluLogic.Proofs.Translation.Run

/-!
Computations that may fail on the way, as runs of an allocator. Whatever the outcome of a call to a translator, the
allocator is left where a run of encodings leaves it: those of the pieces that were reached. Only a call that succeeds
returns what was encoded. This holds for numbers of any kind, any oracle and any settings.
-/

namespace ReluLogic

namespace Encoding

variable {β γ δ : Type} {P : Request → Prop}

/-- Whatever its outcome, the computation leaves the state in which some run of requests ends, and what it returns on
success is told from the calls of that run. -/
def Runs (P : Request → Prop) (computation : Encoding β) (Made : β → List Call → Prop) : Prop :=
  ∀ before : Allocator, ∃ requests, (∀ request ∈ requests, P request) ∧
    (serveAll requests before).2 = (computation.run.run before).2 ∧
      ∀ result, (computation.run.run before).1 = .ok result → Made result (serveAll requests before).1

theorem Runs.of_returns {computation : Encoding β} {Made : β → List Call → Prop} (h : Runs P computation Made)
    {before after : Allocator} {result : β} (hreturns : computation.Returns before result after) :
    ∃ requests calls, (∀ request ∈ requests, P request) ∧ serveAll requests before = (calls, after) ∧
      Made result calls := by
  obtain ⟨requests, hrequests, hstate, hmade⟩ := h before
  rw [hreturns] at hstate hmade
  exact ⟨requests, _, hrequests, Prod.ext rfl hstate, hmade result rfl⟩

theorem runs_pure {result : β} {Made : β → List Call → Prop} (h : Made result []) : Runs P (pure result) Made := by
  intro before
  refine ⟨[], fun _ hmem => absurd hmem List.not_mem_nil, rfl, fun other hother => ?_⟩
  cases hother
  exact h

theorem runs_fail (fault : EncodingFault) (Made : β → List Call → Prop) : Runs P (fail fault) Made := by
  intro before
  refine ⟨[], fun _ hmem => absurd hmem List.not_mem_nil, rfl, fun other hother => ?_⟩
  cases hother

theorem runs_liftExcept (computation : Except Error β) {Made : β → List Call → Prop}
    (h : ∀ result, computation = .ok result → Made result []) : Runs P (liftExcept computation) Made := by
  cases computation with
  | error fault =>
      intro before
      refine ⟨[], fun _ hmem => absurd hmem List.not_mem_nil, rfl, fun other hother => ?_⟩
      cases hother
  | ok result => exact runs_pure (h result rfl)

theorem runs_encode {coefficients : List Fraction} (h : P (.encode coefficients)) :
    Runs P (encode coefficients) fun modsat calls => calls = [⟨coefficients, modsat⟩] := by
  intro before
  refine ⟨[.encode coefficients], List.forall_mem_singleton.mpr h, ?_⟩
  rw [serveAll_cons, serve]
  rcases (encode coefficients).run.run before with ⟨fault | modsat, after⟩
  · refine ⟨rfl, fun result hresult => ?_⟩
    cases hresult
  · refine ⟨rfl, fun result hresult => ?_⟩
    cases hresult
    rfl

/-- A run goes on where the first part has succeeded; where it has failed nothing follows. -/
theorem Runs.bind {first : Encoding β} {next : β → Encoding γ} {Made : β → List Call → Prop}
    {Whole : γ → List Call → Prop} (h : Runs P first Made)
    (hnext : ∀ result calls, Made result calls →
      Runs P (next result) fun final more => Whole final (calls ++ more)) :
    Runs P (first >>= next) Whole := by
  intro before
  obtain ⟨requests, hrequests, hstate, hmade⟩ := h before
  rw [run_bind]
  rcases hrun : first.run.run before with ⟨fault | result, middle⟩ <;> rw [hrun] at hstate hmade
  · refine ⟨requests, hrequests, hstate, fun final hfinal => ?_⟩
    cases hfinal
  · obtain ⟨more, hmore, hstate', hmade'⟩ := hnext result _ (hmade result rfl) middle
    refine ⟨requests ++ more, List.forall_mem_append.mpr ⟨hrequests, hmore⟩, ?_⟩
    rw [serveAll_append, show (serveAll requests before).2 = middle from hstate]
    exact ⟨hstate', hmade'⟩

theorem Runs.mono {computation : Encoding β} {Made Other : β → List Call → Prop} (h : Runs P computation Made)
    (himp : ∀ result calls, Made result calls → Other result calls) : Runs P computation Other := by
  intro before
  obtain ⟨requests, hrequests, hstate, hmade⟩ := h before
  exact ⟨requests, hrequests, hstate, fun result hresult => himp _ _ (hmade result hresult)⟩

/-- Items are reached in order up to the first that fails. -/
theorem runs_mapM {step : δ → Encoding β} {made : δ → β → List Call} {Good : δ → β → Prop} (items : List δ)
    (h : ∀ item ∈ items, Runs P (step item) fun result calls => Good item result ∧ calls = made item result) :
    Runs P (items.mapM step) fun results calls =>
      List.Forall₂ Good items results ∧ calls = (List.zipWith made items results).flatten := by
  induction items with
  | nil =>
      rw [List.mapM_nil]
      exact runs_pure ⟨.nil, rfl⟩
  | cons item items ih =>
      obtain ⟨hitem, hitems⟩ := List.forall_mem_cons.mp h
      rw [List.mapM_cons]
      apply hitem.bind
      rintro result _ ⟨hgood, rfl⟩
      apply (ih hitems).bind
      rintro results _ ⟨hgoods, rfl⟩
      exact runs_pure ⟨.cons hgood hgoods, by simp⟩

/-- A list of computations that succeeds has passed a state in which the first of them had succeeded. -/
theorem returns_mapM_take {step : δ → Encoding β} (items : List δ) :
    ∀ {count : Nat} {before after : Allocator} {results : List β}, (items.mapM step).Returns before results after →
      ∃ middle, ((items.take count).mapM step).Returns before (results.take count) middle ∧
        ((items.drop count).mapM step).Returns middle (results.drop count) after := by
  induction items with
  | nil =>
      intro count before after results h
      rw [List.mapM_nil] at h
      obtain ⟨rfl, rfl⟩ := (returns_pure [] before).unique h
      simp only [List.take_nil, List.drop_nil, List.mapM_nil]
      exact ⟨before, returns_pure [] before, returns_pure [] before⟩
  | cons item items ih =>
      intro count before after results h
      cases count with
      | zero => exact ⟨before, returns_pure [] before, h⟩
      | succ count =>
          rw [List.mapM_cons] at h
          obtain ⟨result, next, hitem, h⟩ := returns_bind.mp h
          obtain ⟨others, last, hitems, h⟩ := returns_bind.mp h
          cases h
          obtain ⟨middle, hfirst, hrest⟩ := @ih count _ _ _ hitems
          refine ⟨middle, ?_, hrest⟩
          rw [List.take_succ_cons, List.take_succ_cons, List.mapM_cons]
          exact returns_bind.mpr ⟨result, next, hitem, returns_bind.mpr ⟨_, middle, hfirst, returns_pure _ _⟩⟩

/-! ### State -/

theorem serveAll_advances (requests : List Request) :
    ∀ before : Allocator, (serveAll requests before).2 = before ∨
      before.counter < (serveAll requests before).2.counter := by
  induction requests with
  | nil => exact fun _ => Or.inl rfl
  | cons request requests ih =>
      intro before
      rw [serveAll_cons]
      rcases serve_advances before request with hstays | hlt
      · rw [hstays]
        exact ih before
      · exact Or.inr (hlt.trans_le (counter_le_serveAll requests _))

theorem length_le_of_mem_serveAll {dim : Nat} {requests : List Request} {before : Allocator}
    (hproper : ∀ request ∈ requests, request.Proper dim) {call : Call} (hcall : call ∈ (serveAll requests before).1) :
    call.coefficients.length ≤ dim + 1 :=
  (hproper _ (encode_mem_of_mem_serveAll requests hcall)).1

end Encoding

namespace Translator

open Encoding

variable {α : Type} (translator : Translator α)

theorem runs_encodePiece {coefficients : List Fraction} (h : ∀ coefficient ∈ coefficients, 0 < coefficient.den) :
    Runs (·.Proper translator.dim) (translator.encodePiece coefficients)
      fun modsat calls => calls = [⟨coefficients, modsat⟩] := by
  rw [encodePiece]
  split_ifs with hlength
  · exact runs_fail _ _
  · exact runs_encode ⟨(not_not.mp hlength).le, h⟩

theorem runs_encodePieces {pieces : List Piece} (h : ∀ piece ∈ pieces, piece.Proper) :
    Runs (·.Proper translator.dim) (translator.encodePieces pieces)
      fun modsats made => pieces.length = modsats.length ∧ made = calls pieces modsats := by
  have hpieces : Runs (·.Proper translator.dim) (translator.encodePieces pieces) fun modsats made =>
      List.Forall₂ (fun _ _ => True) pieces modsats ∧ made = calls pieces modsats :=
    runs_mapM pieces fun piece hpiece =>
      (translator.runs_encodePiece (h piece hpiece)).mono fun _ _ hcalls => ⟨trivial, hcalls⟩
  exact hpieces.mono fun _ _ hmade => ⟨hmade.1.length_eq, hmade.2⟩

variable [Scalar α]

/-- The pieces of an output and their encodings, one for each. -/
def Matches (slot : Nat × List Piece) (translation : OutputTranslation) : Prop :=
  translation.output = slot.1 ∧ slot.2.length = translation.modsats.length

theorem runs_translatePieces {pieces : List Piece} (h : ∀ piece ∈ pieces, piece.Proper) (output : Nat)
    (prototypes : List (Affine α)) :
    Runs (·.Proper translator.dim) (translator.translatePieces output prototypes pieces)
      fun translation made => Matches (output, pieces) translation ∧ made = calls pieces translation.modsats := by
  have hencode : ∀ join : List Formula → Except Error Formula,
      Runs (·.Proper translator.dim)
        (do
          let modsats ← translator.encodePieces pieces
          let lattice ← liftExcept (join (modsats.map Modsat.phi))
          pure ⟨output, modsats, lattice⟩ : Encoding OutputTranslation)
        fun translation made =>
          Matches (output, pieces) translation ∧ made = calls pieces translation.modsats := by
    intro join
    apply (translator.runs_encodePieces h).bind
    rintro modsats _ ⟨hlength, rfl⟩
    apply (runs_liftExcept _ fun _ _ => rfl).bind
    rintro lattice _ rfl
    exact runs_pure ⟨⟨rfl, hlength⟩, by simp⟩
  rw [translatePieces]
  split_ifs
  · apply (runs_liftExcept _ fun _ _ => rfl).bind
    rintro table _ rfl
    exact hencode fun formulas =>
      (translator.family prototypes pieces).assembleWithTable table formulas translator.threads
  · exact hencode fun formulas => (translator.family prototypes pieces).assemble formulas translator.threads

theorem runs_translateDump {dump : RegionDump α} (h : ∀ piece ∈ dump.pieces, piece.Proper) :
    Runs (·.Proper translator.dim) (translator.translateDump dump)
      fun translation made => made = calls dump.pieces translation.modsats := by
  have hpieces := (translator.runs_translatePieces h 0 dump.prototypes).mono fun _ _ hmade => hmade.2
  rw [translateDump]
  cases dump.dim? with
  | none => exact hpieces
  | some dim =>
      apply (runs_liftExcept _ fun _ _ => rfl).bind
      rintro _ _ rfl
      exact hpieces

theorem runs_slots (slots : List (Nat × List Piece)) (h : ∀ slot ∈ slots, ∀ piece ∈ slot.2, piece.Proper)
    (prototypes : List (Affine α)) :
    Runs (·.Proper translator.dim)
      (slots.mapM fun slot => translator.translatePieces slot.1 prototypes slot.2)
      fun translations made => List.Forall₂ Matches slots translations ∧ made = allCalls slots translations :=
  runs_mapM slots fun slot hslot => translator.runs_translatePieces (h slot hslot) slot.1 prototypes

theorem proper_slots {network : Network α} {outputs : List Nat} {decomposition : Decomposition α}
    (h : translator.decompose network outputs = .ok decomposition) :
    ∀ slot ∈ decomposition.slots, ∀ piece ∈ slot.2, piece.Proper :=
  fun _ hslot => proper_of_decompose h _ (List.of_mem_zip hslot).2

theorem runs_translate (network : Network α) (outputs : List Nat) :
    Runs (·.Proper translator.dim) (translator.translate network outputs)
      fun translation made => made = allCalls translation.decomposition.slots translation.outputs := by
  rw [translate]
  have hdecompose : Runs (·.Proper translator.dim) (liftExcept (translator.decompose network outputs))
      fun decomposition made => translator.decompose network outputs = .ok decomposition ∧ made = [] :=
    runs_liftExcept _ fun _ hdecomposition => ⟨hdecomposition, rfl⟩
  apply hdecompose.bind
  rintro decomposition _ ⟨hdecomposition, rfl⟩
  apply (translator.runs_slots _ (translator.proper_slots hdecomposition) decomposition.prototypes).bind
  rintro translations _ ⟨-, rfl⟩
  have hstate : Runs (·.Proper translator.dim) (get : Encoding Allocator) fun _ made => made = [] := by
    intro before
    exact ⟨[], fun _ hmem => absurd hmem List.not_mem_nil, rfl, fun _ _ => rfl⟩
  apply hstate.bind
  rintro state _ rfl
  exact runs_pure (by simp)

end Translator

end ReluLogic
