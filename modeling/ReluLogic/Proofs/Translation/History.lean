import ReluLogic.Proofs.Translation.EndToEnd
import ReluLogic.Proofs.Translation.Outcomes

/-!
Histories of a translator in which calls may fail. A call that fails returns nothing, and the allocator keeps what it
took. Where a single piece is refused that is nothing at all; where pieces are encoded one after the other and a later
one is refused, the constants of the earlier ones stay remembered while the formulas that define them are lost. A
history in which no call leaves a constant or a multiple behind in this way gives every formula its value, and one in
which a call does need not.
-/

namespace ReluLogic

namespace Translator

open Encoding

/-- A call to a translator, or a move of its counter. -/
inductive Command (α : Type) [Scalar α] where
  | encodePiece (coefficients : List Fraction)
  | encodePieces (pieces : List Piece)
  | translateDump (dump : RegionDump α)
  | translate (network : Network α) (outputs : List Nat)
  | jumpTo (target : Nat)

variable {α : Type} [Scalar α]

namespace Command

/-- All coefficients that the command is given have positive denominators. -/
def Proper : Command α → Prop
  | .encodePiece coefficients => ∀ coefficient ∈ coefficients, 0 < coefficient.den
  | .encodePieces pieces => ∀ piece ∈ pieces, piece.Proper
  | .translateDump dump => ∀ piece ∈ dump.pieces, piece.Proper
  | .translate _ _ => True
  | .jumpTo _ => True

instance : DecidablePred (@Proper α _)
  | .encodePiece coefficients => inferInstanceAs (Decidable (∀ coefficient ∈ coefficients, 0 < coefficient.den))
  | .encodePieces pieces => inferInstanceAs (Decidable (∀ piece ∈ pieces, piece.Proper))
  | .translateDump dump => inferInstanceAs (Decidable (∀ piece ∈ dump.pieces, piece.Proper))
  | .translate _ _ => inferInstanceAs (Decidable True)
  | .jumpTo _ => inferInstanceAs (Decidable True)

/-- Whether pieces are encoded one after the other. -/
def isBatch : Command α → Bool
  | .encodePieces _ | .translateDump _ | .translate _ _ => true
  | .encodePiece _ | .jumpTo _ => false

/-- The command on a translator's allocator: the pieces that it encodes, with their encodings. -/
def run (translator : Translator α) : Command α → Encoding (List Call)
  | .encodePiece coefficients => do
    let modsat ← translator.encodePiece coefficients
    pure [⟨coefficients, modsat⟩]
  | .encodePieces pieces => do
    let modsats ← translator.encodePieces pieces
    pure (calls pieces modsats)
  | .translateDump dump => do
    let translation ← translator.translateDump dump
    pure (calls dump.pieces translation.modsats)
  | .translate network outputs => do
    let translation ← translator.translate network outputs
    pure (allCalls translation.decomposition.slots translation.outputs)
  | .jumpTo target => do
    let after ← liftExcept ((← get).jumpTo target)
    set after
    pure []

end Command

/-- A command with the states before and behind it and what it returned. -/
structure Turn (α : Type) [Scalar α] where
  command : Command α
  before : Allocator
  answer : Except Error (List Call)
  after : Allocator

namespace Turn

/-- The encodings that the command returned; one that failed has returned none. -/
def returned (turn : Turn α) : List Call :=
  turn.answer.toOption.getD []

/-- The command has failed and left a constant or a multiple behind. -/
def Strands (turn : Turn α) : Prop :=
  turn.answer.isOk = false ∧
    (turn.after.constants ≠ turn.before.constants ∨ turn.after.auxMultipliers ≠ turn.before.auxMultipliers)

instance : DecidablePred (@Strands α _) :=
  fun turn => inferInstanceAs (Decidable (turn.answer.isOk = false ∧
    (turn.after.constants ≠ turn.before.constants ∨ turn.after.auxMultipliers ≠ turn.before.auxMultipliers)))

end Turn

/-- One command from a state of the allocator. -/
def turn (translator : Translator α) (before : Allocator) (command : Command α) : Turn α :=
  ⟨command, before, ((command.run translator).run.run before).1, ((command.run translator).run.run before).2⟩

/-- Commands one after the other, whatever their outcome. -/
def history (translator : Translator α) : List (Command α) → Allocator → List (Turn α)
  | [], _ => []
  | command :: rest, before =>
    translator.turn before command :: translator.history rest (translator.turn before command).after

variable {translator : Translator α} {command : Command α} {before : Allocator} {valuation : Nat → ℚ}

/-! ### One command -/

theorem run_jumpTo (target : Nat) (before : Allocator) :
    (Command.run translator (.jumpTo target)).run.run before = match before.jumpTo target with
      | .ok after => (.ok [], after)
      | .error fault => (.error fault, before) := by
  rw [Command.run, run_bind, show (get : Encoding Allocator).run.run before = (.ok before, before) from rfl]
  simp only [run_bind]
  cases before.jumpTo target <;> rfl

theorem runs_jumpTo (target : Nat) :
    Runs (·.Proper translator.dim) (Command.run translator (.jumpTo target)) fun calls made => made = calls := by
  intro before
  refine ⟨[.jumpTo target], List.forall_mem_singleton.mpr trivial, ?_⟩
  rw [run_jumpTo, serveAll_cons, serve]
  cases before.jumpTo target with
  | error fault =>
      refine ⟨rfl, fun result hresult => ?_⟩
      cases hresult
  | ok after =>
      refine ⟨rfl, fun result hresult => ?_⟩
      cases hresult
      rfl

/-- Whatever comes of a command, it is a run of encodings, and what it returns is all that they encoded. -/
theorem runs_command (translator : Translator α) (h : command.Proper) :
    Runs (·.Proper translator.dim) (command.run translator) fun calls made => made = calls := by
  cases command with
  | encodePiece coefficients =>
      apply (translator.runs_encodePiece h).bind
      rintro modsat _ rfl
      exact runs_pure rfl
  | encodePieces pieces =>
      apply (translator.runs_encodePieces h).bind
      rintro modsats _ ⟨-, rfl⟩
      exact runs_pure (by simp)
  | translateDump dump =>
      apply (translator.runs_translateDump h).bind
      rintro translation _ rfl
      exact runs_pure (by simp)
  | translate network outputs =>
      apply (translator.runs_translate network outputs).bind
      rintro translation _ rfl
      exact runs_pure (by simp)
  | jumpTo target => exact runs_jumpTo target

/-- A command for a single piece that fails leaves the allocator as it is. -/
theorem after_of_single (hscoped : before.Scoped) (hdim : translator.dim ≤ before.counter)
    (hmax : translator.dim ≤ variableMax) (hproper : command.Proper) (hsingle : command.isBatch = false)
    (hfailed : (translator.turn before command).answer.isOk = false) :
    (translator.turn before command).after = before := by
  unfold turn at hfailed ⊢
  cases command with
  | encodePiece coefficients =>
      simp only [Command.run, encodePiece] at hfailed ⊢
      split_ifs at hfailed ⊢ with hlength
      · rfl
      · rw [run_bind] at hfailed ⊢
        rcases encode_cases hscoped hdim hmax hproper (not_not.mp hlength).le with
          ⟨fault, hencode⟩ | ⟨modsat, after, hencode, -⟩
        · rw [hencode]
        · rw [hencode] at hfailed
          cases hfailed
  | jumpTo target =>
      simp only [run_jumpTo] at hfailed ⊢
      cases hjump : before.jumpTo target with
      | error fault => rfl
      | ok after =>
          rw [hjump] at hfailed
          cases hfailed
  | encodePieces pieces => cases hsingle
  | translateDump dump => cases hsingle
  | translate network outputs => cases hsingle

/-- Every command answers some pieces. Where it succeeds it returns all of them, and otherwise none. -/
theorem answers_turn (hscoped : before.Scoped) (hdim : translator.dim ≤ before.counter)
    (hmax : translator.dim ≤ variableMax) (hproper : command.Proper) :
    ∃ taken, Answers before (translator.turn before command).after taken ∧
      (∀ call ∈ taken, call.coefficients.length ≤ translator.dim + 1) ∧
      ((translator.turn before command).returned = taken ∨
        (translator.turn before command).returned = [] ∧ (translator.turn before command).answer.isOk = false) := by
  obtain ⟨requests, hrequests, hstate, hmade⟩ := runs_command translator hproper before
  have hanswers := answers_serveAll hmax requests hscoped hdim hrequests
  rw [hstate] at hanswers
  refine ⟨_, hanswers, fun call hcall => length_le_of_mem_serveAll hrequests hcall, ?_⟩
  unfold Turn.returned turn
  cases hanswer : ((command.run translator).run.run before).1 with
  | ok calls => exact Or.inl (hmade calls hanswer).symm
  | error fault => exact Or.inr ⟨rfl, rfl⟩

/-- A command that strands nothing keeps the meaning of what is remembered, where the formulas that it returns hold,
and these formulas give what it returned its value. -/
theorem turn_sound (hscoped : before.Scoped) (hdim : translator.dim ≤ before.counter)
    (hmax : translator.dim ≤ variableMax) (hproper : command.Proper)
    (hcounter : (translator.turn before command).after.counter ≤ variableMax)
    (hkept : command.isBatch = true → ¬ (translator.turn before command).Strands) (hunit : UnitValued valuation)
    (hmeaning : before.Meaning valuation)
    (hdefined : Formula.Satisfies valuation (defining (translator.turn before command).returned)) :
    (translator.turn before command).after.Meaning valuation ∧
      ∀ call ∈ (translator.turn before command).returned, call.modsat.phi.Denotes valuation (clamp
        (Affine.evaluate ⟨call.coefficients.map Fraction.value⟩ (inputPoint translator.dim valuation))) := by
  obtain ⟨taken, hanswers, hlength, hreturned⟩ := answers_turn hscoped hdim hmax hproper
  rcases hreturned with hreturned | ⟨hreturned, hfailed⟩ <;> rw [hreturned] at hdefined ⊢
  · refine ⟨hanswers.sound hcounter hunit hmeaning hdefined, fun call hcall => ?_⟩
    rw [← affineFrom_zero_eq (hlength call hcall)]
    exact hanswers.denotes hcounter hunit hmeaning hdefined call hcall
  · refine ⟨?_, fun call hcall => absurd hcall List.not_mem_nil⟩
    cases hbatch : command.isBatch with
    | false =>
        rw [after_of_single hscoped hdim hmax hproper hbatch hfailed]
        exact hmeaning
    | true =>
        have hsame := hkept hbatch
        simp only [Turn.Strands, hfailed, true_and, not_or, not_not] at hsame
        obtain ⟨hconstants, hauxMultipliers⟩ := hsame
        have hbefore : (translator.turn before command).before = before := rfl
        constructor
        · rw [hconstants, hbefore]
          exact hmeaning.constants
        · rw [hauxMultipliers, hbefore]
          exact hmeaning.auxMultipliers

/-! ### Histories -/

theorem history_sound (hmax : translator.dim ≤ variableMax) (hunit : UnitValued valuation)
    (commands : List (Command α)) :
    ∀ {before : Allocator}, before.Scoped → translator.dim ≤ before.counter → before.Meaning valuation →
      (∀ command ∈ commands, command.Proper) →
      (∀ turn ∈ translator.history commands before, turn.after.counter ≤ variableMax) →
      (∀ turn ∈ translator.history commands before, turn.command.isBatch = true → ¬ turn.Strands) →
      (∀ turn ∈ translator.history commands before, Formula.Satisfies valuation (defining turn.returned)) →
      ∀ turn ∈ translator.history commands before, ∀ call ∈ turn.returned,
        call.modsat.phi.Denotes valuation (clamp
          (Affine.evaluate ⟨call.coefficients.map Fraction.value⟩ (inputPoint translator.dim valuation))) := by
  -- along the commands: the state stays in scope, and what it remembers keeps its meaning
  induction commands with
  | nil => exact fun _ _ _ _ _ _ _ turn hturn => absurd hturn List.not_mem_nil
  | cons command commands ih =>
      intro before hscoped hdim hmeaning hproper hcounter hkept hdefined
      simp only [history, List.forall_mem_cons] at hproper hcounter hkept hdefined ⊢
      obtain ⟨taken, hanswers, -, -⟩ := answers_turn hscoped hdim hmax hproper.1
      obtain ⟨hmeaning', hvalues⟩ :=
        turn_sound hscoped hdim hmax hproper.1 hcounter.1 hkept.1 hunit hmeaning hdefined.1
      exact ⟨hvalues, ih hanswers.scope (hdim.trans hanswers.counter_le) hmeaning' hproper.2 hcounter.2 hkept.2
        hdefined.2⟩

/-- Where the inputs use up all variables and nothing is remembered, a history that takes no variable returns
nothing. -/
theorem history_eq_nil (commands : List (Command α)) :
    ∀ {before : Allocator}, before.zero = none → before.constants = .empty → variableMax ≤ before.counter →
      (∀ command ∈ commands, command.Proper) →
      (∀ turn ∈ translator.history commands before, turn.after.counter ≤ variableMax) →
      ∀ turn ∈ translator.history commands before, turn.returned = [] := by
  induction commands with
  | nil => exact fun _ _ _ _ _ turn hturn => absurd hturn List.not_mem_nil
  | cons command commands ih =>
      intro before hzero hconstants hfull hproper hcounter
      simp only [history, List.forall_mem_cons] at hproper hcounter ⊢
      obtain ⟨requests, -, hstate, hmade⟩ := runs_command translator hproper.1 before
      have hstays : (translator.turn before command).after = before := by
        show ((command.run translator).run.run before).2 = before
        rw [← hstate]
        refine (serveAll_advances requests before).resolve_right fun hlt => ?_
        rw [hstate] at hlt
        exact absurd (hfull.trans_lt (hlt.trans_le hcounter.1)) (lt_irrefl _)
      have hle : (serveAll requests before).2.counter ≤ before.counter := by
        rw [hstate]
        exact (congrArg Allocator.counter hstays).le
      have hnone := serveAll_eq_nil requests hzero hconstants hle
      constructor
      · unfold Turn.returned turn
        cases hanswer : ((command.run translator).run.run before).1 with
        | ok calls => exact (hmade calls hanswer).symm.trans hnone
        | error fault => rfl
      · rw [hstays] at hcounter ⊢
        exact ih hzero hconstants hfull hproper.2 hcounter.2

/-- Calls to a new translator that fail do no harm to later ones as long as none of them strands a constant or a
multiple, which only calls that encode several pieces can do. Under every valuation that satisfies the formulas
returned by the calls that succeeded, each formula returned has the affine value of its coefficients at the inputs,
cut off to the unit interval. -/
theorem history_forces_values (translator : Translator α) {commands : List (Command α)} {turns : List (Turn α)}
    (hturns : translator.history commands (.ofDim translator.dim) = turns)
    (hproper : ∀ command ∈ commands, command.Proper) (hcounter : ∀ turn ∈ turns, turn.after.counter ≤ variableMax)
    (hkept : ∀ turn ∈ turns, turn.command.isBatch = true → ¬ turn.Strands)
    {valuation : Nat → ℚ} (hunit : UnitValued valuation)
    (hdefined : ∀ turn ∈ turns, ∀ call ∈ turn.returned, ∀ formula ∈ call.modsat.defining,
      formula.evaluate valuation = .ok (some 1)) :
    ∀ turn ∈ turns, ∀ call ∈ turn.returned, call.modsat.phi.evaluate valuation = .ok (some (min 1 (max 0
      (Affine.evaluate ⟨call.coefficients.map Fraction.value⟩ (inputPoint translator.dim valuation))))) := by
  subst hturns
  intro turn hturn call hcall
  rcases le_or_gt translator.dim variableMax with hdim | hdim
  · refine history_sound hdim hunit commands (Allocator.scoped_ofDim _) (le_min le_rfl hdim)
      (Allocator.meaning_ofDim _ _) hproper hcounter hkept ?_ turn hturn call hcall
    exact fun turn hturn => satisfies_defining_iff.mpr (hdefined turn hturn)
  · rw [history_eq_nil commands rfl rfl (le_min hdim.le le_rfl) hproper hcounter turn hturn] at hcall
    exact absurd hcall List.not_mem_nil

/-- A batch that is refused at its first piece, then two pieces over one input with a jump between them. -/
def refusedFirst : List (Command ℚ) :=
  [.encodePieces [⟨[⟨-1, 2⟩], []⟩], .encodePieces [⟨[⟨-1, 2⟩, .one], []⟩], .jumpTo 9, .encodePiece [⟨1, 3⟩, ⟨1, 2⟩]]

/-- The refused batch strands nothing, and at the input three quarters the last piece has its value. -/
theorem history_forces_values_refusedFirst :
    ∃ turn ∈ paired.history refusedFirst (.ofDim 1), ∃ call ∈ turn.returned,
      call.coefficients = [⟨1, 3⟩, ⟨1, 2⟩] ∧
        call.modsat.phi.evaluate (halvesDegrees.getD · 0) = .ok (some (17 / 24)) := by
  have hunit := unitValued_getD (show ∀ degree ∈ halvesDegrees, 0 ≤ degree ∧ degree ≤ 1 by decide +kernel)
  have hforced := history_forces_values paired (show paired.history refusedFirst (.ofDim 1) = _ from rfl)
    (by decide) (by decide +kernel) (by decide +kernel) hunit (by decide +kernel)
  have hlast : ∃ turn ∈ paired.history refusedFirst (.ofDim 1), ∃ call ∈ turn.returned,
      call.coefficients = [⟨1, 3⟩, ⟨1, 2⟩] := by
    decide +kernel
  obtain ⟨turn, hturn, call, hcall, hcoefficients⟩ := hlast
  refine ⟨turn, hturn, call, hcall, hcoefficients, ?_⟩
  rw [hforced turn hturn call hcall, hcoefficients]
  decide +kernel

/-- A batch whose first piece takes the constant of one half and whose second piece is refused, then the first piece
on its own. -/
def refusedSecond : List (Command ℚ) :=
  [.encodePieces [⟨[⟨1, 2⟩, .zero], []⟩, ⟨[⟨1, 2⟩], []⟩], .encodePiece [⟨1, 2⟩, .zero]]

/-- A failed batch can do harm. The constant of one half was handed out by it, and the call behind it returns a
formula that reads the constant with none that defines it; where all variables are zero, so is the formula. -/
theorem history_strands_constant :
    (∀ command ∈ refusedSecond, command.Proper) ∧
      (∀ turn ∈ paired.history refusedSecond (.ofDim 1), turn.after.counter ≤ variableMax) ∧
      (∀ turn ∈ paired.history refusedSecond (.ofDim 1), ∀ call ∈ turn.returned, ∀ formula ∈ call.modsat.defining,
        formula.evaluate (fun _ => (0 : ℚ)) = .ok (some 1)) ∧
      ∃ turn ∈ paired.history refusedSecond (.ofDim 1), ∃ call ∈ turn.returned,
        call.modsat.phi.evaluate (fun _ => (0 : ℚ)) = .ok (some 0) ∧
          min 1 (max 0 (Affine.evaluate ⟨call.coefficients.map Fraction.value⟩ (inputPoint 1 fun _ => 0))) =
            (1 / 2 : ℚ) := by
  decide +kernel

end Translator

end ReluLogic
