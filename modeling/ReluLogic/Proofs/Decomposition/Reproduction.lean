import ReluLogic.Proofs.Decomposition.Totality
import ReluLogic.Proofs.Fraction

/-!
What pieces say about the network. On the current region of a search the forms have the values that reach the
current layer, so the layers that are left turn them into the outputs. A leaf cuts its region by the output's
form: the pieces are zero where the output is not positive, one where it is at least one, and the rounded form
in between.
-/

namespace ReluLogic

/-! ### Values of forms -/

namespace Affine

variable {dim : Nat} {point : List ℚ}

/-- A form that reads no input is its constant. -/
theorem evaluate_replicate (value : ℚ) (dim : Nat) (point : List ℚ) :
    (⟨value :: List.replicate dim 0⟩ : Affine ℚ).evaluate point = value := by
  have hsum : ∀ (count : Nat) (point : List ℚ),
      (List.zipWith (· * ·) (List.replicate count (0 : ℚ)) point).sum = 0 := by
    intro count
    induction count with
    | zero => exact fun _ => rfl
    | succ count ih =>
        intro point
        cases point with
        | nil => rfl
        | cons value point =>
            rw [List.replicate_succ, List.zipWith_cons_cons, List.sum_cons, ih, zero_mul, add_zero]
  rw [evaluate_eq, constant, linear, List.headD_cons, List.tail_cons, hsum, add_zero]

@[simp]
theorem evaluate_zero (dim : Nat) (point : List ℚ) : (zero dim : Affine ℚ).evaluate point = 0 :=
  evaluate_replicate 0 dim point

theorem evaluate_minusOne {form : Affine ℚ} (h : form.coefficients.length = dim + 1) :
    form.minusOne.evaluate point = form.evaluate point - 1 := by
  obtain ⟨coefficients⟩ := form
  cases coefficients with
  | nil => cases h
  | cons first rest =>
      simp only [evaluate_eq, minusOne, constant, linear, List.headD_cons, List.tail_cons]
      ring

/-- A multiple of a form added coefficient by coefficient adds that multiple of its value. -/
theorem evaluate_zipWith_add_mul {total coefficients : List ℚ} (weight : ℚ)
    (h : total.length = coefficients.length) :
    (⟨List.zipWith (fun c v => c + v * weight) total coefficients⟩ : Affine ℚ).evaluate point =
      (⟨total⟩ : Affine ℚ).evaluate point + (⟨coefficients⟩ : Affine ℚ).evaluate point * weight := by
  have hsum : ∀ total coefficients point : List ℚ, total.length = coefficients.length →
      (List.zipWith (· * ·) (List.zipWith (fun c v => c + v * weight) total coefficients) point).sum =
        (List.zipWith (· * ·) total point).sum + (List.zipWith (· * ·) coefficients point).sum * weight := by
    intro total
    induction total with
    | nil =>
        intro coefficients point hlength
        rw [List.eq_nil_of_length_eq_zero hlength.symm]
        simp
    | cons first total ih =>
        intro coefficients point hlength
        cases coefficients with
        | nil => cases hlength
        | cons coefficient coefficients =>
            cases point with
            | nil => simp
            | cons value point =>
                simp only [List.zipWith_cons_cons, List.sum_cons, ih _ _ (Nat.succ.inj hlength)]
                ring
  cases total with
  | nil =>
      rw [List.eq_nil_of_length_eq_zero h.symm]
      simp [evaluate_eq, constant, linear]
  | cons first total =>
      cases coefficients with
      | nil => cases h
      | cons coefficient coefficients =>
          simp only [evaluate_eq, constant, linear, List.zipWith_cons_cons, List.headD_cons, List.tail_cons,
            hsum _ _ _ (Nat.succ.inj h)]
          ring

end Affine

/-- The composed form has the node's value over the values of the forms it reads. -/
theorem Search.evaluate_compose {dim : Nat} {values : List (Affine ℚ)} (h : Shaped dim values)
    (node : Node ℚ) (point : List ℚ) :
    (compose dim values node).evaluate point = node.evaluate (values.map (·.evaluate point)) := by
  have hfold : ∀ (values : List (Affine ℚ)) (weights total : List ℚ), Shaped dim values →
      total.length = dim + 1 →
        (⟨(values.zip weights).foldl (fun total (value, weight) =>
          List.zipWith (fun c v => c + v * weight) total value.coefficients) total⟩ : Affine ℚ).evaluate point =
        (⟨total⟩ : Affine ℚ).evaluate point +
          (List.zipWith (· * ·) weights (values.map (·.evaluate point))).sum := by
    intro values
    induction values with
    | nil =>
        intro weights total _ _
        rw [List.zip_nil_left, List.map_nil, List.zipWith_nil_right]
        exact (add_zero _).symm
    | cons value values ih =>
        intro weights total hvalues htotal
        obtain ⟨hvalue, hrest⟩ := List.forall_mem_cons.mp hvalues
        cases weights with
        | nil => exact (add_zero _).symm
        | cons weight weights =>
            have hlength : total.length = value.coefficients.length := htotal.trans hvalue.symm
            rw [List.zip_cons_cons, List.foldl_cons, ih weights _ hrest (by
              rw [List.length_zipWith, hlength, min_self, hvalue]),
              Affine.evaluate_zipWith_add_mul weight hlength, List.map_cons, List.zipWith_cons_cons,
              List.sum_cons]
            ring
  rw [compose, hfold values _ _ h (by rw [List.length_cons, List.length_replicate]), Affine.evaluate_replicate,
    Node.evaluate_eq]

namespace Network

variable {α : Type} [Scalar α]

/-- The outputs that layers give from the values that reach them, gates included. -/
def resume : List (Layer α) → List α → List α
  | [], values => values
  | layer :: rest, values => resume rest (layer.map (·.evaluate (values.map gate)))

theorem forward_cons (first : Layer α) (rest : List (Layer α)) (input : List α) :
    forward (first :: rest) input = resume rest (first.map (·.evaluate input)) := by
  induction rest generalizing first input with
  | nil => rfl
  | cons layer rest ih =>
      rw [forward, ih, resume, List.map_map]
      · rfl
      · exact fun h => nomatch h

end Network

/-- An open gate passes the value of its form and a closed one zero. -/
theorem Gate.evaluate_output {gate : Gate ℚ} {sign : Sign} {point : List ℚ}
    (h : sign.admits (gate.form.evaluate point) 0 = true) :
    (gate.output sign).evaluate point = Network.gate (gate.form.evaluate point) := by
  rw [Network.gate_eq_max]
  cases sign with
  | geq => exact (max_eq_left ((Sign.admits_geq _).mp h)).symm
  | leq => rw [Gate.output, Affine.evaluate_zero, max_eq_right ((Sign.admits_leq _).mp h)]

/-! ### Pieces -/

/-- A piece is the rounding of an output's form, held between zero and one on the piece's region. -/
def Piece.Converts {α : Type} [Scalar α] (prototypes : List (Affine α)) (piece : Piece) (form : Affine α) :
    Prop :=
  piece.coefficients = form.coefficients.map Fraction.ofDecimal ∧
    ∃ region, sides prototypes piece.region = region ++ [(some form, .geq), (some form.minusOne, .leq)]

/-- A piece agrees with a value on its region, up to the rounding of coefficients and with the value cut off
to the unit interval. -/
inductive Piece.Cuts (dim : Nat) (prototypes : List (Affine ℚ)) (value : List ℚ → ℚ) (piece : Piece) : Prop where
  | zero (coefficients_eq : piece.coefficients = List.replicate (dim + 1) .zero)
    (nonpos : ∀ point ∈ unitBox dim, Inside prototypes piece.region point → value point ≤ 0)
  | affine (form : Affine ℚ) (converts : piece.Converts prototypes form)
    (length_eq : form.coefficients.length = dim + 1)
    (within : ∀ point ∈ unitBox dim, Inside prototypes piece.region point →
      value point = form.evaluate point ∧ 0 ≤ value point ∧ value point ≤ 1)
  | one (coefficients_eq : piece.coefficients = .one :: List.replicate dim .zero)
    (one_le : ∀ point ∈ unitBox dim, Inside prototypes piece.region point → 1 ≤ value point)

namespace Piece

variable {dim : Nat} {prototypes others : List (Affine ℚ)} {value : List ℚ → ℚ} {piece other : Piece}

/-- What a piece says depends on its coefficients and on what its boundaries stand for only. -/
theorem Cuts.congr (h : piece.Cuts dim prototypes value) (hcoefficients : other.coefficients = piece.coefficients)
    (hsides : sides others other.region = sides prototypes piece.region) :
    other.Cuts dim others value := by
  have hinside : ∀ {point}, Inside others other.region point → Inside prototypes piece.region point :=
    fun hpoint => (inside_congr hsides).mp hpoint
  cases h with
  | zero heq hnonpos =>
      exact .zero (hcoefficients.trans heq) fun point hbox hpoint => hnonpos point hbox (hinside hpoint)
  | affine form hconverts hlength hwithin =>
      refine .affine form ⟨hcoefficients.trans hconverts.1, ?_⟩ hlength
        fun point hbox hpoint => hwithin point hbox (hinside hpoint)
      rw [hsides]
      exact hconverts.2
  | one heq hone =>
      exact .one (hcoefficients.trans heq) fun point hbox hpoint => hone point hbox (hinside hpoint)

theorem evaluate_of_coefficients_eq_zero (h : piece.coefficients = List.replicate (dim + 1) .zero)
    (point : List ℚ) : piece.evaluate point = (0 : ℚ) := by
  rw [evaluate, form, h, List.map_replicate, Fraction.value_zero]
  exact Affine.evaluate_zero dim point

theorem evaluate_of_coefficients_eq_one (h : piece.coefficients = .one :: List.replicate dim .zero)
    (point : List ℚ) : piece.evaluate point = (1 : ℚ) := by
  rw [evaluate, form, h, List.map_cons, List.map_replicate, Fraction.value_zero, Fraction.value_one]
  exact Affine.evaluate_replicate 1 dim point

theorem Converts.evaluate_eq {form : Affine ℚ} (h : piece.Converts prototypes form) (point : List ℚ) :
    piece.evaluate point = form.rounded.evaluate point := by
  rw [evaluate, Piece.form, h.1, List.map_map]
  rfl

/-- On its region a piece is within half a millionth per coefficient of the value cut off to the unit
interval. -/
theorem Cuts.abs_evaluate_sub_le (h : piece.Cuts dim prototypes value)
    (hforms : ∀ form, piece.Converts prototypes form → form.Convertible) {point : List ℚ}
    (hbox : point ∈ unitBox dim) (hpoint : Inside prototypes piece.region point) :
    |piece.evaluate point - clamp (value point)| ≤ (dim + 1) / (2 * Fraction.precision) := by
  have hbound : (0 : ℚ) ≤ (dim + 1) / (2 * Fraction.precision) :=
    div_nonneg (by positivity) (mul_nonneg zero_le_two Fraction.precision_pos.le)
  cases h with
  | zero heq hnonpos =>
      rwa [evaluate_of_coefficients_eq_zero heq, clamp_of_nonpos (hnonpos point hbox hpoint), sub_self, abs_zero]
  | affine form hconverts hlength hwithin =>
      obtain ⟨hvalue, hzero, hone⟩ := hwithin point hbox hpoint
      rw [hconverts.evaluate_eq, clamp_of_mem hzero hone, hvalue]
      exact Affine.abs_rounded_sub_le hlength (hforms form hconverts) hbox
  | one heq hone =>
      rwa [evaluate_of_coefficients_eq_one heq, clamp_of_one_le (hone point hbox hpoint), sub_self, abs_zero]

/-- Where the rounding is exact so is the piece. -/
theorem Cuts.evaluate_eq (h : piece.Cuts dim prototypes value)
    (hforms : ∀ form, piece.Converts prototypes form → form.Convertible ∧ form.IsDecimal) {point : List ℚ}
    (hbox : point ∈ unitBox dim) (hpoint : Inside prototypes piece.region point) :
    piece.evaluate point = clamp (value point) := by
  cases h with
  | zero heq hnonpos =>
      rw [evaluate_of_coefficients_eq_zero heq, clamp_of_nonpos (hnonpos point hbox hpoint)]
  | affine form hconverts hlength hwithin =>
      obtain ⟨hvalue, hzero, hone⟩ := hwithin point hbox hpoint
      obtain ⟨hconvertible, hdecimal⟩ := hforms form hconverts
      rw [hconverts.evaluate_eq, clamp_of_mem hzero hone, hvalue, Affine.rounded_of_isDecimal hconvertible hdecimal]
  | one heq hone =>
      rw [evaluate_of_coefficients_eq_one heq, clamp_of_one_le (hone point hbox hpoint)]

end Piece

end ReluLogic
