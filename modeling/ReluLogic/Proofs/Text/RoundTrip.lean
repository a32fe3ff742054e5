import ReluLogic.Proofs.Text.RegionDump

/-!
The `pwl` text of a dump reads back as the dump. Every written line is a letter with words behind it. What reading
does with a stretch of text is stated for whatever follows the stretch, so the text is read off its parts: the
prototypes, and for each piece its coefficients and its boundaries one by one.
-/

namespace ReluLogic

open Text (IsWord spaced)

section

variable {α : Type} [RealText α]

/-- Coefficient by coefficient, two forms are equal or both hold no number. -/
def Affine.Alike (form other : Affine α) : Prop :=
  List.Forall₂ RealText.Alike form.coefficients other.coefficients

/-- Two dumps have the same pieces, and the same prototypes up to values that are no number. -/
structure RegionDump.Alike (dump other : RegionDump α) : Prop where
  prototypes : List.Forall₂ Affine.Alike dump.prototypes other.prototypes
  pieces : dump.pieces = other.pieces

/-- The text of a value is one word, and reads as another value. -/
def RealText.ReadsAs (value again : α) : Prop :=
  IsWord (write value) ∧ read? (write value) = some again

/-- Coefficient by coefficient, the text of a form reads as another form. -/
def Affine.ReadsAs (form again : Affine α) : Prop :=
  List.Forall₂ RealText.ReadsAs form.coefficients again.coefficients

/-! ### Lines as words -/

/-- The numerator and the denominator as words. -/
def Fraction.tokens (fraction : Fraction) : List (List Char) :=
  [Numeral.ofInt fraction.num, Numeral.ofInt fraction.den]

theorem Fraction.isWord_tokens (fractions : List Fraction) :
    ∀ token ∈ fractions.flatMap Fraction.tokens, IsWord token := by
  intro token htoken
  obtain ⟨fraction, -, htoken⟩ := List.mem_flatMap.mp htoken
  rcases List.mem_cons.mp htoken with rfl | htoken
  · exact Numeral.isWord_ofInt _
  · cases List.mem_singleton.mp htoken
    exact Numeral.isWord_ofInt _

theorem Fraction.length_tokens (fractions : List Fraction) :
    (fractions.flatMap Fraction.tokens).length = fractions.length * 2 := by
  simp [List.length_flatMap, Fraction.tokens]

theorem Fraction.tokens_ne_nil {fractions : List Fraction} (h : fractions ≠ []) :
    fractions.flatMap Fraction.tokens ≠ [] := by
  have hpos := List.length_pos_iff.mpr h
  apply List.ne_nil_of_length_pos
  rw [length_tokens]
  omega

theorem Affine.line_eq (form : Affine α) :
    form.line = 'b' :: spaced (form.coefficients.map RealText.write) ++ ['\n'] := by
  rw [line, spaced, List.flatMap_map]

theorem Boundary.line_eq (boundary : Boundary) :
    boundary.line = boundary.sign.tag :: spaced [Numeral.ofNat (boundary.index + 1)] ++ ['\n'] := by
  rw [line, spaced, List.flatMap_singleton]

theorem Piece.lines_eq (piece : Piece) :
    piece.lines = ['\n'] ++ (('p' :: spaced (piece.coefficients.flatMap Fraction.tokens) ++ ['\n']) ++
      piece.region.flatMap Boundary.line) := by
  have hfields : (fun fraction : Fraction => fraction.tokens.flatMap (' ' :: ·)) = Fraction.fields := by
    funext fraction
    rw [Fraction.tokens, Fraction.fields, List.flatMap_cons, List.flatMap_singleton, List.cons_append]
  rw [lines, spaced, List.flatMap_assoc, hfields, List.append_assoc]
  simp only [List.cons_append, List.nil_append]

theorem RegionDump.text_eq (dump : RegionDump α) :
    dump.text = "pwl\n\n".toList ++ (dump.prototypes.flatMap Affine.line ++ dump.pieces.flatMap Piece.lines) :=
  List.append_assoc _ _ _

/-! ### Alike dumps -/

theorem Affine.Alike.line_eq {form other : Affine α} (h : form.Alike other) : form.line = other.line := by
  have hwritten : form.coefficients.map RealText.write = other.coefficients.map RealText.write := by
    rw [← List.forall₂_eq_eq_eq, List.forall₂_map_left_iff, List.forall₂_map_right_iff]
    exact List.Forall₂.imp (fun _ _ => RealText.Alike.write_eq) h
  rw [Affine.line_eq, Affine.line_eq, hwritten]

/-- Dumps that are alike have the same text. -/
theorem RegionDump.Alike.text_eq {dump other : RegionDump α} (h : dump.Alike other) : dump.text = other.text := by
  have hlines : dump.prototypes.map Affine.line = other.prototypes.map Affine.line := by
    rw [← List.forall₂_eq_eq_eq, List.forall₂_map_left_iff, List.forall₂_map_right_iff]
    exact List.Forall₂.imp (fun _ _ => Affine.Alike.line_eq) h.prototypes
  rw [RegionDump.text_eq, RegionDump.text_eq, h.pieces, List.flatMap_def, hlines, ← List.flatMap_def]

end

namespace Instance

/-! ### Data lines -/

variable {rest : List Char} {number : Nat}

/-- The data lines of a text whose first line has a given number. -/
def dataLinesFrom (number : Nat) (text : List Char) : List NumberedLine :=
  (((Text.lines text).zipIdx number).map fun (line, number) => (number, Text.trimEnd line)).filter
    fun (_, line) => !line.isEmpty && line.head? != some 'c'

theorem dataLinesFrom_nil : dataLinesFrom number [] = [] :=
  rfl

/-- An empty line is passed over. -/
theorem dataLinesFrom_newline : dataLinesFrom number ('\n' :: rest) = dataLinesFrom (number + 1) rest :=
  rfl

/-- A line that is no comment and does not end in blanks is kept. -/
theorem dataLinesFrom_append {line : List Char} (hnewline : '\n' ∉ line) (htrim : Text.trimEnd line = line)
    (hne : line ≠ []) (hcomment : line.head? ≠ some 'c') :
    dataLinesFrom number (line ++ '\n' :: rest) = (number, line) :: dataLinesFrom (number + 1) rest := by
  rw [dataLinesFrom, Text.lines_append hnewline, List.zipIdx_cons, List.map_cons]
  simp only [htrim]
  apply List.filter_cons_of_pos
  rw [Bool.and_eq_true, Bool.not_eq_true', List.isEmpty_eq_false_iff, bne_iff_ne]
  exact ⟨hne, hcomment⟩

/-! ### Reading stretches of text -/

section

variable {α : Type} [RealText α] {before between after : RegionDump α}

/-- A stretch of text takes the reader from one dump to another, whatever follows. -/
def Reads (text : List Char) (before after : RegionDump α) : Prop :=
  ∀ number rest, ∃ next, (dataLinesFrom number (text ++ rest)).foldlM addLine before =
    (dataLinesFrom next rest).foldlM addLine after

theorem Reads.nil : Reads [] before before :=
  fun number _ => ⟨number, rfl⟩

theorem Reads.append {text more : List Char} (h : Reads text before between) (h' : Reads more between after) :
    Reads (text ++ more) before after := by
  intro number rest
  obtain ⟨middle, hmiddle⟩ := h number (more ++ rest)
  obtain ⟨next, hnext⟩ := h' middle rest
  exact ⟨next, by rw [List.append_assoc, hmiddle, hnext]⟩

theorem Reads.newline : Reads ['\n'] before before := by
  intro number rest
  refine ⟨number + 1, ?_⟩
  rw [List.singleton_append, dataLinesFrom_newline]

/-- A letter with words behind it is read as one line. -/
theorem Reads.line {tag : Char} {parts : List (List Char)} (hcomment : tag ≠ 'c') (hnewline : tag ≠ '\n')
    (hne : parts ≠ []) (hparts : ∀ part ∈ parts, IsWord part)
    (h : ∀ number, addLine before (number, tag :: spaced parts) = .ok after) :
    Reads (tag :: spaced parts ++ ['\n']) before after := by
  intro number rest
  refine ⟨number + 1, ?_⟩
  rw [List.append_assoc, List.singleton_append, dataLinesFrom_append, List.foldlM_cons, h]
  · rfl
  · exact List.not_mem_cons_of_ne_of_not_mem hnewline.symm (Text.newline_not_mem_spaced hparts)
  · exact Text.trimEnd_append_spaced hparts hne [tag]
  · exact List.cons_ne_nil _ _
  · rw [List.head?_cons]
    exact fun hsome => hcomment (Option.some.inj hsome)

/-- The texts of items are read one after the other when each takes the reader from what the items before it have
grown to what they have grown with it. -/
theorem Reads.flatMap {ι : Type} {write : ι → List Char} {items : List ι} (grown : List ι → RegionDump α)
    (h : ∀ done, ∀ item ∈ items, Reads (write item) (grown done) (grown (done ++ [item]))) (done : List ι) :
    Reads (items.flatMap write) (grown done) (grown (done ++ items)) := by
  induction items generalizing done with
  | nil =>
      rw [List.append_nil]
      exact .nil
  | cons item items ih =>
      have hrest := ih (fun done other hother => h done other (List.mem_cons_of_mem _ hother)) (done ++ [item])
      rw [List.append_assoc, List.singleton_append] at hrest
      exact (h done item List.mem_cons_self).append hrest

/-! ### Prototypes -/

theorem addLine_prototype {parts : List (List Char)} {coefficients : List α} (hne : coefficients ≠ [])
    (hparts : ∀ part ∈ parts, IsWord part) (h : parts.mapM (readCoefficient number) = .ok coefficients) :
    addLine before (number, 'b' :: spaced parts) = .ok ⟨before.prototypes ++ [⟨coefficients⟩], before.pieces⟩ := by
  cases parts with
  | nil => exact absurd (Except.ok.inj h).symm hne
  | cons part parts =>
      obtain ⟨hpart, hrest⟩ := List.forall_mem_cons.mp hparts
      rw [addLine, Text.splitFirst_cons_spaced (by decide)]
      simp only [addPrototype, Text.words_append_spaced hpart hrest, h]
      exact if_neg (List.isEmpty_iff.not.mpr hne)

/-- The coefficients of a prototype are read one by one. -/
theorem readCoefficients_write {coefficients again : List α} (h : List.Forall₂ RealText.ReadsAs coefficients again) :
    (coefficients.map RealText.write).mapM (readCoefficient number) = .ok again := by
  induction h with
  | nil => rfl
  | @cons value first coefficients again hvalue _ ih =>
      have hread : readCoefficient number (RealText.write value) = .ok first := by
        rw [readCoefficient, hvalue.2]
        rfl
      rw [List.map_cons, List.mapM_cons, hread, ih]
      rfl

theorem reads_prototype {form again : Affine α} (h : form.ReadsAs again) (hne : form.coefficients ≠ []) :
    Reads form.line before ⟨before.prototypes ++ [again], before.pieces⟩ := by
  have hagain : again.coefficients ≠ [] := by
    rw [← List.length_pos_iff, ← h.length_eq, List.length_pos_iff]
    exact hne
  have hwords : ∀ part ∈ form.coefficients.map RealText.write, IsWord part := by
    intro part hpart
    obtain ⟨value, hvalue, rfl⟩ := List.mem_map.mp hpart
    obtain ⟨place, hplace, rfl⟩ := List.mem_iff_getElem.mp hvalue
    exact (h.get hplace (h.length_eq ▸ hplace)).1
  rw [Affine.line_eq]
  apply Reads.line (by decide) (by decide) (List.map_eq_nil_iff.not.mpr hne) hwords
  exact fun number => addLine_prototype hagain hwords (readCoefficients_write h)

/-- The prototypes are read in order. -/
theorem reads_prototypes {forms again : List (Affine α)} (h : List.Forall₂ Affine.ReadsAs forms again)
    (hne : ∀ form ∈ forms, form.coefficients ≠ []) :
    ∀ before : RegionDump α,
      Reads (forms.flatMap Affine.line) before ⟨before.prototypes ++ again, before.pieces⟩ := by
  induction h with
  | nil =>
      intro before
      rw [List.append_nil]
      exact .nil
  | @cons form first forms again hform _ ih =>
      intro before
      obtain ⟨hfirst, hforms⟩ := List.forall_mem_cons.mp hne
      have hrest := ih hforms ⟨before.prototypes ++ [first], before.pieces⟩
      rw [List.append_assoc, List.singleton_append] at hrest
      exact (reads_prototype hform hfirst).append hrest

/-! ### Pieces -/

/-- Fractions in lowest terms read back. -/
theorem readPairs_tokens {fractions : List Fraction} (h : ∀ fraction ∈ fractions, fraction.Lowest) :
    readPairs number (fractions.flatMap Fraction.tokens) = .ok fractions := by
  induction fractions with
  | nil => rfl
  | cons fraction fractions ih =>
      obtain ⟨hfraction, hfractions⟩ := List.forall_mem_cons.mp h
      have hnum : readInteger number (Numeral.ofInt fraction.num) = .ok fraction.num :=
        readInteger_eq_ok.mpr (Numeral.signed64?_ofInt hfraction.num_mem.1 hfraction.num_mem.2)
      have hden : readInteger number (Numeral.ofInt fraction.den) = .ok fraction.den := by
        refine readInteger_eq_ok.mpr (Numeral.signed64?_ofInt ?_ hfraction.den_le)
        exact le_trans (by decide) hfraction.den_pos.le
      have hpos : ¬ fraction.den < 1 := not_lt.mpr hfraction.den_pos
      rw [List.flatMap_cons, Fraction.tokens, List.cons_append, List.singleton_append, readPairs, hnum, hden]
      change (if fraction.den < 1 then _ else _) = _
      rw [if_neg hpos, ih hfractions]
      exact congrArg (fun first => Except.ok (first :: fractions)) hfraction.make_eq

theorem readFractions_of_words {text : List Char} {fractions : List Fraction} (hne : fractions ≠ [])
    (h : ∀ fraction ∈ fractions, fraction.Lowest) (hwords : Text.words text = fractions.flatMap Fraction.tokens) :
    readFractions number text = .ok fractions := by
  have hpaired : ¬ ((fractions.flatMap Fraction.tokens).isEmpty = true ∨
      (fractions.flatMap Fraction.tokens).length % 2 ≠ 0) := by
    rw [List.isEmpty_iff, Fraction.length_tokens, Nat.mul_mod_left]
    exact not_or.mpr ⟨Fraction.tokens_ne_nil hne, not_not.mpr rfl⟩
  simp only [readFractions, hwords]
  rw [if_neg hpaired]
  exact readPairs_tokens h

theorem addLine_piece {coefficients : List Fraction} (hne : coefficients ≠ [])
    (h : ∀ coefficient ∈ coefficients, coefficient.Lowest) :
    addLine before (number, 'p' :: spaced (coefficients.flatMap Fraction.tokens)) =
      .ok ⟨before.prototypes, before.pieces ++ [⟨coefficients, []⟩]⟩ := by
  obtain ⟨part, parts, heq⟩ := List.exists_cons_of_ne_nil (Fraction.tokens_ne_nil hne)
  have hwords := Fraction.isWord_tokens coefficients
  rw [heq] at hwords ⊢
  obtain ⟨hpart, hparts⟩ := List.forall_mem_cons.mp hwords
  have hread : readFractions number (part ++ spaced parts) = .ok coefficients :=
    readFractions_of_words hne h ((Text.words_append_spaced hpart hparts).trans heq.symm)
  rw [addLine, Text.splitFirst_cons_spaced (by decide)]
  simp only [addPiece, hread]
  rfl

theorem extendLast_append (boundary : Boundary) (front : List Piece) (last : Piece) :
    extendLast boundary (front ++ [last]) = some (front ++ [⟨last.coefficients, last.region ++ [boundary]⟩]) := by
  induction front with
  | nil => rfl
  | cons piece front ih =>
      obtain ⟨next, rest, hnext⟩ := List.exists_cons_of_ne_nil (List.append_ne_nil_of_right_ne_nil front
        (List.cons_ne_nil last []))
      rw [List.cons_append, hnext, extendLast, ← hnext, ih]
      · rfl
      · exact List.cons_ne_nil _ _

/-- A boundary whose prototype was read before goes to the last piece. -/
theorem addLine_boundary {boundary : Boundary} {front : List Piece} {last : Piece}
    (hpieces : before.pieces = front ++ [last]) (hindex : boundary.index < before.prototypes.length)
    (hmax : boundary.index < unsigned64Max) :
    addLine before (number, boundary.sign.tag :: spaced [Numeral.ofNat (boundary.index + 1)]) =
      .ok ⟨before.prototypes, front ++ [⟨last.coefficients, last.region ++ [boundary]⟩]⟩ := by
  have hadded (sign : Sign) : addBoundary number before sign (Numeral.ofNat (boundary.index + 1)) =
      .ok ⟨before.prototypes, front ++ [⟨last.coefficients, last.region ++ [⟨boundary.index, sign⟩]⟩]⟩ := by
    have hrange : ¬ (boundary.index + 1 = 0 ∨ before.prototypes.length < boundary.index + 1) := by omega
    rw [addBoundary, Text.trim_of_isWord (Numeral.isWord_ofNat _), Numeral.unsigned64?_ofNat hmax]
    simp only [if_neg hrange, hpieces, extendLast_append]
    rfl
  obtain ⟨index, sign⟩ := boundary
  cases sign with
  | geq =>
      rw [addLine, Sign.tag, Text.splitFirst_cons_spaced (by decide), spaced, List.flatMap_nil, List.append_nil]
      exact hadded .geq
  | leq =>
      rw [addLine, Sign.tag, Text.splitFirst_cons_spaced (by decide), spaced, List.flatMap_nil, List.append_nil]
      exact hadded .leq

variable {prototypes : List (Affine α)} {front : List Piece}

theorem reads_boundary {boundary : Boundary} (last : Piece) (hindex : boundary.index < prototypes.length)
    (hmax : boundary.index < unsigned64Max) :
    Reads boundary.line ⟨prototypes, front ++ [last]⟩
      ⟨prototypes, front ++ [⟨last.coefficients, last.region ++ [boundary]⟩]⟩ := by
  have htag : boundary.sign.tag ≠ 'c' ∧ boundary.sign.tag ≠ '\n' := by
    cases boundary.sign <;> decide
  rw [Boundary.line_eq]
  apply Reads.line htag.1 htag.2 (List.cons_ne_nil _ _) (List.forall_mem_singleton.mpr (Numeral.isWord_ofNat _))
  exact fun number => addLine_boundary rfl hindex hmax

/-- A piece is read from its coefficients, and its boundaries are put to it one by one. -/
theorem reads_piece {piece : Piece} (h : piece.Legible prototypes.length) :
    Reads piece.lines ⟨prototypes, front⟩ ⟨prototypes, front ++ [piece]⟩ := by
  have hcoefficients : Reads ('p' :: spaced (piece.coefficients.flatMap Fraction.tokens) ++ ['\n'])
      ⟨prototypes, front⟩ ⟨prototypes, front ++ [⟨piece.coefficients, []⟩]⟩ :=
    .line (by decide) (by decide) (Fraction.tokens_ne_nil h.filled) (Fraction.isWord_tokens _)
      fun _ => addLine_piece h.filled h.lowest
  have hregion : Reads (piece.region.flatMap Boundary.line)
      ⟨prototypes, front ++ [⟨piece.coefficients, []⟩]⟩ ⟨prototypes, front ++ [piece]⟩ := by
    refine Reads.flatMap (fun done => ⟨prototypes, front ++ [⟨piece.coefficients, done⟩]⟩) ?_ []
    intro done boundary hboundary
    obtain ⟨hindex, hmax⟩ := h.named boundary hboundary
    exact reads_boundary ⟨piece.coefficients, done⟩ hindex hmax
  rw [Piece.lines_eq]
  exact .append .newline (hcoefficients.append hregion)

theorem reads_pieces {pieces : List Piece} (h : ∀ piece ∈ pieces, piece.Legible prototypes.length) :
    Reads (pieces.flatMap Piece.lines) ⟨prototypes, []⟩ ⟨prototypes, pieces⟩ :=
  Reads.flatMap (fun done => ⟨prototypes, done⟩) (fun _ piece hpiece => reads_piece (h piece hpiece)) []

/-! ### Whole dumps -/

/-- The text of a regular dump is accepted, and its prototypes become what their texts read as. -/
theorem parse_text {dump : RegionDump α} {dim : Nat} (hdump : dump.Regular dim) {again : List (Affine α)}
    (h : List.Forall₂ Affine.ReadsAs dump.prototypes again) :
    parse dump.text = .ok (.regions ⟨again, dump.pieces⟩) := by
  have hagain : (⟨again, dump.pieces⟩ : RegionDump α).Regular dim := by
    refine ⟨fun form hform => ?_, fun piece hpiece => ?_⟩
    · obtain ⟨place, hplace, rfl⟩ := List.mem_iff_getElem.mp hform
      have hplace' : place < dump.prototypes.length := h.length_eq ▸ hplace
      rw [← hdump.prototypes _ (List.getElem_mem hplace')]
      exact (h.get hplace' hplace).length_eq.symm
    · rw [← h.length_eq]
      exact hdump.pieces piece hpiece
  have hreads : Reads (dump.prototypes.flatMap Affine.line ++ dump.pieces.flatMap Piece.lines) ⟨[], []⟩
      ⟨again, dump.pieces⟩ :=
    (reads_prototypes h hdump.legible.prototypes _).append (reads_pieces hagain.legible.pieces)
  have hheader (body : List Char) :
      dataLines ("pwl\n\n".toList ++ body) = (1, "pwl".toList) :: dataLinesFrom 3 body :=
    rfl
  obtain ⟨next, hread⟩ := hreads 3 []
  rw [List.append_nil, dataLinesFrom_nil, List.foldlM_nil] at hread
  rw [parse, RegionDump.text_eq, hheader]
  change (if _ then _ else if _ then _ else _) = _
  rw [if_neg (by decide), if_pos (by decide), hread]
  change (checkDimensions ⟨again, dump.pieces⟩ >>= fun _ => pure (Instance.regions _)) = _
  rw [checkDimensions_eq_ok hagain]
  rfl

/-- A regular dump whose prototypes read back as they are comes back from its text. -/
theorem parse_text_self {dump : RegionDump α} {dim : Nat} (hdump : dump.Regular dim)
    (h : ∀ form ∈ dump.prototypes, form.ReadsAs form) : parse dump.text = .ok (.regions dump) :=
  parse_text hdump (List.forall₂_same.mpr h)

/-- A form reads back, up to values that are no number. -/
theorem exists_readsAs (hfaithful : RealText.Faithful α) (form : Affine α) :
    ∃ again : Affine α, again.Alike form ∧ form.ReadsAs again := by
  choose again hread halike using hfaithful.reads
  refine ⟨⟨form.coefficients.map again⟩, ?_, ?_⟩
  · exact List.forall₂_map_left_iff.mpr (List.forall₂_same.mpr fun value _ => halike value)
  · exact List.forall₂_map_right_iff.mpr
      (List.forall₂_same.mpr fun value _ => ⟨hfaithful.isWord value, hread value⟩)

/-- The text of a regular dump is accepted and reads back. -/
theorem exists_parse_text (hfaithful : RealText.Faithful α) {dump : RegionDump α} {dim : Nat} (h : dump.Regular dim) :
    ∃ again, parse dump.text = .ok (.regions again) ∧ again.Alike dump := by
  choose again halike hread using exists_readsAs hfaithful
  refine ⟨⟨dump.prototypes.map again, dump.pieces⟩, parse_text h ?_, ⟨?_, rfl⟩⟩
  · exact List.forall₂_map_right_iff.mpr (List.forall₂_same.mpr fun form _ => hread form)
  · exact List.forall₂_map_left_iff.mpr (List.forall₂_same.mpr fun form _ => halike form)

/-- A dump of floating-point numbers reads back as soon as every single number does. -/
theorem exists_parse_text_float
    (h : ∀ value : Float, ∃ again, RealText.readFloat? (RealText.writeFloat value) = some again ∧
      (again = value ∨ (again.isNaN = true ∧ value.isNaN = true)))
    {dump : RegionDump Float} {dim : Nat} (hdump : dump.Regular dim) :
    ∃ again, parse dump.text = .ok (.regions again) ∧ again.Alike dump :=
  exists_parse_text (RealText.faithful_float h) hdump

/-- Writing and reading are inverse, up to values that are no number: every regular dump comes back from its text, and
every dump that was read from any text comes back from its own, which writing it again does not change. -/
theorem dumps_round_trip (hfaithful : RealText.Faithful α) :
    (∀ (dim : Nat) (dump : RegionDump α), dump.Regular dim →
      ∃ again, parse dump.text = .ok (.regions again) ∧ again.Alike dump) ∧
    (∀ (text : List Char) (dump : RegionDump α), parse text = .ok (.regions dump) →
      ∃ again, parse dump.text = .ok (.regions again) ∧ again.Alike dump ∧ again.text = dump.text) := by
  constructor
  · intro dim dump hdump
    exact exists_parse_text hfaithful hdump
  · intro text dump hread
    obtain ⟨dim, hdump⟩ := regular_of_parse hread
    obtain ⟨again, hparse, halike⟩ := exists_parse_text hfaithful hdump
    exact ⟨again, hparse, halike, halike.text_eq⟩

end

/-- Two prototypes over two inputs, with a piece below the first and a piece between both. -/
def band : RegionDump ℚ where
  prototypes := [⟨[-1, 1, 1]⟩, ⟨[-2, 1, 1]⟩]
  pieces :=
    [⟨[.zero, .zero, .zero], [⟨0, .leq⟩]⟩,
      ⟨[⟨-5, 4⟩, .one, .one], [⟨0, .geq⟩, ⟨1, .leq⟩]⟩]

/-- A text of the same dump with a comment, blanks, a sign and fractions that are not in lowest terms. -/
def looseBand : List Char :=
  "c band\npwl\nb -1 1  1\n\nb -2 1 1 \np 0 3 0 1 0 1\nl 1\np -10 8 2 2 1 1\ng +1\nl  2".toList

theorem dumps_round_trip_band :
    RealText.Faithful ℚ ∧
    band.Regular 2 ∧ (∃ again, parse band.text = .ok (.regions again) ∧ again.Alike band) ∧
    parse looseBand = .ok (.regions band) ∧
    (∃ again, parse band.text = .ok (.regions again) ∧ again.Alike band ∧ again.text = band.text) := by
  have hregular : band.Regular 2 := by decide
  have hread : parse looseBand = .ok (.regions band) := rfl
  refine ⟨RealText.faithful_rat, hregular, ?_, hread, ?_⟩
  · exact (dumps_round_trip RealText.faithful_rat).1 2 band hregular
  · exact (dumps_round_trip RealText.faithful_rat).2 looseBand band hread

end Instance

end ReluLogic
