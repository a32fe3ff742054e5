import ReluLogic.Proofs.Text.RegionDump

/-!
Where reading fails. Lines are numbered before blank lines and comments are passed over, and a line is read by what
stands before it only. So the number of an error is that of the first line that cannot be read: what stands behind this
line does not matter, and what stands before it is read without blaming a line.
-/

namespace ReluLogic

namespace Text

variable {text other : List Char} {count place : Nat}

/-- The line at a place of a text, without blanks at its end; behind the last line it is empty. -/
def lineAt (text : List Char) (place : Nat) : List Char :=
  trimEnd ((lines text).getD place [])

/-- The first `count` lines of two texts are the same, up to blanks at their ends. -/
def Agree (count : Nat) (text other : List Char) : Prop :=
  ∀ place < count, lineAt other place = lineAt text place

/-- A text of the first `count` lines of another. -/
structure Front (count : Nat) (text front : List Char) : Prop where
  agree : Agree count text front
  ends : ∀ place, count ≤ place → lineAt front place = []

theorem lineAt_of_length_le (h : (lines text).length ≤ place) : lineAt text place = [] := by
  rw [lineAt, List.getD_eq_default _ _ h]
  rfl

theorem lineAt_of_lt (h : place < (lines text).length) : lineAt text place = trimEnd (lines text)[place] := by
  rw [lineAt, List.getD_eq_getElem _ _ h]

/-- The first `count` lines of a text, each with its line feed. -/
def firstLines (count : Nat) (text : List Char) : List Char :=
  ((lines text).take count).flatMap (· ++ ['\n'])

theorem newline_not_mem (text : List Char) : ∀ line ∈ lines text, '\n' ∉ line := by
  unfold lines
  induction text with
  | nil => exact List.forall_mem_singleton.mpr List.not_mem_nil
  | cons c text ih =>
      rw [split]
      split_ifs with hc
      · exact List.forall_mem_cons.mpr ⟨List.not_mem_nil, ih⟩
      · have hne : '\n' ≠ c := fun heq => hc (beq_iff_eq.mpr heq.symm)
        split
        · exact List.forall_mem_singleton.mpr (List.not_mem_cons_of_ne_of_not_mem hne List.not_mem_nil)
        · rename_i part parts heq
          rw [heq] at ih
          obtain ⟨hpart, hparts⟩ := List.forall_mem_cons.mp ih
          exact List.forall_mem_cons.mpr ⟨List.not_mem_cons_of_ne_of_not_mem hne hpart, hparts⟩

theorem lines_flatMap {parts : List (List Char)} (h : ∀ part ∈ parts, '\n' ∉ part) :
    lines (parts.flatMap (· ++ ['\n'])) = parts ++ [[]] := by
  induction parts with
  | nil => rfl
  | cons part parts ih =>
      obtain ⟨hpart, hparts⟩ := List.forall_mem_cons.mp h
      rw [List.flatMap_cons, List.append_assoc, List.singleton_append, lines_append hpart, ih hparts,
        List.cons_append]

theorem front_firstLines (count : Nat) (text : List Char) : Front count text (firstLines count text) := by
  have hlines : lines (firstLines count text) = (lines text).take count ++ [[]] :=
    lines_flatMap fun line hline => newline_not_mem text line (List.mem_of_mem_take hline)
  have hlast : ∀ place, ((lines text).take count).length ≤ place → lineAt (firstLines count text) place = [] := by
    intro place hplace
    rw [lineAt, hlines, List.getD_append_right _ _ _ _ hplace]
    cases place - ((lines text).take count).length <;> rfl
  refine ⟨fun place hplace => ?_, fun place hplace => hlast place ((List.length_take_le _ _).trans hplace)⟩
  by_cases hlt : place < (lines text).length
  · rw [lineAt, hlines, List.getD_append _ _ _ _ (by rw [List.length_take]; exact lt_min hplace hlt), lineAt,
      List.getD_eq_getElem?_getD, List.getD_eq_getElem?_getD, List.getElem?_take_of_lt hplace]
  · rw [lineAt_of_length_le (not_lt.mp hlt)]
    exact hlast place ((List.length_take_le' _ _).trans (not_lt.mp hlt))

end Text

namespace Instance

variable {text other front line : List Char} {places : List Nat} {number count place : Nat}

/-! ### Data lines -/

/-- A line that is not passed over. -/
def isData (numbered : NumberedLine) : Bool :=
  !numbered.2.isEmpty && numbered.2.head? != some 'c'

/-- The data lines among those at given places of a text. -/
def dataAmong (text : List Char) (places : List Nat) : List NumberedLine :=
  (places.map fun place => (place + 1, Text.lineAt text place)).filter isData

theorem isData_iff {numbered : NumberedLine} :
    isData numbered = true ↔ numbered.2 ≠ [] ∧ numbered.2.head? ≠ some 'c' := by
  rw [isData, Bool.and_eq_true, Bool.not_eq_true', List.isEmpty_eq_false_iff, bne_iff_ne]

theorem dataAmong_append (text : List Char) (places others : List Nat) :
    dataAmong text (places ++ others) = dataAmong text places ++ dataAmong text others := by
  rw [dataAmong, List.map_append, List.filter_append]
  rfl

theorem dataAmong_congr (h : ∀ place ∈ places, Text.lineAt other place = Text.lineAt text place) :
    dataAmong other places = dataAmong text places := by
  rw [dataAmong, dataAmong, List.map_congr_left fun place hplace => by rw [h place hplace]]

theorem dataAmong_eq_nil (h : ∀ place ∈ places, Text.lineAt text place = []) : dataAmong text places = [] := by
  rw [dataAmong, List.filter_eq_nil_iff]
  intro numbered hnumbered
  obtain ⟨place, hplace, rfl⟩ := List.mem_map.mp hnumbered
  rw [isData_iff]
  exact fun hdata => hdata.1 (h place hplace)

theorem mem_dataAmong {numbered : NumberedLine} (h : numbered ∈ dataAmong text places) :
    ∃ place ∈ places, numbered = (place + 1, Text.lineAt text place) ∧ isData numbered = true := by
  obtain ⟨hmem, hdata⟩ := List.mem_filter.mp h
  obtain ⟨place, hplace, rfl⟩ := List.mem_map.mp hmem
  exact ⟨place, hplace, rfl, hdata⟩

/-- The data lines of a text are those at its places, and places behind the last line add none. -/
theorem dataLines_eq (h : (Text.lines text).length ≤ count) : dataLines text = dataAmong text (List.range count) := by
  obtain ⟨more, rfl⟩ := Nat.exists_eq_add_of_le h
  have hlines : ((Text.lines text).zipIdx 1).map (fun entry => (entry.2, Text.trimEnd entry.1)) =
      (List.range (Text.lines text).length).map fun place => (place + 1, Text.lineAt text place) := by
    apply List.ext_getElem
    · simp only [List.length_map, List.length_zipIdx, List.length_range]
    · intro place hplace hplace'
      rw [List.length_map, List.length_zipIdx] at hplace
      simp only [List.getElem_map, List.getElem_zipIdx, List.getElem_range, Text.lineAt_of_lt hplace, Nat.add_comm]
  have hbehind : dataAmong text ((List.range more).map ((Text.lines text).length + ·)) = [] := by
    apply dataAmong_eq_nil
    intro place hplace
    obtain ⟨offset, -, rfl⟩ := List.mem_map.mp hplace
    exact Text.lineAt_of_length_le (Nat.le_add_right _ _)
  rw [List.range_add, dataAmong_append, hbehind, List.append_nil]
  exact congrArg (List.filter isData) hlines

/-- The data lines before a place, the line there if it is one, and others with larger numbers. -/
theorem exists_dataLines_eq (text : List Char) (place : Nat) :
    ∃ later, dataLines text = dataAmong text (List.range place) ++ dataAmong text [place] ++ later ∧
      ∀ numbered ∈ later, place + 1 < numbered.1 := by
  have hcount : (Text.lines text).length ≤ place + 1 + (Text.lines text).length := Nat.le_add_left _ _
  refine ⟨_, by rw [dataLines_eq hcount, List.range_add, List.range_succ, dataAmong_append, dataAmong_append], ?_⟩
  intro numbered hnumbered
  obtain ⟨later, hlater, rfl, -⟩ := mem_dataAmong hnumbered
  obtain ⟨offset, -, rfl⟩ := List.mem_map.mp hlater
  change place + 1 < place + 1 + offset + 1
  omega

/-- The data lines of a text of first lines are those of the whole text at these places. -/
theorem dataLines_of_front (h : Text.Front count text front) :
    dataLines front = dataAmong text (List.range count) := by
  have hcount : (Text.lines front).length ≤ count + (Text.lines front).length := Nat.le_add_left _ _
  have hbehind : dataAmong front ((List.range (Text.lines front).length).map (count + ·)) = [] := by
    apply dataAmong_eq_nil
    intro place hplace
    obtain ⟨offset, -, rfl⟩ := List.mem_map.mp hplace
    exact h.ends _ (Nat.le_add_right _ _)
  rw [dataLines_eq hcount, List.range_add, dataAmong_append, hbehind, List.append_nil]
  exact dataAmong_congr fun place hplace => h.agree place (List.mem_range.mp hplace)

/-- A data line tells by its number where it stands, and what stands before it. -/
theorem dataLines_split {before after : List NumberedLine} (h : dataLines text = before ++ (number, line) :: after) :
    ∃ place, number = place + 1 ∧ line = Text.lineAt text place ∧ isData (number, line) = true ∧
      before = dataAmong text (List.range place) := by
  have hmem : (number, line) ∈ dataLines text := h ▸ List.mem_append_right _ List.mem_cons_self
  rw [dataLines_eq le_rfl] at hmem
  obtain ⟨place, -, heq, hdata⟩ := mem_dataAmong hmem
  obtain ⟨rfl, rfl⟩ := Prod.mk.inj heq
  obtain ⟨later, hsplit, hlater⟩ := exists_dataLines_eq text place
  have hplace : dataAmong text [place] = [(place + 1, Text.lineAt text place)] := List.filter_cons_of_pos hdata
  rw [h, hplace, List.append_assoc, List.singleton_append] at hsplit
  refine ⟨place, rfl, rfl, hdata, ((List.append_cons_inj_of_notMem ?_ ?_).mp hsplit.symm).1.symm⟩
  · intro hmem
    obtain ⟨other, hother, heq, -⟩ := mem_dataAmong hmem
    have hlt := List.mem_range.mp hother
    have hsame : place + 1 = other + 1 := congrArg Prod.fst heq
    omega
  · exact fun hmem => absurd (hlater _ hmem) (lt_irrefl _)

/-! ### Errors of no line -/

section Dimensions

variable {α : Type}

/-- A text is accepted, or it is refused without blaming one of its lines: for its dimensions, or as empty. -/
def Blameless (outcome : Except Error (Instance α)) : Prop :=
  (∃ held, outcome = .ok held) ∨ outcome = .error (.malformedNetwork .prototypeDimensions) ∨
    outcome = .error (.malformedNetwork .pieceDimensions) ∨ outcome = .error (.parse 0 .emptyInput)

theorem checkDimensions_cases (dump : RegionDump α) : checkDimensions dump = .ok () ∨
    checkDimensions dump = .error (.malformedNetwork .prototypeDimensions) ∨
    checkDimensions dump = .error (.malformedNetwork .pieceDimensions) := by
  unfold checkDimensions
  split
  · exact Or.inl rfl
  · split_ifs
    · exact Or.inr (Or.inl rfl)
    · exact Or.inr (Or.inr rfl)
    · exact Or.inl rfl

/-- The dimensions of a dump blame no line. -/
theorem checkDimensions_ne_parse {number : Nat} {fault : ParseFault} (dump : RegionDump α) :
    checkDimensions dump ≠ .error (.parse number fault) := by
  rcases checkDimensions_cases dump with h | h | h <;> rw [h] <;> exact fun heq => by cases heq

theorem blameless_of_checkDimensions (dump : RegionDump α) :
    Blameless (checkDimensions dump >>= fun _ => pure (.regions dump)) := by
  rcases checkDimensions_cases dump with hok | herror | herror
  · exact Or.inl ⟨_, bind_eq_ok.mpr ⟨(), hok, rfl⟩⟩
  · exact Or.inr (Or.inl (bind_eq_error.mpr (Or.inl herror)))
  · exact Or.inr (Or.inr (Or.inl (bind_eq_error.mpr (Or.inl herror))))

end Dimensions

/-! ### Errors of a line -/

/-- Every error of a computation is one of reading line `number`. -/
def Blames {β : Type} (number : Nat) (computation : Except Error β) : Prop :=
  FailsOnly (fun error => ∃ fault, error = .parse number fault) computation

theorem blames_throw {β : Type} (number : Nat) (fault : ParseFault) :
    Blames number (.error (.parse number fault) : Except Error β) :=
  failsOnly_error ⟨fault, rfl⟩

theorem blames_readInteger (number : Nat) (token : List Char) : Blames number (readInteger number token) := by
  unfold readInteger
  split
  · exact failsOnly_ok _
  · exact blames_throw number _

theorem blames_readPairs (number : Nat) (tokens : List (List Char)) : Blames number (readPairs number tokens) := by
  induction tokens using readPairs.induct with
  | case1 numerator denominator rest ih =>
      refine FailsOnly.bind (blames_readInteger number numerator) fun num _ => ?_
      refine FailsOnly.bind (blames_readInteger number denominator) fun den _ => ?_
      split_ifs
      · exact blames_throw number _
      · exact FailsOnly.bind ih fun others _ => failsOnly_ok _
  | case2 tokens hpair =>
      rw [readPairs]
      · exact failsOnly_ok _
      · exact hpair

theorem blames_readFractions (number : Nat) (text : List Char) : Blames number (readFractions number text) := by
  unfold readFractions
  dsimp only
  split_ifs
  · exact blames_throw number _
  · exact blames_readPairs number _

variable {α : Type}

theorem blames_addBoundary (number : Nat) (dump : RegionDump α) (sign : Sign) (text : List Char) :
    Blames number (addBoundary number dump sign text) := by
  unfold addBoundary
  split
  · exact blames_throw number _
  · split_ifs
    · exact blames_throw number _
    · split
      · exact failsOnly_ok _
      · exact blames_throw number _

variable [RealText α]

theorem blames_readCoefficient (number : Nat) (token : List Char) :
    Blames number (readCoefficient number token : Except Error α) := by
  unfold readCoefficient
  split
  · exact failsOnly_ok _
  · exact blames_throw number _

theorem blames_addPrototype (number : Nat) (dump : RegionDump α) (text : List Char) :
    Blames number (addPrototype number dump text) := by
  refine FailsOnly.bind (failsOnly_mapM fun token _ => blames_readCoefficient number token) fun coefficients _ => ?_
  split_ifs
  · exact blames_throw number _
  · exact failsOnly_ok _

/-- A line that cannot be read is blamed itself. -/
theorem blames_addLine (dump : RegionDump α) (numbered : NumberedLine) : Blames numbered.1 (addLine dump numbered) := by
  unfold addLine
  dsimp only
  split
  · exact blames_addPrototype _ _ _
  · exact FailsOnly.bind (blames_readFractions _ _) fun coefficients _ => failsOnly_ok _
  · exact blames_addBoundary _ _ _ _
  · exact blames_addBoundary _ _ _ _
  · exact blames_throw _ _

/-! ### Texts by their headers -/

section Headers

variable {header : List Char} {rest : List NumberedLine} {coefficients : List Fraction}

theorem parse_of_nil (h : dataLines text = []) :
    (parse text : Except Error (Instance α)) = .error (.parse 0 .emptyInput) := by
  rw [parse, h]
  rfl

/-- Fractions that cannot be read refuse the text whatever follows them. -/
theorem parse_of_unread {error : Error} (h : dataLines text = (number, header) :: rest)
    (htl : "tl ".toList.isPrefixOf header = true) (hread : readFractions number (header.drop 3) = .error error) :
    (parse text : Except Error (Instance α)) = .error error := by
  rw [parse, h]
  dsimp only
  rw [if_pos htl]
  exact bind_eq_error.mpr (Or.inl hread)

theorem parse_of_trailing {extra : NumberedLine} (h : dataLines text = (number, header) :: extra :: rest)
    (htl : "tl ".toList.isPrefixOf header = true) (hread : readFractions number (header.drop 3) = .ok coefficients) :
    (parse text : Except Error (Instance α)) = .error (.parse extra.1 .trailingLine) := by
  rw [parse, h]
  dsimp only
  rw [if_pos htl]
  exact bind_eq_error.mpr (Or.inr ⟨coefficients, hread, rfl⟩)

theorem parse_of_alone (h : dataLines text = [(number, header)]) (htl : "tl ".toList.isPrefixOf header = true)
    (hread : readFractions number (header.drop 3) = .ok coefficients) :
    (parse text : Except Error (Instance α)) = .ok (.truncatedLinear coefficients) := by
  rw [parse, h]
  dsimp only
  rw [if_pos htl]
  exact bind_eq_ok.mpr ⟨coefficients, hread, rfl⟩

theorem parse_of_lines (h : dataLines text = (number, header) :: rest)
    (htl : ¬ "tl ".toList.isPrefixOf header = true) (hpwl : "pwl".toList.isPrefixOf header = true) :
    (parse text : Except Error (Instance α)) =
      rest.foldlM addLine ⟨[], []⟩ >>= fun dump => checkDimensions dump >>= fun _ => pure (.regions dump) := by
  rw [parse, h]
  dsimp only
  rw [if_neg htl, if_pos hpwl]

theorem parse_of_unknown (h : dataLines text = (number, header) :: rest)
    (htl : ¬ "tl ".toList.isPrefixOf header = true) (hpwl : ¬ "pwl".toList.isPrefixOf header = true) :
    (parse text : Except Error (Instance α)) = .error (.parse number .unknownHeader) := by
  rw [parse, h]
  dsimp only
  rw [if_neg htl, if_neg hpwl]
  rfl

/-! ### Errors of a text -/

/-- A line is offending behind others: a text that goes on with it is refused for it whatever follows, and the lines
before it alone give no such error. -/
structure Offends (α : Type) [RealText α] (before : List NumberedLine) (number : Nat) (line : List Char)
    (fault : ParseFault) : Prop where
  refused : ∀ text later, dataLines text = before ++ (number, line) :: later →
    (parse text : Except Error (Instance α)) = .error (.parse number fault)
  blameless : ∀ text, dataLines text = before → Blameless (parse text : Except Error (Instance α))

theorem blameless_of_nil (h : dataLines text = []) : Blameless (parse text : Except Error (Instance α)) :=
  Or.inr (Or.inr (Or.inr (parse_of_nil h)))

/-- The fractions behind the header cannot be read. -/
theorem offends_unread {fault : ParseFault} (htl : "tl ".toList.isPrefixOf header = true)
    (hread : readFractions number (header.drop 3) = .error (.parse number fault)) :
    Offends α [] number header fault where
  refused _ _ h := parse_of_unread h htl hread
  blameless _ h := blameless_of_nil h

/-- A line stands behind a single one. -/
theorem offends_trailing (htl : "tl ".toList.isPrefixOf header = true)
    (hread : readFractions number (header.drop 3) = .ok coefficients) (extra : NumberedLine) :
    Offends α [(number, header)] extra.1 extra.2 .trailingLine where
  refused _ _ h := parse_of_trailing h htl hread
  blameless _ h := Or.inl ⟨_, parse_of_alone h htl hread⟩

/-- A line of the dump cannot be read. -/
theorem offends_addLine {fault : ParseFault} (htl : ¬ "tl ".toList.isPrefixOf header = true)
    (hpwl : "pwl".toList.isPrefixOf header = true) {before : List NumberedLine} {numbered : NumberedLine}
    {dump : RegionDump α} (hbefore : before.foldlM addLine ⟨[], []⟩ = .ok dump)
    (hline : addLine dump numbered = .error (.parse numbered.1 fault)) :
    Offends α ((number, header) :: before) numbered.1 numbered.2 fault where
  refused _ later h := by
    rw [parse_of_lines h htl hpwl]
    exact bind_eq_error.mpr (Or.inl (foldlM_eq_error.mpr ⟨before, numbered, later, dump, rfl, hbefore, hline⟩))
  blameless _ h := by
    rw [parse_of_lines h htl hpwl, hbefore]
    exact blameless_of_checkDimensions dump

theorem offends_unknown (htl : ¬ "tl ".toList.isPrefixOf header = true)
    (hpwl : ¬ "pwl".toList.isPrefixOf header = true) : Offends α [] number header .unknownHeader where
  refused _ _ h := parse_of_unknown h htl hpwl
  blameless _ h := blameless_of_nil h

end Headers

/-- An error that blames a line stands at an offending line among the data lines. -/
theorem parse_error_split {fault : ParseFault} (hnumber : 1 ≤ number)
    (h : (parse text : Except Error (Instance α)) = .error (.parse number fault)) :
    ∃ before line after, dataLines text = before ++ (number, line) :: after ∧
      Offends α before number line fault := by
  rcases hlines : dataLines text with _ | ⟨⟨first, header⟩, rest⟩
  · rw [parse_of_nil hlines] at h
    cases h
    omega
  by_cases htl : "tl ".toList.isPrefixOf header = true
  · rcases hread : readFractions first (header.drop 3) with error | coefficients
    · obtain ⟨_, rfl⟩ := blames_readFractions first _ _ hread
      rw [parse_of_unread hlines htl hread] at h
      cases h
      exact ⟨[], header, rest, rfl, offends_unread htl hread⟩
    · cases rest with
      | nil =>
          rw [parse_of_alone hlines htl hread] at h
          cases h
      | cons extra rest =>
          rw [parse_of_trailing hlines htl hread] at h
          cases h
          exact ⟨[(first, header)], extra.2, rest, rfl, offends_trailing htl hread extra⟩
  by_cases hpwl : "pwl".toList.isPrefixOf header = true
  · rw [parse_of_lines hlines htl hpwl] at h
    rcases bind_eq_error.mp h with hread | ⟨dump, -, hcheck⟩
    · obtain ⟨before, numbered, after, dump, rfl, hbefore, hline⟩ := foldlM_eq_error.mp hread
      obtain ⟨_, hblame⟩ := blames_addLine dump numbered _ hline
      obtain ⟨rfl, -⟩ := Error.parse.inj hblame
      exact ⟨(first, header) :: before, numbered.2, after, rfl, offends_addLine htl hpwl hbefore hline⟩
    · rcases bind_eq_error.mp hcheck with hcheck | ⟨_, -, hpure⟩
      · exact absurd hcheck (checkDimensions_ne_parse dump)
      · cases hpure
  · rw [parse_of_unknown hlines htl hpwl] at h
    cases h
    exact ⟨[], header, rest, rfl, offends_unknown htl hpwl⟩

/-- An error that carries a line number names the first offending line. The line exists, counted with blank lines and
comments, and is neither blank nor a comment; every text with the same lines up to this one is refused with the same
error; and the lines before it alone are accepted, or refused for their dimensions or as an empty text. -/
theorem parse_error_names_line {fault : ParseFault} (hnumber : 1 ≤ number)
    (h : (parse text : Except Error (Instance α)) = .error (.parse number fault)) :
    number ≤ (Text.lines text).length ∧ Text.lineAt text (number - 1) ≠ [] ∧
    (Text.lineAt text (number - 1)).head? ≠ some 'c' ∧
    (∀ other, Text.Agree number text other →
      (parse other : Except Error (Instance α)) = .error (.parse number fault)) ∧
    ∀ front, Text.Front (number - 1) text front → Blameless (parse front : Except Error (Instance α)) := by
  obtain ⟨before, line, after, hlines, hsame, hfront⟩ := parse_error_split hnumber h
  obtain ⟨place, rfl, rfl, hdata, rfl⟩ := dataLines_split hlines
  obtain ⟨hne, hcomment⟩ := isData_iff.mp hdata
  rw [Nat.add_sub_cancel]
  refine ⟨?_, hne, hcomment, fun other hagree => ?_, fun front h => hfront front (dataLines_of_front h)⟩
  · by_contra hlength
    exact hne (Text.lineAt_of_length_le (by omega))
  · obtain ⟨later, hother, -⟩ := exists_dataLines_eq other place
    have hplace : dataAmong other [place] = [(place + 1, Text.lineAt text place)] := by
      rw [dataAmong_congr fun _ hmem => hagree _ (by rw [List.mem_singleton.mp hmem]; exact Nat.lt_succ_self _)]
      exact List.filter_cons_of_pos hdata
    rw [hplace, dataAmong_congr fun earlier hmem => hagree earlier (Nat.lt_succ_of_lt (List.mem_range.mp hmem)),
      List.append_assoc] at hother
    exact hsame other later hother

/-- A dump with a comment and an empty line that refers to a prototype that is not there. -/
def strayReference : List Char :=
  "pwl\nb 0 1\n\nc one prototype\np 1 2 0 1  \ng 2\nq".toList

theorem parse_error_names_line_strayReference :
    Text.lineAt strayReference 5 = "g 2".toList ∧
    (parse (Text.firstLines 6 strayReference) : Except Error (Instance ℚ)) =
      .error (.parse 6 (.danglingReference 2)) ∧
    Blameless (parse (Text.firstLines 5 strayReference) : Except Error (Instance ℚ)) := by
  have herror : (parse strayReference : Except Error (Instance ℚ)) = .error (.parse 6 (.danglingReference 2)) := by
    rfl
  obtain ⟨-, -, -, hsame, hfront⟩ := parse_error_names_line (by decide) herror
  exact ⟨by decide, hsame _ (Text.front_firstLines 6 _).agree, hfront _ (Text.front_firstLines 5 _)⟩

end Instance

end ReluLogic
