import ReluLogic.Lattice.Join
import ReluLogic.Proofs.Formula.Evaluation
import ReluLogic.Proofs.Lattice.Domination

/-!
The value of a join. However the contributions are cut into chunks, the join has the greatest of their degrees, and
a contribution has the least of the degrees it takes part of. In a family that passes the check this is, at a point
of a piece's region, the value of that piece up to the tolerance.
-/

namespace ReluLogic

/-! ### Chunks -/

theorem flatten_chunksOf {β : Type} (extra : Nat) (items : List β) : (chunksOf extra items).flatten = items := by
  fun_induction chunksOf extra items with
  | case1 => rfl
  | case2 first rest ih => rw [List.flatten_cons, ih, List.cons_append, List.take_append_drop]

theorem ne_nil_of_mem_chunksOf {β : Type} {extra : Nat} {items chunk : List β} (h : chunk ∈ chunksOf extra items) :
    chunk ≠ [] := by
  fun_induction chunksOf extra items with
  | case1 => exact absurd h List.not_mem_nil
  | case2 first rest ih =>
      rcases List.mem_cons.mp h with rfl | h
      · exact List.cons_ne_nil _ _
      · exact ih h

namespace Formula

variable {valuation value : Nat → ℚ} {formulas : List Formula} {i : Nat}

/-! ### Contributions -/

/-- Minima taken one after the other give the least of the degrees. -/
theorem exists_foldl_minimum_denotes (entries : List ((Bool × Formula) × Nat)) :
    ∀ {total : Formula} {degree : ℚ}, total.Denotes valuation degree →
      (∀ entry ∈ entries, entry.1.2.Denotes valuation (value entry.2)) →
        ∃ least, (entries.foldl (fun total ((isAbove, other), k) =>
          if isAbove && k != i then total.push .minimum other else total) total).Denotes valuation least ∧
            least ≤ degree ∧ (∀ entry ∈ entries, entry.1.1 = true → entry.2 ≠ i → least ≤ value entry.2) ∧
              (least = degree ∨ ∃ entry ∈ entries, entry.1.1 = true ∧ least = value entry.2) := by
  induction entries with
  | nil =>
      intro total degree htotal _
      exact ⟨degree, htotal, le_rfl, fun _ hmem => absurd hmem List.not_mem_nil, Or.inl rfl⟩
  | cons entry entries ih =>
      intro total degree htotal hentries
      obtain ⟨hentry, hrest⟩ := List.forall_mem_cons.mp hentries
      obtain ⟨⟨isAbove, other⟩, k⟩ := entry
      rw [List.foldl_cons]
      by_cases hmarked : (isAbove && k != i) = true
      · simp only [hmarked, if_true]
        have hpush := htotal.push_of_ne hentry .minimum (by decide)
        rw [Connective.apply_minimum] at hpush
        obtain ⟨least, hleast, hle, hall, hattained⟩ := ih hpush hrest
        refine ⟨least, hleast, hle.trans (min_le_left _ _), List.forall_mem_cons.mpr
          ⟨fun _ _ => hle.trans (min_le_right _ _), hall⟩, ?_⟩
        rcases hattained with heq | ⟨entry, hmem, habove, heq⟩
        · rcases min_choice degree (value k) with hmin | hmin
          · exact Or.inl (heq.trans hmin)
          · exact Or.inr ⟨_, List.mem_cons_self, (Bool.and_eq_true_iff.mp hmarked).1, heq.trans hmin⟩
        · exact Or.inr ⟨entry, List.mem_cons_of_mem _ hmem, habove, heq⟩
      · simp only [if_neg hmarked]
        obtain ⟨least, hleast, hle, hall, hattained⟩ := ih htotal hrest
        refine ⟨least, hleast, hle, List.forall_mem_cons.mpr ⟨fun habove hne => ?_, hall⟩, ?_⟩
        · exact absurd (Bool.and_eq_true_iff.mpr ⟨habove, bne_iff_ne.mpr hne⟩) hmarked
        · rcases hattained with heq | ⟨entry, hmem, habove, heq⟩
          · exact Or.inl heq
          · exact Or.inr ⟨entry, List.mem_cons_of_mem _ hmem, habove, heq⟩

/-- A contribution has the least degree among its own formula and those that its row marks. -/
theorem exists_contribution_denotes {formula : Formula} (above : List Bool)
    (hvalues : ∀ (k : Nat) (formula : Formula), formulas[k]? = some formula → formula.Denotes valuation (value k))
    (hformula : formulas[i]? = some formula) :
    ∃ least, (contribution formulas formula i above).Denotes valuation least ∧
      (∀ k < formulas.length, (k = i ∨ above.getD k false = true) → least ≤ value k) ∧
        ∃ k < formulas.length, (k = i ∨ above.getD k false = true) ∧ value k = least := by
  have hentry : ∀ entry, entry ∈ (above.zip formulas).zipIdx ↔
      above[entry.2]? = some entry.1.1 ∧ formulas[entry.2]? = some entry.1.2 := by
    intro entry
    rw [List.mem_zipIdx_iff_getElem?, List.getElem?_zip_eq_some]
  obtain ⟨least, hleast, hown, hall, hattained⟩ := exists_foldl_minimum_denotes (above.zip formulas).zipIdx
    (hvalues i formula hformula) fun entry hmem => hvalues entry.2 _ ((hentry entry).mp hmem).2
  refine ⟨least, hleast, fun k hk hmarked => ?_, ?_⟩
  · by_cases heq : k = i
    · exact heq ▸ hown
    · have habove := hmarked.resolve_left heq
      have hsome : above[k]? = some true := by
        rw [List.getD_eq_getElem?_getD] at habove
        cases hrow : above[k]? with
        | none =>
            rw [hrow] at habove
            cases habove
        | some marked =>
            rw [hrow] at habove
            exact congrArg some habove
      exact hall ((true, formulas[k]), k) ((hentry _).mpr ⟨hsome, List.getElem?_eq_getElem hk⟩) rfl heq
  · rcases hattained with heq | ⟨⟨⟨isAbove, other⟩, k⟩, hmem, habove, heq⟩
    · exact ⟨i, (List.getElem?_eq_some_iff.mp hformula).1, Or.inl rfl, heq.symm⟩
    · obtain ⟨hrow, hother⟩ := (hentry _).mp hmem
      refine ⟨k, (List.getElem?_eq_some_iff.mp hother).1, Or.inr ?_, heq.symm⟩
      rw [List.getD_eq_getElem?_getD, hrow]
      exact habove

/-! ### Maxima -/

theorem foldl_maximum_denotes (rest : List Formula) :
    ∀ {total : Formula} {degree : ℚ}, total.Denotes valuation degree →
      (∀ formula ∈ rest, ∃ degree, formula.Denotes valuation degree) →
        ∃ greatest, (rest.foldl (fun total formula => total.push .maximum formula) total).Denotes valuation greatest ∧
          degree ≤ greatest ∧ (∀ formula ∈ rest, ∃ degree ≤ greatest, formula.Denotes valuation degree) ∧
            (greatest = degree ∨ ∃ formula ∈ rest, formula.Denotes valuation greatest) := by
  induction rest with
  | nil =>
      intro total degree htotal _
      exact ⟨degree, htotal, le_rfl, fun _ hmem => absurd hmem List.not_mem_nil, Or.inl rfl⟩
  | cons formula rest ih =>
      intro total degree htotal hall
      obtain ⟨⟨other, hother⟩, hrest⟩ := List.forall_mem_cons.mp hall
      have hpush := htotal.push_of_ne hother .maximum (by decide)
      rw [Connective.apply_maximum] at hpush
      obtain ⟨greatest, hgreatest, hle, hbelow, hattained⟩ := ih hpush hrest
      refine ⟨greatest, hgreatest, (le_max_left _ _).trans hle, List.forall_mem_cons.mpr
        ⟨⟨other, (le_max_right _ _).trans hle, hother⟩, hbelow⟩, ?_⟩
      rcases hattained with heq | ⟨held, hmem, hheld⟩
      · rcases max_choice degree other with hmax | hmax
        · exact Or.inl (heq.trans hmax)
        · refine Or.inr ⟨formula, List.mem_cons_self, ?_⟩
          rw [heq, hmax]
          exact hother
      · exact Or.inr ⟨held, List.mem_cons_of_mem _ hmem, hheld⟩

/-- The maximum of formulas has the greatest of their degrees. -/
theorem exists_maximumOf_denotes (hne : formulas ≠ [])
    (hall : ∀ formula ∈ formulas, ∃ degree, formula.Denotes valuation degree) :
    ∃ greatest, (maximumOf formulas).Denotes valuation greatest ∧
      (∀ formula ∈ formulas, ∃ degree ≤ greatest, formula.Denotes valuation degree) ∧
        ∃ formula ∈ formulas, formula.Denotes valuation greatest := by
  cases formulas with
  | nil => exact absurd rfl hne
  | cons first rest =>
      obtain ⟨⟨degree, hfirst⟩, hrest⟩ := List.forall_mem_cons.mp hall
      obtain ⟨greatest, hgreatest, hle, hbelow, hattained⟩ := foldl_maximum_denotes rest hfirst hrest
      refine ⟨greatest, ?_, List.forall_mem_cons.mpr ⟨⟨degree, hle, hfirst⟩, hbelow⟩, ?_⟩
      · rw [maximumOf, List.foldl_cons, push_of_isEmpty rfl]
        exact hgreatest
      · rcases hattained with rfl | ⟨formula, hmem, hformula⟩
        · exact ⟨first, List.mem_cons_self, hfirst⟩
        · exact ⟨formula, List.mem_cons_of_mem _ hmem, hformula⟩

/-- So does the maximum taken in chunks. -/
theorem exists_chunkedMaximum_denotes (threads : Nat) (hne : formulas ≠ [])
    (hall : ∀ formula ∈ formulas, ∃ degree, formula.Denotes valuation degree) :
    ∃ greatest, (chunkedMaximum formulas threads).Denotes valuation greatest ∧
      (∀ formula ∈ formulas, ∃ degree ≤ greatest, formula.Denotes valuation degree) ∧
        ∃ formula ∈ formulas, formula.Denotes valuation greatest := by
  set chunks := chunksOf (chunkExtra formulas.length threads) formulas with hchunks
  have hflatten : chunks.flatten = formulas := flatten_chunksOf _ _
  have hmem : ∀ {formula}, formula ∈ formulas ↔ ∃ chunk ∈ chunks, formula ∈ chunk := by
    intro formula
    rw [← List.mem_flatten, hflatten]
  have hchunk : ∀ chunk ∈ chunks, ∃ greatest, (maximumOf chunk).Denotes valuation greatest ∧
      (∀ formula ∈ chunk, ∃ degree ≤ greatest, formula.Denotes valuation degree) ∧
        ∃ formula ∈ chunk, formula.Denotes valuation greatest :=
    fun chunk hchunk => exists_maximumOf_denotes (ne_nil_of_mem_chunksOf hchunk)
      fun formula hformula => hall formula (hmem.mpr ⟨chunk, hchunk, hformula⟩)
  have hchunks' : chunks.map maximumOf ≠ [] := by
    intro hnil
    rw [List.map_eq_nil_iff.mp hnil] at hflatten
    exact hne hflatten.symm
  obtain ⟨greatest, hgreatest, hbelow, chunkMaximum, hchunkMaximum, hattained⟩ := exists_maximumOf_denotes hchunks'
    (List.forall_mem_map.mpr fun chunk hmem => (hchunk chunk hmem).imp fun _ h => h.1)
  refine ⟨greatest, hgreatest, fun formula hformula => ?_, ?_⟩
  · obtain ⟨chunk, hchunkMem, hformula⟩ := hmem.mp hformula
    obtain ⟨own, hown, hwithin, -⟩ := hchunk chunk hchunkMem
    obtain ⟨degree, hle, hdegree⟩ := hwithin formula hformula
    obtain ⟨other, hother, hother'⟩ := hbelow _ (List.mem_map_of_mem hchunkMem)
    exact ⟨degree, hle.trans (hown.unique hother' ▸ hother), hdegree⟩
  · obtain ⟨chunk, hchunkMem, rfl⟩ := List.mem_map.mp hchunkMaximum
    obtain ⟨own, hown, -, formula, hformula, hdegree⟩ := hchunk chunk hchunkMem
    exact ⟨formula, hmem.mpr ⟨chunk, hchunkMem, hformula⟩, hown.unique hattained ▸ hdegree⟩

end Formula
/-- A degree is the greatest of the least values of all places, each taken among the places marked for it. -/
def MaxMin (count : Nat) (isAbove : Nat → Nat → Bool) (value : Nat → ℚ) (degree : ℚ) : Prop :=
  (∀ i < count, ∃ k < count, (k = i ∨ isAbove i k = true) ∧ value k ≤ degree) ∧
    ∃ i < count, ∀ k < count, (k = i ∨ isAbove i k = true) → degree ≤ value k

namespace PieceFamily

variable {dim threads : Nat} {table : DominationTable} {formulas : List Formula} {lattice : Formula}
  {valuation value : Nat → ℚ}

section Joining

variable {α : Type} {family : PieceFamily α}

theorem joinBy_eq_ok {above : Piece → Nat → Except Error (List Bool)}
    (h : family.joinBy formulas threads above = .ok lattice) :
    formulas.length = family.pieces.length ∧ ∃ contributions, contributions.length = formulas.length ∧
      lattice = Formula.chunkedMaximum contributions threads ∧
        ∀ (i : Nat) (piece : Piece) (formula : Formula), family.pieces[i]? = some piece →
          formulas[i]? = some formula → ∃ row, above piece i = .ok row ∧
            contributions[i]? = some (Formula.contribution formulas formula i row) := by
  rw [joinBy] at h
  split_ifs at h with hlength
  have hlength' : formulas.length = family.pieces.length := not_not.mp hlength
  obtain ⟨contributions, hcontributions, h⟩ := bind_eq_ok.mp h
  cases h
  refine ⟨hlength', contributions, ?_, rfl, fun i piece formula hpiece hformula => ?_⟩
  · rw [← (mapM_eq_ok.mp hcontributions).length_eq, List.length_zipIdx, List.length_zip, hlength', min_self]
  · have hpair : (family.pieces.zip formulas)[i]? = some (piece, formula) :=
      List.getElem?_zip_eq_some.mpr ⟨hpiece, hformula⟩
    have hentry : (family.pieces.zip formulas).zipIdx[i]? = some ((piece, formula), i) := by
      rw [List.getElem?_zipIdx, hpair, Option.map_some, Nat.zero_add]
    obtain ⟨contribution, hfound, hok⟩ := exists_getElem?_of_mapM hcontributions hentry
    obtain ⟨row, hrow, hok⟩ := bind_eq_ok.mp hok
    cases hok
    exact ⟨row, hrow, hfound⟩

/-- A join by a table has the maximum of the minima that the table asks for, whatever the number of threads. -/
theorem exists_assembleWithTable_denotes (h : family.assembleWithTable table formulas threads = .ok lattice)
    (hne : family.pieces ≠ [])
    (hvalues : ∀ (k : Nat) (formula : Formula), formulas[k]? = some formula →
      formula.Denotes valuation (value k)) :
    ∃ degree, lattice.Denotes valuation degree ∧ MaxMin family.pieces.length table.isAbove value degree := by
  rw [assembleWithTable] at h
  split_ifs at h with hsize
  obtain ⟨hlength, contributions, hcount, rfl, hplaces⟩ := joinBy_eq_ok h
  have hleast : ∀ i < family.pieces.length, ∃ least contribution, contributions[i]? = some contribution ∧
      contribution.Denotes valuation least ∧
        (∀ k < family.pieces.length, (k = i ∨ table.isAbove i k = true) → least ≤ value k) ∧
          ∃ k < family.pieces.length, (k = i ∨ table.isAbove i k = true) ∧ value k = least := by
    intro i hi
    obtain ⟨row, hrow, hcontribution⟩ := hplaces i _ _ (List.getElem?_eq_getElem hi)
      (List.getElem?_eq_getElem (hlength ▸ hi))
    cases hrow
    obtain ⟨least, hdenotes, hall, hattained⟩ := Formula.exists_contribution_denotes (table.above.getD i []) hvalues
      (List.getElem?_eq_getElem (hlength ▸ hi))
    rw [hlength] at hall hattained
    exact ⟨least, _, hcontribution, hdenotes, hall, hattained⟩
  have hcontributions : contributions ≠ [] := by
    rintro rfl
    rw [List.length_nil, hlength] at hcount
    exact hne (List.eq_nil_of_length_eq_zero hcount.symm)
  have hplace : ∀ contribution ∈ contributions, ∃ i < family.pieces.length,
      contributions[i]? = some contribution := by
    intro contribution hcontribution
    obtain ⟨i, hi⟩ := List.mem_iff_getElem?.mp hcontribution
    exact ⟨i, hlength ▸ hcount ▸ (List.getElem?_eq_some_iff.mp hi).1, hi⟩
  obtain ⟨degree, hdegree, hbelow, attained, hmem, hattained⟩ :=
    Formula.exists_chunkedMaximum_denotes threads hcontributions fun contribution hcontribution => by
      obtain ⟨i, hi, hfound⟩ := hplace contribution hcontribution
      obtain ⟨least, found, hfound', hdenotes, -⟩ := hleast i hi
      cases hfound.symm.trans hfound'
      exact ⟨least, hdenotes⟩
  refine ⟨degree, hdegree, fun i hi => ?_, ?_⟩
  · obtain ⟨least, contribution, hfound, hdenotes, -, k, hk, hmarked, heq⟩ := hleast i hi
    obtain ⟨own, hle, hown⟩ := hbelow contribution (List.mem_of_getElem? hfound)
    exact ⟨k, hk, hmarked, heq ▸ hdenotes.unique hown ▸ hle⟩
  · obtain ⟨i, hi, hfound⟩ := hplace attained hmem
    obtain ⟨least, contribution, hfound', hdenotes, hall, -⟩ := hleast i hi
    cases hfound.symm.trans hfound'
    exact ⟨i, hi, hdenotes.unique hattained ▸ hall⟩

end Joining

variable {family : PieceFamily ℚ}

/-- In a family that passes the check the maximum of minima is, at a point of a piece's region, the value of that
piece up to the tolerance; `cut` stands for what the formulas do to the values of the pieces. -/
theorem abs_maxMin_sub_le (hmaximizes : family.oracle.Maximizes dim) (hformed : family.WellFormed dim)
    (htolerance : 0 ≤ family.tolerance) (hcheck : family.checkLatticeProperty = .ok table) {cut : ℚ → ℚ}
    (hmono : Monotone cut) (hslack : ∀ a, cut (a + family.tolerance) ≤ cut a + family.tolerance)
    {point : List ℚ} (hbox : point ∈ unitBox dim)
    (hvalue : ∀ (k : Nat) (other : Piece), family.pieces[k]? = some other → value k = cut (other.evaluate point))
    {j : Nat} {piece : Piece} (hpiece : family.pieces[j]? = some piece)
    (hinside : Inside family.prototypes piece.region point) {degree : ℚ}
    (hdegree : MaxMin family.pieces.length table.isAbove value degree) :
    |degree - cut (piece.evaluate point)| ≤ family.tolerance := by
  obtain ⟨hlower, i, hi, hupper⟩ := hdegree
  have htable := (checkLatticeProperty_eq_ok hcheck).1
  have hcut : ∀ {a b : ℚ}, a ≤ b + family.tolerance → cut a ≤ cut b + family.tolerance :=
    fun hle => (hmono hle).trans (hslack _)
  obtain ⟨k, hk, hmarked, hle⟩ := hlower j (List.getElem?_eq_some_iff.mp hpiece).1
  have hother := List.getElem?_eq_getElem hk
  have habove : family.AtMost dim piece.region piece family.pieces[k] := by
    rcases hmarked with rfl | hmarked
    · cases hpiece.symm.trans hother
      exact .refl htolerance dim _ _
    · exact (isAbove_iff hmaximizes hformed htolerance htable hpiece hother).mp hmarked
  have hge : cut (piece.evaluate point) ≤ degree + family.tolerance := by
    rw [hvalue k _ hother] at hle
    linarith [hcut (habove point hbox hinside)]
  obtain ⟨witness, between, hbetween, hbelow, hmarked'⟩ :=
    exists_between hmaximizes hformed htolerance hcheck hpiece hi
  have hle' := hupper witness (List.getElem?_eq_some_iff.mp hbetween).1 hmarked'
  rw [hvalue witness between hbetween] at hle'
  rw [abs_sub_le_iff]
  constructor
  · linarith [hcut (hbelow point hbox hinside)]
  · linarith

end PieceFamily

end ReluLogic
