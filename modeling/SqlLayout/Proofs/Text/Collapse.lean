import SqlLayout.Proofs.Text.UpperCase
import SqlLayout.Text.Blank

/-!
# Collapsed blanks

Two texts differ in the amount and the sort of their blanks alone if they are equal once every run of
blanks is made one space.  Collapsing goes through a text piece by piece as long as no run of blanks is
cut in two, it leaves every nonblank character where it is, and it commutes with trimming and with upper
case.
-/

namespace SqlLayout.Text

variable {other text : List Char} {c : Char}

/-- Every run of blanks made one space: the last blank of the run stands for all of it. -/
def collapseChars : List Char → List Char
  | [] => []
  | c :: rest =>
    if isBlank c then
      if rest.head?.any isBlank then collapseChars rest else ' ' :: collapseChars rest
    else c :: collapseChars rest

def collapse (text : String) : String :=
  String.ofList (collapseChars text.toList)

@[simp] theorem toList_collapse (text : String) :
    (collapse text).toList = collapseChars text.toList := by
  simp [collapse]

theorem isBlank_space : isBlank ' ' = true := by decide

section Collapse

variable {c d : Char} {text rest : List Char} {p : Char → Bool}

@[simp] theorem collapseChars_nil : collapseChars [] = [] := rfl

theorem collapseChars_cons_of_not_isBlank (h : isBlank c = false) (rest : List Char) :
    collapseChars (c :: rest) = c :: collapseChars rest := by
  simp [collapseChars, h]

/-- A blank stands for the run that it starts. -/
theorem collapseChars_cons_of_isBlank (h : isBlank c = true) (rest : List Char) :
    collapseChars (c :: rest) = ' ' :: collapseChars (rest.dropWhile isBlank) := by
  induction rest generalizing c with
  | nil => simp [collapseChars, h]
  | cons d rest ih =>
    cases hd : isBlank d with
    | true =>
      rw [collapseChars, if_pos h, List.head?_cons, Option.any_some, if_pos hd, ih hd,
        List.dropWhile_cons_of_pos hd]
    | false =>
      rw [collapseChars, if_pos h, List.head?_cons, Option.any_some, if_neg (by simp [hd]),
        List.dropWhile_cons_of_neg (by simp [hd])]

theorem head?_collapseChars (text : List Char) :
    (collapseChars text).head? = text.head?.map fun c ↦ if isBlank c then ' ' else c := by
  cases text with
  | nil => rfl
  | cons c rest =>
    cases hc : isBlank c with
    | true => simp [collapseChars_cons_of_isBlank hc, hc]
    | false => simp [collapseChars_cons_of_not_isBlank hc, hc]

@[simp] theorem collapseChars_eq_nil : collapseChars text = [] ↔ text = [] := by
  rw [← List.head?_eq_none_iff, head?_collapseChars, Option.map_eq_none_iff, List.head?_eq_none_iff]

/-- Whether a nonblank character stands in front is not changed by collapsing. -/
theorem head?_collapseChars_eq_some (hc : isBlank c = false) :
    (collapseChars text).head? = some c ↔ text.head? = some c := by
  rw [head?_collapseChars]
  cases text with
  | nil => simp
  | cons d rest =>
    cases hd : isBlank d with
    | false => simp [hd]
    | true =>
      have hspace : ' ' ≠ c := fun h ↦ by simp [← h, isBlank_space] at hc
      have hne : d ≠ c := fun h ↦ by simp [← h, hd] at hc
      simp [hd, hspace, hne]

theorem any_head?_collapseChars (text : List Char) :
    (collapseChars text).head?.any isBlank = text.head?.any isBlank := by
  rw [head?_collapseChars]
  cases text with
  | nil => rfl
  | cons c rest => cases hc : isBlank c <;> simp [hc, isBlank_space]

theorem any_head?_dropWhile_isBlank (text : List Char) :
    (text.dropWhile isBlank).head?.any isBlank = false := by
  induction text with
  | nil => rfl
  | cons c rest ih =>
    cases hc : isBlank c with
    | true => rwa [List.dropWhile_cons_of_pos hc]
    | false => simp [List.dropWhile_cons_of_neg, hc]

theorem dropWhile_isBlank_of_head? (h : text.head?.any isBlank = false) :
    text.dropWhile isBlank = text := by
  cases text with
  | nil => rfl
  | cons c rest => exact List.dropWhile_cons_of_neg (by simpa using h)

theorem dropWhile_isBlank_collapseChars (text : List Char) :
    (collapseChars text).dropWhile isBlank = collapseChars (text.dropWhile isBlank) := by
  have hfront : ∀ text : List Char, text.head?.any isBlank = false →
      (collapseChars text).dropWhile isBlank = collapseChars text := fun text h ↦
    dropWhile_isBlank_of_head? (by rw [any_head?_collapseChars, h])
  cases text with
  | nil => rfl
  | cons c rest =>
    cases hc : isBlank c with
    | true =>
      rw [collapseChars_cons_of_isBlank hc, List.dropWhile_cons_of_pos isBlank_space,
        List.dropWhile_cons_of_pos hc, hfront _ (any_head?_dropWhile_isBlank rest)]
    | false =>
      rw [List.dropWhile_cons_of_neg (by simp [hc])]
      exact hfront _ (by simp [hc])

/-! ### Runs of nonblank characters -/

theorem takeWhile_collapseChars (hp : ∀ c, isBlank c = true → p c = false) (text : List Char) :
    (collapseChars text).takeWhile p = text.takeWhile p := by
  induction text with
  | nil => rfl
  | cons c rest ih =>
    cases hc : isBlank c with
    | true => simp [collapseChars_cons_of_isBlank hc, hp c hc, hp ' ' isBlank_space]
    | false => simp [collapseChars_cons_of_not_isBlank hc, List.takeWhile_cons, ih]

theorem collapseChars_of_all (h : text.all (!isBlank ·) = true) : collapseChars text = text := by
  induction text with
  | nil => rfl
  | cons c rest ih =>
    simp only [List.all_cons, Bool.and_eq_true, Bool.not_eq_true'] at h
    rw [collapseChars_cons_of_not_isBlank h.1, ih h.2]

/-! ### Texts in a row -/

def IsSettled (text : List Char) : Prop :=
  text.getLast?.any isBlank = false

theorem collapseChars_append (h : IsSettled text ∨ rest.head?.any isBlank = false) :
    collapseChars (text ++ rest) = collapseChars text ++ collapseChars rest := by
  induction text with
  | nil => rfl
  | cons c text ih =>
    have htail : IsSettled text ∨ rest.head?.any isBlank = false := by
      refine h.imp_left fun hc ↦ ?_
      cases text with
      | nil => rfl
      | cons d text => simpa [IsSettled, List.getLast?_cons_cons] using hc
    cases hc : isBlank c with
    | false =>
      rw [List.cons_append, collapseChars_cons_of_not_isBlank hc,
        collapseChars_cons_of_not_isBlank hc, ih htail, List.cons_append]
    | true =>
      -- A blank at the end of the first text has no blank behind it.
      have hnext : (text ++ rest).head?.any isBlank = text.head?.any isBlank := by
        cases text with
        | cons d text => rfl
        | nil => simpa [IsSettled, hc] using h
      rw [List.cons_append, collapseChars, if_pos hc, hnext, collapseChars, if_pos hc, ih htail]
      split <;> rfl

theorem isSettled_append (h : rest ≠ []) : IsSettled (text ++ rest) ↔ IsSettled rest := by
  obtain ⟨last, hlast⟩ := Option.ne_none_iff_exists'.mp
    (fun hnone ↦ h (List.getLast?_eq_none_iff.mp hnone))
  simp [IsSettled, List.getLast?_append, hlast]

theorem isSettled_of_all (h : text.all (!isBlank ·) = true) : IsSettled text := by
  unfold IsSettled
  cases hlast : text.getLast? with
  | none => rfl
  | some c =>
    have := List.all_eq_true.mp h c (List.mem_of_getLast? hlast)
    simpa using this

/-- A blank that the collapsed text does not show stands in front of another one. -/
theorem collapseChars_collapseChars_append (text rest : List Char) :
    collapseChars (collapseChars text ++ rest) = collapseChars (text ++ rest) := by
  induction text with
  | nil => rfl
  | cons c text ih =>
    cases hc : isBlank c with
    | false =>
      rw [collapseChars_cons_of_not_isBlank hc, List.cons_append, List.cons_append,
        collapseChars_cons_of_not_isBlank hc, collapseChars_cons_of_not_isBlank hc, ih]
    | true =>
      have hnext : (text ++ rest).head?.any isBlank =
          (collapseChars text ++ rest).head?.any isBlank := by
        cases text with
        | nil => rfl
        | cons d text =>
          have := any_head?_collapseChars (d :: text)
          cases hfound : collapseChars (d :: text) with
          | nil => simp at hfound
          | cons e found => simpa [hfound] using this.symm
      rw [collapseChars, if_pos hc]
      split
      · rename_i hblank
        rw [ih, List.cons_append, collapseChars, if_pos hc, if_pos]
        cases text with
        | nil => simp at hblank
        | cons d text => exact hblank
      · rw [List.cons_append, collapseChars, if_pos isBlank_space, ← hnext, List.cons_append,
          collapseChars.eq_2 c, if_pos hc, ih]

/-- The collapsed text of two in a row is determined by the collapsed texts of the two. -/
theorem collapseChars_append_congr {more : List Char} (htext : collapseChars text = collapseChars other)
    (hrest : collapseChars rest = collapseChars more) :
    collapseChars (text ++ rest) = collapseChars (other ++ more) := by
  have hfront : ∀ front : List Char, collapseChars (front ++ rest) = collapseChars (front ++ more) := by
    intro front
    induction front with
    | nil => exact hrest
    | cons c front ih =>
      have hnext : (front ++ rest).head?.any isBlank = (front ++ more).head?.any isBlank := by
        rw [← any_head?_collapseChars, ih, any_head?_collapseChars]
      simp only [List.cons_append, collapseChars, hnext, ih]
  rw [← collapseChars_collapseChars_append, htext, collapseChars_collapseChars_append, hfront]

/-- Texts that differ in their blanks alone and end in no blank are equal if both start one text. -/
theorem eq_of_append_eq_append {more : List Char} (htext : IsSettled text) (hother : IsSettled other)
    (hsame : collapseChars text = collapseChars other) (h : text ++ rest = other ++ more) :
    text = other ∧ rest = more := by
  rcases List.append_eq_append_iff.mp h with ⟨tail, rfl, rfl⟩ | ⟨tail, rfl, rfl⟩
  · rw [collapseChars_append (.inl htext), List.self_eq_append_right, collapseChars_eq_nil] at hsame
    simp [hsame]
  · rw [collapseChars_append (.inl hother), List.append_right_eq_self, collapseChars_eq_nil] at hsame
    simp [hsame]

theorem getLast?_collapseChars (h : IsSettled text) :
    (collapseChars text).getLast? = text.getLast? := by
  cases hlast : text.getLast? with
  | none => simp [List.getLast?_eq_none_iff.mp hlast]
  | some c =>
    obtain ⟨front, rfl⟩ := List.getLast?_eq_some_iff.mp hlast
    have hc : isBlank c = false := by simpa [IsSettled] using h
    rw [collapseChars_append (.inr (by simpa using hc)), collapseChars_cons_of_not_isBlank hc]
    simp

theorem all_collapseChars (text : List Char) :
    (collapseChars text).all (!isBlank ·) = text.all (!isBlank ·) := by
  induction text with
  | nil => rfl
  | cons c rest ih =>
    cases hc : isBlank c with
    | false => simp [collapseChars_cons_of_not_isBlank hc, ih]
    | true => simp [collapseChars_cons_of_isBlank hc, hc, isBlank_space]

/-- A text without blanks is equal to every text that differs from it in its blanks alone. -/
theorem eq_of_collapseChars_eq (htext : text.all (!isBlank ·) = true)
    (h : collapseChars text = collapseChars other) : text = other := by
  have hother : other.all (!isBlank ·) = true := by rw [← all_collapseChars, ← h, all_collapseChars, htext]
  rwa [collapseChars_of_all htext, collapseChars_of_all hother] at h

end Collapse

/-! ### Trimming and pieces -/

section Trimming

theorem collapseChars_concat_of_not_settled (h : ¬IsSettled text) (hc : isBlank c = true) :
    collapseChars (text ++ [c]) = collapseChars text := by
  cases hlast : text.getLast? with
  | none => simp [IsSettled, hlast] at h
  | some d =>
    obtain ⟨front, rfl⟩ := List.getLast?_eq_some_iff.mp hlast
    have hd : isBlank d = true := by simpa [IsSettled] using h
    rw [List.append_assoc]
    refine collapseChars_append_congr rfl ?_
    simp [collapseChars_cons_of_isBlank hd, hc]

theorem dropWhile_reverse_collapseChars (text : List Char) :
    (collapseChars text.reverse).reverse.dropWhile isBlank =
      (collapseChars (text.dropWhile isBlank).reverse).reverse := by
  induction text with
  | nil => rfl
  | cons c text ih =>
    cases hc : isBlank c with
    | false =>
      rw [List.dropWhile_cons_of_neg (by simp [hc]), List.reverse_cons,
        collapseChars_append (.inr (by simpa using hc)), collapseChars_cons_of_not_isBlank hc]
      simp [List.dropWhile_cons_of_neg, hc]
    | true =>
      rw [List.dropWhile_cons_of_pos hc, List.reverse_cons, ← ih]
      by_cases hsettled : IsSettled text.reverse
      · rw [collapseChars_append (.inl hsettled), collapseChars_cons_of_isBlank hc]
        simp [List.dropWhile_cons_of_pos, isBlank_space]
      · rw [collapseChars_concat_of_not_settled hsettled hc]

theorem collapse_trimEnd (text : String) : collapse (trimEnd text) = trimEnd (collapse text) := by
  have h := dropWhile_reverse_collapseChars text.toList.reverse
  rw [List.reverse_reverse] at h
  simp [collapse, trimEnd, h]

theorem collapse_trim (text : String) : collapse (trim text) = trim (collapse text) := by
  rw [trim, collapse_trimEnd, trim]
  simp [collapse, dropWhile_isBlank_collapseChars]

theorem isSettled_trimEnd (text : String) : IsSettled (trimEnd text).toList := by
  simp [IsSettled, trimEnd, any_head?_dropWhile_isBlank]

theorem piecesFrom_nil_cons_of_isBlank (hc : isBlank c = true) (rest : List Char) :
    piecesFrom [] (c :: rest) = piecesFrom [] rest := by
  simp [piecesFrom, hc]

theorem piecesFrom_collapseChars (piece text : List Char) :
    piecesFrom piece (collapseChars text) = piecesFrom piece text := by
  induction text generalizing piece with
  | nil => rfl
  | cons c rest ih =>
    cases hc : isBlank c with
    | false => simp [collapseChars_cons_of_not_isBlank hc, piecesFrom, hc, ih]
    | true =>
      rw [collapseChars, if_pos hc]
      split
      · -- The blank that follows ends the piece just as well.
        rename_i hnext
        obtain ⟨d, rest, rfl⟩ : ∃ d more, rest = d :: more := by
          cases rest with
          | nil => simp at hnext
          | cons d more => exact ⟨d, more, rfl⟩
        have hd : isBlank d = true := by simpa using hnext
        rw [ih, piecesFrom.eq_2 piece c, if_pos hc, piecesFrom_nil_cons_of_isBlank hd,
          piecesFrom, if_pos hd]
      · simp [piecesFrom, hc, isBlank_space, ih]

theorem pieces_collapse (text : String) : pieces (collapse text) = pieces text := by
  simp [pieces, piecesFrom_collapseChars]

theorem piecesFrom_eq_nil {piece : List Char} :
    piecesFrom piece text = [] ↔ piece = [] ∧ text.all isBlank = true := by
  induction text generalizing piece with
  | nil => simp [piecesFrom]
  | cons c rest ih =>
    cases hc : isBlank c with
    | true => cases piece <;> simp [piecesFrom, hc, ih]
    | false => simp [piecesFrom, hc, ih]

def trimEndChars (text : List Char) : List Char :=
  (text.reverse.dropWhile isBlank).reverse

theorem trimEndChars_append (text rest : List Char) :
    trimEndChars (text ++ rest) =
      if trimEndChars rest = [] then trimEndChars text else text ++ trimEndChars rest := by
  simp only [trimEndChars, List.reverse_append, List.dropWhile_append, List.isEmpty_iff,
    List.reverse_eq_nil_iff]
  split
  · rfl
  · simp

theorem trimEndChars_of_all (h : text.all (!isBlank ·) = true) : trimEndChars text = text := by
  have hsettled : text.reverse.head?.any isBlank = false := by
    simpa [IsSettled] using isSettled_of_all h
  rw [trimEndChars, dropWhile_isBlank_of_head? hsettled, List.reverse_reverse]

/-- A piece in front of others, with a space between them if there are any. -/
theorem intercalate_cons_piecesFrom (piece text : List Char)
    (h : [' '].intercalate (piecesFrom [] text) =
      trimEndChars (collapseChars (text.dropWhile isBlank))) :
    [' '].intercalate (piece :: piecesFrom [] text) =
      piece ++ trimEndChars (' ' :: collapseChars (text.dropWhile isBlank)) := by
  have hspace := trimEndChars_append [' '] (collapseChars (text.dropWhile isBlank))
  rw [List.singleton_append, ← h] at hspace
  rw [hspace]
  cases hpieces : piecesFrom [] text with
  | nil => simp [trimEndChars, isBlank_space]
  | cons next pieces =>
    have hnext : [' '].intercalate (next :: pieces) ≠ [] := by
      rw [← hpieces, h]
      obtain ⟨c, more, hmore⟩ : ∃ c more, text.dropWhile isBlank = c :: more := by
        apply List.exists_cons_of_ne_nil
        intro hnil
        have hall : text.all isBlank = true := by
          rw [← List.takeWhile_append_dropWhile (p := isBlank) (l := text), hnil, List.append_nil]
          exact List.all_takeWhile
        simp [piecesFrom_eq_nil.mpr ⟨rfl, hall⟩] at hpieces
      have hc : isBlank c = false := by
        simpa [hmore] using any_head?_dropWhile_isBlank text
      rw [hmore, collapseChars_cons_of_not_isBlank hc, ← List.singleton_append, trimEndChars_append]
      split
      · simp [trimEndChars, hc]
      · simp
    rw [if_neg hnext, List.intercalate_cons_cons]
    simp

/-- The pieces of a text with single spaces between them are the collapsed text without the blanks around
it.  What is collected of a piece stands in front of the text. -/
theorem intercalate_piecesFrom {piece : List Char} (hpiece : piece.all (!isBlank ·) = true)
    (text : List Char) :
    [' '].intercalate (piecesFrom piece text) =
      trimEndChars ((piece ++ collapseChars text).dropWhile isBlank) := by
  induction text generalizing piece with
  | nil =>
    cases piece with
    | nil => rfl
    | cons d piece =>
      have hd : isBlank d = false := by simp_all
      rw [collapseChars_nil, List.append_nil, List.dropWhile_cons_of_neg (by simp [hd]),
        trimEndChars_of_all hpiece]
      simp [piecesFrom]
  | cons c rest ih =>
    cases hc : isBlank c with
    | false =>
      simp only [piecesFrom, hc, Bool.false_eq_true, if_false]
      rw [ih (by simp [List.all_append, hpiece, hc]), collapseChars_cons_of_not_isBlank hc]
      simp
    | true =>
      have hrest : [' '].intercalate (piecesFrom [] rest) =
          trimEndChars (collapseChars (rest.dropWhile isBlank)) := by
        rw [ih (by simp : ([] : List Char).all (!isBlank ·) = true), List.nil_append,
          dropWhile_isBlank_collapseChars]
      rw [collapseChars_cons_of_isBlank hc]
      cases piece with
      | nil =>
        rw [List.nil_append, List.dropWhile_cons_of_pos isBlank_space,
          dropWhile_isBlank_of_head?, piecesFrom_nil_cons_of_isBlank hc, hrest]
        rw [any_head?_collapseChars]
        exact any_head?_dropWhile_isBlank rest
      | cons d piece =>
        have hd : isBlank d = false := by simp_all
        rw [List.cons_append, List.dropWhile_cons_of_neg (by simp [hd]), ← List.cons_append,
          trimEndChars_append, trimEndChars_of_all hpiece]
        simp only [piecesFrom, hc, if_true, List.isEmpty_cons, Bool.false_eq_true, if_false]
        rw [intercalate_cons_piecesFrom _ _ hrest]
        split
        · rename_i hnil
          rw [hnil, List.append_nil]
        · rfl

theorem squeeze_eq_trim_collapse (text : String) : squeeze text = trim (collapse text) := by
  have h := intercalate_piecesFrom (by simp : ([] : List Char).all (!isBlank ·) = true) text.toList
  apply String.toList_inj.mp
  simpa [squeeze, trim, trimEnd, trimEndChars, pieces, Function.comp_def] using h

end Trimming

/-! ### Upper case -/

def blankPoints : List Nat :=
  blankRanges.flatMap fun range ↦ List.range' range.1 (range.2 + 1 - range.1)

theorem mem_blankPoints : c.toNat ∈ blankPoints ↔ isBlank c = true := by
  rw [isBlank, Ranges.has_iff sorted_blankRanges, blankPoints, List.mem_flatMap]
  refine exists_congr fun range ↦ and_congr_right fun _ ↦ ?_
  rw [List.mem_range'_1]
  omega

theorem blankPoints_disjoint :
    bitSet blankPoints &&& bitSet changingPoints = 0 ∧
      bitSet (0 :: resultPoints) &&& bitSet blankPoints = 0 := by
  decide +kernel

theorem upperChar_of_isBlank (hc : isBlank c = true) : upperChar c = [c] :=
  upperChar_of_notMem (disjoint_of_bitSet blankPoints_disjoint.1 (mem_blankPoints.mpr hc))

theorem isBlank_of_mem_upperChar {d : Char} (hc : isBlank c = false) (hd : d ∈ upperChar c) :
    isBlank d = false := by
  rw [← Bool.not_eq_true, ← mem_blankPoints] at hc ⊢
  exact notMem_of_mem_upperChar blankPoints_disjoint.2 hc hd

theorem all_upperChar (hc : isBlank c = false) : (upperChar c).all (!isBlank ·) = true := by
  rw [List.all_eq_true]
  intro d hd
  simp [isBlank_of_mem_upperChar hc hd]

theorem any_head?_flatMap_upperChar (text : List Char) :
    (text.flatMap upperChar).head?.any isBlank = text.head?.any isBlank := by
  cases text with
  | nil => rfl
  | cons c rest =>
    cases hc : isBlank c with
    | true => simp [upperChar_of_isBlank hc, hc]
    | false =>
      obtain ⟨d, tail, htail⟩ := List.exists_cons_of_ne_nil (upperChar_ne_nil c)
      have hd := isBlank_of_mem_upperChar hc (d := d) (by simp [htail])
      simp [htail, hc, hd]

theorem collapseChars_flatMap_upperChar (text : List Char) :
    collapseChars (text.flatMap upperChar) = (collapseChars text).flatMap upperChar := by
  induction text with
  | nil => rfl
  | cons c rest ih =>
    cases hc : isBlank c with
    | false =>
      rw [List.flatMap_cons, collapseChars_append (.inl (isSettled_of_all (all_upperChar hc))),
        collapseChars_of_all (all_upperChar hc), ih, collapseChars_cons_of_not_isBlank hc,
        List.flatMap_cons]
    | true =>
      rw [List.flatMap_cons, upperChar_of_isBlank hc, List.singleton_append, collapseChars,
        if_pos hc, any_head?_flatMap_upperChar, ih, collapseChars, if_pos hc]
      split
      · rfl
      · rw [List.flatMap_cons, upperChar_of_isBlank isBlank_space, List.singleton_append]

theorem collapse_upper (text : String) : collapse (upper text) = upper (collapse text) := by
  simp [collapse, upper, collapseChars_flatMap_upperChar]

theorem isSettled_upper {text : String} (h : IsSettled text.toList) :
    IsSettled (upper text).toList := by
  rw [upper, String.toList_ofList]
  cases hlast : text.toList.getLast? with
  | none => simp [List.getLast?_eq_none_iff.mp hlast, IsSettled]
  | some c =>
    obtain ⟨front, hfront⟩ := List.getLast?_eq_some_iff.mp hlast
    have hc : isBlank c = false := by simpa [IsSettled, hlast] using h
    rw [hfront, List.flatMap_append, List.flatMap_singleton,
      isSettled_append (upperChar_ne_nil c)]
    exact isSettled_of_all (all_upperChar hc)

end SqlLayout.Text
