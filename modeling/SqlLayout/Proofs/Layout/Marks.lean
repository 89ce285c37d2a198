import SqlLayout.Proofs.Layout.Statements
import SqlLayout.Proofs.Words.Layouts

/-!
# What a layout loses

A layout that does not write all the tokens of a statement shows it by a count.  Some characters, none of
them a blank, are chosen as marks.  The edits of the layout never have more marks than the tokens, and as
many only if nothing is lost.
-/

namespace SqlLayout

open Text Token Spelling Regular

def Text.marks (mark : Char → Bool) (text : String) : Nat :=
  text.toList.countP mark

def Token.marks (mark : Char → Bool) (tokens : List Token) : Nat :=
  (tokens.flatMap (·.text.toList)).countP mark

namespace Edit

def chars : Edit → List Char
  | add piece | addLine piece | extendLast piece => piece.toList
  | blankLines _ | endLine => []

def marks (mark : Char → Bool) (edits : List Edit) : Nat :=
  (edits.flatMap chars).countP mark

def isPlain : Edit → Bool
  | extendLast _ => false
  | _ => true

end Edit

def SkipsBlanks (mark : Char → Bool) : Prop :=
  ∀ c, isBlank c = true → mark c = false

section Marks

variable {mark : Char → Bool}

@[simp] theorem Text.marks_append (text other : String) :
    marks mark (text ++ other) = marks mark text + marks mark other := by
  simp [marks]

@[simp] theorem Token.marks_nil : marks mark [] = 0 := rfl

@[simp] theorem Token.marks_cons (token : Token) (tokens : List Token) :
    marks mark (token :: tokens) = Text.marks mark token.text + marks mark tokens := by
  simp [marks, Text.marks]

@[simp] theorem Token.marks_append (tokens others : List Token) :
    marks mark (tokens ++ others) = marks mark tokens + marks mark others := by
  simp [marks]

@[simp] theorem Edit.marks_nil : marks mark [] = 0 := rfl

@[simp] theorem Edit.marks_add (piece : String) (edits : List Edit) :
    marks mark (.add piece :: edits) = Text.marks mark piece + marks mark edits := by
  simp [marks, chars, Text.marks]

@[simp] theorem Edit.marks_addLine (piece : String) (edits : List Edit) :
    marks mark (.addLine piece :: edits) = Text.marks mark piece + marks mark edits := by
  simp [marks, chars, Text.marks]

@[simp] theorem Edit.marks_endLine (edits : List Edit) :
    marks mark (.endLine :: edits) = marks mark edits := by
  simp [marks, chars]

@[simp] theorem Edit.marks_append (edits others : List Edit) :
    marks mark (edits ++ others) = marks mark edits + marks mark others := by
  simp [marks]

theorem SkipsBlanks.marks_eq_zero (h : SkipsBlanks mark) {text : String}
    (htext : text.toList.all isBlank = true) : Text.marks mark text = 0 := by
  rw [Text.marks, List.countP_eq_zero]
  intro c hc
  simp [h c (List.all_eq_true.mp htext c hc)]

/-- A line feed is no mark, so the text of edits has the marks that they write. -/
theorem SkipsBlanks.countP_text (h : SkipsBlanks mark) (fresh : Bool) (edits : List Edit) :
    (Edit.text fresh edits).countP mark = Edit.marks mark edits := by
  have hfeed : mark '\n' = false := h '\n' (by decide)
  have hopening : ∀ fresh, (Edit.opening fresh).countP mark = 0 := by
    intro fresh
    cases fresh <;> simp [Edit.opening, hfeed]
  induction edits generalizing fresh with
  | nil => rfl
  | cons edit edits ih =>
    cases edit with
    | add piece =>
      by_cases hpiece : piece = ""
      · simp [Edit.text, hpiece, ih, Text.marks]
      · simp [Edit.text, hpiece, ih, hopening, Text.marks]
    | addLine piece =>
      by_cases hpiece : piece = ""
      · simp [Edit.text, hpiece, ih, Text.marks]
      · simp [Edit.text, hpiece, ih, hopening, Text.marks]
    | blankLines count => simp [Edit.text, ih, Edit.marks, Edit.chars, hfeed, List.countP_replicate]
    | endLine => simp [Edit.text, ih]
    | extendLast piece => simp [Edit.text, ih, Edit.marks, Edit.chars]

theorem Edit.sound_of_isPlain {edits : List Edit} (h : edits.all isPlain = true) (fresh : Bool) :
    sound fresh edits = true := by
  induction edits generalizing fresh with
  | nil => rfl
  | cons edit edits ih =>
    simp only [List.all_cons, Bool.and_eq_true] at h
    cases edit with
    | extendLast piece => cases h.1
    | _ => simp [sound, ih h.2]

end Marks

namespace Layout

variable {mark : Char → Bool}
variable {edits : List Edit} {tokens : List Token} {piece : String}

theorem marks_indentation (hmark : SkipsBlanks mark) (level : Int) :
    Text.marks mark (indentation level) = 0 :=
  hmark.marks_eq_zero (isBlank_indentation level)

/-! ### Edits that lose nothing -/

def SameMarks (mark : Char → Bool) (edits : List Edit) (tokens : List Token) : Prop :=
  edits.all Edit.isPlain = true ∧ Edit.marks mark edits = Token.marks mark tokens

theorem SameMarks.append {others : List Edit} {more : List Token} (h : SameMarks mark edits tokens)
    (hothers : SameMarks mark others more) : SameMarks mark (edits ++ others) (tokens ++ more) := by
  obtain ⟨hplain, hmarks⟩ := h
  obtain ⟨hplain', hmarks'⟩ := hothers
  exact ⟨by simp [hplain, hplain'], by simp [hmarks, hmarks']⟩

theorem SameMarks.add {token : Token} (hpiece : Text.marks mark piece = Text.marks mark token.text)
    (h : SameMarks mark edits tokens) : SameMarks mark (.add piece :: edits) (token :: tokens) :=
  ⟨by simpa [Edit.isPlain] using h.1, by simp [hpiece, h.2]⟩

theorem marks_nil : SameMarks mark [] [] :=
  ⟨rfl, rfl⟩

theorem marks_spaced (hmark : SkipsBlanks mark) (word : String) :
    Text.marks mark (" " ++ word) = Text.marks mark word := by
  rw [Text.marks_append, hmark.marks_eq_zero rfl, Nat.zero_add]

theorem marks_asWord (hmark : SkipsBlanks mark) {asWord : Option String}
    (h : asWord.all (upper · = "AS") = true) :
    SameMarks mark (if isPresent asWord then [.add " AS"] else [])
      (asWord.map fun word ↦ (⟨.asWord, upper word⟩ : Token)).toList := by
  cases asWord with
  | none => exact marks_nil
  | some word =>
    have hword : upper word = "AS" := by simpa using h
    rw [if_pos (by simp [isPresent, ne_empty_of_upper hword])]
    refine .add ?_ marks_nil
    simp only [hword]
    exact marks_spaced hmark "AS"

theorem marks_alias (hmark : SkipsBlanks mark) {asWord aliasName : Option String}
    (h : isAlias asWord aliasName = true) :
    SameMarks mark (aliasEdits asWord aliasName) (aliasTokens asWord aliasName) := by
  simp only [isAlias, Bool.and_eq_true] at h
  refine (marks_asWord hmark h.1).append ?_
  cases aliasName with
  | none => exact marks_nil
  | some name =>
    by_cases hname : name = ""
    · subst hname
      exact ⟨rfl, rfl⟩
    · have hspace : Text.marks mark " " = 0 := hmark.marks_eq_zero rfl
      simp only [hname, if_false]
      exact ⟨rfl, by simp [hspace]⟩

theorem marks_named (hmark : SkipsBlanks mark) {t : Term} (h : isNamed t = true) :
    SameMarks mark (.add t.text :: aliasEdits t.asWord t.aliasName) (namedTokens t) := by
  simp only [isNamed, Bool.and_eq_true] at h
  exact .add rfl (marks_alias hmark h.2)

theorem marks_commaBefore (hpiece : Text.marks mark piece = Text.marks mark ",") (rest : List Node) :
    SameMarks mark (Layout.commaBefore rest piece) (Spelling.commaBefore rest) := by
  cases rest with
  | nil => exact marks_nil
  | cons next rest => exact .add hpiece marks_nil

/-! ### What is lost -/

/-- Edits write at most the marks of tokens, and as many only if `kept` holds. -/
structure Loses (mark : Char → Bool) (kept : Prop) (edits : List Edit) (tokens : List Token) : Prop where
  plain : edits.all Edit.isPlain = true
  le : Edit.marks mark edits ≤ Token.marks mark tokens
  all : Token.marks mark tokens ≤ Edit.marks mark edits → kept

section Loses

variable {kept other : Prop} {edits : List Edit} {tokens : List Token}

theorem Loses.endLine (h : Loses mark kept edits tokens) : Loses mark kept (.endLine :: edits) tokens :=
  ⟨by simpa [Edit.isPlain] using h.plain, by simpa using h.le, by simpa using h.all⟩

theorem Loses.blank (hpiece : Text.marks mark piece = 0) (h : Loses mark kept edits tokens) :
    Loses mark kept (.add piece :: edits) tokens :=
  ⟨by simpa [Edit.isPlain] using h.plain, by simpa [hpiece] using h.le, by simpa [hpiece] using h.all⟩

theorem Loses.add (h : Loses mark kept edits tokens) (token : Token)
    (hpiece : Text.marks mark piece = Text.marks mark token.text) :
    Loses mark kept (.add piece :: edits) (token :: tokens) := by
  refine ⟨by simpa [Edit.isPlain] using h.plain, ?_, fun hle ↦ h.all ?_⟩
  · simpa [hpiece] using h.le
  · simpa [hpiece] using hle

theorem Loses.addLine (h : Loses mark kept edits tokens) (token : Token)
    (hpiece : Text.marks mark piece = Text.marks mark token.text) :
    Loses mark kept (.addLine piece :: edits) (token :: tokens) := by
  refine ⟨by simpa [Edit.isPlain] using h.plain, ?_, fun hle ↦ h.all ?_⟩
  · simpa [hpiece] using h.le
  · simpa [hpiece] using hle

theorem Loses.behind {front : List Edit} {first : List Token} (hfront : SameMarks mark front first)
    (h : Loses mark kept edits tokens) : Loses mark kept (front ++ edits) (first ++ tokens) := by
  refine ⟨by simp [hfront.1, h.plain], ?_, fun hle ↦ h.all ?_⟩
  · simpa [hfront.2] using h.le
  · simpa [hfront.2] using hle

/-- Tokens that are passed over are lost if there is a mark in them. -/
theorem Loses.lost {passed : List Token} (hpassed : 0 < Token.marks mark passed)
    (h : Loses mark kept edits tokens) : Loses mark other edits (passed ++ tokens) := by
  have hle := h.le
  refine ⟨h.plain, ?_, fun hmarks ↦ ?_⟩
  · rw [Token.marks_append]
    omega
  · rw [Token.marks_append] at hmarks
    omega

theorem Loses.append {more : List Edit} {others : List Token} (h : Loses mark kept edits tokens)
    (hmore : Loses mark other more others) :
    Loses mark (kept ∧ other) (edits ++ more) (tokens ++ others) := by
  have hle := h.le
  have hle' := hmore.le
  refine ⟨by simp [h.plain, hmore.plain], ?_, fun hmarks ↦ ⟨h.all ?_, hmore.all ?_⟩⟩
  all_goals
    simp only [Edit.marks_append, Token.marks_append] at *
    omega

theorem Loses.imp (h : Loses mark kept edits tokens) (himp : kept → other) :
    Loses mark other edits tokens :=
  ⟨h.plain, h.le, fun hmarks ↦ himp (h.all hmarks)⟩

theorem loses_nil : Loses mark True [] [] :=
  ⟨rfl, Nat.le_refl _, fun _ ↦ trivial⟩

theorem loses_endLine : Loses mark True [.endLine] [] :=
  loses_nil.endLine

end Loses

/-! ### Lines -/

/-- A statement whose edits never extend the last line is laid out, and its lines have the marks of the
edits. -/
theorem exists_style_of_isPlain (hmark : SkipsBlanks mark) (indent : Int) {node left : Node} {line : String}
    (hdraft : statement indent node = ⟨.addLine line :: edits, .ok left⟩) (hline : line ≠ "")
    (hplain : edits.all Edit.isPlain = true) :
    ∃ styled, style indent [node] = .ok styled ∧
      '\n' :: ("\n".intercalate styled.lines).toList =
        Edit.text true (.addLine line :: (edits ++ [.endLine])) ∧
      ("\n".intercalate styled.lines).toList.countP mark = Text.marks mark line + Edit.marks mark edits := by
  have hsound : Edit.sound true (edits ++ [.endLine]) = true :=
    Edit.sound_of_isPlain (by simp [hplain, Edit.isPlain]) true
  obtain ⟨styled, hstyled, htext⟩ :=
    exists_style_of_sound indent (statements_singleton indent hdraft) hline hsound
  refine ⟨styled, hstyled, htext, ?_⟩
  have hcount := congrArg (List.countP mark) htext
  rw [hmark.countP_text, List.countP_cons_of_neg (by simp [hmark '\n' (by decide)])] at hcount
  simpa using hcount

/-- A text that has the marks of tokens only if they are kept, and that is written with them if so, gives
the tokens again exactly if they are kept and can be told apart on one line. -/
theorem tokensOf_iff_kept {kept : Prop} {text : String} (hinsert : ∀ token ∈ tokens, token.kind ≠ .insertWord)
    (hmarks : Token.marks mark tokens ≤ text.toList.countP mark → kept)
    (hwritten : kept → (∀ token ∈ tokens, token.isSound = true) →
      Written false ('\n' :: text.toList) tokens) :
    tokensOf text = .ok tokens ↔ kept ∧ tokensOf (oneLine tokens) = .ok tokens := by
  -- Tokens that are read from any text can be written.
  have hiff : ∀ {sql : String}, tokensOf sql = .ok tokens → kept →
      (tokensOf text = .ok tokens ↔ tokensOf (oneLine tokens) = .ok tokens) :=
    fun hsql hkept ↦ (hwritten hkept
      (isSound_of_taken (taken_of_tokensOf hsql) hinsert)).tokensOf_iff_oneLine hinsert
  constructor
  · intro hagain
    have hkept := hmarks (sublist_of_tokensOf hagain).countP_le
    exact ⟨hkept, (hiff hagain hkept).mp hagain⟩
  · rintro ⟨hkept, hline⟩
    exact (hiff hline hkept).mpr hline

end Layout

end SqlLayout
