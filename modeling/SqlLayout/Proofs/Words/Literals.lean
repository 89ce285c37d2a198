import SqlLayout.Proofs.Words.Spacing

/-!
# Literals

The quoted words of a text can be found without its other words: a quote opens a literal, the next equal
quote closes it, and what stands between two literals does not matter.  So text without a quote can be
put in front of a text or behind it and leaves its literals as they are.
-/

namespace SqlLayout

namespace Word

open Text

def isQuoted (word : String) : Bool :=
  word.toList.head?.any isQuote

def Quoteless (text : List Char) : Prop :=
  text.all (!isQuote ·) = true

instance (text : List Char) : Decidable (Quoteless text) :=
  inferInstanceAs (Decidable (_ = true))

def IsLiteral (text : List Char) : Prop :=
  ∃ quote inner, isQuote quote = true ∧ quote ∉ inner ∧ text = quote :: (inner ++ [quote])

/-- The literals of a text, `none` if a quote is never closed.  If a quote is open already, it stands
here with what has been read behind it. -/
def literalsFrom : (opened : Option (Char × List Char)) → List Char → Option (List String)
  | none, [] => some []
  | some _, [] => none
  | none, c :: rest => if isQuote c then literalsFrom (some (c, [])) rest else literalsFrom none rest
  | some (quote, inner), c :: rest =>
    if c = quote then
      (literalsFrom none rest).map (String.ofList (quote :: (inner ++ [quote])) :: ·)
    else literalsFrom (some (quote, inner ++ [c])) rest

/-- The literals of a text, `none` if a quote is never closed. -/
def literals? (text : String) : Option (List String) :=
  literalsFrom none text.toList

section Scan

variable {c quote : Char} {text rest inner : List Char}

theorem quoteless_cons : Quoteless (c :: rest) ↔ isQuote c = false ∧ Quoteless rest := by
  simp [Quoteless]

theorem notMem_of_quoteless (h : Quoteless text) (hc : isQuote c = true) : c ∉ text := by
  intro hmem
  simpa [hc] using List.all_eq_true.mp h c hmem

theorem quoteless_of_all_isBlank (h : text.all isBlank = true) : Quoteless text := by
  rw [Quoteless, List.all_eq_true]
  intro c hc
  cases hquote : isQuote c with
  | false => rfl
  | true =>
    have hblank := List.all_eq_true.mp h c hc
    rw [not_isBlank_of_isQuote hquote] at hblank
    cases hblank

theorem literalsFrom_quoteless_append (h : Quoteless text) (rest : List Char) :
    literalsFrom none (text ++ rest) = literalsFrom none rest := by
  induction text with
  | nil => rfl
  | cons c text ih =>
    obtain ⟨hc, htext⟩ := quoteless_cons.mp h
    rw [List.cons_append, literalsFrom, if_neg (by simp [hc]), ih htext]

/-- A quote that is open is closed by the next equal quote. -/
theorem literalsFrom_open_append (h : quote ∉ text) (inner rest : List Char) :
    literalsFrom (some (quote, inner)) (text ++ quote :: rest) =
      (literalsFrom none rest).map (String.ofList (quote :: (inner ++ text ++ [quote])) :: ·) := by
  induction text generalizing inner with
  | nil => simp [literalsFrom]
  | cons c text ih =>
    simp only [List.mem_cons, not_or] at h
    rw [List.cons_append, literalsFrom, if_neg (Ne.symm h.1), ih h.2]
    simp

theorem literalsFrom_open_of_notMem (h : quote ∉ text) (inner : List Char) :
    literalsFrom (some (quote, inner)) text = none := by
  induction text generalizing inner with
  | nil => rfl
  | cons c text ih =>
    simp only [List.mem_cons, not_or] at h
    rw [literalsFrom, if_neg (Ne.symm h.1), ih h.2]

theorem literalsFrom_literal_append (h : IsLiteral text) (rest : List Char) :
    literalsFrom none (text ++ rest) = (literalsFrom none rest).map (String.ofList text :: ·) := by
  obtain ⟨quote, inner, hquote, hinner, rfl⟩ := h
  rw [List.cons_append, literalsFrom, if_pos hquote, List.append_assoc, List.singleton_append,
    literalsFrom_open_append hinner, List.nil_append]

/-- Behind a text that closes all its quotes the literals are found as if it were not there. -/
theorem literalsFrom_append_of_some {opened : Option (Char × List Char)} {found : List String}
    (h : literalsFrom opened text = some found) (rest : List Char) :
    literalsFrom opened (text ++ rest) = (literalsFrom none rest).map (found ++ ·) := by
  induction text generalizing opened found with
  | nil =>
    cases opened with
    | none =>
      cases h
      simp
    | some _ => cases h
  | cons c text ih =>
    cases opened with
    | none =>
      rw [literalsFrom] at h
      rw [List.cons_append, literalsFrom]
      split at h
      · rename_i hc
        rw [if_pos hc]
        exact ih h
      · rename_i hc
        rw [if_neg hc]
        exact ih h
    | some state =>
      rw [literalsFrom] at h
      rw [List.cons_append, literalsFrom]
      split at h
      · rename_i hc
        obtain ⟨others, hothers, rfl⟩ := Option.map_eq_some_iff.mp h
        rw [if_pos hc, ih hothers, Option.map_map]
        rfl
      · rename_i hc
        rw [if_neg hc]
        exact ih h

/-- Text without a quote behind a text neither closes a quote nor opens one. -/
theorem literalsFrom_append_quoteless (h : Quoteless rest) {opened : Option (Char × List Char)}
    (hopened : ∀ found ∈ opened, isQuote found.1 = true) :
    literalsFrom opened (text ++ rest) = literalsFrom opened text := by
  induction text generalizing opened with
  | nil =>
    cases opened with
    | none => simpa using literalsFrom_quoteless_append h []
    | some found => exact literalsFrom_open_of_notMem (notMem_of_quoteless h (hopened found rfl)) _
  | cons c text ih =>
    cases opened with
    | none =>
      rw [List.cons_append, literalsFrom, literalsFrom]
      split
      · rename_i hc
        apply ih
        simpa using hc
      · exact ih (by simp)
    | some found =>
      rw [List.cons_append, literalsFrom, literalsFrom, ih (by simp), ih]
      simpa using hopened found rfl

end Scan

/-! ### Cuts -/

section Cuts

variable {c : Char} {text rest : List Char}

/-- The quoted words of a cut, `none` if a quote is never closed. -/
def Cut.literals? (cut : Cut) : Option (List String) :=
  match cut.unclosed with
  | some _ => none
  | none => some (cut.words.filter isQuoted)

theorem covers_not_isQuote : Covers (!isQuote ·) where
  word := by
    intro c hc
    cases hquote : isQuote c with
    | false => rfl
    | true =>
      simp only [isQuote, Bool.or_eq_true, beq_iff_eq] at hquote
      rcases hquote with rfl | rfl <;> exact absurd hc (by decide)
  blank := by
    intro c hc
    cases hquote : isQuote c with
    | false => rfl
    | true =>
      rw [not_isBlank_of_isQuote hquote] at hc
      cases hc
  mark := by simp [isQuote]

/-- A word that does not start with a quote has none. -/
theorem quoteless_of_startOf {n : Nat} (hc : isQuote c = false) (h : startOf c rest = .word n) :
    Quoteless ((c :: rest).take n) := by
  have hspelled : ∀ rule ∈ rules, rule.isSpelledIn (!isQuote ·) = true := by decide
  rw [startOf_eq_word_of_not_isQuote hc] at h
  obtain ⟨rule, hrule, h⟩ := List.exists_of_findSome?_eq_some h
  exact (Rule.reaches covers_not_isQuote (hspelled rule hrule) h).2

theorem isQuoted_ofList (text : List Char) :
    isQuoted (String.ofList text) = text.head?.any isQuote := by
  rw [isQuoted, String.toList_ofList]

theorem isQuoted_of_isLiteral {word : String} (h : IsLiteral word.toList) : isQuoted word = true := by
  obtain ⟨quote, inner, hquote, -, hword⟩ := h
  simpa [isQuoted, hword] using hquote

theorem isQuoted_of_quoteless {word : String} (h : Quoteless word.toList) : isQuoted word = false := by
  rw [isQuoted]
  cases hword : word.toList with
  | nil => rfl
  | cons c rest =>
    rw [hword] at h
    simpa using (quoteless_cons.mp h).1

theorem startOf_of_isQuote (hc : isQuote c = true) (rest : List Char) :
    (startOf c rest = .unclosed ∧ c ∉ rest) ∨
      ∃ inner more, c ∉ inner ∧ rest = inner ++ c :: more ∧
        startOf c rest = .word (inner.length + 2) := by
  by_cases hmem : c ∈ rest
  · right
    obtain ⟨inner, more, rfl, hinner⟩ := List.eq_append_cons_of_mem hmem
    exact ⟨inner, more, hinner, rfl, (startOf_eq_word_of_isQuote hc).mpr
      ⟨inner.length, idxOf?_append_cons hinner, rfl⟩⟩
  · left
    refine ⟨?_, hmem⟩
    rw [startOf, if_pos hc, List.idxOf?_eq_none_iff.mpr hmem]

theorem Cut.literals?_cons_of_isQuoted {word : String} (h : isQuoted word = true) (cut : Cut) :
    Cut.literals? ⟨word :: cut.words, cut.unclosed⟩ = cut.literals?.map (word :: ·) := by
  simp only [Cut.literals?]
  cases cut.unclosed with
  | none => simp [h]
  | some rest => rfl

theorem Cut.literals?_cons_of_not_isQuoted {word : String} (h : isQuoted word = false) (cut : Cut) :
    Cut.literals? ⟨word :: cut.words, cut.unclosed⟩ = cut.literals? := by
  simp only [Cut.literals?]
  cases cut.unclosed with
  | none => simp [h]
  | some rest => rfl

/-- The quoted words of a text are its literals. -/
theorem literals?_cutFrom (text : List Char) :
    (cutFrom 0 text).literals? = literalsFrom none text := by
  induction hlen : text.length using Nat.strongRecOn generalizing text with
  | ind len ih =>
    cases text with
    | nil => rfl
    | cons c rest =>
      have hshort : ∀ more : List Char, more.length ≤ rest.length →
          (cutFrom 0 more).literals? = literalsFrom none more := by
        intro more hmore
        rw [List.length_cons] at hlen
        exact ih more.length (by omega) more rfl
      rw [cutFrom]
      cases hc : isQuote c with
      | true =>
        rw [literalsFrom, if_pos hc]
        rcases startOf_of_isQuote hc rest with ⟨hstart, hnone⟩ |
          ⟨inner, more, hinner, rfl, hstart⟩
        · rw [hstart, literalsFrom_open_of_notMem hnone]
          rfl
        · have hdrop : (inner ++ c :: more).drop (inner.length + 2 - 1) = more := by simp
          rw [hstart, literalsFrom_open_append hinner, ← hshort more (by simp; omega),
            List.nil_append]
          dsimp only
          rw [cutFrom_eq_drop, hdrop, take_quoted, Cut.literals?_cons_of_isQuoted]
          rw [isQuoted_ofList]
          simpa using hc
      | false =>
        rw [literalsFrom, if_neg (by simp [hc])]
        cases hstart : startOf c rest with
        | dropped => exact hshort rest (Nat.le_refl _)
        | unclosed => exact absurd hstart (startOf_ne_unclosed hc)
        | word n =>
          have hword := quoteless_of_startOf hc hstart
          have hpos := startOf_pos hstart
          have hfront : Quoteless (rest.take (n - 1)) := by
            cases n with
            | zero => cases hpos
            | succ n => exact (quoteless_cons.mp hword).2
          have hrest := literalsFrom_quoteless_append hfront (rest.drop (n - 1))
          rw [List.take_append_drop, ← hshort (rest.drop (n - 1)) (by simp)] at hrest
          dsimp only
          rw [hrest, cutFrom_eq_drop, Cut.literals?_cons_of_not_isQuoted]
          apply isQuoted_of_quoteless
          rw [String.toList_ofList]
          exact hword

theorem literals?_cut (text : String) : (cut text).literals? = literals? text :=
  literals?_cutFrom text.toList

/-- A word is a literal, or it has no quote. -/
theorem isLiteral_or_quoteless_of_mem_cutFrom {skip : Nat} {word : String}
    (h : word ∈ (cutFrom skip text).words) : IsLiteral word.toList ∨ Quoteless word.toList := by
  obtain ⟨c, rest, n, hstart, rfl⟩ := exists_startOf_of_mem_cutFrom h
  rw [String.toList_ofList]
  cases hc : isQuote c with
  | false => exact .inr (quoteless_of_startOf hc hstart)
  | true =>
    left
    rcases startOf_of_isQuote hc rest with ⟨hunclosed, -⟩ | ⟨inner, more, hinner, rfl, hword⟩
    · rw [hunclosed] at hstart
      cases hstart
    · rw [hword, Start.word.injEq] at hstart
      rw [← hstart, take_quoted]
      exact ⟨c, inner, hc, hinner, rfl⟩

end Cuts

/-! ### Blanks in literals -/

theorem isQuoted_collapse (word : String) : isQuoted (collapse word) = isQuoted word := by
  rw [isQuoted, toList_collapse, head?_collapseChars, isQuoted]
  cases word.toList.head? with
  | none => rfl
  | some c =>
    cases hc : isBlank c with
    | false => simp [hc]
    | true =>
      have hquote : isQuote c = false := by
        simpa using covers_not_isQuote.blank hc
      have hspace : isQuote ' ' = false := by decide
      simp [hc, hquote, hspace]

/-- The literals of a collapsed text are the collapsed literals. -/
theorem literals?_collapse (text : String) :
    literals? (collapse text) = (literals? text).map (List.map collapse) := by
  rw [← literals?_cut, ← literals?_cut, cut_collapse]
  simp only [Cut.literals?, Cut.collapsed]
  cases (cut text).unclosed with
  | some rest => rfl
  | none => simp [List.filter_map, Function.comp_def, isQuoted_collapse]

theorem literals?_append_quoteless {text rest : String} (h : Quoteless rest.toList) :
    literals? (text ++ rest) = literals? text := by
  rw [literals?, String.toList_append, literalsFrom_append_quoteless h (by simp), literals?]

theorem exists_blanks_trimEnd (text : String) :
    ∃ blanks : String, blanks.toList.all isBlank = true ∧ text = trimEnd text ++ blanks := by
  refine ⟨String.ofList (text.toList.reverse.takeWhile isBlank).reverse, ?_, ?_⟩
  · rw [String.toList_ofList, List.all_reverse]
    exact List.all_takeWhile
  · apply String.toList_inj.mp
    simp only [trimEnd, String.toList_append, String.toList_ofList]
    rw [← List.reverse_append, List.takeWhile_append_dropWhile, List.reverse_reverse]

theorem literals?_trimEnd (text : String) : literals? (trimEnd text) = literals? text := by
  obtain ⟨blanks, hblanks, htext⟩ := exists_blanks_trimEnd text
  have h : literals? (trimEnd text ++ blanks) = literals? (trimEnd text) :=
    literals?_append_quoteless (quoteless_of_all_isBlank hblanks)
  rw [← h, ← htext]

theorem literals?_trim (text : String) : literals? (trim text) = literals? text := by
  have h : literalsFrom none (text.toList.takeWhile isBlank ++ text.toList.dropWhile isBlank) =
      literalsFrom none (text.toList.dropWhile isBlank) :=
    literalsFrom_quoteless_append (quoteless_of_all_isBlank List.all_takeWhile) _
  rw [List.takeWhile_append_dropWhile] at h
  rw [trim, literals?_trimEnd, literals?, String.toList_ofList, ← h, literals?]

/-- The literals of a text with single spaces between its pieces are the collapsed literals. -/
theorem literals?_squeeze (text : String) :
    literals? (squeeze text) = (literals? text).map (List.map collapse) := by
  rw [squeeze_eq_trim_collapse, literals?_trim, literals?_collapse]

end Word

/-! ### Quotes in pieces and in upper case -/

section Kinds

open Text Word

variable {c : Char} {text piece : List Char} {word : String}

theorem exists_head_piecesFrom (h : piece ≠ []) (text : List Char) :
    ∃ more others, piecesFrom piece text = (piece ++ more) :: others := by
  induction text generalizing piece with
  | nil => exact ⟨[], [], by simp [piecesFrom, h]⟩
  | cons c rest ih =>
    cases hc : isBlank c with
    | true => exact ⟨[], piecesFrom [] rest, by simp [piecesFrom, hc, h]⟩
    | false =>
      obtain ⟨more, others, hpieces⟩ := ih (by simp : piece ++ [c] ≠ [])
      exact ⟨c :: more, others, by simp [piecesFrom, hc, hpieces]⟩

theorem exists_last_piecesFrom (hc : isBlank c = false) (piece text : List Char) :
    ∃ others front, piecesFrom piece (text ++ [c]) = others ++ [front ++ [c]] := by
  induction text generalizing piece with
  | nil => exact ⟨[], piece, by simp [piecesFrom, hc]⟩
  | cons d rest ih =>
    rw [List.cons_append, piecesFrom]
    split
    · split
      · exact ih []
      · obtain ⟨others, front, hpieces⟩ := ih []
        exact ⟨piece :: others, front, by simp [hpieces]⟩
    · exact ih (piece ++ [d])

theorem upperChar_of_isQuote (hc : isQuote c = true) : upperChar c = [c] := by
  simp only [isQuote, Bool.or_eq_true, beq_iff_eq] at hc
  rcases hc with rfl | rfl <;> decide

theorem mem_upper_of_isQuote (hc : isQuote c = true) (h : c ∈ word.toList) :
    c ∈ (upper word).toList := by
  rw [upper, String.toList_ofList, List.mem_flatMap]
  exact ⟨c, h, by simp [upperChar_of_isQuote hc]⟩

def quotePoints : List Nat :=
  [0x22, 0x27]

theorem mem_quotePoints : c.toNat ∈ quotePoints ↔ isQuote c = true := by
  simp only [quotePoints, isQuote, Bool.or_eq_true, beq_iff_eq, List.mem_cons, List.not_mem_nil,
    or_false]
  constructor
  · rintro (h | h)
    · exact .inl (Char.toNat_inj.mp h)
    · exact .inr (Char.toNat_inj.mp h)
  · rintro (rfl | rfl) <;> decide

theorem quoteless_upper (h : Quoteless word.toList) : Quoteless (upper word).toList := by
  have hpoints : bitSet (0 :: resultPoints) &&& bitSet quotePoints = 0 := by decide +kernel
  rw [Quoteless, List.all_eq_true, upper, String.toList_ofList]
  intro d hd
  obtain ⟨c, hc, hd⟩ := List.mem_flatMap.mp hd
  have hquote : isQuote c = false := by simpa using List.all_eq_true.mp h c hc
  have hnot := notMem_of_mem_upperChar hpoints (by simp [mem_quotePoints, hquote]) hd
  simpa [mem_quotePoints] using hnot

theorem upper_ne_of_mem {text : String} (hc : isQuote c = true) (h : c ∈ word.toList)
    (htext : Quoteless text.toList) : upper word ≠ text := by
  rintro rfl
  exact notMem_of_quoteless htext hc (mem_upper_of_isQuote hc h)

theorem ofPieces?_of_isQuote {first last : String} (hc : isQuote c = true) (hfirst : c ∈ first.toList)
    (hlast : c ∈ last.toList) : Kind.ofPieces? first last = none := by
  have hkeywords : ∀ entry ∈ Kind.keywords, entry.1.toList.all (!isQuote ·) = true := by decide
  have hlookup : Kind.keywords.lookup (upper first) = none := by
    rw [List.lookup_eq_none_iff]
    intro entry hentry
    exact bne_iff_ne.mpr (upper_ne_of_mem hc hfirst (hkeywords entry hentry))
  have hjoin : upper last ≠ "JOIN" := upper_ne_of_mem hc hlast rfl
  rw [Kind.ofPieces?, hlookup]
  exact if_neg hjoin

/-- A literal is no keyword and no join: its first piece has a quote, and so has its last. -/
theorem ofWord?_of_isLiteral (h : IsLiteral word.toList) : Kind.ofWord? word = none := by
  obtain ⟨quote, inner, hquote, -, hword⟩ := h
  have hblank := not_isBlank_of_isQuote hquote
  obtain ⟨more, others, hfirst⟩ := exists_head_piecesFrom (by simp : [quote] ≠ []) (inner ++ [quote])
  obtain ⟨fronts, front, hlast⟩ := exists_last_piecesFrom hblank [quote] inner
  have hpieces : pieces word = (piecesFrom [quote] (inner ++ [quote])).map String.ofList := by
    simp [pieces, hword, piecesFrom, hblank]
  have hcons := hpieces
  rw [hfirst, List.map_cons] at hcons
  have hend : (pieces word).getLast? = some (String.ofList (front ++ [quote])) := by
    rw [hpieces, hlast, List.map_append, List.map_singleton, List.getLast?_concat]
  rw [hcons, ← List.getLast_eq_iff_getLast?_eq_some (List.cons_ne_nil _ _)] at hend
  rw [Kind.ofWord?, Kind.recognise?, hcons]
  dsimp only
  rw [hend, Option.join_some]
  apply ofPieces?_of_isQuote hquote <;> simp

theorem kind_ne_str_of_ofWord? {kind : Kind} (h : Kind.ofWord? word = some kind) : kind ≠ .str := by
  have hkeywords : ∀ entry ∈ Kind.keywords, entry.2 ≠ .str := by decide
  unfold Kind.ofWord? Kind.recognise? at h
  split at h
  · cases h
  · rw [Option.join_some] at h
    unfold Kind.ofPieces? at h
    split at h
    · rename_i found hlookup
      cases h
      obtain ⟨before, behind, hsplit, -⟩ := List.lookup_eq_some_iff.mp hlookup
      apply hkeywords (_, kind)
      rw [hsplit]
      exact List.mem_append_right _ List.mem_cons_self
    · split at h
      · cases h
        simp
      · cases h

end Kinds

/-! ### Tokens -/

namespace Token

open Text Word

variable {word : String}

def IsTyped (token : Token) : Prop :=
  token.kind = .str ∧ IsLiteral token.text.toList ∨ token.kind ≠ .str ∧ Quoteless token.text.toList

def literals (tokens : List Token) : List String :=
  (tokens.filter (·.kind = .str)).map Token.text

theorem literals_append (tokens others : List Token) :
    literals (tokens ++ others) = literals tokens ++ literals others := by
  simp [literals]

theorem isQuoted_of_isTyped {token : Token} (h : token.IsTyped) :
    isQuoted token.text = decide (token.kind = .str) := by
  rcases h with ⟨hkind, hliteral⟩ | ⟨hkind, hquoteless⟩
  · rw [isQuoted_of_isLiteral hliteral, hkind]
    rfl
  · rw [isQuoted_of_quoteless hquoteless, decide_eq_false hkind]

theorem ofWord_of_isLiteral (last : Option Kind) (h : IsLiteral word.toList) :
    ofWord last word = [⟨.str, word⟩] := by
  have hkeyword := ofWord?_of_isLiteral h
  obtain ⟨quote, inner, hquote, -, hword⟩ := h
  have hnumber : isNumber word = false := by
    simp only [isQuote, Bool.or_eq_true, beq_iff_eq] at hquote
    rcases hquote with rfl | rfl
    · rw [isNumber, hword, List.head?_cons]
      decide
    · rw [isNumber, hword, List.head?_cons]
      decide
  have hparen : word.toList.getLast? ≠ some '(' := by
    rw [hword, ← List.cons_append, List.getLast?_concat]
    rintro hlast
    cases hlast
    cases hquote
  have hkind : plainKind word = .str := by
    rw [plainKind, if_pos]
    simpa [hword] using hquote
  rw [ofWord, hkeyword, hkind]
  dsimp only
  rw [if_neg (by simp [hnumber]), if_neg hparen]

theorem quoteless_trim_dropLast (h : Quoteless word.toList) :
    Quoteless (trim (String.ofList word.toList.dropLast)).toList := by
  rw [Quoteless, List.all_eq_true] at h ⊢
  intro c hc
  apply h c
  simp only [trim, trimEnd, String.toList_ofList, List.mem_reverse] at hc
  have hfront := (List.dropWhile_sublist _).subset hc
  rw [List.mem_reverse] at hfront
  exact List.dropLast_subset _ ((List.dropWhile_sublist _).subset hfront)

theorem quoteless_of_mem_ofWord (last : Option Kind) (h : Quoteless word.toList) :
    ∀ token ∈ ofWord last word, token.kind ≠ .str ∧ Quoteless token.text.toList := by
  have hplain : plainKind word ≠ .str := by
    unfold plainKind
    split
    · rename_i hhead
      have hquoted : isQuoted word = true := hhead
      rw [isQuoted_of_quoteless h] at hquoted
      cases hquoted
    · split
      · simp
      · split <;> simp
  unfold ofWord
  split
  · rename_i kind hkind
    simpa [h] using kind_ne_str_of_ofWord? hkind
  · split
    · simp [h]
    · split
      · simp only [List.forall_mem_cons, List.not_mem_nil, false_imp_iff, implies_true, and_true]
        refine ⟨⟨?_, quoteless_trim_dropLast h⟩, by simp, rfl⟩
        split <;> simp
      · simpa [h] using hplain

theorem isTyped_of_mem_ofWord (last : Option Kind)
    (h : IsLiteral word.toList ∨ Quoteless word.toList) :
    ∀ token ∈ ofWord last word, token.IsTyped := by
  rcases h with h | h
  · rw [ofWord_of_isLiteral last h]
    simp [IsTyped, h]
  · exact fun token htoken ↦ .inr (quoteless_of_mem_ofWord last h token htoken)

theorem literals_ofWord (last : Option Kind) (h : IsLiteral word.toList ∨ Quoteless word.toList) :
    literals (ofWord last word) = [word].filter isQuoted := by
  rcases h with h | h
  · rw [ofWord_of_isLiteral last h]
    simp [literals, isQuoted_of_isLiteral h]
  · have hnone : (ofWord last word).filter (·.kind = .str) = [] := by
      rw [List.filter_eq_nil_iff]
      intro token htoken
      simpa using (quoteless_of_mem_ofWord last h token htoken).1
    simp [literals, hnone, isQuoted_of_quoteless h]

theorem isTyped_of_mem_ofWords (last : Option Kind) {words : List String}
    (h : ∀ word ∈ words, IsLiteral word.toList ∨ Quoteless word.toList) :
    ∀ token ∈ ofWords last words, token.IsTyped := by
  induction words generalizing last with
  | nil => simp [ofWords]
  | cons word words ih =>
    obtain ⟨hword, hwords⟩ := List.forall_mem_cons.mp h
    intro token htoken
    rcases List.mem_append.mp htoken with htoken | htoken
    · exact isTyped_of_mem_ofWord last hword token htoken
    · exact ih _ hwords token htoken

theorem literals_ofWords (last : Option Kind) {words : List String}
    (h : ∀ word ∈ words, IsLiteral word.toList ∨ Quoteless word.toList) :
    literals (ofWords last words) = words.filter isQuoted := by
  induction words generalizing last with
  | nil => rfl
  | cons word words ih =>
    obtain ⟨hword, hwords⟩ := List.forall_mem_cons.mp h
    rw [ofWords, literals_append, literals_ofWord last hword, ih _ hwords, ← List.filter_append,
      List.singleton_append]

end Token

open Word

theorem isTyped_of_tokenize (text : String) : ∀ token ∈ (tokenize text).tokens, token.IsTyped :=
  Token.isTyped_of_mem_ofWords none fun _ ↦ isLiteral_or_quoteless_of_mem_cutFrom

/-- The literals of a text are those of its tokens. -/
theorem literals?_eq_some {text : String} {found : List String} :
    literals? text = some found ↔
      (tokenize text).unclosed = none ∧ Token.literals (tokenize text).tokens = found := by
  have hwords : Token.literals (tokenize text).tokens = (cut text).words.filter isQuoted :=
    Token.literals_ofWords none fun _ ↦ isLiteral_or_quoteless_of_mem_cutFrom
  rw [hwords, ← literals?_cut]
  change (cut text).literals? = _ ↔ (cut text).unclosed = none ∧ _
  rw [Cut.literals?]
  cases (cut text).unclosed with
  | none => simp
  | some rest => simp

end SqlLayout
