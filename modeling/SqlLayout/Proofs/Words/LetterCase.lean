import SqlLayout.Proofs.Words.Whole
import SqlLayout.Proofs.Text.UpperCase

/-!
# Words and letter case

The letters of ASCII are cut alike in either case: a text in lower case has its words in the same places,
and every word is recognised as the same keyword.
-/

namespace SqlLayout

namespace Text

def capitals : List Char :=
  "ABCDEFGHIJKLMNOPQRSTUVWXYZ".toList

theorem mem_capitals {c : Char} (h : c.isUpper = true) : c ∈ capitals := by
  have hall : ∀ n, n < 26 → Char.ofNat (0x41 + n) ∈ capitals := by decide
  obtain ⟨hlow, hhigh⟩ := isUpper_iff.mp h
  have hc := hall (c.toNat - 0x41) (by omega)
  rwa [show 0x41 + (c.toNat - 0x41) = c.toNat by omega, Char.ofNat_toNat] at hc

theorem forall_capitals {motive : Char → Prop} [DecidablePred motive]
    (h : capitals.all (motive ·) = true) : ∀ c ∈ capitals, motive c := by
  simpa using h

/-- What does not tell the capitals from their small letters does not see the case of any letter. -/
theorem apply_toLower {α : Type} {f : Char → α} (h : ∀ c ∈ capitals, f c.toLower = f c) (c : Char) :
    f c.toLower = f c := by
  by_cases hc : c.isUpper = true
  · exact h c (mem_capitals hc)
  · have hsame : c.toLower = c := by
      unfold Char.toLower
      exact dif_neg fun hupper ↦ hc (decide_eq_true hupper)
    rw [hsame]

/-- A capital is in the same classes as its small letter, and in the upper case of both. -/
theorem classes_of_mem_capitals : ∀ c ∈ capitals, isWordChar c.toLower = isWordChar c ∧
    isBlank c.toLower = isBlank c ∧ isDecimal c.toLower = isDecimal c ∧ isDigit c.toLower = isDigit c ∧
      upperChar c.toLower = upperChar c :=
  forall_capitals (by decide +kernel)

theorem isWordChar_toLower (c : Char) : isWordChar c.toLower = isWordChar c :=
  apply_toLower (fun c hc ↦ (classes_of_mem_capitals c hc).1) c

theorem isBlank_toLower (c : Char) : isBlank c.toLower = isBlank c :=
  apply_toLower (fun c hc ↦ (classes_of_mem_capitals c hc).2.1) c

theorem isDecimal_toLower (c : Char) : isDecimal c.toLower = isDecimal c :=
  apply_toLower (fun c hc ↦ (classes_of_mem_capitals c hc).2.2.1) c

theorem isDigit_toLower (c : Char) : isDigit c.toLower = isDigit c :=
  apply_toLower (fun c hc ↦ (classes_of_mem_capitals c hc).2.2.2.1) c

theorem upperChar_toLower (c : Char) : upperChar c.toLower = upperChar c :=
  apply_toLower (fun c hc ↦ (classes_of_mem_capitals c hc).2.2.2.2) c

/-- Only a letter becomes a letter. -/
theorem toLower_eq_iff {c d : Char} (hd : d.isAlpha = false) : c.toLower = d ↔ c = d := by
  have hcapitals : ∀ c ∈ capitals, c.isAlpha = true ∧ c.toLower.isAlpha = true :=
    forall_capitals (by decide)
  have hiff : (c.toLower = d) = (c = d) := by
    apply apply_toLower (f := (· = d))
    intro c hc
    obtain ⟨hupper, hlower⟩ := hcapitals c hc
    apply propext
    constructor
    · rintro rfl
      simp [hlower] at hd
    · rintro rfl
      simp [hupper] at hd
  rw [hiff]

theorem map_toLower_eq_iff {text symbol : List Char} (h : ∀ c ∈ symbol, c.isAlpha = false) :
    text.map Char.toLower = symbol ↔ text = symbol := by
  induction symbol generalizing text with
  | nil => simp
  | cons d symbol ih =>
    obtain ⟨hd, hsymbol⟩ := List.forall_mem_cons.mp h
    cases text with
    | nil => simp
    | cons c text => simp [toLower_eq_iff hd, ih hsymbol]

end Text

namespace Word

open Text

variable {text : List Char}

theorem spells_toLower (letter c : Char) : spells letter c.toLower = spells letter c := by
  have hcapitals : ∀ c ∈ capitals, c.toLower.toLower = c.toLower ∧ (c.toLower == 'ſ') = (c == 'ſ') ∧
      (c.toLower == 'ı') = (c == 'ı') ∧ (c.toLower == 'İ') = (c == 'İ') ∧
      (c.toLower.toNat == 0x212A) = (c.toNat == 0x212A) := forall_capitals (by decide)
  apply apply_toLower
  intro c hc
  obtain ⟨hlower, hs, hdotless, hdotted, hkelvin⟩ := hcapitals c hc
  simp only [spells, hlower, hs, hdotless, hdotted, hkelvin]

theorem runLength_map_toLower {p : Char → Bool} (h : ∀ c : Char, p c.toLower = p c) :
    runLength p (text.map Char.toLower) = runLength p text := by
  have hp : p ∘ Char.toLower = p := funext h
  rw [runLength, runLength, List.takeWhile_map, List.length_map, hp]

theorem runLength?_map_toLower {p : Char → Bool} (h : ∀ c : Char, p c.toLower = p c) :
    runLength? p (text.map Char.toLower) = runLength? p text :=
  runLength?_congr (runLength_map_toLower h)

theorem spelledLength?_map_toLower (letters text : List Char) :
    spelledLength? letters (text.map Char.toLower) = spelledLength? letters text := by
  induction letters generalizing text with
  | nil => simp [spelledLength?]
  | cons letter letters ih =>
    cases text with
    | nil => rfl
    | cons c text => simp only [List.map_cons, spelledLength?, spells_toLower, ih]

theorem phraseLength?_map_toLower (words : List String) (text : List Char) :
    phraseLength? words (text.map Char.toLower) = phraseLength? words text := by
  induction words generalizing text with
  | nil => simp [phraseLength?]
  | cons word words ih =>
    cases words with
    | nil => simp only [phraseLength?, spelledLength?_map_toLower]
    | cons next words =>
      simp only [phraseLength?, spelledLength?_map_toLower, ← List.map_drop,
        runLength?_map_toLower isBlank_toLower, ih]

theorem atWordEnd_map_toLower (text : List Char) :
    atWordEnd (text.map Char.toLower) = atWordEnd text := by
  cases text with
  | nil => rfl
  | cons c text => simp [atWordEnd, isWordChar_toLower]

theorem head?_map_toLower_eq_iff {d : Char} (hd : d.isAlpha = false) :
    (text.map Char.toLower).head? = some d ↔ text.head? = some d := by
  cases text with
  | nil => simp
  | cons c text => simp [toLower_eq_iff hd]

theorem backtickLength?_map_toLower (text : List Char) :
    backtickLength? (text.map Char.toLower) = backtickLength? text := by
  cases text with
  | nil => rfl
  | cons c text =>
    by_cases hc : c = '`'
    · subst hc
      simp only [List.map_cons, backtickLength?, show '`'.toLower = '`' from rfl,
        runLength?_map_toLower isWordChar_toLower, ← List.map_drop,
        head?_map_toLower_eq_iff (show '`'.isAlpha = false from rfl)]
    · have hlower : c.toLower ≠ '`' := mt (toLower_eq_iff rfl).mp hc
      simp [backtickLength?, hc, hlower]

theorem unsignedLength?_map_toLower (text : List Char) :
    unsignedLength? (text.map Char.toLower) = unsignedLength? text := by
  simp only [unsignedLength?, runLength?_map_toLower isDecimal_toLower, ← List.map_drop]
  cases runLength? isDecimal text with
  | none => rfl
  | some whole =>
    simp only [Option.bind_eq_bind, Option.bind_some]
    cases text.drop whole with
    | nil => rfl
    | cons c fraction =>
      by_cases hc : c = '.'
      · subst hc
        simp only [List.map_cons, show '.'.toLower = '.' from rfl,
          runLength_map_toLower isDecimal_toLower]
      · have hlower : c.toLower ≠ '.' := mt (toLower_eq_iff rfl).mp hc
        simp [hc, hlower]

theorem numberLength?_map_toLower (text : List Char) :
    numberLength? (text.map Char.toLower) = numberLength? text := by
  cases text with
  | nil => rfl
  | cons c text =>
    have hunsigned := unsignedLength?_map_toLower (c :: text)
    have hsign : (c.toLower = '-' ∨ c.toLower = '+') ↔ (c = '-' ∨ c = '+') :=
      or_congr (toLower_eq_iff rfl) (toLower_eq_iff rfl)
    rw [List.map_cons] at hunsigned ⊢
    simp only [numberLength?_cons, hsign, unsignedLength?_map_toLower, hunsigned]

theorem dotted_map_toLower {f : List Char → Option Nat}
    (hf : ∀ tail : List Char, f (tail.map Char.toLower) = f tail) (text : List Char) :
    (match text.map Char.toLower with
      | '.' :: tail => f tail
      | _ => none) =
    match text with
    | '.' :: tail => f tail
    | _ => none := by
  cases text with
  | nil => rfl
  | cons c tail =>
    by_cases hc : c = '.'
    · subst hc
      exact hf tail
    · have hlower : c.toLower ≠ '.' := mt (toLower_eq_iff rfl).mp hc
      simp [hc, hlower]

/-- The symbols of a rule are no letters. -/
def Rule.isLetterless : Rule → Bool
  | .symbol text => text.toList.all (!·.isAlpha)
  | _ => true

theorem isLetterless_of_mem_rules {rule : Rule} (h : rule ∈ rules) : rule.isLetterless = true := by
  revert h rule
  decide +kernel

theorem isPrefixOf_map_toLower {symbol : List Char} (h : ∀ c ∈ symbol, c.isAlpha = false)
    (text : List Char) : symbol.isPrefixOf (text.map Char.toLower) = symbol.isPrefixOf text := by
  induction symbol generalizing text with
  | nil => simp
  | cons d symbol ih =>
    obtain ⟨hd, hsymbol⟩ := List.forall_mem_cons.mp h
    cases text with
    | nil => rfl
    | cons c text =>
      have hbeq : (d == c.toLower) = (d == c) := by
        rw [Bool.eq_iff_iff, beq_iff_eq, beq_iff_eq, eq_comm, toLower_eq_iff hd, eq_comm]
      simp only [List.map_cons, List.isPrefixOf, hbeq, ih hsymbol]

theorem namedPlaceholder_map_toLower (text : List Char) :
    Rule.namedPlaceholder.length? (text.map Char.toLower) = Rule.namedPlaceholder.length? text := by
  cases text with
  | nil => rfl
  | cons c text =>
    by_cases hc : c = '%'
    · subst hc
      cases text with
      | nil => rfl
      | cons d rest =>
        by_cases hd : d = '('
        · subst hd
          simp only [List.map_cons, show '%'.toLower = '%' from rfl,
            show '('.toLower = '(' from rfl, Rule.length?, ← List.map_drop,
            runLength?_map_toLower isWordChar_toLower]
          cases runLength? isWordChar rest with
          | none => rfl
          | some n =>
            simp only [Option.bind_eq_bind, Option.bind_some]
            cases rest.drop n with
            | nil => rfl
            | cons e tail =>
              by_cases he : e = ')'
              · subst he
                cases tail with
                | nil => rfl
                | cons s tail =>
                  simp only [List.map_cons, show ')'.toLower = ')' from rfl,
                    spells_toLower]
              · have hlower : e.toLower ≠ ')' := mt (toLower_eq_iff rfl).mp he
                simp [he, hlower]
        · have hlower : d.toLower ≠ '(' := mt (toLower_eq_iff rfl).mp hd
          simp [Rule.length?, hd, hlower]
    · have hlower : c.toLower ≠ '%' := mt (toLower_eq_iff rfl).mp hc
      simp [Rule.length?, hc, hlower]

theorem Rule.length?_map_toLower {rule : Rule} (h : rule.isLetterless = true) (text : List Char) :
    rule.length? (text.map Char.toLower) = rule.length? text := by
  have hrun := fun text : List Char ↦
    (runLength?_map_toLower isWordChar_toLower : runLength? isWordChar (text.map Char.toLower) = _)
  cases rule with
  | phrase words =>
    simp only [Rule.length?, phraseLength?_map_toLower, ← List.map_drop, atWordEnd_map_toLower]
  | openPhrase words => exact phraseLength?_map_toLower words text
  | symbol symbol =>
    have hsymbol : ∀ c ∈ symbol.toList, c.isAlpha = false := by
      simpa [Rule.isLetterless] using h
    simp only [Rule.length?, isPrefixOf_map_toLower hsymbol]
  | callHead =>
    simp only [Rule.length?, hrun, ← List.map_drop, runLength_map_toLower isBlank_toLower,
      head?_map_toLower_eq_iff (show '('.isAlpha = false from rfl)]
  | number => exact numberLength?_map_toLower text
  | backtickPair =>
    simp only [Rule.length?, backtickLength?_map_toLower, ← List.map_drop]
    cases backtickLength? text with
    | none => rfl
    | some n =>
      exact dotted_map_toLower (fun tail ↦ by rw [backtickLength?_map_toLower]) (text.drop n)
  | backtickName => exact backtickLength?_map_toLower text
  | dottedName =>
    simp only [Rule.length?, hrun, ← List.map_drop]
    cases runLength? isWordChar text with
    | none => rfl
    | some n => exact dotted_map_toLower (fun tail ↦ by rw [hrun]) (text.drop n)
  | dottedStar =>
    simp only [Rule.length?, hrun, ← List.map_drop]
    cases runLength? isWordChar text with
    | none => rfl
    | some n =>
      simp only [Option.bind_eq_bind, Option.bind_some]
      cases text.drop n with
      | nil => rfl
      | cons c tail =>
        by_cases hc : c = '.'
        · subst hc
          cases tail with
          | nil => rfl
          | cons d tail =>
            by_cases hd : d = '*'
            · subst hd
              rfl
            · have hlower : d.toLower ≠ '*' := mt (toLower_eq_iff rfl).mp hd
              simp [hd, hlower]
        · have hlower : c.toLower ≠ '.' := mt (toLower_eq_iff rfl).mp hc
          simp [hc, hlower]
  | name => exact hrun text
  | namedPlaceholder => exact namedPlaceholder_map_toLower text
  | placeholder =>
    cases text with
    | nil => rfl
    | cons c text =>
      by_cases hc : c = '%'
      · subst hc
        cases text with
        | nil => rfl
        | cons d text =>
          simp only [List.map_cons, show '%'.toLower = '%' from rfl, Rule.length?,
            spells_toLower]
      · have hlower : c.toLower ≠ '%' := mt (toLower_eq_iff rfl).mp hc
        simp [Rule.length?, hc, hlower]

theorem isQuote_toLower (c : Char) : isQuote c.toLower = isQuote c :=
  apply_toLower (forall_capitals (by decide)) c

theorem isAlpha_of_isQuote {c : Char} (h : isQuote c = true) : c.isAlpha = false := by
  simp only [isQuote, Bool.or_eq_true, beq_iff_eq] at h
  rcases h with rfl | rfl <;> rfl

theorem idxOf?_map_toLower {d : Char} (hd : d.isAlpha = false) (text : List Char) :
    (text.map Char.toLower).idxOf? d = text.idxOf? d := by
  induction text with
  | nil => rfl
  | cons c text ih =>
    have hbeq : (c.toLower == d) = (c == d) := by
      rw [Bool.eq_iff_iff, beq_iff_eq, beq_iff_eq, toLower_eq_iff hd]
    simp only [List.map_cons, List.idxOf?_cons, hbeq, ih]

theorem startOf_toLower (c : Char) (rest : List Char) :
    startOf c.toLower (rest.map Char.toLower) = startOf c rest := by
  unfold startOf
  rw [isQuote_toLower]
  split
  · rename_i hquote
    have hletter := isAlpha_of_isQuote hquote
    rw [(toLower_eq_iff hletter).mpr rfl, idxOf?_map_toLower hletter]
  · have hrules : rules.findSome? (Rule.length? ((c :: rest).map Char.toLower)) =
        rules.findSome? (Rule.length? (c :: rest)) :=
      findSome?_congr fun rule hrule ↦
        Rule.length?_map_toLower (isLetterless_of_mem_rules hrule) (c :: rest)
    rw [← List.map_cons, hrules]

/-- The same letters in another case start the same word. -/
theorem startOf_congr {c d : Char} {rest others : List Char}
    (h : (c :: rest).map Char.toLower = (d :: others).map Char.toLower) :
    startOf c rest = startOf d others := by
  obtain ⟨hhead, htail⟩ := List.cons.inj h
  rw [← startOf_toLower c rest, hhead, htail, startOf_toLower]

end Word

/-! ### Kinds of words -/

open Text

def lowered (word : String) : String :=
  String.ofList (word.toList.map Char.toLower)

@[simp] theorem toList_lowered (word : String) :
    (lowered word).toList = word.toList.map Char.toLower := by
  simp [lowered]

theorem upper_lowered (word : String) : upper (lowered word) = upper word := by
  have hupper : upperChar ∘ Char.toLower = upperChar := funext upperChar_toLower
  simp only [upper, toList_lowered, List.flatMap_map]
  rw [show (fun c : Char ↦ upperChar c.toLower) = upperChar from hupper]

theorem lowered_eq_iff {word symbol : String} (h : ∀ c ∈ symbol.toList, c.isAlpha = false) :
    lowered word = symbol ↔ word = symbol := by
  rw [← String.toList_inj, toList_lowered, map_toLower_eq_iff h, String.toList_inj]

theorem piecesFrom_map_toLower (piece text : List Char) :
    piecesFrom (piece.map Char.toLower) (text.map Char.toLower) =
      (piecesFrom piece text).map (List.map Char.toLower) := by
  induction text generalizing piece with
  | nil =>
    simp only [List.map_nil, piecesFrom, List.isEmpty_map]
    split <;> rfl
  | cons c text ih =>
    have hnil : piecesFrom [] (text.map Char.toLower) = _ := ih []
    have hmore := ih (piece ++ [c])
    rw [List.map_append, List.map_singleton] at hmore
    simp only [List.map_cons, piecesFrom, isBlank_toLower, List.isEmpty_map, hnil, hmore]
    split
    · split <;> rfl
    · rfl

theorem pieces_lowered (word : String) : pieces (lowered word) = (pieces word).map lowered := by
  have hpieces := piecesFrom_map_toLower [] word.toList
  rw [List.map_nil] at hpieces
  simp [pieces, hpieces, lowered, Function.comp_def]

theorem recognise?_lowered (word : String) :
    Kind.recognise? (lowered word) = Kind.recognise? word := by
  unfold Kind.recognise?
  rw [pieces_lowered]
  cases pieces word with
  | nil => rfl
  | cons first rest =>
    have hlast : (lowered first :: rest.map lowered).getLast (List.cons_ne_nil _ _) =
        lowered ((first :: rest).getLast (List.cons_ne_nil _ _)) :=
      List.getLast_map (f := lowered) (l := first :: rest) (List.cons_ne_nil _ _)
    have hpieces : ∀ first last, Kind.ofPieces? (lowered first) (lowered last) =
        Kind.ofPieces? first last := by
      intro first last
      simp only [Kind.ofPieces?, upper_lowered]
    simp only [List.map_cons]
    rw [hlast, hpieces]

theorem ofWord?_lowered (word : String) : Kind.ofWord? (lowered word) = Kind.ofWord? word := by
  rw [Kind.ofWord?, Kind.ofWord?, recognise?_lowered]

theorem trim_lowered (text : List Char) :
    trim (String.ofList (text.map Char.toLower)) = lowered (trim (String.ofList text)) := by
  have hblank : isBlank ∘ Char.toLower = isBlank := funext isBlank_toLower
  simp only [trim, trimEnd, lowered, String.toList_ofList, List.dropWhile_map, hblank,
    ← List.map_reverse]

namespace Token

def lowered (token : Token) : Token :=
  ⟨token.kind, SqlLayout.lowered token.text⟩

theorem plainKind_lowered (word : String) : plainKind (SqlLayout.lowered word) = plainKind word := by
  have hhead : (SqlLayout.lowered word).toList.head?.any Word.isQuote =
      word.toList.head?.any Word.isQuote := by
    cases h : word.toList with
    | nil => simp [h]
    | cons c text => simp [h, Word.isQuote_toLower]
  have hsymbols : ∀ symbol ∈ comparisons, ∀ c ∈ symbol.toList, c.isAlpha = false := by
    have hall : comparisons.all (·.toList.all (!·.isAlpha)) = true := by decide
    simpa using hall
  have hcomparison : comparisons.contains (SqlLayout.lowered word) = comparisons.contains word := by
    rw [Bool.eq_iff_iff, List.contains_iff_mem, List.contains_iff_mem]
    constructor
    · intro hmem
      rwa [(lowered_eq_iff (hsymbols _ hmem)).mp rfl]
    · intro hmem
      rwa [(lowered_eq_iff (hsymbols _ hmem)).mpr rfl]
  simp only [plainKind, hhead, hcomparison, upper_lowered]

theorem isNumber_lowered (word : String) : isNumber (SqlLayout.lowered word) = isNumber word := by
  have hsign : ∀ c : Char, (isDigit c.toLower || c.toLower == '+' || c.toLower == '-') =
      (isDigit c || c == '+' || c == '-') := fun c ↦ by
    rw [Bool.eq_iff_iff]
    simp only [isDigit_toLower, Bool.or_eq_true, beq_iff_eq, toLower_eq_iff (d := '+') rfl,
      toLower_eq_iff (d := '-') rfl]
  unfold isNumber
  cases h : word.toList with
  | nil => simp [h]
  | cons c text => simp [h, hsign c]

theorem ofWord_lowered (last : Option Kind) (word : String) :
    ofWord last (SqlLayout.lowered word) = (ofWord last word).map lowered := by
  have hparen : (word.toList.map Char.toLower).getLast? = some '(' ↔
      word.toList.getLast? = some '(' := by
    rw [List.getLast?_map, Option.map_eq_some_iff]
    constructor
    · rintro ⟨c, hc, hlower⟩
      rwa [← (toLower_eq_iff rfl).mp hlower]
    · intro h
      exact ⟨'(', h, rfl⟩
  unfold ofWord
  rw [ofWord?_lowered, isNumber_lowered, plainKind_lowered, toList_lowered]
  split
  · rfl
  · simp only [hparen, ← List.map_dropLast, trim_lowered]
    split
    · rfl
    · split <;> rfl

def shout (token : Token) : Token :=
  if token.kind.isValue then token else ⟨token.kind, upper token.text⟩

/-- Whether the letters of a word may be written in either case: it is no name, no number and no quoted
text. -/
def isCaseless (last : Option Kind) (word : String) : Bool :=
  (ofWord last word).all (!·.kind.isValue)

theorem map_shout_ofWord {last : Option Kind} {word other : String}
    (hcaseless : isCaseless last word = true)
    (h : SqlLayout.lowered word = SqlLayout.lowered other) :
    (ofWord last word).map shout = (ofWord last other).map shout := by
  have hshout : ∀ {tokens : List Token}, tokens.all (!·.kind.isValue) = true →
      tokens.map shout = (tokens.map lowered).map fun token ↦ ⟨token.kind, upper token.text⟩ := by
    intro tokens hall
    rw [List.map_map]
    apply List.map_congr_left
    intro token htoken
    have hvalue : token.kind.isValue = false := by simpa using List.all_eq_true.mp hall token htoken
    simp [shout, lowered, hvalue, upper_lowered]
  have hlowered : (ofWord last word).map lowered = (ofWord last other).map lowered := by
    rw [← ofWord_lowered, ← ofWord_lowered, h]
  have hother : (ofWord last other).all (!·.kind.isValue) = true := by
    have hkinds : ∀ tokens : List Token, tokens.all (!·.kind.isValue) =
        (tokens.map lowered).all (!·.kind.isValue) := by
      intro tokens
      rw [List.all_map]
      rfl
    rw [hkinds, ← hlowered, ← hkinds]
    exact hcaseless
  rw [hshout hcaseless, hshout hother, hlowered]

end Token

/-! ### Texts in another case -/

/-- For each character of a text whether it stands in a word whose letters may be written in either case.
`last` is the kind of the last keyword, and the first `skip` characters belong to a word that is
`free` or not. -/
def caselessFrom : (last : Option Kind) → (skip : Nat) → (free : Bool) → List Char → List Bool
  | _, _, _, [] => []
  | last, skip + 1, free, _ :: rest => free :: caselessFrom last skip free rest
  | last, 0, _, c :: rest =>
    match Word.startOf c rest with
    | .word n =>
      let word := String.ofList ((c :: rest).take n)
      let free := Token.isCaseless last word
      free :: caselessFrom (Kind.ofWord? word <|> last) (n - 1) free rest
    | .dropped => false :: caselessFrom last 0 false rest
    | .unclosed => (c :: rest).map fun _ ↦ false

/-- Whether a text differs from another only in the case of letters of ASCII, and only in free
places. -/
def isRecased : (free : List Bool) → (text other : List Char) → Bool
  | free :: more, c :: text, d :: other =>
    (c == d || free && c.toLower == d.toLower) && isRecased more text other
  | _, [], [] => true
  | _, _, _ => false

/-- Whether a text is another with the case of letters changed in keywords and in names of functions. -/
def isRecasing (text other : String) : Bool :=
  isRecased (caselessFrom none 0 false text.toList) text.toList other.toList

theorem map_toLower_of_isRecased {free : List Bool} {text other : List Char}
    (h : isRecased free text other = true) : text.map Char.toLower = other.map Char.toLower := by
  fun_induction isRecased free text other with
  | case1 free more c text d other ih =>
    simp only [Bool.and_eq_true, Bool.or_eq_true, beq_iff_eq] at h
    obtain ⟨hchar, hrest⟩ := h
    rw [List.map_cons, List.map_cons, ih hrest]
    rcases hchar with rfl | ⟨-, hlower⟩
    · rfl
    · rw [hlower]
  | case2 => rfl
  | case3 => cases h

theorem take_of_isRecased {free : List Bool} {text other : List Char} {n : Nat}
    (h : isRecased free text other = true) (hfree : ∀ flag ∈ free.take n, flag = false) :
    text.take n = other.take n := by
  fun_induction isRecased free text other generalizing n with
  | case1 flag more c text d other ih =>
    cases n with
    | zero => rfl
    | succ n =>
      simp only [Bool.and_eq_true, Bool.or_eq_true, beq_iff_eq] at h
      rw [List.take_succ_cons, List.forall_mem_cons] at hfree
      have hchar : c = d := by
        rcases h.1 with hchar | ⟨hflag, -⟩
        · exact hchar
        · simp [hfree.1] at hflag
      rw [List.take_succ_cons, List.take_succ_cons, hchar, ih h.2 hfree.2]
  | case2 => rfl
  | case3 => cases h

theorem take_caselessFrom (last : Option Kind) (skip : Nat) (text : List Char) :
    ∀ flag ∈ (caselessFrom last skip false text).take skip, flag = false := by
  induction text generalizing skip with
  | nil => simp [caselessFrom]
  | cons c text ih =>
    cases skip with
    | zero => simp
    | succ skip =>
      rw [caselessFrom, List.take_succ_cons, List.forall_mem_cons]
      exact ⟨rfl, ih skip⟩

theorem map_shout_ofWord_of_isRecased {last next : Option Kind} {n : Nat} {c : Char}
    {rest other : List Char}
    (h : isRecased (Token.isCaseless last (String.ofList ((c :: rest).take n)) ::
      caselessFrom next (n - 1) (Token.isCaseless last (String.ofList ((c :: rest).take n))) rest)
      (c :: rest) other = true) :
    (Token.ofWord last (String.ofList ((c :: rest).take n))).map Token.shout =
        (Token.ofWord last (String.ofList (other.take n))).map Token.shout ∧
      Kind.ofWord? (String.ofList ((c :: rest).take n)) =
        Kind.ofWord? (String.ofList (other.take n)) := by
  have hlower : lowered (String.ofList ((c :: rest).take n)) =
      lowered (String.ofList (other.take n)) := by
    simp only [lowered, String.toList_ofList, List.map_take, map_toLower_of_isRecased h]
  constructor
  · cases hfree : Token.isCaseless last (String.ofList ((c :: rest).take n)) with
    | true => exact Token.map_shout_ofWord hfree hlower
    | false =>
      rw [hfree] at h
      have hsame : (c :: rest).take n = other.take n := by
        apply take_of_isRecased h
        cases n with
        | zero => simp
        | succ n =>
          rw [List.take_succ_cons, List.forall_mem_cons]
          exact ⟨rfl, take_caselessFrom next n rest⟩
      rw [hsame]
  · rw [← ofWord?_lowered, hlower, ofWord?_lowered]

/-- A text in another case has the same tokens, but for the case of those that are no values. -/
theorem map_shout_ofWords_of_isRecased {last : Option Kind} {skip : Nat} {free : Bool}
    {text other : List Char} (h : isRecased (caselessFrom last skip free text) text other = true) :
    (Token.ofWords last (Word.cutFrom skip text).words).map Token.shout =
        (Token.ofWords last (Word.cutFrom skip other).words).map Token.shout ∧
      (Word.cutFrom skip text).unclosed = (Word.cutFrom skip other).unclosed := by
  induction text generalizing last skip free other with
  | nil =>
    cases other with
    | nil => exact ⟨rfl, rfl⟩
    | cons d other => cases h
  | cons c rest ih =>
    cases other with
    | nil =>
      have hlength := congrArg List.length (map_toLower_of_isRecased h)
      simp at hlength
    | cons d others =>
      have hlower := map_toLower_of_isRecased h
      cases skip with
      | succ skip =>
        simp only [caselessFrom, isRecased, Bool.and_eq_true] at h
        exact ih h.2
      | zero =>
        have hstart := Word.startOf_congr hlower
        unfold caselessFrom at h
        unfold Word.cutFrom
        rw [← hstart]
        cases hfound : Word.startOf c rest with
        | word n =>
          simp only [hfound] at h
          obtain ⟨hwords, hkind⟩ := map_shout_ofWord_of_isRecased h
          simp only [isRecased, Bool.and_eq_true] at h
          obtain ⟨hothers, hunclosed⟩ := ih h.2
          refine ⟨?_, hunclosed⟩
          simp only [Token.ofWords, List.map_append, hwords, ← hkind, hothers]
        | dropped =>
          simp only [hfound, isRecased, Bool.and_eq_true] at h
          exact ih h.2
        | unclosed =>
          simp only [hfound] at h
          have hsame : c :: rest = d :: others := by
            have hlength : (c :: rest).length = (d :: others).length := by
              simpa using congrArg List.length hlower
            have htake := take_of_isRecased (n := (c :: rest).length) h (by
              intro flag hflag
              obtain ⟨_, -, rfl⟩ := List.mem_map.mp (List.mem_of_mem_take hflag)
              rfl)
            rwa [List.take_length, hlength, List.take_length] at htake
          rw [hsame]
          exact ⟨rfl, rfl⟩

end SqlLayout
