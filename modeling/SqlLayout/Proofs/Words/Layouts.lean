import SqlLayout.Proofs.Words.Keywords

/-!
# Two layouts of the same tokens

Texts that are written with the same tokens differ in their blanks only.  A keyword phrase runs on from one
token into the next in both of them or in neither, and where it ends inside a token it does so at the same
character.  So if one of the texts is cut into its tokens, the other is too.
-/

namespace SqlLayout

open Text Word Token

variable {text : List Char} {token : Token} {tokens : List Token} {last : Option Kind}

namespace Word

/-! ### The start of a text -/

theorem findSome?_transfer {α β : Type} {f g : α → Option β} {list : List α} {found : β}
    (hnone : ∀ a ∈ list, f a = none → g a = none)
    (hsome : ∀ a ∈ list, f a = some found → g a = some found) (h : list.findSome? f = some found) :
    list.findSome? g = some found := by
  induction list with
  | nil => cases h
  | cons a list ih =>
    rw [List.findSome?_cons] at h ⊢
    obtain ⟨hnone_head, hnone⟩ := List.forall_mem_cons.mp hnone
    obtain ⟨hsome_head, hsome⟩ := List.forall_mem_cons.mp hsome
    cases hf : f a with
    | none =>
      rw [hf] at h
      rw [hnone_head hf]
      exact ih hnone hsome h
    | some b =>
      rw [hf] at h
      rw [hsome_head (hf.trans h)]

section Starts

variable {word rest other : List Char}

/-- A phrase rule finds something exactly if its phrase ends as the rule asks. -/
theorem Rule.length?_phrase_eq_none (words : List String) (text : List Char) :
    (Rule.phrase words).length? text = none ↔ phraseEnd? words text ≠ some true := by
  simp only [Rule.length?, phraseEnd?]
  cases phraseLength? words text with
  | none => simp
  | some n => cases h : atWordEnd (text.drop n) <;> simp [h]

theorem Rule.length?_openPhrase_eq_none (words : List String) (text : List Char) :
    (Rule.openPhrase words).length? text = none ↔ phraseEnd? words text = none := by
  simp [Rule.length?, phraseEnd?]

/-- A rule that finds a whole word in one text finds it in the other. -/
theorem Rule.length?_transfer {rule : Rule} (hrule : rule ∈ rules) (hword : word ≠ [])
    (hpercent : word.head? ≠ some '%') (hrest : Ends rest) (hother : Ends other)
    (hphrase : ∀ words : List String, words.all isKeyword = true →
      phraseEnd? words (word ++ rest) = phraseEnd? words (word ++ other))
    (hcall : Rule.callHead.length? (word ++ rest) = Rule.callHead.length? (word ++ other)) :
    (rule.length? (word ++ rest) = none → rule.length? (word ++ other) = none) ∧
      (rule.length? (word ++ rest) = some word.length →
        rule.length? (word ++ other) = some word.length) := by
  have hregular := isRegular_of_mem_rules hrule
  have hwords := keywords_of_isRegular hregular
  have hplain : ¬rule = .callHead → rule.keywords = [] →
      rule.length? (word ++ rest) = rule.length? (word ++ other) := by
    intro hnot hkeywords
    rw [Rule.length?_append hregular hword hpercent hrest (fun h ↦ h.1 hkeywords)
        (fun h ↦ absurd h hnot),
      Rule.length?_append hregular hword hpercent hother (fun h ↦ h.1 hkeywords)
        (fun h ↦ absurd h hnot)]
  cases rule with
  | phrase words =>
    constructor
    · rw [Rule.length?_phrase_eq_none, Rule.length?_phrase_eq_none, hphrase words hwords]
      exact id
    · intro h
      have hfound := (Rule.length?_phrase_eq_some.mp
        (Rule.length?_of_append hregular hword h (Nat.le_refl _))).1
      refine Rule.length?_phrase_eq_some.mpr ⟨phraseLength?_append_of_some hwords hfound, ?_⟩
      rw [List.drop_left]
      exact atWordEnd_of_ends hother
  | openPhrase words =>
    constructor
    · rw [Rule.length?_openPhrase_eq_none, Rule.length?_openPhrase_eq_none, hphrase words hwords]
      exact id
    · intro h
      exact phraseLength?_append_of_some hwords
        (Rule.length?_of_append hregular hword h (Nat.le_refl _))
  | callHead =>
    rw [hcall]
    exact ⟨id, id⟩
  | _ =>
    rw [hplain (by simp) rfl]
    exact ⟨id, id⟩

/-- A whole word that is cut off in front of one rest is cut off in front of the other. -/
theorem startOf_transfer {c : Char} {tail : List Char} (halone : startOf c tail = .word (tail.length + 1))
    (hrest : Ends rest) (hother : Ends other)
    (hphrase : ∀ words : List String, words.all isKeyword = true →
      phraseEnd? words (c :: tail ++ rest) = phraseEnd? words (c :: tail ++ other))
    (hcall : Rule.callHead.length? (c :: tail ++ rest) = Rule.callHead.length? (c :: tail ++ other))
    (h : startOf c (tail ++ rest) = .word (tail.length + 1)) :
    startOf c (tail ++ other) = .word (tail.length + 1) := by
  by_cases hquote : isQuote c = true
  · exact startOf_append_of_isQuote hquote halone
  rw [Bool.not_eq_true] at hquote
  by_cases hpercent : c = '%'
  · subst hpercent
    exact startOf_append_of_percent halone
  rw [startOf_eq_word_of_not_isQuote hquote, ← List.cons_append] at h ⊢
  have htransfer := fun rule (hrule : rule ∈ rules) ↦
    Rule.length?_transfer hrule (List.cons_ne_nil c tail) (by simpa using hpercent) hrest hother hphrase
      hcall
  exact findSome?_transfer (fun rule hrule ↦ (htransfer rule hrule).1)
    (fun rule hrule ↦ (htransfer rule hrule).2) h

/-- A whole word is never passed over in front of a stop. -/
theorem exists_startOf_append {c : Char} {tail : List Char}
    (halone : startOf c tail = .word (tail.length + 1)) (hrest : Ends rest) :
    ∃ n, startOf c (tail ++ rest) = .word n := by
  by_cases hquote : isQuote c = true
  · exact ⟨_, startOf_append_of_isQuote hquote halone⟩
  rw [Bool.not_eq_true] at hquote
  rw [startOf_eq_word_of_not_isQuote hquote] at halone
  obtain ⟨rule, hrule, hlength⟩ := List.exists_of_findSome?_eq_some halone
  have hfound : (rules.findSome? (Rule.length? (c :: (tail ++ rest)))).isSome = true := by
    rw [List.findSome?_isSome_iff]
    rcases Rule.exists_length?_append (isRegular_of_mem_rules hrule) rest hlength with ⟨m, hm⟩ | ⟨hend, -⟩
    · exact ⟨rule, hrule, Option.isSome_iff_exists.mpr ⟨m, hm⟩⟩
    · rw [atWordEnd_of_ends hrest] at hend
      cases hend
  obtain ⟨n, hn⟩ := Option.isSome_iff_exists.mp hfound
  exact ⟨n, (startOf_eq_word_of_not_isQuote hquote).mpr hn⟩

end Starts

end Word

/-! ### The first token of a written text -/

inductive Front : List Char → List Token → Prop
  | word {token : Token} {rest : List Char} {tokens : List Token} :
      token.isWhole = true → token ≠ ⟨.openParen, "("⟩ → Ends rest →
      tokens.head? ≠ some ⟨.openParen, "("⟩ → Written false rest tokens →
      Front (token.text.toList ++ rest) (token :: tokens)
  | paren {rest : List Char} {tokens : List Token} :
      Written false rest tokens → Front ('(' :: rest) (⟨.openParen, "("⟩ :: tokens)
  | inParen {rest : List Char} {tokens : List Token} :
      Written false rest tokens →
      Front ('I' :: 'N' :: ' ' :: '(' :: rest) (⟨.inWord, "IN"⟩ :: ⟨.openParen, "("⟩ :: tokens)
  | call {name : String} {rest : List Char} {tokens : List Token} :
      isCallName name = true → Written false rest tokens →
      Front (name.toList ++ '(' :: rest) (⟨.func, name⟩ :: ⟨.openParen, "("⟩ :: tokens)

theorem Written.front (h : Written false text (token :: tokens)) (hinsert : token.kind ≠ .insertWord) :
    Front (text.dropWhile isBlank) (token :: tokens) := by
  have hparen : isBlank '(' = false := by decide
  generalize htable : false = table at h
  generalize hall : token :: tokens = all at h
  induction h with
  | nil => cases hall
  | blank hc _ ih =>
    rw [List.dropWhile_cons_of_pos hc]
    exact ih htable hall
  | @word _ token text tokens hwhole _ hends hnext hrest _ =>
    subst htable
    rw [Bool.false_and] at hrest
    obtain ⟨c, tail, htext, hc, -⟩ := exists_of_isWhole hwhole
    have hdrop : (token.text.toList ++ text).dropWhile isBlank = token.text.toList ++ text := by
      simp [htext, hc]
    rw [hdrop]
    by_cases hopen : token = ⟨.openParen, "("⟩
    · subst hopen
      exact .paren hrest
    · exact .word hwhole hopen hends hnext hrest
  | paren hrest _ =>
    rw [List.dropWhile_cons_of_neg (by simp [hparen])]
    exact .paren hrest
  | inParen hrest _ =>
    rw [List.dropWhile_cons_of_neg (by decide)]
    exact .inParen hrest
  | @call name text tokens hname hrest _ =>
    obtain ⟨c, tail, htext, hc, -⟩ := exists_of_isCallName hname
    have hdrop : (name.toList ++ '(' :: text).dropWhile isBlank = name.toList ++ '(' :: text := by
      simp [htext, hc]
    rw [hdrop]
    exact .call hname hrest
  | insert =>
    cases hall
    exact absurd rfl hinsert
  | tableParen => cases htable

theorem Written.dropWhile_eq_nil {table : Bool} (h : Written table text []) :
    text.dropWhile isBlank = [] := by
  generalize hnil : ([] : List Token) = tokens at h
  induction h with
  | nil => rfl
  | blank hc _ ih =>
    rw [List.dropWhile_cons_of_pos hc]
    exact ih hnil
  | _ => cases hnil

/-! ### The tokens of a layout -/

theorem scan_dropWhile (last : Option Kind) (text : List Char) :
    scan last (text.dropWhile isBlank) = scan last text := by
  induction text with
  | nil => rfl
  | cons c text ih =>
    by_cases hc : isBlank c = true
    · rw [List.dropWhile_cons_of_pos hc, scan_cons_of_isBlank hc, ih]
    · rw [List.dropWhile_cons_of_neg hc]

/-- Where a whole token is the first that is read, it is cut off as it is. -/
theorem startOf_of_scan {c : Char} {tail rest : List Char} (htext : token.text = String.ofList (c :: tail))
    (halone : startOf c tail = .word (tail.length + 1)) (hends : Ends rest)
    (hparen : tokens.head? ≠ some ⟨.openParen, "("⟩)
    (h : scan last (token.text.toList ++ rest) = ⟨token :: tokens, none⟩) :
    startOf c (tail ++ rest) = .word (tail.length + 1) := by
  obtain ⟨n, hn⟩ := exists_startOf_append halone hends
  rw [htext, String.toList_ofList] at h
  have hcut := congrArg Tokens.tokens h
  simp only [scan, List.cons_append, cutFrom, hn, ofWords] at hcut
  rcases ofWord_cases (String.ofList (c :: (tail ++ rest) |>.take n)) with
    ⟨found, hfound, hword, -⟩ | ⟨-, -, -, hpair⟩
  · rw [hword, List.cons_append, List.nil_append] at hcut
    rw [(List.cons.inj hcut).1, htext, String.ofList_inj] at hfound
    have hlength := congrArg List.length hfound
    rw [List.length_cons, List.length_take, List.length_cons, List.length_append] at hlength
    cases rest with
    | nil => rwa [List.append_nil]
    | cons d rest =>
      rw [List.length_cons] at hlength
      rw [hn, show n = tail.length + 1 by omega]
  · rw [hpair, List.cons_append, List.cons_append] at hcut
    rw [← (List.cons.inj hcut).2] at hparen
    simp at hparen

/-- A text that starts with the parenthesis of a call. -/
theorem scan_call {name : String} (hname : isCallName name = true) (rest : List Char)
    (hlast : last ≠ some .insertWord) :
    scan last (name.toList ++ '(' :: rest) =
      ⟨⟨.func, name⟩ :: ⟨.openParen, "("⟩ :: (scan last rest).tokens, (scan last rest).unclosed⟩ := by
  obtain ⟨c, tail, htext, hc, hstart, htoken⟩ := exists_of_isCallName hname
  have hcall : startOf c ((tail ++ ['(']) ++ rest) = .word ((tail ++ ['(']).length + 1) := by
    simpa using startOf_append_paren rest hstart
  have hword : String.ofList (c :: (tail ++ ['('])) = name ++ "(" := by
    rw [htext]
    apply String.toList_inj.mp
    simp
  have happend := scan_append c (tail ++ ['(']) rest hcall last
  rw [hword, ofWord_of_call htoken hlast, Kind.ofWord?_of_pair htoken] at happend
  rw [show name.toList ++ '(' :: rest = c :: (tail ++ ['(']) ++ rest by simp [htext]]
  exact happend

theorem scan_in_paren (last : Option Kind) (rest : List Char) :
    scan last ('I' :: 'N' :: ' ' :: '(' :: rest) =
      ⟨⟨.inWord, "IN"⟩ :: ⟨.openParen, "("⟩ :: (scan (some .openParen) rest).tokens,
        (scan (some .openParen) rest).unclosed⟩ := by
  have hscan := scan_append 'I' ['N'] (' ' :: '(' :: rest) startOf_in_paren last
  have hword : ofWord last "IN" = [⟨.inWord, "IN"⟩] := ofWord_of_singleton (by decide) last
  rw [show String.ofList ['I', 'N'] = "IN" from rfl, hword, scan_cons_of_isBlank (by decide),
    scan_paren] at hscan
  exact hscan

/-- What is read behind the same tokens is what is left of them. -/
theorem Tokens.eq_of_append (front : List Token) {found : Tokens}
    (h : (⟨front ++ found.tokens, found.unclosed⟩ : Tokens) = ⟨front ++ tokens, none⟩) :
    found = ⟨tokens, none⟩ := by
  obtain ⟨read, unclosed⟩ := found
  simp only [Tokens.mk.injEq, List.append_cancel_left_eq] at h
  rw [h.1, h.2]

/-- A whole token that is read at the front of one layout is read at the front of the other. -/
theorem scan_word_of_layout (hwhole : token.isWhole = true) (hkind : token.kind ≠ .insertWord)
    {rest other : List Char} (hrest : Written false rest tokens) (hother : Written false other tokens)
    (hends : Ends rest) (hends' : Ends other) (hnext : tokens.head? ≠ some ⟨.openParen, "("⟩)
    (hlast : last ≠ some .insertWord)
    (h : scan last (token.text.toList ++ rest) = ⟨token :: tokens, none⟩) :
    ∃ behind, behind ≠ some .insertWord ∧ scan behind rest = ⟨tokens, none⟩ ∧
      scan last (token.text.toList ++ other) =
        ⟨token :: (scan behind other).tokens, (scan behind other).unclosed⟩ := by
  obtain ⟨c, tail, htext, hc, halone, htoken⟩ := exists_of_isWhole hwhole
  have hstart := startOf_of_scan htext halone hends hnext h
  have hstart' : startOf c (tail ++ other) = .word (tail.length + 1) := by
    refine startOf_transfer halone hends hends' (fun words hwords ↦ ?_) ?_ hstart
    · refine phraseEnd?_append_congr hwords hends hends' (fun later hlater hne ↦ ?_) _
      rw [hrest.phraseEnd?_eq hlater hne, hother.phraseEnd?_eq hlater hne]
    · rw [callHead_append hends fun hparen ↦ hnext (hrest.head?_eq_paren hparen),
        callHead_append hends' fun hparen ↦ hnext (hother.head?_eq_paren hparen)]
  rw [scan_whole token rest htext htoken hstart last] at h
  refine ⟨Kind.ofWord? token.text <|> last, ?_, ?_, scan_whole token other htext htoken hstart' last⟩
  · cases hword : Kind.ofWord? token.text with
    | none => exact hlast
    | some kind =>
      rw [kind_of_ofWord? htoken hword] at hkind
      simpa using hkind
  · exact Tokens.eq_of_append [token] h

/-- If one layout is cut into its tokens, so is every other. -/
theorem Written.scan_of_layout {first second : List Char} (hfirst : Written false first tokens)
    (hsecond : Written false second tokens) (hinsert : ∀ token ∈ tokens, token.kind ≠ .insertWord)
    (hlast : last ≠ some .insertWord) (h : scan last first = ⟨tokens, none⟩) :
    scan last second = ⟨tokens, none⟩ := by
  -- A parenthesis and what it is written with are taken together, so the induction is on the length.
  induction hlength : tokens.length using Nat.strongRecOn generalizing tokens first second last with
  | ind length ih =>
  subst hlength
  rw [← scan_dropWhile] at h ⊢
  cases tokens with
  | nil => rw [hsecond.dropWhile_eq_nil]; rfl
  | cons token tokens =>
    have hfront := hfirst.front (hinsert token List.mem_cons_self)
    have hfront' := hsecond.front (hinsert token List.mem_cons_self)
    generalize first.dropWhile isBlank = first at h hfront
    generalize second.dropWhile isBlank = second at hfront' ⊢
    have hnone : some Kind.openParen ≠ some .insertWord := by decide
    cases hfront with
    | word hwhole hopen hends hnext hrest =>
      cases hfront' with
      | word _ _ hends' _ hother =>
        rw [List.forall_mem_cons] at hinsert
        obtain ⟨behind, hbehind, hscan, heq⟩ := scan_word_of_layout hwhole hinsert.1 hrest hother
          hends hends' hnext hlast h
        rw [heq, ih _ (by simp) hrest hother hinsert.2 hbehind hscan rfl]
      | paren => exact absurd rfl hopen
      | inParen => exact absurd rfl hnext
      | call => exact absurd rfl hnext
    | paren hrest =>
      cases hfront' with
      | word _ hopen => exact absurd rfl hopen
      | paren hother =>
        rw [List.forall_mem_cons] at hinsert
        rw [scan_paren] at h ⊢
        have hscan := Tokens.eq_of_append [⟨.openParen, "("⟩] h
        rw [ih _ (by simp) hrest hother hinsert.2 hnone hscan rfl]
    | inParen hrest =>
      cases hfront' with
      | word _ _ _ hnext => exact absurd rfl hnext
      | inParen hother =>
        rw [List.forall_mem_cons, List.forall_mem_cons] at hinsert
        rw [scan_in_paren] at h ⊢
        have hscan := Tokens.eq_of_append
          [⟨.inWord, "IN"⟩, ⟨.openParen, "("⟩] h
        rw [ih _ (by simp only [List.length_cons]; omega) hrest hother hinsert.2.2 hnone hscan rfl]
    | @call name _ _ hname hrest =>
      cases hfront' with
      | word _ _ _ hnext => exact absurd rfl hnext
      | call _ hother =>
        rw [List.forall_mem_cons, List.forall_mem_cons] at hinsert
        rw [scan_call hname _ hlast] at h ⊢
        have hscan := Tokens.eq_of_append [⟨.func, name⟩, ⟨.openParen, "("⟩] h
        rw [ih _ (by simp only [List.length_cons]; omega) hrest hother hinsert.2.2 hlast hscan rfl]

/-! ### Tokens on one line -/

/-- Tokens on one line, a space behind each but the name of a function, which its parenthesis follows. -/
def Token.oneLine (tokens : List Token) : String :=
  String.ofList (tokens.flatMap fun token ↦
    token.text.toList ++ if token.kind = .func then [] else [' '])

theorem toList_oneLine_cons (hfunc : token.kind ≠ .func) (tokens : List Token) :
    (oneLine (token :: tokens)).toList = token.text.toList ++ ' ' :: (oneLine tokens).toList := by
  simp [oneLine, hfunc]

theorem toList_oneLine_func (name : String) (tokens : List Token) :
    (oneLine (⟨.func, name⟩ :: tokens)).toList = name.toList ++ (oneLine tokens).toList := by
  simp [oneLine]

/-- Tokens that some text is written with can be written on one line. -/
theorem Written.written_oneLine {table : Bool} (h : Written table text tokens) :
    Written table (oneLine tokens).toList tokens := by
  have hspace : isBlank ' ' = true := by decide
  have hends : ∀ more : List Char, Ends (' ' :: more) := fun more ↦ by simp [isStop, hspace]
  induction h with
  | nil => exact .nil
  | blank _ _ ih => exact ih
  | word hwhole hinsert _ hparen _ ih =>
    rw [toList_oneLine_cons (kind_ne_func_of_isWhole hwhole)]
    exact .word hwhole hinsert (hends _) hparen (.blank hspace ih)
  | paren _ ih =>
    rw [toList_oneLine_cons (by simp)]
    exact .paren (.blank hspace ih)
  | inParen _ ih =>
    rw [toList_oneLine_cons (by simp), toList_oneLine_cons (by simp)]
    exact .inParen (.blank hspace ih)
  | call hname _ ih =>
    rw [toList_oneLine_func, toList_oneLine_cons (by simp)]
    exact .call hname (.blank hspace ih)
  | insert _ hparen _ ih =>
    rw [toList_oneLine_cons (by simp)]
    exact .insert (hends _) hparen (.blank hspace ih)
  | tableParen hname _ ih =>
    rw [toList_oneLine_cons (by simp), toList_oneLine_cons (by simp)]
    exact .tableParen hname fun table ↦ .blank hspace (ih table)

theorem tokensOf_eq_ok_iff {sql : String} :
    tokensOf sql = .ok tokens ↔ scan none sql.toList = ⟨tokens, none⟩ := by
  rw [← tokenize_eq_scan]
  unfold tokensOf
  obtain ⟨found, unclosed⟩ := tokenize sql
  cases unclosed <;> simp

/-- A text that is written with tokens, a line feed in front of it, is cut into them exactly if the tokens
on one line are. -/
theorem Written.tokensOf_iff_oneLine {text : String} (h : Written false ('\n' :: text.toList) tokens)
    (hinsert : ∀ token ∈ tokens, token.kind ≠ .insertWord) :
    tokensOf text = .ok tokens ↔ tokensOf (oneLine tokens) = .ok tokens := by
  have hfeed : isBlank '\n' = true := by decide
  have hline := h.written_oneLine
  rw [tokensOf_eq_ok_iff, tokensOf_eq_ok_iff, ← scan_cons_of_isBlank hfeed none text.toList]
  exact ⟨h.scan_of_layout hline hinsert (by simp), hline.scan_of_layout h hinsert (by simp)⟩

end SqlLayout
