import SqlLayout.Format
import SqlLayout.Proofs.Words.Alone
import SqlLayout.Proofs.Words.Spacing

/-!
# Tokens that come from a text

Every token that a text is cut into can be written again.  Most are whole: their text is a word that gives
the token.  The name of a function stands in front of its parenthesis, and so does the name of a table
after INSERT INTO, which need not be whole.
-/

namespace SqlLayout

open Text Word

namespace Token

def IsWord (word : String) : Prop :=
  ∃ c tail, word.toList = c :: tail ∧ startOf c tail = .word (tail.length + 1)

/-- Tokens as a text gives them.  `table` tells whether the last keyword in front of them is INSERT INTO. -/
inductive Taken : (table : Bool) → List Token → Prop
  | nil {table : Bool} : Taken table []
  | word {table : Bool} {token : Token} {tokens : List Token} :
      token.isWhole = true →
      Taken (token.kind == .insertWord || table && !token.isReserved) tokens →
      Taken table (token :: tokens)
  | call {name : String} {tokens : List Token} :
      isCallName name = true → Taken false tokens →
      Taken false (⟨.func, name⟩ :: ⟨.openParen, "("⟩ :: tokens)
  | tableParen {name : String} {tokens : List Token} :
      Taken true tokens → Taken true (⟨.identifier, name⟩ :: ⟨.openParen, "("⟩ :: tokens)

end Token

namespace Word

/-- A word lies in its text. -/
theorem exists_append_of_startOf {c : Char} {rest : List Char} {n : Nat}
    (h : startOf c rest = .word n) :
    ∃ tail more, rest = tail ++ more ∧ n = tail.length + 1 := by
  have hpos := startOf_pos h
  have hle := startOf_le h
  refine ⟨rest.take (n - 1), rest.drop (n - 1), (List.take_append_drop _ _).symm, ?_⟩
  rw [List.length_take]
  omega

theorem exists_isWord_of_mem_cutFrom {skip : Nat} {text : List Char} {word : String}
    (h : word ∈ (cutFrom skip text).words) : Token.IsWord word := by
  obtain ⟨c, rest, n, hstart, rfl⟩ := exists_startOf_of_mem_cutFrom h
  obtain ⟨tail, more, rfl, rfl⟩ := exists_append_of_startOf hstart
  exact ⟨c, tail, by simp, startOf_alone hstart⟩

/-! ### Heads of calls -/

/-- No placeholder ends in a parenthesis that opens. -/
theorem findSome?_percent_paren (tail : List Char) :
    rules.findSome? (Rule.length? ('%' :: (tail ++ ['(']))) ≠ some (tail.length + 2) := by
  have hspells : spells 's' '(' = false := by decide
  rw [findSome?_percent]
  intro h
  rcases Option.or_eq_some_iff.mp h with h | ⟨-, h⟩
  · obtain ⟨inner, m, d, more, heq, -, hdrop, hd, hm⟩ := Rule.length?_namedPlaceholder_eq_some.mp h
    -- The letter at the end of the placeholder would be the parenthesis.
    cases tail with
    | nil =>
      cases heq
      simp at hdrop
    | cons e tail =>
      simp only [List.cons_append, List.cons.injEq, true_and] at heq
      obtain ⟨rfl, rfl⟩ := heq
      simp only [List.length_cons] at hm
      rw [List.drop_append_of_le_length (by omega)] at hdrop
      have hlength := congrArg List.length hdrop
      simp only [List.length_append, List.length_drop, List.length_cons, List.length_nil] at hlength
      obtain rfl : more = [] := List.eq_nil_of_length_eq_zero (by omega)
      have hlast := congrArg List.getLast? hdrop
      simp only [List.getLast?_append, List.getLast?_singleton, Option.some_or,
        List.getLast?_cons_cons, Option.some.injEq] at hlast
      rw [← hlast, hspells] at hd
      cases hd
  · obtain ⟨d, more, heq, hd, hlength⟩ := Rule.length?_placeholder_eq_some.mp h
    obtain rfl : tail = [] := List.eq_nil_of_length_eq_zero (by omega)
    cases heq
    rw [hspells] at hd
    cases hd

/-- A longer word that ends in a parenthesis is the head of a call. -/
theorem callHead_of_paren {c : Char} {tail : List Char}
    (h : startOf c (tail ++ ['(']) = .word (tail.length + 2)) :
    Rule.callHead.length? (c :: tail ++ ['(']) = some (tail.length + 2) ∧
      ∃ front back, rules = front ++ .callHead :: back ∧
        ∀ rule ∈ front, rule.length? (c :: tail ++ ['(']) = none := by
  have hquote : isQuote c = false := by
    rw [← Bool.not_eq_true]
    intro hquote
    obtain ⟨m, hm, hlength⟩ := (startOf_eq_word_of_isQuote hquote).mp h
    obtain ⟨hlt, hget, -⟩ := List.idxOf?_eq_some_iff.mp hm
    obtain rfl : m = tail.length := by omega
    rw [List.getElem_append_right (Nat.le_refl _)] at hget
    simp only [Nat.sub_self, List.getElem_cons_zero] at hget
    rw [← hget] at hquote
    cases hquote
  rw [startOf_eq_word_of_not_isQuote hquote] at h
  have hpercent : c ≠ '%' := by
    rintro rfl
    exact findSome?_percent_paren tail h
  obtain ⟨front, rule, back, hrules, hrule, hfront⟩ := List.findSome?_eq_some_iff.mp h
  have hregular : rule.isRegular = true := isRegular_of_mem_rules (by simp [hrules])
  by_cases hcall : rule = .callHead
  · subst hcall
    exact ⟨hrule, front, back, hrules, hfront⟩
  · exfalso
    have hends : Ends ['('] := by simp [isStop]
    have hword := Rule.length?_append hregular (List.cons_ne_nil c tail) (by simpa using hpercent) hends
      (Rule.not_runsPast_of_not_blank hregular hends (by decide))
      fun h ↦ absurd h hcall
    rw [← List.cons_append, hword] at hrule
    have hle := Rule.length?_le hregular hrule
    simp only [List.length_cons] at hle
    omega

/-- The head of a call is a name, blanks and the parenthesis. -/
theorem exists_of_callHead {text : List Char} (h : Rule.callHead.length? text = some text.length) :
    ∃ name gap, text = name ++ gap ++ ['('] ∧ name ≠ [] ∧ name.all isWordChar = true ∧
      gap.all isBlank = true := by
  obtain ⟨n, more, hn, hmore, hend⟩ := Rule.length?_callHead_eq_some.mp h
  obtain ⟨hrun, hpos⟩ := runLength?_eq_some.mp hn
  have hlength := congrArg List.length hmore
  rw [List.length_drop, ← hend, List.length_cons] at hlength
  obtain rfl : more = [] := List.eq_nil_of_length_eq_zero (by omega)
  have hname : text.take n = text.takeWhile isWordChar := by rw [← hrun, take_runLength]
  refine ⟨text.take n, (text.drop n).takeWhile isBlank, ?_, ?_, ?_, List.all_takeWhile⟩
  · have hrest : (text.drop n).dropWhile isBlank = ['('] := by
      rw [← drop_runLength, List.drop_drop, hmore]
    rw [← hrest, List.append_assoc, List.takeWhile_append_dropWhile, List.take_append_drop]
  · rw [hname]
    intro hnil
    rw [runLength, hnil] at hrun
    simp only [List.length_nil] at hrun
    omega
  · rw [hname]
    exact List.all_takeWhile

end Word

/-! ### Names of functions -/

section Names

variable {name gap : List Char}

theorem not_isBlank_of_all (h : name.all isWordChar = true) {c : Char} (hc : c ∈ name) :
    isBlank c = false := by
  rw [← Bool.not_eq_true]
  intro hblank
  have hword := List.all_eq_true.mp h c hc
  rw [isWordChar_of_isBlank hblank] at hword
  cases hword

theorem trim_of_blanks (hname : name.all isWordChar = true) (hgap : gap.all isBlank = true) :
    trim (String.ofList (name ++ gap)) = String.ofList name := by
  have hback : ∀ {text : List Char}, text.all isWordChar = true → text.dropWhile isBlank = text := by
    intro text htext
    cases text with
    | nil => rfl
    | cons c text =>
      exact List.dropWhile_cons_of_neg (by simp [not_isBlank_of_all htext List.mem_cons_self])
  have hblank : ∀ {text : List Char}, text.all isBlank = true → text.dropWhile isBlank = [] := by
    intro text htext
    rw [← drop_runLength, runLength_of_all htext, List.drop_length]
  have hreverse : (name ++ gap).reverse.dropWhile isBlank = name.reverse := by
    rw [List.reverse_append, List.dropWhile_append, hblank (by simpa using hgap)]
    simp only [List.isEmpty_nil, if_true]
    exact hback (by simpa using hname)
  cases name with
  | nil => simp [trim, trimEnd, hblank hgap]
  | cons c name =>
    have hfront : (c :: name ++ gap).dropWhile isBlank = c :: name ++ gap :=
      List.dropWhile_cons_of_neg (by simp [not_isBlank_of_all hname List.mem_cons_self])
    simp only [trim, trimEnd, String.toList_ofList, hfront, hreverse, List.reverse_reverse]

theorem pieces_of_not_isBlank {text : List Char} (hne : text ≠ []) (h : ∀ c ∈ text, isBlank c = false) :
    pieces (String.ofList text) = [String.ofList text] := by
  have hpieces : ∀ piece : List Char, piece ++ text ≠ [] → piecesFrom piece text = [piece ++ text] := by
    intro piece hpiece
    clear hne
    induction text generalizing piece with
    | nil =>
      rw [List.append_nil] at hpiece
      simp [piecesFrom, hpiece]
    | cons c text ih =>
      rw [piecesFrom, if_neg (by simp [h c List.mem_cons_self]),
        ih (fun d hd ↦ h d (List.mem_cons_of_mem _ hd)) _ (by simp)]
      simp
  simp [pieces, hpieces [] (by simpa using hne)]

/-- No keyword and no join ends in a parenthesis that opens, but for the parenthesis. -/
theorem ofWord?_of_name (hne : name ≠ []) (hname : name.all isWordChar = true) :
    Kind.ofWord? (String.ofList (name ++ ['('])) = none := by
  have hpieces := pieces_of_not_isBlank (List.append_ne_nil_of_left_ne_nil hne ['(']) (by
    intro c hc
    rcases List.mem_append.mp hc with hc | hc
    · exact not_isBlank_of_all hname hc
    · rw [List.mem_singleton.mp hc]
      decide)
  have hupper : (upper (String.ofList (name ++ ['(']))).toList = name.flatMap upperChar ++ ['('] := by
    have hparen : upperChar '(' = ['('] := by decide
    simp [upper, hparen]
  have hkeywords : ∀ entry ∈ Kind.keywords, entry.1.toList.getLast? = some '(' → entry.1 = "(" := by
    decide
  have hlookup : Kind.keywords.lookup (upper (String.ofList (name ++ ['(']))) = none := by
    rw [List.lookup_eq_none_iff]
    intro entry hentry
    rw [bne_iff_ne]
    intro heq
    have hparen := hkeywords entry hentry (by rw [← heq, hupper]; simp)
    rw [hparen] at heq
    rw [heq] at hupper
    have hnil : name.flatMap upperChar = [] := by
      apply List.eq_nil_of_length_eq_zero
      have hlength := congrArg List.length hupper
      simp only [List.length_append] at hlength
      have hone : "(".toList.length = 1 := rfl
      simp only [List.length_cons, List.length_nil] at hlength
      omega
    cases name with
    | nil => exact hne rfl
    | cons c name => exact upperChar_ne_nil c (List.append_eq_nil_iff.mp hnil).1
  have hjoin : upper (String.ofList (name ++ ['('])) ≠ "JOIN" := by
    intro heq
    rw [heq] at hupper
    have hlast := congrArg List.getLast? hupper
    rw [List.getLast?_append] at hlast
    cases hlast
  simp only [Kind.ofWord?, Kind.recognise?, hpieces, List.getLast_singleton, Option.join_some,
    Kind.ofPieces?, hlookup]
  exact if_neg hjoin

theorem isNumber_ofList (c : Char) (text : List Char) :
    Token.isNumber (String.ofList (c :: text)) = (isDigit c || c == '+' || c == '-') := by
  simp [Token.isNumber]

theorem isQuote_of_isWordChar {c : Char} (h : isWordChar c = true) : isQuote c = false := by
  rw [← Bool.not_eq_true]
  intro hquote
  simp only [isQuote, Bool.or_eq_true, beq_iff_eq] at hquote
  rcases hquote with rfl | rfl
  · exact absurd h (by decide)
  · exact absurd h (by decide)

theorem atWordEnd_gap (hgap : gap.all isBlank = true) : atWordEnd (gap ++ ['(']) = true := by
  cases gap with
  | nil => decide
  | cons d gap =>
    simp only [List.all_cons, Bool.and_eq_true] at hgap
    simp [atWordEnd, isWordChar_of_isBlank hgap.1]

theorem callHead_of_name (hne : name ≠ []) (hname : name.all isWordChar = true) :
    Rule.callHead.length? (name ++ ['(']) = some (name.length + 1) := by
  have hends : Ends ['('] := by simp [isStop]
  have hrun : runLength? isWordChar name = some name.length :=
    runLength?_eq_some.mpr ⟨runLength_of_all hname, List.length_pos_iff.mpr hne⟩
  have hgap : runLength isBlank ['('] = 0 := by decide
  simp only [Rule.length?, runLength?_isWordChar_append hends, hrun, Option.bind_eq_bind,
    Option.bind_some, List.drop_left, hgap, Nat.add_zero, List.head?_cons, if_true]

/-- The name in front of the parenthesis of a call is the head of a call with nothing in between. -/
theorem startOf_of_callHead {c : Char} {more : List Char} (hname : (c :: more).all isWordChar = true)
    (hgap : gap.all isBlank = true)
    (h : startOf c (more ++ gap ++ ['(']) = .word ((more ++ gap).length + 2)) :
    startOf c (more ++ ['(']) = .word (more.length + 2) := by
  have hc : isWordChar c = true := List.all_eq_true.mp hname c List.mem_cons_self
  obtain ⟨hcall, front, back, hrules, hfront⟩ := callHead_of_paren h
  rw [startOf_eq_word_of_not_isQuote (isQuote_of_isWordChar hc), hrules]
  refine List.findSome?_eq_some_iff.mpr ⟨front, .callHead, back, rfl,
    callHead_of_name (List.cons_ne_nil c more) hname, fun rule hrule ↦ ?_⟩
  have hregular : rule.isRegular = true := isRegular_of_mem_rules (by simp [hrules, hrule])
  have hends : Ends ['('] := by simp [isStop]
  have hpercent : c ≠ '%' := by
    rintro rfl
    exact absurd hc (by decide)
  have hne : rule ≠ .callHead := by
    rintro rfl
    rw [hfront _ hrule] at hcall
    cases hcall
  have hword := Rule.length?_append hregular (List.cons_ne_nil c more) (by simpa using hpercent) hends
    (Rule.not_runsPast_of_not_blank hregular hends (by decide))
    fun h ↦ absurd h hne
  rw [← List.cons_append, hword]
  cases hfound : rule.length? (c :: more) with
  | none => rfl
  | some m =>
    have hnone : rule.length? (c :: more ++ (gap ++ ['('])) = none := by
      rw [← hfront rule hrule, List.cons_append, List.cons_append, List.append_assoc]
    rcases Rule.exists_length?_append hregular (gap ++ ['(']) hfound with ⟨m, hm⟩ | ⟨hend, -⟩
    · rw [hnone] at hm
      cases hm
    · rw [atWordEnd_gap hgap] at hend
      cases hend

/-- The name in front of the parenthesis of a call gives the function again. -/
theorem isCallName_of_startOf {c : Char} {tail : List Char}
    (h : startOf c (tail ++ ['(']) = .word (tail.length + 2))
    (hnumber : Token.isNumber (String.ofList (c :: tail ++ ['('])) = false) :
    Token.isCallName (trim (String.ofList (c :: tail))) = true := by
  have hhead : Rule.callHead.length? (c :: tail ++ ['(']) = some (c :: tail ++ ['(']).length := by
    simpa using (callHead_of_paren h).1
  obtain ⟨name, gap, htext, hne, hname, hgap⟩ := exists_of_callHead hhead
  have hsplit := List.append_cancel_right htext
  cases name with
  | nil => exact absurd rfl hne
  | cons d more =>
    rw [List.cons_append, List.cons.injEq] at hsplit
    obtain ⟨rfl, rfl⟩ := hsplit
    have hstart := startOf_of_callHead hname hgap h
    have htrim := trim_of_blanks hname hgap
    have hword : String.ofList (c :: more) ++ "(" = String.ofList (c :: more ++ ['(']) := by
      apply String.toList_inj.mp
      simp
    have hplain : trim (String.ofList (c :: more)) = String.ofList (c :: more) := by
      have hgap : ([] : List Char).all isBlank = true := rfl
      simpa using trim_of_blanks hname hgap
    rw [List.cons_append, isNumber_ofList] at hnumber
    rw [← List.cons_append, htrim, Token.isCallName, String.toList_ofList, hword]
    simp only [hstart, decide_true, Bool.true_and, decide_eq_true_eq]
    rw [Token.ofWord, ofWord?_of_name hne hname]
    dsimp only
    rw [List.cons_append, isNumber_ofList, hnumber, if_neg Bool.false_ne_true, String.toList_ofList,
      ← List.cons_append, List.getLast?_concat, if_pos rfl, List.dropLast_concat, hplain]
    rfl

end Names

/-! ### The tokens of a text -/

namespace Token

theorem plainKind_ne_insertWord (word : String) : plainKind word ≠ .insertWord := by
  unfold plainKind
  split
  · decide
  · split
    · decide
    · split <;> decide

/-- A word gives one token, whatever stands in front of it, or it is the head of a call. -/
theorem ofWord_cases (word : String) :
    (∃ token, token.text = word ∧ (∀ last, ofWord last word = [token]) ∧
      (Kind.ofWord? word = none → token.kind ≠ .insertWord)) ∨
      Kind.ofWord? word = none ∧ isNumber word = false ∧ word.toList.getLast? = some '(' ∧
        ∀ last, ofWord last word = [⟨if last = some .insertWord then .identifier else .func,
          trim (String.ofList word.toList.dropLast)⟩, ⟨.openParen, "("⟩] := by
  cases hkind : Kind.ofWord? word with
  | some kind => exact .inl ⟨⟨kind, word⟩, rfl, fun _ ↦ by rw [ofWord, hkind], nofun⟩
  | none =>
    cases hnumber : isNumber word with
    | true =>
      refine .inl ⟨⟨.number, word⟩, rfl, fun _ ↦ ?_, fun _ ↦ by simp⟩
      simp only [ofWord, hkind, hnumber, if_true]
    | false =>
      by_cases hparen : word.toList.getLast? = some '('
      · refine .inr ⟨rfl, rfl, hparen, fun _ ↦ ?_⟩
        simp only [ofWord, hkind, hnumber, hparen, Bool.false_eq_true, if_false, if_true]
      · refine .inl ⟨⟨plainKind word, word⟩, rfl, fun _ ↦ ?_, fun _ ↦ plainKind_ne_insertWord word⟩
        simp only [ofWord, hkind, hnumber, hparen, Bool.false_eq_true, if_false]

theorem isWhole_of_isWord {word : String} (hword : IsWord word) {token : Token}
    (htext : token.text = word) (h : ofWord none word = [token]) : token.isWhole = true := by
  obtain ⟨c, tail, hlist, hstart⟩ := hword
  simp [isWhole, htext, hlist, hstart, h]

theorem isCallName_of_isWord {word : String} (hword : IsWord word) (hkind : Kind.ofWord? word = none)
    (hnumber : isNumber word = false) (hparen : word.toList.getLast? = some '(') :
    isCallName (trim (String.ofList word.toList.dropLast)) = true := by
  obtain ⟨c, tail, hlist, hstart⟩ := hword
  obtain ⟨front, hfront⟩ := List.getLast?_eq_some_iff.mp hparen
  cases front with
  | nil =>
    have hopen : word = "(" := String.toList_inj.mp hfront
    rw [hopen] at hkind
    cases hkind
  | cons d more =>
    rw [hlist, List.cons_append, List.cons.injEq] at hfront
    obtain ⟨rfl, rfl⟩ := hfront
    have hlast : (c :: (more ++ ['('])).dropLast = c :: more := by
      rw [← List.cons_append, List.dropLast_concat]
    rw [hlist, hlast]
    refine isCallName_of_startOf (by simpa using hstart) ?_
    rw [List.cons_append, ← hlist, String.ofList_toList, hnumber]

/-- The tokens of the words of a text can all be written again. -/
theorem taken_ofWords {words : List String} (hwords : ∀ word ∈ words, IsWord word)
    (last : Option Kind) : Taken (last == some .insertWord) (ofWords last words) := by
  induction words generalizing last with
  | nil => exact .nil
  | cons word words ih =>
    have hword := hwords word List.mem_cons_self
    have hmore := ih fun other hother ↦ hwords other (List.mem_cons_of_mem _ hother)
    rw [ofWords]
    rcases ofWord_cases word with ⟨token, htext, htoken, hinsert⟩ | ⟨hkind, hnumber, hparen, hpair⟩
    · rw [htoken last]
      refine .word (isWhole_of_isWord hword htext (htoken none)) ?_
      cases hkind : Kind.ofWord? word with
      | none =>
        have hflag : (token.kind == .insertWord || last == some .insertWord && !token.isReserved) =
            (last == some .insertWord) := by
          simp [isReserved, htext, hkind, hinsert hkind]
        rw [hflag]
        exact hmore last
      | some kind =>
        have hflag : (token.kind == .insertWord || last == some .insertWord && !token.isReserved) =
            (some kind == some Kind.insertWord) := by
          simp [isReserved, htext, hkind, kind_of_ofWord? (htoken none) hkind]
        rw [hflag]
        exact hmore (some kind)
    · rw [hpair last, hkind]
      cases hlast : last == some .insertWord with
      | true =>
        rw [beq_iff_eq] at hlast
        simp only [hlast, if_true]
        exact .tableParen (hmore (some .insertWord))
      | false =>
        have hnot : last ≠ some .insertWord := by simpa using hlast
        simp only [if_neg hnot]
        exact .call (isCallName_of_isWord hword hkind hnumber hparen) (hlast ▸ hmore last)

end Token

/-- The tokens of a text can all be written again. -/
theorem taken_of_tokensOf {sql : String} {tokens : List Token} (h : tokensOf sql = .ok tokens) :
    Token.Taken false tokens := by
  unfold tokensOf at h
  split at h
  · cases h
  · cases h
    exact Token.taken_ofWords (fun _ hword ↦ exists_isWord_of_mem_cutFrom hword) none

/-! ### The letters of a text -/

theorem Word.sublist_cutFrom (skip : Nat) (text : List Char) :
    ((cutFrom skip text).words.flatMap String.toList).Sublist (text.drop skip) := by
  induction text generalizing skip with
  | nil => simp [cutFrom]
  | cons c rest ih =>
    cases skip with
    | succ skip => exact ih skip
    | zero =>
      rw [cutFrom, List.drop_zero]
      cases hstart : startOf c rest with
      | dropped => exact (ih 0).cons c
      | unclosed => exact List.nil_sublist _
      | word n =>
        obtain ⟨n, rfl⟩ := Nat.exists_eq_succ_of_ne_zero (Nat.ne_of_gt (startOf_pos hstart))
        have hrest := (ih n).append_left (rest.take n)
        rw [List.take_append_drop] at hrest
        simpa using hrest

theorem Text.sublist_trim (text : String) : (trim text).toList.Sublist text.toList := by
  have hback : ∀ chars : List Char, (chars.reverse.dropWhile isBlank).reverse.Sublist chars :=
    fun chars ↦ by simpa using (List.dropWhile_sublist isBlank (l := chars.reverse)).reverse
  simp only [trim, trimEnd, String.toList_ofList]
  exact (hback _).trans (List.dropWhile_sublist _)

theorem Token.sublist_ofWord (last : Option Kind) (word : String) :
    ((ofWord last word).flatMap (·.text.toList)).Sublist word.toList := by
  rcases ofWord_cases word with ⟨token, htext, htoken, -⟩ | ⟨-, -, hparen, hpair⟩
  · simp only [htoken, List.flatMap_singleton, htext, List.Sublist.refl]
  · obtain ⟨front, hfront⟩ := List.getLast?_eq_some_iff.mp hparen
    rw [hpair, hfront, List.dropLast_concat]
    simpa using (sublist_trim (String.ofList front)).append_right ['(']

theorem Token.sublist_ofWords (last : Option Kind) (words : List String) :
    ((ofWords last words).flatMap (·.text.toList)).Sublist (words.flatMap String.toList) := by
  induction words generalizing last with
  | nil => exact List.Sublist.refl _
  | cons word words ih =>
    rw [ofWords, List.flatMap_append, List.flatMap_cons]
    exact (sublist_ofWord last word).append (ih _)

/-- The texts of the tokens stand in a text in their order. -/
theorem sublist_of_tokensOf {sql : String} {tokens : List Token} (h : tokensOf sql = .ok tokens) :
    (tokens.flatMap (·.text.toList)).Sublist sql.toList := by
  unfold tokensOf at h
  split at h
  · cases h
  · cases h
    exact (Token.sublist_ofWords none _).trans (sublist_cutFrom 0 _)

end SqlLayout
