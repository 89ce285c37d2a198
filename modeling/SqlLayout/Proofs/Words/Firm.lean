import SqlLayout.Proofs.Words.Written

/-!
# Tokens that no phrase crosses

A phrase that runs on from one token into the next starts in the first and has a later keyword at the start
of the second.  Symbols and most keywords are neither, so where one of each two neighbours is such a token
no phrase runs on.
-/

namespace SqlLayout

open Text Word

namespace Token

variable {token : Token} {rule : Rule}

def isFirm (token : Token) : Bool :=
  rules.all fun rule ↦ rule.keywords.tail.isEmpty ||
    rule.keywords.all fun keyword ↦ spelledLength? keyword.toList token.text.toList = none

def areSpread : List Token → Bool
  | token :: next :: rest => (token.isFirm || next.isFirm) && areSpread (next :: rest)
  | _ => true

theorem spelledLength?_of_isFirm (h : token.isFirm = true) (hrule : rule ∈ rules)
    (htail : rule.keywords.tail ≠ []) {keyword : String} (hkeyword : keyword ∈ rule.keywords) :
    spelledLength? keyword.toList token.text.toList = none := by
  have hall := List.all_eq_true.mp h rule hrule
  simp only [Bool.or_eq_true, List.isEmpty_iff, htail, false_or, List.all_eq_true,
    decide_eq_true_eq] at hall
  exact hall keyword hkeyword

theorem not_runsPast_of_isFirm (h : token.isFirm = true) (hrule : rule ∈ rules) {rest : List Char}
    (hrest : Ends rest) : ¬rule.RunsPast token.text.toList rest := by
  have hregular := isRegular_of_mem_rules hrule
  have hwords := keywords_of_isRegular hregular
  by_cases htail : rule.keywords.tail = []
  · exact Rule.not_runsPast_of_keywords hregular hrest (by simp [htail])
  · intro hpast
    obtain ⟨n, hn, -⟩ := hpast.phrase
    cases hkeywords : rule.keywords with
    | nil => simp [hkeywords] at htail
    | cons first words =>
      have hmem : first ∈ rule.keywords := by simp [hkeywords]
      have hfirst := spelledLength?_of_isFirm h hrule htail hmem
      rw [hkeywords] at hwords hn htail
      simp only [List.all_cons, Bool.and_eq_true] at hwords
      cases words with
      | nil => exact htail rfl
      | cons next words =>
        rw [phraseLength?_cons_cons, spelledLength?_append _ (letters_of_isKeyword hwords.1) hrest,
          hfirst] at hn
        cases hn

theorem not_runsPast_into_isFirm (h : token.isFirm = true) (hwhole : token.isWhole = true)
    (hrule : rule ∈ rules) (word : List Char) (rest : List Token) :
    ¬rule.RunsPast word (spaced (token :: rest)) := by
  have hregular := isRegular_of_mem_rules hrule
  have hwords := keywords_of_isRegular hregular
  obtain ⟨c, tail, htext, hc, -⟩ := exists_of_isWhole hwhole
  refine Rule.not_runsPast_of_keywords hregular (ends_spaced _) fun keyword hkeyword ↦ ?_
  have hmem := List.mem_of_mem_tail hkeyword
  rw [dropWhile_spaced_cons htext hc,
    spelledLength?_append _ (letters_of_isKeyword (List.all_eq_true.mp hwords keyword hmem))
      (ends_spaced _)]
  exact spelledLength?_of_isFirm h hrule (List.ne_nil_of_mem hkeyword) hmem

theorem not_runsPast_nil (hrule : rule ∈ rules) (word : List Char) : ¬rule.RunsPast word [] := by
  have hregular := isRegular_of_mem_rules hrule
  have hwords := keywords_of_isRegular hregular
  refine Rule.not_runsPast_of_keywords hregular ends_nil fun keyword hkeyword ↦ ?_
  have hletters : [keyword].all isKeyword = true := by
    simpa using List.all_eq_true.mp hwords keyword (List.mem_of_mem_tail hkeyword)
  exact phraseLength?_nil hletters (List.cons_ne_nil _ _)

/-- Where of each two neighbours one is firm, no phrase runs on. -/
theorem unglued_of_areSpread {tokens : List Token} (hwhole : ∀ token ∈ tokens, token.isWhole = true)
    (h : areSpread tokens = true) : unglued tokens = true := by
  induction tokens with
  | nil => rfl
  | cons token rest ih =>
    obtain ⟨htoken, hrest⟩ := List.forall_mem_cons.mp hwhole
    have hpast : ∀ rule ∈ rules, ¬rule.RunsPast token.text.toList (spaced rest) := by
      intro rule hrule
      cases rest with
      | nil => exact not_runsPast_nil hrule _
      | cons next rest =>
        simp only [areSpread, Bool.and_eq_true, Bool.or_eq_true] at h
        rcases h.1 with hfirm | hfirm
        · exact not_runsPast_of_isFirm hfirm hrule (ends_spaced _)
        · exact not_runsPast_into_isFirm hfirm (hrest next List.mem_cons_self) hrule _ rest
    have hspread : areSpread rest = true := by
      cases rest with
      | nil => rfl
      | cons next rest =>
        simp only [areSpread, Bool.and_eq_true] at h
        exact h.2
    simp only [unglued, Bool.and_eq_true, List.all_eq_true]
    refine ⟨fun rule hrule ↦ ?_, ih hrest hspread⟩
    rw [Bool.or_eq_true, List.isEmpty_iff, Classical.or_iff_not_imp_left]
    intro hne
    cases hlength : rule.length? (token.text.toList ++ spaced rest) with
    | none => rfl
    | some n =>
      rw [Option.all_some, decide_eq_true_eq, ← Nat.not_lt]
      exact fun hlt ↦ hpast rule hrule ⟨hne, n, hlength, hlt⟩

theorem areSpread_cons_of_isFirm (htoken : token.isFirm = true) {rest : List Token}
    (h : areSpread rest = true) : areSpread (token :: rest) = true := by
  cases rest with
  | nil => rfl
  | cons next rest => simp [areSpread, htoken, h]

theorem areSpread_cons_of_head {rest : List Token} (hhead : ∀ next ∈ rest.head?, next.isFirm = true)
    (h : areSpread rest = true) : areSpread (token :: rest) = true := by
  cases rest with
  | nil => rfl
  | cons next rest => simp [areSpread, hhead next rfl, h]

end Token

end SqlLayout
