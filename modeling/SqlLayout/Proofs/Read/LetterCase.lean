import SqlLayout.Proofs.Read.Related
import SqlLayout.Proofs.Words.LetterCase

/-!
# Reading and letter case

Tokens with their keywords in another case are read as the same nodes, but for the case of the keywords,
or they fail in the same way.
-/

namespace SqlLayout

open Text Node

variable {kind : Kind} {text other : String}

def Recased : TextRelation := fun kind text other ↦
  if kind.isValue then text = other else upper text = upper other

theorem Recased.eq (hkind : kind.isValue = true) (h : Recased kind text other) : text = other := by
  rwa [Recased, if_pos hkind] at h

theorem Recased.upper_eq (h : Recased kind text other) : upper text = upper other := by
  unfold Recased at h
  split at h
  · rw [h]
  · exact h

theorem Recased.map_upper_eq {word other : Option String} (h : Option.Rel (Recased kind) word other) :
    word.map upper = other.map upper := by
  cases h with
  | none => rfl
  | some hword => exact congrArg some hword.upper_eq

theorem RelatedValue.eq (h : RelatedValue Recased text other) : text = other := by
  obtain ⟨hkind, htext⟩ := h
  exact htext.eq hkind

theorem eq_of_relatedValue {name other : Option String}
    (h : Option.Rel (RelatedValue Recased) name other) : name = other := by
  cases h with
  | none => rfl
  | some hvalue => rw [hvalue.eq]

namespace Read

def SameNodes (first second : List Node) : Prop :=
  upperCasedEach first = upperCasedEach second

theorem upperCased_term_of_related {t u : Term} (h : t.Related Recased u) :
    (Node.term t).upperCased = (Node.term u).upperCased := by
  obtain @⟨kind, text, other, _, _, asWord, asOther, sort, sortOther, htext, hname, has, hsort⟩ := h
  obtain rfl : text = other := htext.eq (by cases kind <;> rfl)
  have hsort : sort.map upper = sortOther.map upper := by
    cases hsort with
    | none => rfl
    | some hword => exact congrArg some (hword.elim Recased.upper_eq Recased.upper_eq)
  simp only [upperCased, eq_of_relatedValue hname, Recased.map_upper_eq has, hsort]

mutual

theorem upperCased_of_related {node other : Node} (h : node.Related Recased other)
    (hkept : IsKept node) : node.upperCased = other.upperCased := by
  have hchildren := (everywhere_iff.mp hkept).2
  cases h with
  | term hterm => exact upperCased_term_of_related hterm
  | call hname hargs has halias =>
    simp only [upperCased, hname.upper_eq, upperCasedEach_of_related hargs hchildren,
      Recased.map_upper_eq has, eq_of_relatedValue halias]
  | caseOf hword hbranches =>
    simp only [upperCased, hword.upper_eq, upperCasedEach_of_related hbranches hchildren]
  | whenThen hwhen htested hthen hresult =>
    simp only [upperCased, hwhen.upper_eq, htested.eq, hthen.upper_eq, hresult.eq]
  | otherwise helse hresult => simp only [upperCased, helse.upper_eq, hresult.eq]
  | semicolon => rfl
  | is hword => simp only [upperCased, hword.upper_eq]
  | null hword => simp only [upperCased, hword.upper_eq]
  | join hword => simp only [upperCased, hword.upper_eq]
  | link hword => simp only [upperCased, hword.upper_eq]
  | not hword => simp only [upperCased, hword.upper_eq]
  | between hword => simp only [upperCased, hword.upper_eq]
  | operator hword => simp only [upperCased, hword.upper_eq]
  | condition hparts => simp only [upperCased, upperCasedEach_of_related hparts hchildren]
  | membership hleft hop _ hfound =>
    simp only [upperCased, upperCasedEach, hop.upper_eq,
      upperCased_of_related hleft (hchildren _ (by simp [children])),
      upperCased_of_related hfound (hchildren _ (by simp [children]))]
  | group hitems => simp only [upperCased, upperCasedEach_of_related hitems hchildren]
  | onClause hword hparts | selectClause hword hparts | fromClause hword hparts
  | whereClause hword hparts | havingClause hword hparts =>
    simp only [upperCased, hword.upper_eq, upperCasedEach_of_related hparts hchildren]
  | groupByClause hitems hrollup =>
    simp only [upperCased, upperCasedEach_of_related hitems hchildren,
      Recased.map_upper_eq hrollup]
  | orderByClause hitems => simp only [upperCased, upperCasedEach_of_related hitems hchildren]
  | limitClause hcount hoffset hword =>
    obtain ⟨hcount⟩ := hcount
    simp only [upperCased, hcount.eq rfl, Recased.map_upper_eq hword]
    cases hoffset with
    | none => rfl
    | some hoffset =>
      obtain ⟨hoffset⟩ := hoffset
      rw [hoffset.eq rfl]
  | insertClause hword htable hcolumns hquery =>
    have hcolumns := upperCasedEach_of_related hcolumns fun node hnode ↦
      hchildren node (by simp [children, hnode])
    have hquery := upperCasedEach_of_related hquery fun node hnode ↦
      hchildren node (by simp [children, hnode])
    simp only [upperCased, hword.upper_eq, htable.eq rfl, hcolumns, hquery]
  | abandoned hnode _ =>
    have hnot := (everywhere_iff.mp hkept).1
    rw [hnode] at hnot
    cases hnot

theorem upperCasedEach_of_related {nodes others : List Node} (h : RelatedNodes Recased nodes others)
    (hkept : ∀ node ∈ nodes, IsKept node) : upperCasedEach nodes = upperCasedEach others := by
  cases h with
  | nil => rfl
  | cons hnode hrest =>
    rw [List.forall_mem_cons] at hkept
    simp only [upperCasedEach, upperCased_of_related hnode hkept.1,
      upperCasedEach_of_related hrest hkept.2]

end

theorem related_of_shout {token other : Token} (h : token.shout = other.shout) :
    token.Related Recased other := by
  obtain ⟨kind, text⟩ := token
  obtain ⟨kindOther, word⟩ := other
  have hkind : kind = kindOther := by
    have hkinds := congrArg Token.kind h
    unfold Token.shout at hkinds
    split at hkinds <;> split at hkinds <;> exact hkinds
  subst hkind
  refine .mk ?_
  have htext := congrArg Token.text h
  unfold Token.shout at htext
  unfold Recased
  cases hvalue : kind.isValue with
  | true => simpa [hvalue] using htext
  | false => simpa [hvalue] using htext

theorem related_of_map_shout {tokens others : List Token}
    (h : tokens.map Token.shout = others.map Token.shout) : RelatedTokens Recased tokens others := by
  induction tokens generalizing others with
  | nil =>
    cases others with
    | nil => exact .nil
    | cons token rest => cases h
  | cons token rest ih =>
    cases others with
    | nil => cases h
    | cons other more =>
      rw [List.map_cons, List.map_cons, List.cons.injEq] at h
      exact .cons (related_of_shout h.1) (ih h.2)

/-- Tokens that are the same in upper case are read in the same way. -/
theorem parse_agree_of_map_shout {tokens others : List Token}
    (h : tokens.map Token.shout = others.map Token.shout) :
    Agree SameNodes (parse tokens) (parse others) := by
  have hoffset : KeepsOffset Recased := by
    intro text other htext
    rw [htext.eq rfl]
  apply (parse_related hoffset (related_of_map_shout h)).with_eq.imp
  rintro nodes nodesOther ⟨hnodes, hparse, -⟩
  exact upperCasedEach_of_related hnodes (isKept_of_parse hparse)

end Read

end SqlLayout
