import SqlLayout.Proofs.Read.Statements

/-!
# Reading tables and joins

What a FROM clause is read as when commas, joins and conditions stand in it in any order.  Behind its
first table each part is a table behind a comma or a join with its table, and the table of a join may have
an ON with linked comparisons behind it.
-/

namespace SqlLayout

open Text Token Spelling Regular

inductive LinkedComparisons : List Node → Prop
  | one {left right : Node} {op : String} {next : Nat} :
      upper op ≠ "IN" → Comparison 0 next left right →
      LinkedComparisons [.condition [left, .operator op, right]]
  | more {left right : Node} {op word : String} {next : Nat} {rest : List Node} :
      upper op ≠ "IN" → Comparison 0 next left right → upper word ∈ ["AND", "OR"] →
      LinkedComparisons rest →
      LinkedComparisons (.condition [left, .operator op, right] :: .link word :: rest)

theorem Spelling.conditionTokens_link (word : String) :
    conditionTokens (.link word) = [⟨.link, upper word⟩] := rfl

inductive FromPart where
  /-- A comma and a table. -/
  | table (t : Term)
  /-- A join and its table. -/
  | join (word : String) (t : Term)
  /-- A join, its table and conditions behind an ON. -/
  | joinOn (word : String) (t : Term) (onWord : String) (conditions : List Node)

namespace FromPart

def nodes : FromPart → List Node
  | table t => [.term t]
  | join word t => [.join word, .term t]
  | joinOn word t onWord conditions => [.join word, .term t, .onClause onWord conditions]

def tokens : FromPart → List Token
  | table t => comma :: namedTokens t
  | join word t => ⟨.join, upper word⟩ :: namedTokens t
  | joinOn word t onWord conditions =>
    ⟨.join, upper word⟩ :: (namedTokens t ++
      ⟨.onWord, upper onWord⟩ :: conditions.flatMap conditionTokens)

def IsTable (t : Term) : Prop :=
  t.kind = .identifier ∧ isNamed t = true

def IsJoin (word : String) : Prop :=
  "JOIN".toList <:+: (upper word).toList

def IsRegular : FromPart → Prop
  | table t => IsTable t
  | join word t => IsJoin word ∧ IsTable t
  | joinOn word t onWord conditions =>
    IsJoin word ∧ IsTable t ∧ upper onWord = "ON" ∧ LinkedComparisons conditions

end FromPart

def Spelling.clauseTokens (first : Term) (parts : List FromPart) : List Token :=
  ⟨.fromWord, "FROM"⟩ :: (namedTokens first ++ parts.flatMap FromPart.tokens)

namespace Read

variable {rest : List Token} {bound : Nat} {parts : List FromPart}

def startsPart (kind : Kind) : Bool :=
  kind = .comma || kind = .join

theorem opens_startsPart (parts : List FromPart) :
    opens startsPart (parts.flatMap FromPart.tokens) = true := by
  cases parts with
  | nil => rfl
  | cons part parts => cases part <;> rfl

theorem opens_endsAlias {tokens : List Token} (h : opens startsPart tokens = true) :
    opens Kind.endsAlias tokens = true :=
  opens_of_forall (fun kind hkind ↦ by cases kind <;> first | rfl | cases hkind) h

/-! ### Comparisons -/

/-- A comparison in front of a link or of the next part is read by itself. -/
theorem readRemaining_of_comparison {left right : Node} {op : String} {next : Nat} (hop : upper op ≠ "IN")
    (hform : Comparison 0 next left right)
    (hrest : opens (fun kind ↦ kind = .link || startsPart kind) rest = true) :
    readRemaining 0 (conditionTokens (.condition [left, .operator op, right]) ++ rest) =
      .ok ([(Node.condition [left, .operator op, right]).upperCased],
        (conditionTokens (.condition [left, .operator op, right])).length) := by
  have hnone : ∀ stage, readRemaining stage rest = .ok ([], 0) := fun stage ↦
    readRemaining_of_opens stage
      (opens_of_forall (fun kind hkind ↦ by cases kind <;> first | rfl | cases hkind) hrest)
  have halias : opens Kind.endsAlias rest = true :=
    opens_of_forall (fun kind hkind ↦ by cases kind <;> first | rfl | cases hkind) hrest
  cases hform with
  | names hleft hright =>
    rw [readRemaining_names hop hleft hright, hnone]
    simp [prepend, Except.map]
  | callOnRight hstage hleft hright =>
    rw [readRemaining_callOnRight hop hleft hright hstage halias, hnone]
    simp [prepend, Except.map]
  | callOnLeft hstage hleft hright =>
    rw [readRemaining_callOnLeft hop hleft hright hstage, hnone]
    simp [prepend, Except.map]

theorem length_comparison_pos (left right : Node) (op : String) :
    0 < (conditionTokens (.condition [left, .operator op, right])).length := by
  have hop : (partTokens (.operator op)).length = 1 := rfl
  simp only [conditionTokens, List.flatMap_cons, List.length_append]
  omega

theorem readJoinConditions_linked {conditions : List Node} (h : LinkedComparisons conditions)
    (hrest : opens startsPart rest = true) (hbound : (conditions.flatMap conditionTokens).length ≤ bound) :
    readJoinConditions bound (conditions.flatMap conditionTokens ++ rest) =
      .ok (Node.upperCasedEach conditions, (conditions.flatMap conditionTokens).length) := by
  induction h generalizing bound with
  | @one left right op next hop hform =>
    have hpos := length_comparison_pos left right op
    rw [List.flatMap_singleton] at hbound ⊢
    obtain ⟨bound, rfl⟩ : ∃ n, bound = n + 1 := ⟨bound - 1, by omega⟩
    have hread := readRemaining_of_comparison hop hform
      (opens_of_forall (fun kind hkind ↦ by simp [hkind]) hrest)
    have hlink : behindLink? rest = none := by
      cases rest with
      | nil => rfl
      | cons token rest =>
        obtain ⟨kind, text⟩ := token
        cases kind <;> first | rfl | cases hrest
    rw [readJoinConditions_succ, readJoined, hread]
    simp [bind, Except.bind, hlink, Node.upperCasedEach]
  | @more left right op word next conditions hop hform _ _ ih =>
    have hpos := length_comparison_pos left right op
    have htokens : (Node.condition [left, .operator op, right] :: .link word :: conditions).flatMap
        conditionTokens = conditionTokens (.condition [left, .operator op, right]) ++
          ⟨.link, upper word⟩ :: conditions.flatMap conditionTokens := rfl
    rw [htokens] at hbound ⊢
    rw [List.length_append, List.length_cons] at hbound
    obtain ⟨bound, rfl⟩ : ∃ n, bound = n + 1 := ⟨bound - 1, by omega⟩
    have hread := readRemaining_of_comparison hop hform
      (show opens _ (⟨.link, upper word⟩ :: (conditions.flatMap conditionTokens ++ rest)) = true from rfl)
    have hmore : readJoinConditions bound (conditions.flatMap conditionTokens ++ rest) = _ :=
      ih (by omega)
    rw [readJoinConditions_succ, readJoined, List.append_assoc, List.cons_append, hread]
    simp only [bind, Except.bind, List.drop_left, behindLink?, hmore]
    simp [Node.upperCasedEach, Node.upperCased]
    omega

/-! ### Parts -/

theorem readFromParts_join (word : String) {taken : Nat} {t : Term} {parts : List Node}
    (ht : isNamed t = true) (hrest : opens Kind.endsAlias rest = true)
    (hread : readFromParts bound rest = .ok (parts, taken)) :
    readFromParts (bound + 2) (⟨.join, upper word⟩ :: (namedTokens t ++ rest)) =
      .ok ((Node.join word).upperCased :: (Node.term t).upperCased :: parts,
        1 + ((namedTokens t).length + taken)) := by
  have htable := readFromParts_named ht (fun _ ↦ hrest) hread
  have hjoin : readFromPart (⟨.join, upper word⟩ :: (namedTokens t ++ rest)) =
      .ok (some ([(Node.join word).upperCased], 1)) := by
    simp [readFromPart, Node.upperCased]
  exact readFromParts_succ hjoin htable

theorem readFromParts_on (word : String) {taken : Nat} {conditions parts : List Node}
    (hconditions : LinkedComparisons conditions) (hrest : opens startsPart rest = true)
    (hread : readFromParts bound rest = .ok (parts, taken)) :
    readFromParts (bound + 1)
        (⟨.onWord, upper word⟩ :: (conditions.flatMap conditionTokens ++ rest)) =
      .ok ((Node.onClause word conditions).upperCased :: parts,
        (conditions.flatMap conditionTokens).length + 1 + taken) := by
  have hlinked : readJoinConditions (conditions.flatMap conditionTokens ++ rest).length
      (conditions.flatMap conditionTokens ++ rest) = _ :=
    readJoinConditions_linked hconditions hrest (by simp)
  have hon : readFromPart (⟨.onWord, upper word⟩ :: (conditions.flatMap conditionTokens ++ rest)) =
      .ok (some ([(Node.onClause word conditions).upperCased],
        (conditions.flatMap conditionTokens).length + 1)) := by
    simp only [readFromPart, hlinked, bind, Except.bind, Node.upperCased]
  exact readFromParts_succ hon (by rw [List.drop_succ_cons, List.drop_left, hread])

theorem readFromParts_tokens (hparts : ∀ part ∈ parts, part.IsRegular)
    (hbound : (parts.flatMap FromPart.tokens).length ≤ bound) :
    readFromParts bound (parts.flatMap FromPart.tokens) =
      .ok (Node.upperCasedEach (parts.flatMap FromPart.nodes),
        (parts.flatMap FromPart.tokens).length) := by
  induction parts generalizing bound with
  | nil => exact readFromParts_of_opens bound rfl
  | cons part parts ih =>
    obtain ⟨hpart, hmore⟩ := List.forall_mem_cons.mp hparts
    have hnext := opens_startsPart parts
    rw [List.flatMap_cons, List.length_append] at hbound
    cases part with
    | table t =>
      simp only [FromPart.tokens, namedTokens, List.length_cons] at hbound
      obtain ⟨bound, rfl⟩ : ∃ n, bound = n + 2 := ⟨bound - 2, by omega⟩
      have hread : readFromParts bound (parts.flatMap FromPart.tokens) = _ := ih hmore (by omega)
      have hcomma : readFromParts (bound + 2)
          (comma :: (namedTokens t ++ parts.flatMap FromPart.tokens)) = _ :=
        readFromParts_succ rfl
          (readFromParts_named hpart.2 (fun _ ↦ opens_endsAlias hnext) hread)
      rw [List.flatMap_cons, FromPart.tokens, List.cons_append, hcomma]
      simp [FromPart.nodes, Node.upperCasedEach, -List.length_flatMap]
      omega
    | join word t =>
      simp only [FromPart.tokens, namedTokens, List.length_cons] at hbound
      obtain ⟨bound, rfl⟩ : ∃ n, bound = n + 2 := ⟨bound - 2, by omega⟩
      have hread : readFromParts bound (parts.flatMap FromPart.tokens) = _ := ih hmore (by omega)
      rw [List.flatMap_cons, FromPart.tokens, List.cons_append,
        readFromParts_join word hpart.2.2 (opens_endsAlias hnext) hread]
      simp [FromPart.nodes, Node.upperCasedEach, -List.length_flatMap]
      omega
    | joinOn word t onWord conditions =>
      simp only [FromPart.tokens, namedTokens, List.length_cons, List.length_append] at hbound
      obtain ⟨bound, rfl⟩ : ∃ n, bound = n + 3 := ⟨bound - 3, by omega⟩
      have hread : readFromParts bound (parts.flatMap FromPart.tokens) = _ := ih hmore (by omega)
      have hon := readFromParts_on onWord hpart.2.2.2 hnext hread
      rw [List.flatMap_cons, FromPart.tokens, List.cons_append, List.append_assoc, List.cons_append,
        readFromParts_join word hpart.2.1.2 rfl hon]
      simp [FromPart.nodes, Node.upperCasedEach, -List.length_flatMap]
      omega

theorem readFrom_clauseTokens {first : Term} (hfirst : FromPart.IsTable first)
    (hparts : ∀ part ∈ parts, part.IsRegular) :
    readFrom (clauseTokens first parts) =
      .ok ((Node.fromClause "FROM" (.term first :: parts.flatMap FromPart.nodes)).upperCased,
        (clauseTokens first parts).length) := by
  have hword : upper "FROM" = "FROM" := by decide +kernel
  have hread := readFromParts_tokens hparts
    (show _ ≤ (aliasTokens first.asWord first.aliasName ++ parts.flatMap FromPart.tokens).length by simp)
  have hnamed : readFromParts (namedTokens first ++ parts.flatMap FromPart.tokens).length
      (namedTokens first ++ parts.flatMap FromPart.tokens) = _ :=
    readFromParts_named hfirst.2 (fun _ ↦ opens_endsAlias (opens_startsPart parts)) hread
  simp only [clauseTokens, readFrom, hnamed, bind, Except.bind]
  simp [Node.upperCased, Node.upperCasedEach, hword]

/-- A FROM clause is read as its tables, joins and conditions. -/
theorem parse_clauseTokens {first : Term} (hfirst : FromPart.IsTable first)
    (hparts : ∀ part ∈ parts, part.IsRegular) :
    parse (clauseTokens first parts) =
      .ok [(Node.fromClause "FROM" (.term first :: parts.flatMap FromPart.nodes)).upperCased] := by
  have hfrom := readFrom_clauseTokens hfirst hparts
  have hnil : ∀ bound, readStatements bound [] = ⟨[], none⟩ := fun bound ↦ by cases bound <;> rfl
  obtain ⟨rest, hrest⟩ : ∃ rest, clauseTokens first parts = ⟨.fromWord, "FROM"⟩ :: rest := ⟨_, rfl⟩
  rw [hrest] at hfrom ⊢
  have hstatement : readStatement (readStatements rest.length) (⟨.fromWord, "FROM"⟩ :: rest) = _ := hfrom
  simp only [parse, statements, List.length_cons, readStatements, hstatement]
  simp [hnil]

end Read

end SqlLayout
