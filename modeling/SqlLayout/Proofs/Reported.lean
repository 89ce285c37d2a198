import SqlLayout.Proofs.Layout.Outcome
import SqlLayout.Proofs.Read.Reported
import SqlLayout.Proofs.RoundTrip

/-!
# Defects of a text are reported

Whoever formats a text expects two kinds of faults: a defect of the SQL, and a quote that is never closed.
If the tokens are guarded, no statement is a call and each join has its table, then a text whose
formatting ends is formatted or fails in one of these two ways.  Each of the conditions is needed.
-/

namespace SqlLayout

/-- Whether a fault is one that is expected of a text: a defect of the SQL or a quote that is never
closed. -/
def Fault.isReported : Fault → Bool
  | unclosedQuote _ => true
  | fault => fault.isInvalid

theorem Fault.isReported_of_isInvalid {fault : Fault} (h : fault.isInvalid = true) :
    fault.isReported = true := by
  unfold isReported
  split
  · rfl
  · exact h

namespace Layout

open Read

/-- How a layout stops at a statement that it knows: the statement is invalid, or its HAVING has a condition
that is never done. -/
def IsStop (fault : Fault) : Prop :=
  fault = .invalidStatement ∨ fault = .endless

theorem failsOnly_havingCondition (parts : List Node) :
    FailsOnly IsStop (havingCondition (.condition parts)) := by
  have hendless : FailsOnly IsStop (Draft.fail .endless : Draft Unit) := by
    intro fault h
    cases h
    exact .inr rfl
  have hemit : ∀ edits, FailsOnly IsStop (Draft.emit edits) :=
    fun edits ↦ (isSafe_emit edits).failsOnly (.inl rfl)
  rw [havingCondition_condition]
  unfold havingValues
  split
  · split
    · exact hemit _
    · exact hendless
  · split
    · exact hemit _
    · exact hendless
  · exact hendless

theorem failsOnly_havingConditions (indent : Int) {nodes : List Node} (h : Alternate IsCondition nodes) :
    FailsOnly IsStop (havingConditions indent nodes) := by
  induction h with
  | nil => exact (isSafe_emit _).failsOnly (.inl rfl)
  | last word => exact (isSafe_emit_bind isSafe_fail).failsOnly (.inl rfl)
  | link word hnode _ ih =>
    obtain ⟨parts, rfl⟩ := exists_parts_of_isCondition hnode
    exact failsOnly_emit_bind ((failsOnly_havingCondition parts).bind fun _ ↦ ih)
  | node _ _ ih => exact failsOnly_emit_bind ((failsOnly_havingCondition _).bind fun _ ↦ ih)

theorem FailsOnly.of_write {α : Type} {allowed : Fault → Prop} {draft : Draft α}
    (h : FailsOnly allowed draft) (hinvalid : allowed .invalidStatement) {buffer : LineBuffer}
    {fault : Fault} (hwrite : draft.write buffer = .error fault) : allowed fault := by
  unfold Draft.write at hwrite
  split at hwrite
  · cases hwrite
    exact hinvalid
  · cases houtcome : draft.outcome with
    | error stop =>
      rw [houtcome] at hwrite
      cases hwrite
      exact h _ houtcome
    | ok result =>
      rw [houtcome] at hwrite
      cases hwrite

theorem isStop_of_style {indent : Int} {tokens : List Token} {nodes : List Node} {fault : Fault}
    (hparse : parse tokens = .ok nodes)
    (hcalls : ∀ node ∈ nodes, ∀ part, StatedIn part node → part.isCall = false)
    (hjoins : ∀ node ∈ nodes, node.Everywhere (hasTables · = true))
    (hstyle : style indent nodes = .error fault) : IsStop fault := by
  have hfails : ∀ node ∈ nodes, FailsByHaving IsStop indent node := by
    intro node hnode
    obtain ⟨hstatement, hbuilt⟩ := wellBuilt_of_parse hparse node hnode
    refine ⟨hstatement, hbuilt, hcalls node hnode, hjoins node hnode, fun part hpart ↦ ?_⟩
    cases part with
    | havingClause word conditions =>
      apply failsOnly_havingConditions indent
      exact (alternate_of_areLinked (hbuilt _ hpart) fun _ _ hcondition ↦ hcondition).1
    | _ => trivial
  have hdraft : FailsOnly IsStop (statements indent nodes) :=
    failsOnly_statements (.inl rfl) hfails
  rcases bind_eq_error.mp hstyle with hwrite | ⟨written, -, hreturn⟩
  · exact hdraft.of_write (.inl rfl) hwrite
  · cases hreturn

end Layout

open Read Layout

/-- If the tokens of a text are guarded, no statement of it is a call and each join has its table, then the
formatting of the text gives lines or a fault that is reported, provided that it ends. -/
theorem format_ok_or_isReported {sql : String}
    (hguarded : ∀ tokens, tokensOf sql = .ok tokens → isGuarded tokens = true)
    (htrees : ∀ tokens nodes, tokensOf sql = .ok tokens → parse tokens = .ok nodes →
      ∀ node ∈ nodes, (∀ part, StatedIn part node → part.isCall = false) ∧
        node.Everywhere (hasTables · = true))
    (hends : format sql ≠ .error .endless) :
    (∃ lines, format sql = .ok lines) ∨
      ∃ fault, format sql = .error fault ∧ fault.isReported = true := by
  cases hformat : format sql with
  | ok lines => exact .inl ⟨lines, rfl⟩
  | error fault =>
    refine .inr ⟨fault, rfl, ?_⟩
    rcases bind_eq_error.mp hformat with hcut | ⟨tokens, htokens, hread⟩
    · unfold tokensOf at hcut
      split at hcut
      · cases hcut
        rfl
      · cases hcut
    · rcases bind_eq_error.mp hread with hparse | ⟨nodes, hnodes, hlaid⟩
      · exact Fault.isReported_of_isInvalid (isInvalid_of_parse (hguarded tokens htokens) hparse)
      · rcases bind_eq_error.mp hlaid with hstyle | ⟨styled, -, hreturn⟩
        · have htree := htrees tokens nodes htokens hnodes
          rcases isStop_of_style hnodes (fun node h ↦ (htree node h).1) (fun node h ↦ (htree node h).2)
            hstyle with rfl | rfl
          · rfl
          · exact absurd hformat hends
        · cases hreturn

/-- `insert into t (a) select count(b) from c join d where e in (1) and f = 2` -/
def storedMembers : List Token :=
  [⟨.insertWord, "insert into"⟩, ⟨.identifier, "t"⟩, ⟨.openParen, "("⟩, ⟨.identifier, "a"⟩,
    ⟨.closeParen, ")"⟩, ⟨.selectWord, "select"⟩, ⟨.func, "count"⟩, ⟨.openParen, "("⟩,
    ⟨.identifier, "b"⟩, ⟨.closeParen, ")"⟩, ⟨.fromWord, "from"⟩, ⟨.identifier, "c"⟩, ⟨.join, "join"⟩,
    ⟨.identifier, "d"⟩, ⟨.whereWord, "where"⟩, ⟨.identifier, "e"⟩, ⟨.inWord, "in"⟩,
    ⟨.openParen, "("⟩, ⟨.number, "1"⟩, ⟨.closeParen, ")"⟩, ⟨.link, "and"⟩, ⟨.identifier, "f"⟩,
    ⟨.compare, "="⟩, ⟨.number, "2"⟩]

theorem format_storedMembers_ok_or_isReported :
    ∃ sql, tokensOf sql = .ok storedMembers ∧ isGuarded storedMembers = true ∧
      format sql ≠ .error .endless ∧ ((∃ lines, format sql = .ok lines) ∨
        ∃ fault, format sql = .error fault ∧ fault.isReported = true) := by
  have htokens : tokensOf "insert into t (a) select count(b) from c join d where e in (1) and f = 2" =
      .ok storedMembers := eq_ok_of_toOption (by decide +kernel)
  have hguarded : isGuarded storedMembers = true := by decide
  have hparse : parse storedMembers = .ok [.insertClause "insert into" "t" none
      [.plain .identifier "a"] [.selectClause "select" [.call "count" [.plain .identifier "b"] none none],
        .fromClause "from" [.plain .identifier "c", .join "join", .plain .identifier "d"],
        .whereClause "where" [.condition [.plain .identifier "e", .operator "in",
            .group [.plain .number "1"]], .link "and",
          .condition [.plain .identifier "f", .operator "=", .plain .number "2"]]]] := rfl
  have hends : format "insert into t (a) select count(b) from c join d where e in (1) and f = 2" ≠
      .error .endless := by
    obtain ⟨styled, hstyled⟩ := Option.isSome_iff_exists.mp
      (show (parse storedMembers >>= style 0).toOption.isSome = true by decide +kernel)
    have hstyled := eq_ok_of_toOption hstyled
    rw [hparse] at hstyled
    rw [format_of_style htokens hparse hstyled]
    simp
  refine ⟨_, htokens, hguarded, hends, format_ok_or_isReported ?_ ?_ hends⟩
  · intro tokens h
    rw [htokens] at h
    cases h
    exact hguarded
  · intro tokens nodes h hnodes node hnode
    rw [htokens] at h
    cases h
    rw [hparse] at hnodes
    cases hnodes
    obtain rfl := List.mem_singleton.mp hnode
    constructor
    · intro part hpart
      cases hpart with
      | self => rfl
      | query hchild hpart =>
        simp only [List.mem_cons, List.not_mem_nil, or_false] at hchild
        rcases hchild with rfl | rfl | rfl <;> cases hpart <;> rfl
    · exact Node.everywhere_of_allTo 6 rfl

def unguarded : List (String × Fault) :=
  [("select count(a", .endOfTokens),
    ("select a )", .strayParenthesis),
    ("select a where not f(b) = 1", .strayParenthesis),
    ("insert into 5 select a", .misplacedToken),
    ("insert into t values (1)", .strayParenthesis),
    ("select a where b in (1) and c", .endOfTokens),
    ("select a count(b)", .unsupported "Func"),
    ("select a from b join join c", .missingPart)]

def faultOf? {α : Type} : Except Fault α → Option Fault
  | .error fault => some fault
  | .ok _ => none

theorem eq_error_of_faultOf? {α : Type} {result : Except Fault α} {fault : Fault}
    (h : faultOf? result = some fault) : result = .error fault := by
  cases result with
  | error stop => exact congrArg Except.error (Option.some.inj h)
  | ok found => cases h

/-- None of these faults is reported. -/
theorem format_unguarded :
    unguarded.map (fun entry ↦ format entry.1) = unguarded.map (fun entry ↦ .error entry.2) ∧
      unguarded.all (fun entry ↦ !entry.2.isReported) = true := by
  have hfaults : unguarded.all (fun entry ↦ faultOf? (format entry.1) = some entry.2) = true := by
    decide +kernel
  refine ⟨List.map_congr_left fun entry hentry ↦ ?_, by decide⟩
  have hfault := List.all_eq_true.mp hfaults entry hentry
  exact eq_error_of_faultOf? (of_decide_eq_true hfault)

end SqlLayout
