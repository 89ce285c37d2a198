import SqlLayout.Proofs.Read.Following
import SqlLayout.Proofs.RoundTrip
import SqlLayout.Proofs.Words.Semicolon

/-!
# Statements separated by a semicolon

What stands in front of a semicolon and what stands behind it are formatted independently: the lines of the
first, two empty lines, and the lines of the second.
-/

namespace SqlLayout

open Read Layout

namespace LineBuffer

def behind (buffer : LineBuffer) (front : List String) : LineBuffer :=
  ⟨buffer.pending, front ++ buffer.lines⟩

@[simp] theorem lines_behind (buffer : LineBuffer) (front : List String) :
    (buffer.behind front).lines = front ++ buffer.lines := rfl

theorem endLine_behind (buffer : LineBuffer) (front : List String) :
    (buffer.behind front).endLine = buffer.endLine.behind front := by
  by_cases h : String.join buffer.pending = "" <;> simp [endLine, behind, h]

theorem blankLines_two (buffer : LineBuffer) :
    buffer.blankLines 2 = ({} : LineBuffer).behind (buffer.endLine.lines ++ ["", ""]) := by
  simp [LineBuffer.blankLines, LineBuffer.behind, LineBuffer.endLine]

theorem step?_behind {buffer next : LineBuffer} {edit : Edit} (h : buffer.step? edit = some next)
    (front : List String) : (buffer.behind front).step? edit = some (next.behind front) := by
  cases edit with
  | add text =>
    cases h
    rfl
  | addLine text =>
    cases h
    exact congrArg some (endLine_behind (buffer.add text) front)
  | blankLines count =>
    cases h
    simp only [step?, LineBuffer.blankLines, endLine_behind]
    simp [behind]
  | endLine =>
    cases h
    exact congrArg some (endLine_behind buffer front)
  | extendLast text =>
    simp only [step?, extendLast?] at h ⊢
    cases hlast : buffer.lines.getLast? with
    | none => simp [hlast] at h
    | some last =>
      have hne : buffer.lines ≠ [] := by
        rintro hnil
        simp [hnil] at hlast
      rw [hlast] at h
      cases h
      simp only [lines_behind, List.getLast?_append, hlast,
        List.dropLast_append_of_ne_nil hne]
      exact congrArg some (endLine_behind
        (({ buffer with lines := buffer.lines.dropLast } : LineBuffer).add last |>.add text) front)

theorem steps?_behind {buffer last : LineBuffer} {edits : List Edit}
    (h : buffer.steps? edits = some last) (front : List String) :
    (buffer.behind front).steps? edits = some (last.behind front) := by
  induction edits generalizing buffer with
  | nil =>
    cases h
    rfl
  | cons edit edits ih =>
    obtain ⟨next, hnext, hlast⟩ := Option.bind_eq_some_iff.mp h
    rw [steps?, step?_behind hnext front]
    exact ih hlast

end LineBuffer

/-- A draft that can be written into a buffer can be written behind other lines. -/
theorem Draft.write_behind {α : Type} {draft : Draft α} {buffer last : LineBuffer} {result : α}
    (h : draft.write buffer = .ok (result, last)) (front : List String) :
    draft.write (buffer.behind front) = .ok (result, last.behind front) := by
  unfold write at h ⊢
  cases hsteps : buffer.steps? draft.edits with
  | none =>
    rw [hsteps] at h
    cases h
  | some written =>
    rw [hsteps] at h
    obtain ⟨found, hfound, hlast⟩ := map_eq_ok.mp h
    cases hlast
    rw [LineBuffer.steps?_behind hsteps front, hfound]
    rfl

namespace Layout

theorem write_statements_nil (indent : Int) (buffer : LineBuffer) :
    (statements indent []).write buffer = .ok ([], buffer.endLine) := rfl

theorem write_statements_cons (indent : Int) (node : Node) (rest : List Node) (buffer : LineBuffer) :
    (statements indent (node :: rest)).write buffer =
      (statement indent node).write buffer >>= fun found ↦
        ((statements indent rest).write
          (if isSemicolon node && !rest.isEmpty then found.2.blankLines 2 else found.2)).map
            fun more ↦ (found.1 :: more.1, more.2) := by
  rw [statements, Draft.write_bind]
  congr 1
  funext found
  rw [Draft.write_bind]
  have hgap : (Draft.emit (if isSemicolon node && !rest.isEmpty then [.blankLines 2] else [])).write
      found.2 = .ok ((), if isSemicolon node && !rest.isEmpty then found.2.blankLines 2 else found.2) := by
    split <;> rfl
  rw [hgap, ← bind_ok_eq_map]
  exact Draft.write_bind _ _ _

/-- The layout ends its last line. -/
theorem endLine_of_write_statements {indent : Int} {nodes tree : List Node} {buffer last : LineBuffer}
    (h : (statements indent nodes).write buffer = .ok (tree, last)) : last.endLine = last := by
  induction nodes generalizing tree buffer with
  | nil =>
    cases h
    rfl
  | cons node rest ih =>
    rw [write_statements_cons] at h
    obtain ⟨found, -, hrest⟩ := bind_eq_ok.mp h
    obtain ⟨more, hmore, hlast⟩ := map_eq_ok.mp hrest
    cases hlast
    exact ih hmore

theorem write_query (indent : Int) (word table : String) (columns : List Node) {query : List Node}
    (hquery : query ≠ []) (buffer : LineBuffer) :
    (statement indent (.insertClause word table none columns query)).write buffer =
      (Draft.emit (tableEdits table columns)).write buffer >>= fun found ↦
        ((statements indent query).write found.2).map fun more ↦
          (.insertClause word table none columns more.1, more.2) := by
  have hempty : query.isEmpty = false := by simpa using hquery
  rw [statement, Draft.write_bind]
  simp only [hempty, Bool.false_eq_true, if_false]
  congr 1
  funext found
  rw [← bind_ok_eq_map]
  exact Draft.write_bind _ _ _

/-- The lines of statements with others behind them: two empty lines stand between the two. -/
theorem write_of_follows {others nodes joined : List Node} (h : Follows others nodes joined)
    {indent : Int} (hne : others ≠ []) {left : List Node} {laid : LineBuffer}
    (hothers : (statements indent others).write {} = .ok (left, laid)) {tree : List Node}
    {buffer last : LineBuffer} (hnodes : (statements indent nodes).write buffer = .ok (tree, last)) :
    ∃ tree, (statements indent joined).write buffer =
      .ok (tree, laid.behind (last.lines ++ ["", ""])) := by
  induction h generalizing buffer tree last with
  | semicolon text =>
    rw [write_statements_cons] at hnodes ⊢
    obtain ⟨⟨node, next⟩, hfirst, hrest⟩ := bind_eq_ok.mp hnodes
    cases hrest
    have hgap : (isSemicolon (.semicolon text) && !others.isEmpty) = true := by
      simpa [isSemicolon] using hne
    refine ⟨node :: left, bind_eq_ok.mpr ⟨_, hfirst, ?_⟩⟩
    rw [if_pos hgap, LineBuffer.blankLines_two, Draft.write_behind hothers]
    rfl
  | @cons node nodes joined hfollows ih =>
    rw [write_statements_cons] at hnodes ⊢
    obtain ⟨found, hfound, hrest⟩ := bind_eq_ok.mp hnodes
    obtain ⟨more, hmore, hlast⟩ := map_eq_ok.mp hrest
    cases hlast
    have hempty : nodes.isEmpty = joined.isEmpty := by cases hfollows <;> rfl
    rw [hempty] at hmore
    obtain ⟨tree, hjoined⟩ := ih hmore
    exact ⟨found.1 :: tree, bind_eq_ok.mpr ⟨found, hfound, by rw [hjoined]; rfl⟩⟩
  | @query word table columns nodes joined hfollows ih =>
    have hquery : nodes ≠ [] ∧ joined ≠ [] := by cases hfollows <;> simp
    rw [write_statements_cons, write_query _ _ _ _ hquery.1] at hnodes
    rw [write_statements_cons, write_query _ _ _ _ hquery.2]
    obtain ⟨found, hfound, hrest⟩ := bind_eq_ok.mp hnodes
    obtain ⟨started, hstarted, hmore⟩ := bind_eq_ok.mp hfound
    obtain ⟨stored, hstored, hfound⟩ := map_eq_ok.mp hmore
    cases hfound
    cases hrest
    obtain ⟨tree, hjoined⟩ := ih hstored
    refine ⟨[.insertClause word table none columns tree],
      bind_eq_ok.mpr ⟨_, bind_eq_ok.mpr ⟨started, hstarted, map_eq_ok.mpr ⟨_, hjoined, rfl⟩⟩, ?_⟩⟩
    have hend : (laid.behind (stored.2.lines ++ ["", ""])).endLine =
      laid.behind (stored.2.lines ++ ["", ""]) := endLine_of_write_statements hjoined
    simp only [isSemicolon, Bool.false_and, Bool.false_eq_true, if_false, write_statements_nil, hend,
      endLine_of_write_statements hstored, Except.map]

end Layout

theorem parse_ne_nil {tokens : List Token} {nodes : List Node} (h : parse tokens = .ok nodes)
    (hne : tokens ≠ []) : nodes ≠ [] := by
  obtain ⟨token, rest, rfl⟩ := List.exists_cons_of_ne_nil hne
  rw [parse_cons] at h
  obtain ⟨found, -, hrest⟩ := bind_eq_ok.mp h
  obtain ⟨more, -, rfl⟩ := map_eq_ok.mp hrest
  exact List.cons_ne_nil _ _

/-- A text has lines if each of the three stages comes to its end. -/
theorem format_eq_ok {sql : String} {lines : List String} :
    format sql = .ok lines ↔ (tokenize sql).unclosed = none ∧
      ∃ nodes tree last, parse (tokenize sql).tokens = .ok nodes ∧
        (Layout.statements 0 nodes).write {} = .ok (tree, last) ∧ last.lines = lines := by
  constructor
  · intro h
    obtain ⟨tokens, htokens, h⟩ := bind_eq_ok.mp h
    obtain ⟨nodes, hnodes, h⟩ := bind_eq_ok.mp h
    obtain ⟨styled, hstyled, h⟩ := bind_eq_ok.mp h
    obtain ⟨⟨tree, last⟩, hwritten, hlast⟩ := bind_eq_ok.mp hstyled
    cases h
    cases hlast
    unfold tokensOf at htokens
    split at htokens
    · cases htokens
    · next hclosed =>
      cases htokens
      exact ⟨hclosed, nodes, tree, last, hnodes, hwritten, rfl⟩
  · rintro ⟨hclosed, nodes, tree, last, hnodes, hwritten, rfl⟩
    have htokens : tokensOf sql = .ok (tokenize sql).tokens := by rw [tokensOf, hclosed]
    exact bind_eq_ok.mpr ⟨_, htokens, bind_eq_ok.mpr ⟨_, hnodes, bind_eq_ok.mpr
      ⟨⟨last.lines, tree⟩, bind_eq_ok.mpr ⟨_, hwritten, rfl⟩, rfl⟩⟩⟩

/-- Statements separated by a semicolon are formatted independently, unless a reader looks behind the
semicolon: it does so for a negated call and for an ON that compares two calls. -/
theorem format_semicolon {first second : String} {firstLines secondLines : List String}
    (hfirst : format (first ++ ";") = .ok firstLines) (hsecond : format second = .ok secondLines)
    (htokens : (tokenize second).tokens ≠ []) (hcalls : NegatesNoCall (tokenize first).tokens)
    (hjoins : ∀ nodes, parse (tokenize (first ++ ";")).tokens = .ok nodes →
      ∀ node ∈ nodes, node.Everywhere (·.joinsByCalls = false)) :
    format (first ++ ";" ++ second) = .ok (firstLines ++ ["", ""] ++ secondLines) := by
  obtain ⟨hclosed, nodes, tree, last, hnodes, hwritten, rfl⟩ := format_eq_ok.mp hfirst
  obtain ⟨hend, others, left, laid, hothers, hlaid, rfl⟩ := format_eq_ok.mp hsecond
  have hgood := hjoins nodes hnodes
  have halone := tokenize_semicolon hclosed ""
  rw [String.append_empty] at halone
  rw [halone] at hnodes
  obtain ⟨joined, hjoined, hfollows⟩ := parse_semicolon hcalls hnodes hgood hothers
  obtain ⟨result, hresult⟩ := write_of_follows hfollows (parse_ne_nil hothers htokens) hlaid hwritten
  apply format_eq_ok.mpr
  rw [tokenize_semicolon hclosed second]
  exact ⟨hend, joined, result, _, hjoined, hresult, rfl⟩

/-- `insert into t select a from b join c on f(d) = e where not g = 1;` -/
def storedJoin : List Token :=
  [⟨.insertWord, "insert into"⟩, ⟨.identifier, "t"⟩, ⟨.selectWord, "select"⟩, ⟨.identifier, "a"⟩,
    ⟨.fromWord, "from"⟩, ⟨.identifier, "b"⟩, ⟨.join, "join"⟩, ⟨.identifier, "c"⟩, ⟨.onWord, "on"⟩,
    ⟨.func, "f"⟩, ⟨.openParen, "("⟩, ⟨.identifier, "d"⟩, ⟨.closeParen, ")"⟩, ⟨.compare, "="⟩,
    ⟨.identifier, "e"⟩, ⟨.whereWord, "where"⟩, ⟨.notWord, "not"⟩, ⟨.identifier, "g"⟩,
    ⟨.compare, "="⟩, ⟨.number, "1"⟩, ⟨.semicolon, ";"⟩]

theorem format_semicolon_storedJoin :
    NegatesNoCall storedJoin.dropLast ∧ ∃ node, parse storedJoin = .ok [node] ∧
      node.Everywhere (·.joinsByCalls = false) ∧
      format ("insert into t select a from b join c on f(d) = e where not g = 1" ++ ";" ++ "select h") =
        .ok (["INSERT INTO", "    t", "SELECT", "    a", "FROM", "    b", "    JOIN c ON",
          "        F(d) = e", "WHERE", "    NOT g = 1;"] ++ ["", ""] ++ ["SELECT", "    h"]) := by
  have hcalls : NegatesNoCall storedJoin.dropLast := by
    unfold NegatesNoCall
    decide
  obtain ⟨node, hparse, htest⟩ : ∃ node, parse storedJoin = .ok [node] ∧
      node.Everywhere (fun part ↦ (!part.joinsByCalls) = true) :=
    ⟨_, rfl, Node.everywhere_of_allTo 7 rfl⟩
  have hjoins : node.Everywhere (·.joinsByCalls = false) :=
    fun part hpart ↦ by simpa using htest part hpart
  refine ⟨hcalls, node, hparse, hjoins, ?_⟩
  apply format_semicolon
  · exact eq_ok_of_toOption (by decide +kernel)
  · exact eq_ok_of_toOption (by decide +kernel)
  · decide +kernel
  · have hfront : (tokenize "insert into t select a from b join c on f(d) = e where not g = 1").tokens =
        storedJoin.dropLast := by decide +kernel
    rw [hfront]
    exact hcalls
  · have htokens : (tokenize
        ("insert into t select a from b join c on f(d) = e where not g = 1" ++ ";")).tokens =
        storedJoin := by decide +kernel
    rw [htokens, hparse]
    rintro nodes ⟨⟩ part hpart
    rw [List.mem_singleton.mp hpart]
    exact hjoins

end SqlLayout
