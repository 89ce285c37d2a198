import SqlLayout.Proofs.Read.Semicolon

/-!
# Statements behind a semicolon

The statements in front of a semicolon are read alike whatever follows it, and those behind it are added to
them.  An INSERT with a query stores all the statements that are left, so they are added to its query.
-/

namespace SqlLayout.Read

open Node

inductive Follows (others : List Node) : List Node → List Node → Prop
  | semicolon (text : String) : Follows others [.semicolon text] (.semicolon text :: others)
  | cons (node : Node) {nodes joined : List Node} :
      Follows others nodes joined → Follows others (node :: nodes) (node :: joined)
  | query (word table : String) (columns : List Node) {nodes joined : List Node} :
      Follows others nodes joined →
        Follows others [.insertClause word table none columns nodes]
          [.insertClause word table none columns joined]

/-- Reading an INSERT that takes all the tokens, the last of them as the statements of its query. -/
def Absorbs (read : List Token → Except Fault (Node × Nat)) (word table : String)
    (columns : List Node) (front more : List Token) : Prop :=
  read (front ++ more) = (parse more).map fun query ↦
    (.insertClause word table none columns query, front.length + totalCount (statements more).read)

theorem parse_of_absorbs {word table : String} {columns : List Node} {front more : List Token}
    (hfront : front ≠ []) (h : Absorbs (readStatement statements) word table columns front more) :
    parse (front ++ more) =
      (parse more).map fun query ↦ [.insertClause word table none columns query] := by
  obtain ⟨token, rest, rfl⟩ := List.exists_cons_of_ne_nil hfront
  rw [List.cons_append, parse_cons, ← List.cons_append, h]
  cases hmore : parse more with
  | error fault => rfl
  | ok query =>
    have hlength : (token :: rest ++ more).length ≤
        (token :: rest).length + totalCount (statements more).read := by
      rw [List.length_append]
      exact Nat.add_le_add_left (length_le_totalCount hmore) _
    simp only [Except.map, Except.bind, List.drop_eq_nil_of_le hlength, parse_nil]

section Seams

variable {t u : List Token} (hseam : Seam t u) {xs : List Token} {node : Node} {count : Nat}

include hseam

theorem readSource_settles_or_absorbs (word table : String) (columns : List Node)
    (h : readSource statements word table columns (xs ++ t) = .ok (node, count)) :
    (count ≤ xs.length ∧ readSource statements word table columns (xs ++ u) = .ok (node, count)) ∨
      ∀ v, Absorbs (readSource statements word table columns) word table columns [] (xs ++ v) := by
  rcases xs with _ | ⟨⟨kind, text⟩, rest⟩
  · cases hseam
    cases h
    exact .inl ⟨Nat.zero_le _, rfl⟩
  · cases kind with
    | valuesWord =>
      left
      rcases rest with _ | ⟨⟨kind, paren⟩, inner⟩
      · cases hseam
        cases h
        exact ⟨Nat.zero_le _, rfl⟩
      · cases kind with
        | openParen =>
          obtain ⟨⟨rows, taken⟩, hrows, hnode⟩ := bind_eq_ok.mp h
          cases hnode
          have hlength : inner.length ≤ (inner ++ u).length := by
            rw [List.length_append]
            exact Nat.le_add_right _ _
          obtain ⟨hle, hsecond⟩ := readRows_settles hseam [] hlength rows taken hrows trivial
          exact ⟨Nat.add_le_add_right hle 2, bind_eq_ok.mpr ⟨_, hsecond, rfl⟩⟩
        | _ =>
          cases h
          exact ⟨Nat.zero_le _, rfl⟩
    | selectWord =>
      right
      intro v
      simp only [Absorbs, List.nil_append, List.cons_append, readSource_select, List.length_nil,
        Nat.zero_add]
    | _ =>
      cases h
      exact .inl ⟨Nat.zero_le _, rfl⟩

theorem readInsert_settles_or_absorbs
    (h : readInsert statements (xs ++ t) = .ok (node, count)) :
    (count ≤ xs.length ∧ readInsert statements (xs ++ u) = .ok (node, count)) ∨
      ∃ word table columns front more, xs = front ++ more ∧ front ≠ [] ∧
        Absorbs (readInsert statements) word table columns front (more ++ t) ∧
        Absorbs (readInsert statements) word table columns front (more ++ u) := by
  rcases xs with _ | ⟨insert, _ | ⟨table, rest⟩⟩
  · cases hseam
    cases h
  · cases hseam
    cases h
  · simp only [List.cons_append, readInsert_eq] at h ⊢
    split at h
    · next htable =>
      rw [if_pos htable]
      obtain ⟨⟨columns, n⟩, hcolumns, hsource⟩ := bind_eq_ok.mp h
      obtain ⟨hn, hcolumns'⟩ := readColumnList_settles hseam rest columns n hcolumns trivial
      obtain ⟨⟨found, taken⟩, hfound, hnode⟩ := map_eq_ok.mp hsource
      cases hnode
      simp only [List.drop_append_of_le_length hn] at hfound
      rcases readSource_settles_or_absorbs hseam _ _ _ hfound with ⟨hle, hsecond⟩ | habsorbs
      · left
        rw [List.length_drop] at hle
        simp only [List.length_cons]
        refine ⟨by omega, ?_⟩
        simp only [hcolumns', Except.bind, List.drop_append_of_le_length hn, hsecond, Except.map]
      · right
        have hinsert {v : List Token} (hv : readColumnList (rest ++ v) = .ok (columns, n)) :
            Absorbs (readInsert statements) insert.text table.text columns
              (insert :: table :: rest.take n) (rest.drop n ++ v) := by
          have hsource := habsorbs v
          simp only [Absorbs, List.nil_append, List.length_nil, Nat.zero_add] at hsource
          simp only [Absorbs, List.cons_append, ← List.append_assoc, List.take_append_drop,
            readInsert_eq, htable, if_true, hv, Except.bind, List.drop_append_of_le_length hn, hsource]
          cases parse (rest.drop n ++ v) with
          | error fault => rfl
          | ok query =>
            simp only [Except.map, List.length_cons, List.length_take_of_le hn, Nat.add_comm 2 n]
        refine ⟨insert.text, table.text, columns, insert :: table :: rest.take n, rest.drop n, ?_, ?_,
          hinsert hcolumns, hinsert hcolumns'⟩
        · simp only [List.cons_append, List.take_append_drop]
        · exact List.cons_ne_nil _ _
    · cases h

theorem readStatement_settles_or_absorbs {token : Token} {rest : List Token}
    (hcalls : NegatesNoCall rest)
    (h : readStatement statements (token :: rest ++ t) = .ok (node, count))
    (hjoins : ∀ child ∈ node.children, child.joinsByCalls = false) :
    (count ≤ (token :: rest).length ∧
        readStatement statements (token :: rest ++ u) = .ok (node, count)) ∨
      ∃ word table columns front more, token :: rest = front ++ more ∧ front ≠ [] ∧
        Absorbs (readStatement statements) word table columns front (more ++ t) ∧
        Absorbs (readStatement statements) word table columns front (more ++ u) := by
  obtain ⟨kind, text⟩ := token
  cases kind with
  | groupWord => exact .inl (readGroupBy_settles hseam _ rest node count h trivial)
  | fromWord => exact .inl (readFrom_settles hseam _ rest node count h hjoins)
  | func => exact .inl (readCall_settles hseam (⟨.func, text⟩ :: rest) node count h trivial)
  | havingWord => exact .inl (readHaving_settles hseam _ hcalls node count h trivial)
  | insertWord =>
    rcases readInsert_settles_or_absorbs hseam h with
      hsettles | ⟨word, table, columns, front, more, hxs, hfront, hfirst, hsecond⟩
    · exact .inl hsettles
    · refine .inr ⟨word, table, columns, front, more, hxs, hfront, ?_, ?_⟩
      · rw [Absorbs, ← List.append_assoc, ← hxs] at hfirst ⊢
        exact hfirst
      · rw [Absorbs, ← List.append_assoc, ← hxs] at hsecond ⊢
        exact hsecond
  | limitWord => exact .inl (readLimit_settles hseam (⟨.limitWord, text⟩ :: rest) node count h trivial)
  | orderWord => exact .inl (readOrderBy_settles hseam _ rest node count h trivial)
  | selectWord => exact .inl (readSelect_settles hseam _ rest node count h trivial)
  | semicolon =>
    cases h
    exact .inl ⟨Nat.le_add_left _ _, rfl⟩
  | whereWord => exact .inl (readWhere_settles hseam _ hcalls node count h trivial)
  | _ => cases h

/-- One statement: it is the same in both lists, and the reading goes on behind it or inside it. -/
theorem parse_step {nodes : List Node} (hcalls : NegatesNoCall xs) (hne : xs ≠ [])
    (h : parse (xs ++ t) = .ok nodes)
    (hjoins : ∀ node ∈ nodes, node.Everywhere (·.joinsByCalls = false)) :
    (∃ node others more, nodes = node :: others ∧ more.length < xs.length ∧ more <:+ xs ∧
        parse (more ++ t) = .ok others ∧ parse (xs ++ u) = (parse (more ++ u)).map (node :: ·)) ∨
      ∃ word table columns query more, nodes = [.insertClause word table none columns query] ∧
        more.length < xs.length ∧ more <:+ xs ∧ parse (more ++ t) = .ok query ∧
        parse (xs ++ u) =
          (parse (more ++ u)).map fun query ↦ [.insertClause word table none columns query] := by
  obtain ⟨token, rest, rfl⟩ := List.exists_cons_of_ne_nil hne
  have hfirst := h
  rw [List.cons_append, parse_cons, ← List.cons_append] at hfirst
  obtain ⟨⟨node, count⟩, hnode, hrest⟩ := bind_eq_ok.mp hfirst
  obtain ⟨others, hothers, rfl⟩ := map_eq_ok.mp hrest
  have hchildren := (everywhere_iff.mp (hjoins node (List.mem_cons_self ..))).2
  rcases readStatement_settles_or_absorbs hseam (hcalls.suffix (List.suffix_cons token rest)) hnode
    (fun child hchild ↦ (everywhere_iff.mp (hchildren child hchild)).1) with
    ⟨hle, hsecond⟩ | ⟨word, table, columns, front, more, hxs, hfront, hfirst, hsecond⟩
  · left
    have hpos := readStatement_count_pos hnode
    rw [List.drop_append_of_le_length hle] at hothers
    refine ⟨node, others, (token :: rest).drop count, rfl, ?_, List.drop_suffix _ _, hothers, ?_⟩
    · rw [List.length_drop]
      omega
    · rw [List.cons_append, parse_cons, ← List.cons_append, hsecond]
      simp only [Except.bind, List.drop_append_of_le_length hle]
  · right
    rw [hxs, List.append_assoc, parse_of_absorbs hfront hfirst] at h
    obtain ⟨query, hquery, hnodes⟩ := map_eq_ok.mp h
    refine ⟨word, table, columns, query, more, hnodes.symm, ?_, ⟨front, hxs.symm⟩, hquery, ?_⟩
    · rw [hxs, List.length_append]
      have := List.length_pos_iff.mpr hfront
      omega
    · rw [hxs, List.append_assoc, parse_of_absorbs hfront hsecond]

end Seams

/-- The statements behind a semicolon are added to those in front of it. -/
theorem parse_semicolon {xs ys : List Token} {text : String} {nodes others : List Node}
    (hcalls : NegatesNoCall xs) (h : parse (xs ++ [⟨.semicolon, text⟩]) = .ok nodes)
    (hjoins : ∀ node ∈ nodes, node.Everywhere (·.joinsByCalls = false))
    (hothers : parse ys = .ok others) :
    ∃ joined, parse (xs ++ ⟨.semicolon, text⟩ :: ys) = .ok joined ∧ Follows others nodes joined := by
  have hseam := Seam.semicolon text ys
  induction hn : xs.length using Nat.strongRecOn generalizing xs nodes with
  | ind n ih =>
    subst hn
    by_cases hne : xs = []
    · subst hne
      cases h
      refine ⟨.semicolon ";" :: others, ?_, .semicolon ";"⟩
      rw [List.nil_append, parse_cons]
      simp only [readStatement, readSemicolon, Except.bind, List.drop_succ_cons, List.drop_zero,
        hothers, Except.map]
    rcases parse_step hseam hcalls hne h hjoins with
      ⟨node, rest, more, rfl, hlength, hsuffix, hrest, hsecond⟩ |
      ⟨word, table, columns, query, more, rfl, hlength, hsuffix, hquery, hsecond⟩
    · obtain ⟨joined, hjoined, hfollows⟩ := ih more.length hlength (hcalls.suffix hsuffix) hrest
        (fun node hnode ↦ hjoins node (List.mem_cons_of_mem _ hnode)) rfl
      refine ⟨node :: joined, ?_, .cons node hfollows⟩
      rw [hsecond, hjoined]
      rfl
    · have hstored := (everywhere_iff.mp (hjoins _ (List.mem_singleton_self _))).2
      obtain ⟨joined, hjoined, hfollows⟩ := ih more.length hlength (hcalls.suffix hsuffix) hquery
        (fun node hnode ↦ hstored node (List.mem_append_right _ hnode)) rfl
      refine ⟨[.insertClause word table none columns joined], ?_, .query word table columns hfollows⟩
      rw [hsecond, hjoined]
      rfl

end SqlLayout.Read
