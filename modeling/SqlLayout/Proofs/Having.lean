import SqlLayout.Proofs.Layout.Marks
import SqlLayout.Proofs.Loop

/-!
# The loop over the conditions of a HAVING clause

The conditions of a HAVING clause are laid out by a loop with an index.  A pass writes the link and the
condition at the index and moves on, but only a condition of one of two shapes is written, and only then the
index moves.  So the loop ends exactly if all conditions have these shapes, and otherwise it stays at the
first one that has not.
-/

namespace SqlLayout.Layout

open Text Loop

/-- The two shapes of conditions that are written: a name compared with a number, and the negation of a call
compared with one. -/
inductive IsCounted : List Node → Prop
  | compared {name number : Term} (op : String) : name.kind = .identifier → number.kind = .number →
      IsCounted [.term name, .operator op, .term number]
  | negated (word name : String) (args : List Node) (asWord aliasName : Option String) (op : String)
      {number : Term} : number.kind = .number →
      IsCounted [.not word, .call name args asWord aliasName, .operator op, .term number]

inductive Linked : List Node → Prop
  | one (parts : List Node) : Linked [.condition parts]
  | more (parts : List Node) (word : String) {rest : List Node} :
      Linked rest → Linked (.condition parts :: .link word :: rest)

def AreCounted (values : List Node) : Prop :=
  ∀ parts, Node.condition parts ∈ values → IsCounted parts

def comparedEdits? : List Node → Option (List Edit)
  | [.term name, .operator op, .term number] =>
    if name.kind = .identifier ∧ number.kind = .number then
      some [.add (name.text ++ " " ++ upper op ++ " " ++ number.text), .endLine]
    else none
  | _ => none

def negatedEdits? : List Node → Option (List Edit)
  | [.not _, .call name args asWord aliasName, .operator op, .term number] =>
    if number.kind = .number then
      some (.add "NOT" :: .add " " :: callEdits (.call name args asWord aliasName) ++
        [.add " ", .add (upper op), .add " ", .add number.text])
    else none
  | _ => none

def advance : Option (List Edit) → Nat × List Edit → Nat × List Edit
  | some written, (index, edits) => (index + 1, edits ++ written)
  | none, state => state

/-- One pass of the loop over the values of a HAVING clause.  Its state is the index and what was written so
far. -/
def havingPass (indent : Int) (values : List Node) :
    Nat × List Edit → Pass (Nat × List Edit) (Draft Unit)
  | (index, edits) =>
    match values[index]? with
    | none => .done ⟨edits ++ [.endLine], .ok ()⟩
    | some value =>
      let started : List Edit := edits ++ [.add (indentation (indent + 1))]
      let (index, edits) :=
        match value with
        | .link word => (index + 1, started ++ [Edit.add (upper word ++ " ")])
        | _ => (index, started)
      match values[index]? with
      | none => .done ⟨edits, .error .invalidStatement⟩
      | some condition =>
        match valuesOf condition with
        | .error fault => .done ⟨edits, .error fault⟩
        | .ok parts =>
          .again (advance (negatedEdits? parts) (advance (comparedEdits? parts) (index, edits)))

def writtenText : Node → String
  | .link word => upper word
  | .condition [.term name, .operator op, .term number] =>
    name.text ++ " " ++ upper op ++ " " ++ number.text
  | .condition [.not _, .call name args asWord aliasName, .operator op, .term number] =>
    "NOT " ++ String.ofList ((callEdits (.call name args asWord aliasName)).flatMap Edit.chars) ++ " " ++
      upper op ++ " " ++ number.text
  | _ => ""

variable {indent : Int} {parts values front tail : List Node} {edits written : List Edit}

/-! ### One condition -/

def countedEdits? (parts : List Node) : Option (List Edit) :=
  (comparedEdits? parts).or (negatedEdits? parts)

theorem countedEdits?_isSome_iff : (countedEdits? parts).isSome = true ↔ IsCounted parts := by
  rw [countedEdits?, Option.isSome_or, Bool.or_eq_true]
  constructor
  · rintro (h | h)
    · unfold comparedEdits? at h
      split at h
      · split at h
        · next hkinds => exact .compared _ hkinds.1 hkinds.2
        · cases h
      · cases h
    · unfold negatedEdits? at h
      split at h
      · split at h
        · next hkind => exact .negated _ _ _ _ _ _ hkind
        · cases h
      · cases h
  · intro h
    cases h with
    | compared op hname hnumber => exact .inl (by simp [comparedEdits?, hname, hnumber])
    | negated word name args asWord aliasName op hnumber => exact .inr (by simp [negatedEdits?, hnumber])

theorem exists_countedEdits? (h : IsCounted parts) : ∃ written, countedEdits? parts = some written :=
  Option.isSome_iff_exists.mp (countedEdits?_isSome_iff.mpr h)

theorem countedEdits?_eq_none (h : ¬IsCounted parts) : countedEdits? parts = none := by
  rwa [← countedEdits?_isSome_iff, Option.not_isSome_iff_eq_none] at h

theorem areCounted_cons (h : IsCounted parts) (word : String) (hvalues : AreCounted values) :
    AreCounted (.condition parts :: .link word :: values) := by
  intro others hothers
  rcases List.mem_cons.mp hothers with hfirst | hothers
  · cases hfirst
    exact h
  · rcases List.mem_cons.mp hothers with hlink | hothers
    · cases hlink
    · exact hvalues others hothers

theorem advance_advance (state : Nat × List Edit) :
    advance (negatedEdits? parts) (advance (comparedEdits? parts) state) =
      advance (countedEdits? parts) state := by
  unfold countedEdits?
  cases hcompared : comparedEdits? parts with
  | none => rfl
  | some written =>
    -- The shapes have different lengths, so the second is not found where the first is.
    have hnegated : negatedEdits? parts = none := by
      unfold comparedEdits? at hcompared
      split at hcompared
      · rfl
      · cases hcompared
    rw [hnegated]
    rfl

theorem havingCondition_of_not_isCounted (h : ¬IsCounted parts) :
    havingCondition (.condition parts) = .fail .endless := by
  rw [havingCondition_condition]
  unfold havingValues
  split
  · next left op right =>
    split
    · next hkinds =>
      obtain ⟨name, rfl, hname⟩ := Node.exists_of_isIdentifier (Bool.and_eq_true_iff.mp hkinds).1
      obtain ⟨number, rfl, hnumber⟩ := Node.exists_of_isNumber (Bool.and_eq_true_iff.mp hkinds).2
      exact absurd (.compared op hname hnumber) h
    · rfl
  · next word name args asWord aliasName op right =>
    split
    · next hkind =>
      obtain ⟨number, rfl, hnumber⟩ := Node.exists_of_isNumber hkind
      exact absurd (.negated word name args asWord aliasName op hnumber) h
    · rfl
  · rfl

theorem havingCondition_eq (parts : List Node) :
    havingCondition (.condition parts) =
      match countedEdits? parts with
      | some written => .emit written
      | none => .fail .endless := by
  by_cases h : IsCounted parts
  · cases h with
    | compared op hname hnumber =>
      simp [havingCondition_condition, havingValues, countedEdits?, comparedEdits?, Node.isIdentifier,
        Node.isNumber, Node.text, hname, hnumber]
    | negated word name args asWord aliasName op hnumber =>
      simp [havingCondition_condition, havingValues, countedEdits?, comparedEdits?, negatedEdits?,
        Node.isNumber, Node.text, hnumber]
  · rw [havingCondition_of_not_isCounted h, countedEdits?_eq_none h]

/-! ### One pass -/

def linkNodes : Option String → List Node
  | none => []
  | some word => [.link word]

def startEdits (indent : Int) : Option String → List Edit
  | none => [.add (indentation (indent + 1))]
  | some word => [.add (indentation (indent + 1)), .add (upper word ++ " ")]

theorem havingPass_at (lead : Option String) :
    havingPass indent (front ++ (linkNodes lead ++ .condition parts :: tail)) (front.length, edits) =
      .again (advance (countedEdits? parts)
        (front.length + (linkNodes lead).length, edits ++ startEdits indent lead)) := by
  cases lead with
  | none => simp [havingPass, valuesOf, linkNodes, startEdits, advance_advance]
  | some word => simp [havingPass, valuesOf, linkNodes, startEdits, advance_advance]

theorem havingPass_of_length_le {index : Nat} (h : values.length ≤ index) :
    havingPass indent values (index, edits) = .done ⟨edits ++ [.endLine], .ok ()⟩ := by
  simp [havingPass, List.getElem?_eq_none h]

theorem havingConditions_at (lead : Option String) :
    havingConditions indent (linkNodes lead ++ .condition parts :: tail) =
      (Draft.emit (startEdits indent lead) >>= fun _ ↦ havingCondition (.condition parts)) >>=
        fun _ ↦ havingConditions indent tail := by
  cases lead with
  | none =>
    simp [havingConditions, linkNodes, startEdits]
  | some word => simp [havingConditions, linkNodes, startEdits]

theorem havingConditions_of_some (h : countedEdits? parts = some written) (lead : Option String) :
    havingConditions indent (linkNodes lead ++ .condition parts :: tail) =
      ⟨startEdits indent lead ++ written ++ (havingConditions indent tail).edits,
        (havingConditions indent tail).outcome⟩ := by
  rw [havingConditions_at, havingCondition_eq, h]
  rfl

theorem havingConditions_of_none (h : countedEdits? parts = none) (lead : Option String) :
    (havingConditions indent (linkNodes lead ++ .condition parts :: tail)).outcome = .error .endless := by
  rw [havingConditions_at, havingCondition_eq, h]
  rfl

/-! ### The whole loop -/

/-- A pass over a condition that is written leads to the link behind it. -/
theorem havingPass_of_some (h : countedEdits? parts = some written) (lead : Option String) :
    havingPass indent (front ++ (linkNodes lead ++ .condition parts :: tail)) (front.length, edits) =
      .again ((front ++ (linkNodes lead ++ [Node.condition parts])).length,
        edits ++ (startEdits indent lead ++ written)) := by
  rw [havingPass_at, h, advance]
  simp [Nat.add_assoc]

theorem append_link (lead : Option String) (word : String) (rest : List Node) :
    front ++ (linkNodes lead ++ Node.condition parts :: Node.link word :: rest) =
      front ++ (linkNodes lead ++ [Node.condition parts]) ++ (linkNodes (some word) ++ rest) := by
  simp [linkNodes]

/-- The loop from any condition on.  It gets to the end if the conditions from there on are written. -/
theorem ends_of_areCounted (h : Linked values) (hcounted : AreCounted values) (front : List Node)
    (lead : Option String) (edits : List Edit) :
    (havingConditions indent (linkNodes lead ++ values)).outcome = .ok () ∧
      Ends (havingPass indent (front ++ (linkNodes lead ++ values))) (front.length, edits)
        ⟨edits ++ (havingConditions indent (linkNodes lead ++ values)).edits, .ok ()⟩ := by
  induction h generalizing front lead edits with
  | one parts =>
    obtain ⟨written, hwritten⟩ := exists_countedEdits? (hcounted parts List.mem_cons_self)
    rw [havingConditions_of_some hwritten]
    refine ⟨rfl, ends_of_again (havingPass_of_some hwritten lead) (ends_of_done ?_)⟩
    rw [havingPass_of_length_le (Nat.le_refl _), List.append_assoc]
    rfl
  | more parts word hrest ih =>
    obtain ⟨written, hwritten⟩ := exists_countedEdits? (hcounted parts List.mem_cons_self)
    have hothers : AreCounted _ := fun parts hparts ↦
      hcounted parts (List.mem_cons_of_mem _ (List.mem_cons_of_mem _ hparts))
    obtain ⟨hok, hends⟩ := ih hothers (front ++ (linkNodes lead ++ [.condition parts])) (some word)
      (edits ++ (startEdits indent lead ++ written))
    rw [havingConditions_of_some hwritten]
    refine ⟨hok, ends_of_again (havingPass_of_some hwritten lead) ?_⟩
    rw [append_link]
    simp only [List.append_assoc] at hends ⊢
    exact hends

/-- The loop comes to the first condition that is not written.  There the layout of the conditions ends. -/
def Stops (indent : Int) (front : List Node) (lead : Option String) (values : List Node)
    (edits : List Edit) : Prop :=
  (havingConditions indent (linkNodes lead ++ values)).outcome = .error .endless ∧
    ∃ index parts passes written, values[index]? = some (.condition parts) ∧ ¬IsCounted parts ∧
      AreCounted (values.take index) ∧
      run (havingPass indent (front ++ (linkNodes lead ++ values))) passes (front.length, edits) =
        .again ((front ++ linkNodes lead).length + index, written)

theorem stops_of_not_isCounted (h : ¬IsCounted parts) (front : List Node) (lead : Option String)
    (edits : List Edit) : Stops indent front lead (.condition parts :: tail) edits := by
  have hnone := countedEdits?_eq_none h
  refine ⟨havingConditions_of_none hnone lead, 0, parts, 1, edits ++ startEdits indent lead, rfl, h,
    fun _ hmem ↦ absurd hmem List.not_mem_nil, ?_⟩
  rw [run, havingPass_at, hnone, List.length_append]
  rfl

/-- The loop from any condition on, if not all conditions from there on are written. -/
theorem stops_of_not_areCounted (h : Linked values) (hcounted : ¬AreCounted values) (front : List Node)
    (lead : Option String) (edits : List Edit) : Stops indent front lead values edits := by
  induction h generalizing front lead edits with
  | one parts =>
    refine stops_of_not_isCounted (fun hparts ↦ hcounted fun others hothers ↦ ?_) front lead edits
    cases List.mem_singleton.mp hothers
    exact hparts
  | @more parts word rest hrest ih =>
    by_cases hparts : IsCounted parts
    · obtain ⟨written, hwritten⟩ := exists_countedEdits? hparts
      have hrest : ¬AreCounted rest := fun hall ↦ hcounted (areCounted_cons hparts word hall)
      obtain ⟨hendless, index, bad, passes, later, hbad, hnot, hbefore, hrun⟩ := ih hrest
        (front ++ (linkNodes lead ++ [.condition parts])) (some word)
        (edits ++ (startEdits indent lead ++ written))
      refine ⟨?_, index + 2, bad, passes + 1, later, hbad, hnot, ?_, ?_⟩
      · rw [havingConditions_of_some hwritten]
        exact hendless
      · exact areCounted_cons hparts word hbefore
      · rw [run, havingPass_of_some hwritten, append_link]
        refine hrun.trans ?_
        simp [linkNodes]
        omega
    · exact stops_of_not_isCounted hparts front lead edits

/-- At a condition that is not written the index does not move. -/
theorem run_of_not_isCounted {index : Nat} (hvalue : values[index]? = some (.condition parts))
    (h : ¬IsCounted parts) (edits : List Edit) (passes : Nat) :
    ∃ written, run (havingPass indent values) passes (index, edits) = .again (index, written) := by
  have hpass (edits : List Edit) : havingPass indent values (index, edits) =
      .again (index, edits ++ [.add (indentation (indent + 1))]) := by
    simp only [havingPass, hvalue, valuesOf, advance_advance, countedEdits?_eq_none h]
    rfl
  have hstart : (index, edits).1 = index := rfl
  obtain ⟨⟨last, written⟩, hrun, rfl⟩ :=
    run_of_invariant (fun state : Nat × List Edit ↦ state.1 = index)
      (by
        rintro ⟨_, edits⟩ rfl
        exact ⟨_, hpass edits, rfl⟩) hstart passes
  exact ⟨written, hrun⟩

/-! ### The text -/

def inked (text : List Char) : List Char :=
  text.filter (!isBlank ·)

@[simp] theorem inked_nil : inked [] = [] := rfl

@[simp] theorem inked_append (text other : List Char) : inked (text ++ other) = inked text ++ inked other :=
  List.filter_append ..

theorem inked_of_all_isBlank {text : List Char} (h : text.all isBlank = true) : inked text = [] := by
  rw [inked, List.filter_eq_nil_iff]
  intro c hc
  simp [List.all_eq_true.mp h c hc]

def isPiece : Edit → Bool
  | .add _ | .endLine => true
  | _ => false

/-- Edits that add to lines and end them leave the lines that are there as they are, and what they add is in
the lines behind and in the line that is being written. -/
theorem exists_steps?_of_isPiece {edits : List Edit} (h : edits.all isPiece = true)
    (pending lines : List String) :
    ∃ last added, LineBuffer.steps? ⟨pending, lines⟩ edits = some ⟨last, lines ++ added⟩ ∧
      added.flatMap String.toList ++ last.flatMap String.toList =
        pending.flatMap String.toList ++ edits.flatMap Edit.chars := by
  induction edits generalizing pending lines with
  | nil => exact ⟨pending, [], by simp [LineBuffer.steps?], by simp⟩
  | cons edit edits ih =>
    simp only [List.all_cons, Bool.and_eq_true] at h
    cases edit with
    | add piece =>
      obtain ⟨last, added, hsteps, hchars⟩ := ih h.2 (pending ++ [piece]) lines
      exact ⟨last, added, hsteps, by rw [hchars]; simp [Edit.chars]⟩
    | endLine =>
      by_cases hline : String.join pending = ""
      · have hpending : pending.flatMap String.toList = [] := by
          rw [← String.toList_join, hline]
          rfl
        obtain ⟨last, added, hsteps, hchars⟩ := ih h.2 [] lines
        refine ⟨last, added, ?_, by rw [hchars, hpending]; rfl⟩
        simpa [LineBuffer.steps?, LineBuffer.step?, LineBuffer.endLine, hline] using hsteps
      · obtain ⟨last, added, hsteps, hchars⟩ := ih h.2 [] (lines ++ [String.join pending])
        refine ⟨last, String.join pending :: added, ?_, ?_⟩
        · simpa [LineBuffer.steps?, LineBuffer.step?, LineBuffer.endLine, hline] using hsteps
        · rw [List.flatMap_cons, List.append_assoc, hchars, String.toList_join]
          rfl
    | _ => cases h.1

mutual

theorem isPiece_callEdits (node : Node) : (callEdits node).all isPiece = true := by
  cases node with
  | call name args asWord aliasName =>
    have halias : (callAliasEdits asWord aliasName).all isPiece = true := by
      unfold callAliasEdits
      split
      · rfl
      · split <;> rfl
    simp [callEdits, isPiece, isPiece_argEdits args, halias]
  | term t => rfl
  | _ => rfl

theorem isPiece_argEdits (args : List Node) : (argEdits args).all isPiece = true := by
  cases args with
  | nil => rfl
  | cons arg rest =>
    have hcomma : (commaBefore rest ", ").all isPiece = true := by
      unfold commaBefore
      split <;> rfl
    simp [argEdits, isPiece_callEdits arg, isPiece_argEdits rest, hcomma]

end

theorem chars_of_countedEdits? (h : countedEdits? parts = some written) :
    written.all isPiece = true ∧ written.flatMap Edit.chars = (writtenText (.condition parts)).toList := by
  have hcounted : IsCounted parts := countedEdits?_isSome_iff.mp (by rw [h]; rfl)
  cases hcounted with
  | compared op hname hnumber =>
    obtain rfl : _ = written := by simpa [countedEdits?, comparedEdits?, hname, hnumber] using h
    exact ⟨rfl, by simp [Edit.chars, writtenText]⟩
  | negated word name args asWord aliasName op hnumber =>
    obtain rfl : _ = written := by
      simpa [countedEdits?, comparedEdits?, negatedEdits?, hnumber] using h
    refine ⟨?_, ?_⟩
    · simp [isPiece, isPiece_callEdits]
    · simp [Edit.chars, writtenText]

theorem inked_startEdits (lead : Option String) :
    inked ((startEdits indent lead).flatMap Edit.chars) =
      inked ((linkNodes lead).flatMap fun node ↦ (writtenText node).toList) := by
  have hindentation := inked_of_all_isBlank (isBlank_indentation (indent + 1))
  cases lead with
  | none => simpa [startEdits, linkNodes, Edit.chars] using hindentation
  | some word =>
    have hspace : inked [' '] = [] := by decide
    simp [startEdits, linkNodes, Edit.chars, writtenText, hindentation, hspace]

/-- The conditions are laid out with their texts and those of the links between them, and the last line is
ended. -/
def HasText (indent : Int) (values : List Node) : Prop :=
  ∃ written, (havingConditions indent values).edits = written ++ [.endLine] ∧ written.all isPiece = true ∧
    inked (written.flatMap Edit.chars) = inked (values.flatMap fun node ↦ (writtenText node).toList)

theorem HasText.cons (h : HasText indent tail) (hwritten : countedEdits? parts = some written)
    (lead : Option String) : HasText indent (linkNodes lead ++ .condition parts :: tail) := by
  obtain ⟨later, hedits, hlater, hrest⟩ := h
  obtain ⟨hpieces, htext⟩ := chars_of_countedEdits? hwritten
  have hstart : (startEdits indent lead).all isPiece = true := by cases lead <;> rfl
  refine ⟨startEdits indent lead ++ written ++ later, ?_, ?_, ?_⟩
  · rw [havingConditions_of_some hwritten, hedits, List.append_assoc _ later]
  · simp [hstart, hpieces, hlater]
  · simp only [List.flatMap_append, inked_append, inked_startEdits, htext, hrest, List.flatMap_cons,
      List.append_assoc]

theorem Linked.hasText (h : Linked values) (hcounted : AreCounted values) (lead : Option String) :
    HasText indent (linkNodes lead ++ values) := by
  induction h generalizing lead with
  | one parts =>
    obtain ⟨written, hwritten⟩ := exists_countedEdits? (hcounted parts List.mem_cons_self)
    have hnone : HasText indent [] := ⟨[], rfl, rfl, rfl⟩
    exact hnone.cons hwritten lead
  | more parts word _ ih =>
    obtain ⟨written, hwritten⟩ := exists_countedEdits? (hcounted parts List.mem_cons_self)
    have hothers : AreCounted _ := fun parts hparts ↦
      hcounted parts (List.mem_cons_of_mem _ (List.mem_cons_of_mem _ hparts))
    exact (ih hothers (some word)).cons hwritten lead

/-- Ending the line moves what is pending into the lines. -/
theorem exists_endLine (pending lines : List String) :
    ∃ added, LineBuffer.endLine ⟨pending, lines⟩ = ⟨[], lines ++ added⟩ ∧
      added.flatMap String.toList = pending.flatMap String.toList := by
  by_cases hline : String.join pending = ""
  · refine ⟨[], by simp [LineBuffer.endLine, hline], ?_⟩
    rw [← String.toList_join, ← String.toList_join, hline]
    rfl
  · exact ⟨[String.join pending], by simp [LineBuffer.endLine, hline], by simp [String.toList_join]⟩

theorem HasText.exists_steps? (h : HasText indent values) (lines : List String) :
    ∃ added, LineBuffer.steps? ⟨[], lines⟩ (havingConditions indent values).edits =
        some ⟨[], lines ++ added⟩ ∧
      inked (String.join added).toList = inked (String.join (values.map writtenText)).toList := by
  obtain ⟨written, hedits, hpieces, htext⟩ := h
  obtain ⟨pending, added, hsteps, hchars⟩ := exists_steps?_of_isPiece hpieces [] lines
  obtain ⟨last, hlast, hpending⟩ := exists_endLine pending (lines ++ added)
  refine ⟨added ++ last, ?_, ?_⟩
  · rw [hedits, LineBuffer.steps?_append, hsteps, ← List.append_assoc, ← hlast]
    rfl
  · rw [String.toList_join, String.toList_join, List.flatMap_append, hpending, hchars, List.flatMap_map]
    exact htext

/-! ### The loop -/

/-- The loop stays for ever at the first condition of another shape. -/
theorem stays_of_not_areCounted (h : Linked values) (hcounted : ¬AreCounted values) :
    (having indent values).outcome = .error .endless ∧
      ∃ index parts passes, values[index]? = some (.condition parts) ∧ ¬IsCounted parts ∧
        AreCounted (values.take index) ∧
        ∀ more, ∃ edits, run (havingPass indent values) (passes + more) (0, []) = .again (index, edits) := by
  have hstops : Stops indent [] none values [] := stops_of_not_areCounted h hcounted [] none []
  obtain ⟨hendless, index, parts, passes, edits, hparts, hnot, hbefore, hrun⟩ := hstops
  refine ⟨hendless, index, parts, passes, hparts, hnot, hbefore, fun more ↦ ?_⟩
  have hpasses : run (havingPass indent values) passes (0, []) = .again (index, edits) := by
    simpa [linkNodes] using hrun
  rw [run_add, hpasses]
  exact run_of_not_isCounted hparts hnot edits more

/-- The loop over the conditions of a HAVING clause ends exactly if each condition has one of the two shapes.
Then it has written the links and the conditions, each once and in order, in lines behind the HAVING line.
Otherwise its index comes to the first condition of another shape and stays there. -/
theorem havingPass_ends_iff {values : List Node} (h : Linked values) (indent : Int) :
    ((∃ result, Ends (havingPass indent values) (0, []) result) ↔ AreCounted values) ∧
    (∀ result, Ends (havingPass indent values) (0, []) result →
      having indent values = ⟨.addLine (indentation indent ++ "HAVING") :: result.edits, .ok ()⟩ ∧
      ∀ buffer : LineBuffer, ∃ added, buffer.steps? (having indent values).edits =
          some ⟨[], (buffer.add (indentation indent ++ "HAVING")).endLine.lines ++ added⟩ ∧
        inked (String.join added).toList = inked (String.join (values.map writtenText)).toList) ∧
    (¬AreCounted values →
      (having indent values).outcome = .error .endless ∧
      ∃ index parts passes, values[index]? = some (.condition parts) ∧ ¬IsCounted parts ∧
        AreCounted (values.take index) ∧
        ∀ more, ∃ edits, run (havingPass indent values) (passes + more) (0, []) = .again (index, edits)) := by
  have hcounted : ∀ result, Ends (havingPass indent values) (0, []) result → AreCounted values := by
    rintro result ⟨ended, hended⟩
    refine Classical.byContradiction fun hnot ↦ ?_
    obtain ⟨-, index, parts, passes, -, -, -, hstays⟩ := stays_of_not_areCounted h hnot
    obtain ⟨edits, hrun⟩ := hstays ended
    rw [Nat.add_comm, run_add, hended] at hrun
    cases hrun
  have hends (hall : AreCounted values) :
      (havingConditions indent values).outcome = .ok () ∧
        Ends (havingPass indent values) (0, []) ⟨(havingConditions indent values).edits, .ok ()⟩ :=
    ends_of_areCounted h hall [] none []
  refine ⟨⟨?_, fun hall ↦ ⟨_, (hends hall).2⟩⟩, fun result hresult ↦ ?_, stays_of_not_areCounted h⟩
  · rintro ⟨result, hresult⟩
    exact hcounted result hresult
  · have hall := hcounted result hresult
    obtain ⟨hok, hend⟩ := hends hall
    obtain rfl := hresult.unique hend
    have hhaving : having indent values =
        ⟨.addLine (indentation indent ++ "HAVING") :: (havingConditions indent values).edits, .ok ()⟩ := by
      rw [← hok]
      rfl
    refine ⟨hhaving, fun buffer ↦ ?_⟩
    rw [hhaving]
    exact (h.hasText hall none).exists_steps? _

/-- `n > 5 and not count(x) > 3 or not n` -/
def negatedName : List Node :=
  [.condition [.plain .identifier "n", .operator ">", .plain .number "5"], .link "and",
    .condition [.not "not", .call "count" [.plain .identifier "x"] none none, .operator ">",
      .plain .number "3"], .link "or", .condition [.not "not", .plain .identifier "n"]]

theorem havingPass_negatedName :
    Linked negatedName ∧ Linked (negatedName.take 3) ∧
      (∃ result, Ends (havingPass 0 (negatedName.take 3)) (0, []) result) ∧
      ¬∃ result, Ends (havingPass 0 negatedName) (0, []) result := by
  have hlinked : Linked (negatedName.take 3) := .more _ _ (.one _)
  have hall : Linked negatedName := .more _ _ (.more _ _ (.one _))
  have hcounted : AreCounted (negatedName.take 3) := by
    refine areCounted_cons (.compared _ rfl rfl) _ fun parts hparts ↦ ?_
    cases List.mem_singleton.mp hparts
    exact .negated _ _ _ _ _ _ rfl
  refine ⟨hall, hlinked, (havingPass_ends_iff hlinked 0).1.mpr hcounted, fun hends ↦ ?_⟩
  have hlast := (havingPass_ends_iff hall 0).1.mp hends [.not "not", .plain .identifier "n"]
    (by simp [negatedName])
  cases hlast

end SqlLayout.Layout
