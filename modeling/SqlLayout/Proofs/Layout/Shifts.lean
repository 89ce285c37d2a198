import SqlLayout.Proofs.Layout.Detached
import SqlLayout.Proofs.Read.Completed

/-!
# Layouts one level further in

A layout at one level of indentation and the layout of the same tree at the next level are compared edit by
edit.  Most lines start with their level, and so get four more spaces.  Three sorts of lines do not: the
items of GROUP BY, a comma behind a CASE without branches, and a semicolon behind a semicolon.
-/

namespace SqlLayout

open Text

/-- A line one level further in. -/
def shifted (line : String) : String :=
  if line = "" then "" else "    " ++ line

/-- The lines of two layouts: each line of the second is shifted or, if not `steady`, may also be the
same. -/
inductive Aligned : (steady : Bool) → List String → List String → Prop
  | nil : Aligned true [] []
  | shifted {steady : Bool} {lines others : List String} (line : String) : Aligned steady lines others →
      Aligned steady (lines ++ [line]) (others ++ [shifted line])
  | fixed {steady : Bool} {lines others : List String} {line : String} : line ≠ "" →
      Aligned steady lines others → Aligned false (lines ++ [line]) (others ++ [line])

theorem Aligned.eq_map_iff {steady : Bool} {lines others : List String}
    (h : Aligned steady lines others) : others = lines.map SqlLayout.shifted ↔ steady = true := by
  induction h with
  | nil => simp
  | shifted line _ ih =>
    rw [List.map_append, List.map_singleton, List.append_left_inj]
    exact ih
  | @fixed steady lines others line hne _ _ =>
    have hlength : line ≠ SqlLayout.shifted line := by
      intro heq
      have := congrArg String.length heq
      simp [SqlLayout.shifted, hne] at this
    refine ⟨fun heq ↦ ?_, fun hfalse ↦ absurd hfalse Bool.false_ne_true⟩
    rw [List.map_append, List.map_singleton] at heq
    exact absurd (List.append_inj' heq rfl).2 (by simpa using hlength)

/-- A last line that gets more text stays as it is, shifted or fixed; a blank one becomes fixed. -/
theorem Aligned.exists_extended {steady blank : Bool} {lines others : List String} {text : String}
    (h : Aligned steady lines others) (hlines : lines ≠ []) (hne : text ≠ "")
    (hblank : lines.getLast? = some "" ↔ blank = true) :
    ∃ front last back final, lines = front ++ [last] ∧ others = back ++ [final] ∧
      Aligned (steady && !blank) (front ++ [last ++ text]) (back ++ [final ++ text]) := by
  cases h with
  | nil => exact absurd rfl hlines
  | shifted last h =>
    refine ⟨_, last, _, _, rfl, rfl, ?_⟩
    rw [List.getLast?_concat, Option.some.injEq] at hblank
    cases blank with
    | true =>
      rw [hblank.mpr rfl, Bool.not_true, Bool.and_false, SqlLayout.shifted, if_pos rfl,
        String.empty_append]
      exact .fixed hne h
    | false =>
      have hlast : last ≠ "" := fun hlast ↦ absurd (hblank.mp hlast) Bool.false_ne_true
      have hshifted : SqlLayout.shifted last ++ text = SqlLayout.shifted (last ++ text) := by
        simp [SqlLayout.shifted, hlast, String.append_assoc]
      rw [Bool.not_false, Bool.and_true, hshifted]
      exact .shifted _ h
  | fixed _ h => exact ⟨_, _, _, _, rfl, rfl, .fixed (by simp [hne]) h⟩

/-- Where two layouts stand: between two lines, the last of them `blank` or not, or within a line that is
shifted or `fixed`. -/
inductive Spot where
  | ended (blank : Bool)
  | begun (fixed : Bool)

def Spot.Holds : Spot → LineBuffer → LineBuffer → Prop
  | ended blank, buffer, other =>
    buffer.line = "" ∧ other.line = "" ∧ (buffer.lines.getLast? = some "" ↔ blank = true)
  | begun fixed, buffer, other =>
    buffer.line ≠ "" ∧ other.line = if fixed then buffer.line else "    " ++ buffer.line

/-- One edit of two layouts, the second one level further in, from one spot to the next.  If `keeps`, it ends
no line that is fixed. -/
inductive Edit.Moves : Spot → (keeps : Bool) → Edit → Edit → Spot → Prop
  | line {text word : String} (blank : Bool) : text ≠ "" → word = "    " ++ text →
      Moves (.ended blank) true (.addLine text) (.addLine word) (.ended false)
  | start {text word : String} : text ≠ "" → word = "    " ++ text →
      Moves (.ended false) true (.add text) (.add word) (.begun false)
  | startFixed {text : String} : text ≠ "" →
      Moves (.ended false) true (.add text) (.add text) (.begun true)
  | add (fixed : Bool) (text : String) :
      Moves (.begun fixed) true (.add text) (.add text) (.begun fixed)
  | addLine (text : String) :
      Moves (.begun false) true (.addLine text) (.addLine text) (.ended false)
  | endLine (fixed : Bool) : Moves (.begun fixed) (!fixed) .endLine .endLine (.ended false)
  | noLine : Moves (.ended false) true .endLine .endLine (.ended false)
  | blankLines : Moves (.ended false) true (.blankLines 2) (.blankLines 2) (.ended true)
  | extendLast {text : String} (blank : Bool) : text ≠ "" →
      Moves (.ended blank) (!blank) (.extendLast text) (.extendLast text) (.ended false)

inductive Edit.Raises : Spot → (keeps : Bool) → List Edit → List Edit → Spot → Prop
  | nil {spot : Spot} : Raises spot true [] [] spot
  | cons {spot middle after : Spot} {keeps keepsMore : Bool} {edit other : Edit}
      {edits others : List Edit} : Moves spot keeps edit other middle →
      Raises middle keepsMore edits others after →
      Raises spot (keeps && keepsMore) (edit :: edits) (other :: others) after

section Buffers

variable {buffer other next : LineBuffer} {spot after : Spot} {keeps steady fixed blank : Bool}
  {text word : String}

theorem Spot.holds_add (h : (ended blank).Holds buffer other) (hne : text ≠ "")
    (hword : word = if fixed then text else "    " ++ text) :
    (begun fixed).Holds (buffer.add text) (other.add word) := by
  obtain ⟨hline, hother, -⟩ := h
  simp [Holds, LineBuffer.line_add, hline, hother, hne, hword]

theorem Spot.holds_more (h : (begun fixed).Holds buffer other) (text : String) :
    (begun fixed).Holds (buffer.add text) (other.add text) := by
  obtain ⟨hne, hother⟩ := h
  refine ⟨by simp [LineBuffer.line_add, hne], ?_⟩
  rw [LineBuffer.line_add, LineBuffer.line_add, hother]
  split
  · rfl
  · rw [String.append_assoc]

/-- The end of a line: it is one more line of the two layouts, shifted or fixed. -/
theorem Spot.holds_endLine (h : (begun fixed).Holds buffer other)
    (hlines : Aligned steady buffer.lines other.lines) :
    Aligned (steady && !fixed) buffer.endLine.lines other.endLine.lines ∧
      (ended false).Holds buffer.endLine other.endLine := by
  obtain ⟨hne, hother⟩ := h
  have hend : buffer.endLine.lines = buffer.lines ++ [buffer.line] := if_neg hne
  have hotherNe : other.line ≠ "" := by
    rw [hother]
    split <;> simp [hne]
  have hotherEnd : other.endLine.lines = other.lines ++ [other.line] := if_neg hotherNe
  rw [hend, hotherEnd, hother]
  refine ⟨?_, rfl, rfl, by simp [hend, hne]⟩
  cases fixed with
  | false =>
    have hshifted : "    " ++ buffer.line = shifted buffer.line := (if_neg hne).symm
    rw [Bool.not_false, Bool.and_true, if_neg Bool.false_ne_true, hshifted]
    exact .shifted _ hlines
  | true =>
    rw [Bool.not_true, Bool.and_false, if_pos rfl]
    exact .fixed hne hlines

theorem LineBuffer.extendLast?_concat {front : List String} {last : String} (hline : buffer.line = "")
    (hlines : buffer.lines = front ++ [last]) (hne : text ≠ "") :
    ∃ next, buffer.extendLast? text = some next ∧ next.line = "" ∧
      next.lines = front ++ [last ++ text] := by
  have hstep : buffer.extendLast? text =
      some (((⟨buffer.pending, front⟩ : LineBuffer).add last).add text).endLine := by
    simp [extendLast?, hlines]
  have hfull : (((⟨buffer.pending, front⟩ : LineBuffer).add last).add text).line = last ++ text := by
    rw [line_add, line_add]
    change buffer.line ++ last ++ text = last ++ text
    rw [hline, String.empty_append]
  have hjoin : (((⟨buffer.pending, front⟩ : LineBuffer).add last).add text).line ≠ "" := by
    simp [hfull, hne]
  refine ⟨_, hstep, rfl, (if_neg hjoin).trans ?_⟩
  exact congrArg (front ++ [·]) hfull

/-- What one edit makes of the buffers of two layouts. -/
theorem Edit.Moves.exists_step? {edit editOther : Edit} (h : Moves spot keeps edit editOther after)
    (hlines : Aligned steady buffer.lines other.lines) (hspot : spot.Holds buffer other)
    (hnext : buffer.step? edit = some next) :
    ∃ final, other.step? editOther = some final ∧ Aligned (steady && keeps) next.lines final.lines ∧
      after.Holds next final := by
  have hsteady : (steady && true) = steady := Bool.and_true steady
  have hended : ∀ {buffer : LineBuffer}, buffer.line = "" → buffer.endLine.lines = buffer.lines :=
    fun h ↦ if_pos h
  cases h with
  | line blank hne hword =>
    cases hnext
    have hbegun : (Spot.begun false).Holds _ _ := Spot.holds_add hspot hne hword
    exact ⟨_, rfl, Spot.holds_endLine hbegun hlines⟩
  | start hne hword =>
    cases hnext
    exact ⟨_, rfl, hsteady.symm ▸ hlines, Spot.holds_add hspot hne hword⟩
  | startFixed hne =>
    cases hnext
    exact ⟨_, rfl, hsteady.symm ▸ hlines, Spot.holds_add hspot hne rfl⟩
  | add fixed text =>
    cases hnext
    exact ⟨_, rfl, hsteady.symm ▸ hlines, Spot.holds_more hspot text⟩
  | addLine text =>
    cases hnext
    exact ⟨_, rfl, Spot.holds_endLine (Spot.holds_more hspot text) hlines⟩
  | endLine fixed =>
    cases hnext
    exact ⟨_, rfl, Spot.holds_endLine hspot hlines⟩
  | noLine =>
    cases hnext
    obtain ⟨hline, hother, hlast⟩ := hspot
    have hend := hended hline
    refine ⟨_, rfl, ?_, rfl, rfl, by rwa [hend]⟩
    rwa [hsteady, hend, hended hother]
  | blankLines =>
    cases hnext
    obtain ⟨hline, hother, -⟩ := hspot
    have hblank : ∀ {buffer : LineBuffer}, buffer.line = "" →
        (buffer.blankLines 2).lines = buffer.lines ++ [""] ++ [""] := fun h ↦ by
      simp [LineBuffer.blankLines_two, hended h]
    refine ⟨_, rfl, ?_, rfl, rfl, by simp [hblank hline]⟩
    rw [hsteady, hblank hline, hblank hother]
    exact .shifted "" (.shifted "" hlines)
  | extendLast blank hne =>
    obtain ⟨hline, hother, hlast⟩ := hspot
    have hsome : buffer.lines ≠ [] := by
      intro hnil
      simp [LineBuffer.step?, LineBuffer.extendLast?, hnil] at hnext
    obtain ⟨front, last, back, final, hfront, hback, haligned⟩ :=
      hlines.exists_extended hsome hne hlast
    obtain ⟨found, hfound, hfoundLine, hfoundLines⟩ :=
      LineBuffer.extendLast?_concat hline hfront hne
    obtain ⟨reached, hreached, hreachedLine, hreachedLines⟩ :=
      LineBuffer.extendLast?_concat hother hback hne
    obtain rfl : found = next := Option.some.inj (hfound.symm.trans hnext)
    refine ⟨reached, hreached, ?_, hfoundLine, hreachedLine, by simp [hfoundLines, hne]⟩
    rwa [hfoundLines, hreachedLines]

/-- What the edits of two layouts make of their buffers, one after the other. -/
theorem Edit.Raises.exists_steps? {edits others : List Edit} {last : LineBuffer}
    (h : Raises spot keeps edits others after) (hlines : Aligned steady buffer.lines other.lines)
    (hspot : spot.Holds buffer other) (hlast : buffer.steps? edits = some last) :
    ∃ final, other.steps? others = some final ∧ Aligned (steady && keeps) last.lines final.lines := by
  induction h generalizing steady buffer other with
  | nil =>
    cases hlast
    exact ⟨other, rfl, (Bool.and_true steady).symm ▸ hlines⟩
  | cons hmoves _ ih =>
    obtain ⟨next, hnext, hrest⟩ := Option.bind_eq_some_iff.mp hlast
    obtain ⟨reached, hreached, haligned, hholds⟩ := hmoves.exists_step? hlines hspot hnext
    obtain ⟨final, hfinal, hall⟩ := ih haligned hholds hrest
    rw [LineBuffer.steps?, hreached]
    exact ⟨final, hfinal, Bool.and_assoc .. ▸ hall⟩

end Buffers

namespace Edit

variable {spot middle after : Spot} {keeps keepsMore fixed : Bool} {edits others more moreOthers : List Edit}

theorem Raises.append (h : Raises spot keeps edits others middle)
    (hmore : Raises middle keepsMore more moreOthers after) :
    Raises spot (keeps && keepsMore) (edits ++ more) (others ++ moreOthers) after := by
  induction h with
  | nil => exact hmore
  | cons hmoves _ ih =>
    rw [Bool.and_assoc]
    exact .cons hmoves (ih hmore)

theorem raises_adds (h : edits.all isAdd = true) :
    Raises (.begun fixed) true edits edits (.begun fixed) := by
  induction edits with
  | nil => exact .nil
  | cons edit edits ih =>
    rw [List.all_cons, Bool.and_eq_true] at h
    cases edit with
    | add text => exact .cons (.add fixed text) (ih h.2)
    | _ => cases h.1

theorem Raises.endLine (h : Raises spot keeps edits others (.begun false)) :
    Raises spot keeps (edits ++ [.endLine]) (others ++ [.endLine]) (.ended false) := by
  have hend : Raises (.begun false) true [.endLine] [.endLine] (.ended false) :=
    .cons (.endLine false) .nil
  exact Bool.and_true keeps ▸ h.append hend

end Edit

namespace Draft

variable {α β : Type} {spot middle after : Spot} {keeps keepsMore : Bool}

/-- Drafts of two layouts, the second one level further in: if the first has a result, so has the second,
and their edits go together. -/
def Raises (spot : Spot) (keeps : Bool) (draft other : Draft α) (after : Spot) : Prop :=
  ∀ result, draft.outcome = .ok result →
    (∃ found, other.outcome = .ok found) ∧ Edit.Raises spot keeps draft.edits other.edits after

theorem raises_emit {edits others : List Edit} (h : Edit.Raises spot keeps edits others after) :
    Raises spot keeps (emit edits) (emit others) after :=
  fun _ _ ↦ ⟨⟨(), rfl⟩, h⟩

theorem raises_pure (result other : α) : Raises spot true (pure result) (pure other) spot :=
  fun _ _ ↦ ⟨⟨other, rfl⟩, .nil⟩

theorem raises_fail (fault : Fault) (other : Draft α) : Raises spot keeps (fail fault) other after := by
  rintro result ⟨⟩

theorem Raises.bind {first other : Draft α} {next nextOther : α → Draft β}
    (h : Raises spot keeps first other middle)
    (hnext : ∀ a b, Raises middle keepsMore (next a) (nextOther b) after) :
    Raises spot (keeps && keepsMore) (first >>= next) (other >>= nextOther) after := by
  intro result hresult
  cases houtcome : first.outcome with
  | error fault =>
    rw [bind_of_error houtcome] at hresult
    cases hresult
  | ok a =>
    obtain ⟨⟨b, hb⟩, hedits⟩ := h a houtcome
    rw [bind_of_ok houtcome] at hresult ⊢
    rw [bind_of_ok hb]
    obtain ⟨hfound, hmore⟩ := hnext a b result hresult
    exact ⟨hfound, hedits.append hmore⟩

theorem Adds.raises {draft : Draft α} (h : draft.Adds) :
    draft.Raises (.begun false) true draft (.begun false) :=
  fun result hresult ↦ ⟨⟨result, hresult⟩, Edit.raises_adds (h result hresult)⟩

theorem Raises.bind_pure {first other : Draft α} {f g : α → β}
    (h : Raises spot keeps first other after) :
    Raises spot keeps (first >>= fun a ↦ pure (f a)) (other >>= fun b ↦ pure (g b)) after :=
  Bool.and_true keeps ▸ h.bind fun a b ↦ raises_pure (f a) (g b)

end Draft

namespace Layout

open Edit Draft

variable {indent : Int}

/-! ### Levels -/

theorem indentation_raised {level other : Int} (h : 0 ≤ level) (hother : other = level + 1) :
    indentation other = "    " ++ indentation level := by
  obtain ⟨n, rfl⟩ := Int.eq_ofNat_of_zero_le h
  have hnat : other.toNat = n + 1 := by omega
  simp [indentation, hnat, List.replicate_succ]

theorem moves_line (h : 0 ≤ indent) (blank : Bool) {text : String} (hne : text ≠ "") :
    Moves (.ended blank) true (.addLine (indentation indent ++ text))
      (.addLine (indentation (indent + 1) ++ text)) (.ended false) :=
  .line blank (by simp [hne]) (by rw [indentation_raised h rfl, String.append_assoc])

theorem moves_start {level other : Int} (h : 0 < level) (hother : other = level + 1) (text : String) :
    Moves (.ended false) true (.add (indentation level ++ text)) (.add (indentation other ++ text))
      (.begun false) := by
  have hne : indentation level ≠ "" := by
    rw [indentation_raised (show 0 ≤ level - 1 by omega) (by omega)]
    simp
  exact .start (by simp [hne]) (by rw [indentation_raised (by omega) hother, String.append_assoc])

theorem moves_indentation {level other : Int} (h : 0 < level) (hother : other = level + 1) :
    Moves (.ended false) true (.add (indentation level)) (.add (indentation other)) (.begun false) := by
  simpa using moves_start h hother ""

/-! ### Values -/

theorem raises_branchEdits (h : 0 ≤ indent) (branches : List Node) :
    Edit.Raises (.ended false) true (branchEdits indent branches) (branchEdits (indent + 1) branches)
      (if branches.isEmpty then .ended false else .begun false) := by
  induction branches with
  | nil => exact .nil
  | cons branch rest ih =>
    have hstart := moves_start (show 0 < indent + 2 by omega) (show indent + 1 + 2 = _ by omega)
      branch.text
    cases rest with
    | nil => exact .cons hstart .nil
    | cons next rest => exact .cons hstart (.cons (.endLine false) ih)

/-! ### Clauses -/

def onlyLast (test : Node → Bool) : List Node → Bool
  | [] => true
  | node :: rest => (!test node || rest.isEmpty) && onlyLast test rest

def isBareCase : Node → Bool
  | .caseOf _ branches => branches.isEmpty
  | _ => false

theorem raises_selectItemEdits (h : 0 ≤ indent) (item : Node) :
    Edit.Raises (.begun false) true (selectItemEdits indent item) (selectItemEdits (indent + 1) item)
      (if isBareCase item then .ended false else .begun false) := by
  cases item with
  | term t => exact .cons (.add false _) (raises_adds (isAdd_aliasEdits _ _))
  | caseOf word branches => exact .cons (.addLine _) (raises_branchEdits h branches)
  | call name args asWord aliasName => exact raises_adds (isAdd_callEdits _)
  | _ => exact .nil

theorem raises_selectItemsEdits (h : 0 ≤ indent) (items : List Node) :
    Edit.Raises (.ended false) (onlyLast isBareCase items) (selectItemsEdits indent items)
      (selectItemsEdits (indent + 1) items) (.ended false) := by
  induction items with
  | nil => exact .nil
  | cons item rest ih =>
    have hend : Edit.Raises (if isBareCase item then .ended false else .begun false)
        (!isBareCase item || rest.isEmpty) (commaBefore rest "," ++ [.endLine])
        (commaBefore rest "," ++ [.endLine]) (.ended false) := by
      cases isBareCase item with
      | false => exact (raises_adds (isAdd_commaBefore rest ",")).endLine
      | true =>
        cases rest with
        | nil => exact .cons .noLine .nil
        | cons next rest => exact .cons (.startFixed (by decide)) (.cons (.endLine true) .nil)
    have hstart := moves_indentation (show 0 < indent + 1 by omega) rfl
    simpa [selectItemsEdits, onlyLast] using
      Edit.Raises.cons hstart (((raises_selectItemEdits h item).append hend).append ih)

def linksConditions : Node → Bool
  | .onClause _ parts => parts.all fun
    | .link _ | .condition _ => true
    | _ => false
  | _ => true

theorem raises_joinConditionEdits (h : 0 ≤ indent) {word : String} {parts : List Node}
    (hparts : linksConditions (.onClause word parts) = true) (newLine : Bool) :
    Edit.Raises (if newLine then .ended false else .begun false) true
      (joinConditionEdits indent newLine parts ++ [.endLine])
      (joinConditionEdits (indent + 1) newLine parts ++ [.endLine]) (.ended false) := by
  have hstart : ∀ newLine : Bool, Edit.Raises (if newLine then .ended false else .begun false) true
      (if newLine then [.add (indentation (indent + 2))] else [])
      (if newLine then [.add (indentation (indent + 1 + 2))] else []) (.begun false) := by
    intro newLine
    cases newLine with
    | false => exact .nil
    | true => exact .cons (moves_indentation (by omega) (by omega)) .nil
  induction parts generalizing newLine with
  | nil =>
    cases newLine with
    | false => exact .cons (.endLine false) .nil
    | true => exact .cons .noLine .nil
  | cons part rest ih =>
    rw [linksConditions, List.all_cons, Bool.and_eq_true] at hparts
    cases part with
    | link word =>
      simpa [joinConditionEdits] using
        (hstart newLine).append (.cons (.add false "AND ") (ih hparts.2 false))
    | condition operands =>
      simpa [joinConditionEdits] using ((hstart newLine).append
        (raises_adds (isAdd_operands operands))).append (.cons (.endLine false) (ih hparts.2 true))
    | _ => cases hparts.1

theorem raises_fromParts (h : 0 ≤ indent) {parts : List Node}
    (hparts : parts.all linksConditions = true) :
    Draft.Raises (.ended false) true (fromParts indent parts) (fromParts (indent + 1) parts)
      (.ended false) := by
  have hstart := moves_indentation (show 0 < indent + 1 by omega) rfl
  fun_induction fromParts indent parts with
  | case1 => exact raises_pure () ()
  | case2 word => exact (raises_emit (.cons hstart (raises_adds rfl))).bind fun _ _ ↦ raises_fail _ _
  | case3 word table rest ih =>
    simp only [List.all_cons, Bool.and_eq_true] at hparts
    have hon : (if startsWithOn rest then [.add " ON"] else []).all isAdd = true := by split <;> rfl
    exact (raises_emit (.cons hstart (raises_adds rfl))).bind fun _ _ ↦ (adds_named table).raises.bind
      fun _ _ ↦ (raises_emit (raises_adds hon).endLine).bind fun _ _ ↦ ih hparts.2.2
  | case4 word parts =>
    exact raises_emit (raises_joinConditionEdits h (Bool.and_eq_true _ _ ▸ hparts).1 true)
  | case5 word parts next rest ih =>
    simp only [List.all_cons, Bool.and_eq_true] at hparts
    exact (raises_emit (raises_joinConditionEdits h hparts.1 true)).bind fun _ _ ↦ ih hparts.2.2
  | case6 part rest _ _ _ _ _ hname ih =>
    simp only [List.all_cons, Bool.and_eq_true] at hparts
    simp only [fromParts, hname]
    exact (raises_emit (.cons hstart .nil)).bind fun _ _ ↦ (adds_named part).raises.bind fun _ _ ↦
      (raises_emit (raises_adds (isAdd_comma rest))).bind fun _ _ ↦
        (raises_emit (.cons (.endLine false) .nil)).bind fun _ _ ↦ ih hparts.2
  | case7 part rest _ _ _ _ _ hname ih =>
    simp only [List.all_cons, Bool.and_eq_true] at hparts
    simp only [fromParts, hname]
    exact (raises_emit (.cons .noLine .nil)).bind fun _ _ ↦ ih hparts.2

theorem raises_groupByEdits (h : 0 ≤ indent) (blank : Bool) (items : List Node)
    (rollup : Option String) :
    Edit.Raises (.ended blank) items.isEmpty (groupByEdits indent items rollup)
      (groupByEdits (indent + 1) items rollup) (.ended false) := by
  have hitems : Edit.Raises (.ended false) items.isEmpty (groupItemsEdits items)
      (groupItemsEdits items) (.ended false) := by
    induction items with
    | nil => exact .nil
    | cons item rest ih =>
      exact .cons (.startFixed (by simp)) ((raises_adds (isAdd_commaBefore rest ",")).append
        (.cons (.endLine true) ih))
  have hrollup : Edit.Raises (.ended false) true
      (if isPresent rollup then [.addLine (indentation (indent + 1) ++ "WITH ROLLUP")] else [])
      (if isPresent rollup then [.addLine (indentation (indent + 1 + 1) ++ "WITH ROLLUP")] else [])
      (.ended false) := by
    split
    · exact .cons (moves_line (by omega) false (by decide)) .nil
    · exact .nil
  have hrest := hitems.append hrollup
  rw [Bool.and_true] at hrest
  exact .cons (moves_line h blank (by decide)) hrest

theorem raises_orderItems (h : 0 ≤ indent) (items : List Node) :
    Draft.Raises (.ended false) true (orderItems indent items) (orderItems (indent + 1) items)
      (.ended false) := by
  induction items with
  | nil => exact raises_pure () ()
  | cons item rest ih =>
    have hstart := moves_start (show 0 < indent + 1 by omega) rfl item.text
    exact (raises_emit (.cons hstart .nil)).bind fun _ _ ↦ (adds_sortEdits item).raises.bind
      fun _ _ ↦ (raises_emit (raises_adds (isAdd_commaBefore rest ",")).endLine).bind fun _ _ ↦ ih

/-- Whether the line of a condition after HAVING is not ended by it: that of a negated call, which no
completed reading holds. -/
def leavesOpen (node : Node) : Bool :=
  match valuesOf node with
  | .ok [.not _, .call .., .operator _, _] => true
  | _ => false

theorem raises_havingCondition (node : Node) :
    Draft.Raises (.begun false) true (havingCondition node) (havingCondition node)
      (if leavesOpen node then .begun false else .ended false) := by
  unfold havingCondition leavesOpen
  cases valuesOf node with
  | error fault => exact raises_fail _ _
  | ok values =>
    dsimp only
    fun_cases havingValues values with
    | case1 left op right =>
      cases left <;> exact raises_emit (.cons (.add false _) (.cons (.endLine false) .nil))
    | case3 word name args asWord aliasName op right =>
      refine raises_emit (raises_adds ?_)
      simp [isAdd, isAdd_callEdits]
    | _ => exact raises_fail _ _

theorem raises_havingConditions (h : 0 ≤ indent) {nodes : List Node}
    (hnodes : onlyLast leavesOpen nodes = true) :
    Draft.Raises (.ended false) true (havingConditions indent nodes)
      (havingConditions (indent + 1) nodes) (.ended false) := by
  have hstart := moves_indentation (show 0 < indent + 1 by omega) rfl
  -- A line that is left open is ended by the end of the clause.
  have hrest : ∀ {node : Node} {rest : List Node}, onlyLast leavesOpen (node :: rest) = true →
      (onlyLast leavesOpen rest = true → Draft.Raises (.ended false) true
        (havingConditions indent rest) (havingConditions (indent + 1) rest) (.ended false)) →
      Draft.Raises (if leavesOpen node then .begun false else .ended false) true
        (havingConditions indent rest) (havingConditions (indent + 1) rest) (.ended false) := by
    intro node rest hlast ih
    rw [onlyLast, Bool.and_eq_true] at hlast
    cases hopen : leavesOpen node with
    | false => exact ih hlast.2
    | true =>
      obtain rfl : rest = [] := by simpa [hopen] using hlast.1
      exact raises_emit (.cons (.endLine false) .nil)
  fun_induction havingConditions indent nodes with
  | case1 => exact raises_emit (.cons .noLine .nil)
  | case2 word => exact (raises_emit (.cons hstart (raises_adds rfl))).bind fun _ _ ↦ raises_fail _ _
  | case3 word node rest ih =>
    exact (raises_emit (.cons hstart (raises_adds rfl))).bind fun _ _ ↦
      (raises_havingCondition node).bind fun _ _ ↦ hrest (Bool.and_eq_true _ _ ▸ hnodes).2 ih
  | case4 node rest _ _ ih =>
    simp only [havingConditions]
    exact (raises_emit (.cons hstart .nil)).bind fun _ _ ↦
      (raises_havingCondition node).bind fun _ _ ↦ hrest hnodes ih

theorem raises_plainCondition (h : 0 ≤ indent) (parts : List Node) :
    Edit.Raises (.begun false) true (notEdits parts ++ plainConditionEdits indent (detachNot parts) ++
        [.endLine]) (notEdits parts ++ plainConditionEdits (indent + 1) (detachNot parts) ++ [.endLine])
      (.ended false) := by
  have hgroup : ∀ items, Edit.Raises (.ended false) true (groupEdits indent items)
      (groupEdits (indent + 1) items) (.ended false) := by
    intro items
    induction items with
    | nil => exact .nil
    | cons item rest ih =>
      exact .cons (moves_indentation (by omega) (by omega)) (.cons (.add false _)
        (.cons (.add false _) (.cons (.endLine false) ih)))
  rw [List.append_assoc, List.append_assoc]
  refine (raises_adds (isAdd_notEdits parts)).append ?_
  generalize detachNot parts = parts
  fun_cases plainConditionEdits indent parts with
  | case5 left op items =>
    exact .cons (.add false _) (.cons (.endLine false) ((hgroup items).append (.cons .noLine .nil)))
  | case6 =>
    simp only [plainConditionEdits]
    exact .cons (.endLine false) .nil
  | _ => exact .cons (.add false _) (.cons (.endLine false) .nil)

/-! ### Statements -/

mutual

/-- Whether statements pass a test, and with them those of the queries in their WHERE that are laid out.  The
test is told whether its statement stands `behind` a semicolon. -/
def eachLaid (test : Bool → Node → Bool) (behind : Bool) : List Node → Bool
  | [] => true
  | node :: rest => isLaid test behind node && eachLaid test (isSemicolon node) rest

def isLaid (test : Bool → Node → Bool) (behind : Bool) : Node → Bool
  | .whereClause _ nodes => eachCompared test nodes
  | node => test behind node

def eachCompared (test : Bool → Node → Bool) : List Node → Bool
  | [] => true
  | node :: rest => compared test node && eachCompared test rest

def compared (test : Bool → Node → Bool) : Node → Bool
  | .condition values | .subselect values | .orderByClause values | .groupByClause values _
  | .onClause _ values | .selectClause _ values | .fromClause _ values | .havingClause _ values =>
    comparedValues test values
  | _ => true

def comparedValues (test : Bool → Node → Bool) : List Node → Bool
  | [.not _, .term left, .operator _, .subselect query] | [.term left, .operator _, .subselect query] =>
    left.kind != .identifier || eachLaid test false query
  | _ => true

end

/-- The statements of queries.  No more is asked of them than is true of all that are read from a text. -/
def isQueryStatement (_behind : Bool) : Node → Bool
  | .selectClause word _ => word != ""
  | .fromClause _ parts => parts.all linksConditions
  | .havingClause _ nodes => onlyLast leavesOpen nodes
  | .semicolon text => text != ""
  | .insertClause .. => false
  | _ => true

def isSteady (behind : Bool) : Node → Bool
  | .selectClause _ items => onlyLast isBareCase items
  | .groupByClause items _ => items.isEmpty
  | .semicolon _ => !behind
  | _ => true

theorem raises_membership {left : Term} {op : String} {query : List Node}
    {draft other : Draft (List Node)} {keeps : Bool}
    (h : left.kind = .identifier → draft.Raises (.ended false) keeps other (.ended false)) :
    (membership left op query draft).Raises (.begun false) (left.kind != .identifier || keeps)
      (membership left op query other) (.ended false) := by
  unfold membership
  split
  next hkind =>
    rw [hkind, bne_self_eq_false, Bool.false_or, ← Bool.and_true keeps]
    exact (raises_emit (.cons (.add false _) (.cons (.endLine false) .nil))).bind fun _ _ ↦
      (h hkind).bind fun _ _ ↦
        (raises_emit (.cons (.extendLast false (by decide)) (.cons .noLine .nil))).bind_pure
  next hkind =>
    rw [bne_iff_ne.mpr hkind]
    exact (raises_emit (.cons (.endLine false) .nil)).bind_pure

mutual

/-- The induction follows the layout, with one part for each of its functions. -/
theorem raises_statements {indent : Int} (hindent : 0 ≤ indent) (behind : Bool) {nodes : List Node}
    (h : eachLaid isQueryStatement behind nodes = true) :
    (statements indent nodes).Raises (.ended (!nodes.isEmpty && behind)) (eachLaid isSteady behind nodes)
      (statements (indent + 1) nodes) (.ended false) := by
  cases nodes with
  | nil => exact (raises_emit (.cons .noLine .nil)).bind_pure
  | cons node rest =>
    rw [eachLaid, Bool.and_eq_true] at h
    have hgap : (emit (if isSemicolon node && !rest.isEmpty then [.blankLines 2] else [])).Raises
        (.ended false) true (emit (if isSemicolon node && !rest.isEmpty then [.blankLines 2] else []))
        (.ended (!rest.isEmpty && isSemicolon node)) := by
      rw [Bool.and_comm]
      cases !rest.isEmpty && isSemicolon node with
      | true => exact raises_emit (.cons .blankLines .nil)
      | false => exact raises_emit .nil
    have hrest := raises_statements hindent (isSemicolon node) h.2
    rw [statements, statements]
    exact (raises_statement hindent behind h.1).bind fun _ _ ↦ hgap.bind fun _ _ ↦ hrest.bind_pure
termination_by sizeOf nodes

theorem raises_statement {indent : Int} (hindent : 0 ≤ indent) (behind : Bool) {node : Node}
    (h : isLaid isQueryStatement behind node = true) :
    (statement indent node).Raises (.ended behind) (isLaid isSteady behind node)
      (statement (indent + 1) node) (.ended false) := by
  have hline : ∀ {word : String}, word ≠ "" →
      (emit [.addLine (indentation indent ++ word)]).Raises (.ended behind) true
        (emit [.addLine (indentation (indent + 1) ++ word)]) (.ended false) := fun hne ↦
    raises_emit (.cons (moves_line hindent behind hne) .nil)
  cases node with
  | selectClause word items =>
    have hword : upper word ≠ "" := by simpa [isLaid, isQueryStatement] using h
    exact (raises_emit (.cons (moves_line hindent behind hword)
      (raises_selectItemsEdits hindent items))).bind_pure
  | fromClause word parts =>
    exact ((hline (by decide)).bind fun _ _ ↦ raises_fromParts hindent h).bind_pure
  | whereClause word nodes =>
    have hnodes := raises_conditions hindent h
    exact (hline (by decide)).bind fun _ _ ↦ hnodes.bind_pure
  | groupByClause items rollup =>
    exact (raises_emit (raises_groupByEdits hindent behind items rollup)).bind_pure
  | havingClause word nodes =>
    exact ((hline (by decide)).bind fun _ _ ↦ raises_havingConditions hindent h).bind_pure
  | orderByClause items =>
    exact ((hline (by decide)).bind fun _ _ ↦ raises_orderItems hindent items).bind_pure
  | limitClause count offset offsetWord =>
    have hne : limitText count offset offsetWord ≠ "" := by
      unfold limitText
      split
      · simp
      · split <;> simp
    exact (hline hne).bind_pure
  | semicolon text =>
    cases behind <;> exact (raises_emit (.cons (.extendLast _ (bne_iff_ne.mp h)) .nil)).bind_pure
  | insertClause word table rows columns query => cases h
  | _ => exact raises_fail _ _
termination_by sizeOf node

theorem raises_conditions {indent : Int} (hindent : 0 ≤ indent) {nodes : List Node}
    (h : eachCompared isQueryStatement nodes = true) :
    (conditions indent nodes).Raises (.ended false) (eachCompared isSteady nodes)
      (conditions (indent + 1) nodes) (.ended false) := by
  have hstart := moves_indentation (show 0 < indent + 1 by omega) rfl
  fun_cases conditions indent nodes with
  | case1 => exact raises_pure _ _
  | case2 word => exact (raises_emit (.cons hstart (raises_adds rfl))).bind fun _ _ ↦ raises_fail _ _
  | case3 word node rest =>
    simp only [eachCompared, Bool.and_eq_true] at h
    have hnode := raises_condition hindent h.2.1
    have hrest := raises_conditions hindent h.2.2
    exact (raises_emit (.cons hstart (raises_adds rfl))).bind fun _ _ ↦ hnode.bind fun _ _ ↦
      hrest.bind_pure
  | case4 node rest =>
    simp only [eachCompared, Bool.and_eq_true] at h
    have hnode := raises_condition hindent h.1
    have hrest := raises_conditions hindent h.2
    simp only [conditions]
    exact (raises_emit (.cons hstart .nil)).bind fun _ _ ↦ hnode.bind fun _ _ ↦ hrest.bind_pure
termination_by sizeOf nodes

theorem raises_conditionValues {indent : Int} (hindent : 0 ≤ indent) {values : List Node}
    (h : comparedValues isQueryStatement values = true) :
    (conditionValues indent values).Raises (.begun false) (comparedValues isSteady values)
      (conditionValues (indent + 1) values) (.ended false) := by
  have hquery : ∀ {left : Term} {query : List Node},
      (left.kind != .identifier || eachLaid isQueryStatement false query) = true →
      left.kind = .identifier → eachLaid isQueryStatement false query = true := fun hlaid hkind ↦ by
    simpa [hkind] using hlaid
  fun_cases conditionValues indent values with
  | case1 word left op query =>
    have hlaid (hkind) := raises_statements (show 0 ≤ indent + 2 by omega) false (hquery h hkind)
    rw [Bool.and_false, Int.add_right_comm] at hlaid
    exact (raises_emit (.cons (.add false _) .nil)).bind fun _ _ ↦ (raises_membership hlaid).bind_pure
  | case2 left op query =>
    have hlaid (hkind) := raises_statements (show 0 ≤ indent + 2 by omega) false (hquery h hkind)
    rw [Bool.and_false, Int.add_right_comm] at hlaid
    exact (raises_membership hlaid).bind_pure
  | case3 values hnegated hplain =>
    have hsteady : comparedValues isSteady values = true := by
      rw [comparedValues]
      · exact hnegated
      · exact hplain
    rw [hsteady, conditionValues]
    · exact (raises_emit (raises_plainCondition hindent values)).bind_pure
    · exact hnegated
    · exact hplain
termination_by sizeOf values

theorem raises_condition {indent : Int} (hindent : 0 ≤ indent) {node : Node}
    (h : compared isQueryStatement node = true) :
    (condition indent node).Raises (.begun false) (compared isSteady node)
      (condition (indent + 1) node) (.ended false) := by
  cases node with
  | condition values | subselect values | orderByClause values | groupByClause values _
  | onClause _ values | selectClause _ values | fromClause _ values | havingClause _ values =>
    rw [condition, condition]
    exact (raises_conditionValues hindent h).bind_pure
  | valuesClause word rows => exact (raises_emit (.cons (.endLine false) .nil)).bind_pure
  | insertClause word table rows columns query =>
    cases rows with
    | none => exact (raises_emit (.cons (.endLine false) .nil)).bind_pure
    | some rows => exact raises_fail _ _
  | _ => exact raises_fail _ _
termination_by sizeOf node

end

/-- A layout of queries at the next level has the same lines, each one shifted, exactly if all the
statements that are laid out are steady. -/
theorem lines_style_succ_iff {nodes : List Node} {styled : Styled} (hindent : 0 ≤ indent)
    (hnodes : eachLaid isQueryStatement false nodes = true) (h : style indent nodes = .ok styled) :
    ∃ moved, style (indent + 1) nodes = .ok moved ∧
      (moved.lines = styled.lines.map shifted ↔ eachLaid isSteady false nodes = true) := by
  obtain ⟨houtcome, last, hlast, hlines⟩ := style_eq_ok.mp h
  obtain ⟨⟨tree, htree⟩, hraises⟩ := raises_statements hindent false hnodes styled.tree houtcome
  rw [Bool.and_false] at hraises
  have hspot : (Spot.ended false).Holds {} {} := ⟨rfl, rfl, by simp⟩
  obtain ⟨final, hfinal, haligned⟩ := hraises.exists_steps? .nil hspot hlast
  refine ⟨⟨final.lines, tree⟩, style_eq_ok.mpr ⟨htree, final, hfinal, rfl⟩, ?_⟩
  rw [← hlines]
  exact haligned.eq_map_iff

/-- `select a where not b in (select case when c then d else e order by f);` -/
def nestedChoice : List Node :=
  [.selectClause "select" [.plain .identifier "a"],
    .whereClause "where" [.condition [.not "not", .plain .identifier "b", .operator "in",
      .subselect [.selectClause "select" [.caseOf "case" [.whenThen "when" "c" "then" "d",
        .otherwise "else" "e"]], .orderByClause [.plain .identifier "f"]]]],
    .semicolon ";"]

theorem lines_style_succ_nestedChoice :
    ∃ styled moved, style 0 nestedChoice = .ok styled ∧ style 1 nestedChoice = .ok moved ∧
      moved.lines = styled.lines.map shifted := by
  obtain ⟨styled, hstyled, -⟩ : ∃ styled, style 0 nestedChoice = .ok styled ∧ styled.tree = _ :=
    exists_style_of_outcome rfl (by rintro _ _ ⟨⟩; rfl)
  obtain ⟨moved, hmoved, hshifted⟩ := lines_style_succ_iff (by decide) rfl hstyled
  exact ⟨styled, moved, hstyled, hmoved, hshifted.mpr rfl⟩

/-- The items of GROUP BY are not shifted with their clause. -/
theorem lines_style_groupBy_fixed :
    (style 0 [.groupByClause [.plain .identifier "a"] none]).map Styled.lines =
        .ok ["GROUP BY", "    a"] ∧
      (style 1 [.groupByClause [.plain .identifier "a"] none]).map Styled.lines =
        .ok ["    GROUP BY", "    a"] ∧
      ["GROUP BY", "    a"].map shifted = ["    GROUP BY", "        a"] :=
  ⟨rfl, rfl, by decide⟩

end Layout

end SqlLayout
