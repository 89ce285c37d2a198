import SqlLayout.Proofs.Layout.Text
import SqlLayout.Proofs.Layout.UpperCase
import SqlLayout.Proofs.Read.Related

/-!
# Layouts with the same frame

A layout writes fixed text around texts that it copies from a tree.  Two layouts have the same frame if they
write the same fixed text in the same places.  What they write is then equal exactly if the copied texts are
equal, and the literals in it are the literals among the copied texts.

`Copied R xs ys text other` says so of two texts: they have the same fixed parts, none of which holds a
quote, and in the places in between the first has the texts `xs` and the second the texts `ys`, which
are related by `R` place by place.
-/

namespace SqlLayout

open Text

/-- Texts with the same fixed parts around copied texts. -/
inductive Copied (R : String → String → Prop) :
    List String → List String → String → String → Prop
  | fixed {text : String} : text.toList.all (!Word.isQuote ·) = true → Copied R [] [] text text
  | copied {text other : String} : R text other → Copied R [text] [other] text other
  | append {xs ys zs ws : List String} {text other rest more : String} :
      Copied R xs ys text other → Copied R zs ws rest more →
      Copied R (xs ++ zs) (ys ++ ws) (text ++ rest) (other ++ more)

inductive CopiedLines (R : String → String → Prop) :
    List String → List String → List String → List String → Prop
  | nil : CopiedLines R [] [] [] []
  | concat {xs ys zs ws lines others : List String} {line other : String} :
      CopiedLines R xs ys lines others → Copied R zs ws line other →
      CopiedLines R (xs ++ zs) (ys ++ ws) (lines ++ [line]) (others ++ [other])

def NonemptyTexts (R : String → String → Prop) : Prop :=
  ∀ text other, R text other → text ≠ "" ∧ other ≠ ""

section Texts

variable {R : String → String → Prop} {xs ys zs ws : List String} {text other : String}

theorem Copied.enclosed {front back : String} (hfront : front.toList.all (!Word.isQuote ·) = true)
    (hback : back.toList.all (!Word.isQuote ·) = true) (h : Copied R xs ys text other) :
    Copied R xs ys (front ++ text ++ back) (front ++ other ++ back) := by
  have hall := Copied.append (.append (.fixed hfront) h) (.fixed hback)
  simpa only [List.append_nil, List.nil_append] using hall

theorem Copied.length_eq (h : Copied R xs ys text other) : xs.length = ys.length := by
  induction h with
  | fixed _ => rfl
  | copied _ => rfl
  | append _ _ ih ihrest => simp [ih, ihrest]

theorem Copied.eq_empty (hR : NonemptyTexts R) (h : Copied R xs ys text other) :
    text = "" ↔ other = "" := by
  induction h with
  | fixed _ => rfl
  | copied htext => simp [hR _ _ htext]
  | append _ _ ih ihrest => simp [ih, ihrest]

theorem Copied.eq_nil (hR : NonemptyTexts R) (h : Copied R xs ys text other) (htext : text = "") :
    xs = [] ∧ ys = [] := by
  induction h with
  | fixed _ => exact ⟨rfl, rfl⟩
  | copied hcopied => exact absurd htext (hR _ _ hcopied).1
  | append _ _ ih ihrest =>
    obtain ⟨hfirst, hsecond⟩ := String.append_eq_empty_iff.mp htext
    simp [ih hfirst, ihrest hsecond]

theorem Copied.eq_of_eq (h : Copied R xs ys text other) (hxs : xs = ys) : text = other := by
  induction h with
  | fixed _ => rfl
  | copied _ => simpa using hxs
  | append hfirst _ ih ihrest =>
    obtain ⟨hleft, hright⟩ := List.append_inj hxs hfirst.length_eq
    rw [ih hleft, ihrest hright]

/-- No text is a proper start of a text that it is related to. -/
def PrefixFree (R : String → String → Prop) : Prop :=
  ∀ text other, R text other → ∀ rest more, text ++ rest = other ++ more → text = other

theorem Copied.eq_of_append (hR : PrefixFree R)
    (h : Copied R xs ys text other) {rest more : String} (heq : text ++ rest = other ++ more) :
    xs = ys ∧ rest = more := by
  induction h generalizing rest more with
  | fixed _ => exact ⟨rfl, String.append_right_inj _ |>.mp heq⟩
  | copied hcopied =>
    obtain rfl := hR _ _ hcopied _ _ heq
    exact ⟨rfl, String.append_right_inj _ |>.mp heq⟩
  | append _ _ ih ihrest =>
    rw [String.append_assoc, String.append_assoc] at heq
    obtain ⟨hleft, heq⟩ := ih heq
    obtain ⟨hright, heq⟩ := ihrest heq
    exact ⟨by rw [hleft, hright], heq⟩

theorem Copied.eq_iff (hR : PrefixFree R) (h : Copied R xs ys text other) :
    text = other ↔ xs = ys := by
  refine ⟨fun heq ↦ ?_, h.eq_of_eq⟩
  exact (h.eq_of_append hR (congrArg (· ++ "") heq)).1

theorem CopiedLines.length_eq {lines others : List String} (h : CopiedLines R xs ys lines others) :
    xs.length = ys.length := by
  induction h with
  | nil => rfl
  | concat _ hline ih => simp [ih, hline.length_eq]

/-- Lines with the same frame are equal exactly if the copied texts are. -/
theorem CopiedLines.eq_iff (hR : PrefixFree R) {lines others : List String}
    (h : CopiedLines R xs ys lines others) : lines = others ↔ xs = ys := by
  induction h with
  | nil => exact ⟨fun _ ↦ rfl, fun _ ↦ rfl⟩
  | concat hlines hline ih =>
    constructor
    · intro heq
      obtain ⟨hfront, hlast⟩ := List.append_inj' heq rfl
      rw [ih.mp hfront, (hline.eq_iff hR).mp (List.singleton_inj.mp hlast)]
    · intro heq
      obtain ⟨hfront, hlast⟩ := List.append_inj heq hlines.length_eq
      rw [ih.mpr hfront, hline.eq_of_eq hlast]

end Texts

/-! ### Buffers -/

namespace LineBuffer

/-- Buffers with the same frame; if `fresh`, no line is being written. -/
def Faces (R : String → String → Prop) (fresh : Bool) (xs ys : List String)
    (buffer other : LineBuffer) : Prop :=
  ∃ ls ms ps qs, xs = ls ++ ps ∧ ys = ms ++ qs ∧ CopiedLines R ls ms buffer.lines other.lines ∧
    Copied R ps qs buffer.line other.line ∧ (fresh = true → buffer.line = "")

variable {R : String → String → Prop} {fresh : Bool} {xs ys zs ws : List String}
  {buffer other : LineBuffer}

theorem faces_empty : Faces R true [] [] {} {} :=
  ⟨[], [], [], [], rfl, rfl, .nil, .fixed rfl, fun _ ↦ rfl⟩

theorem Faces.stale (h : Faces R fresh xs ys buffer other) : Faces R false xs ys buffer other := by
  obtain ⟨ls, ms, ps, qs, hxs, hys, hlines, hline, -⟩ := h
  exact ⟨ls, ms, ps, qs, hxs, hys, hlines, hline, nofun⟩

theorem Faces.add {text word : String} (h : Faces R fresh xs ys buffer other)
    (htext : Copied R zs ws text word) :
    Faces R false (xs ++ zs) (ys ++ ws) (buffer.add text) (other.add word) := by
  obtain ⟨ls, ms, ps, qs, rfl, rfl, hlines, hline, -⟩ := h
  refine ⟨ls, ms, ps ++ zs, qs ++ ws, List.append_assoc .., List.append_assoc .., hlines, ?_, nofun⟩
  rw [line_add, line_add]
  exact .append hline htext

theorem lines_endLine (buffer : LineBuffer) :
    buffer.endLine.lines =
      if buffer.line = "" then buffer.lines else buffer.lines ++ [buffer.line] := rfl

theorem Faces.endLine (hR : NonemptyTexts R) (h : Faces R fresh xs ys buffer other) :
    Faces R true xs ys buffer.endLine other.endLine := by
  obtain ⟨ls, ms, ps, qs, rfl, rfl, hlines, hline, -⟩ := h
  have hempty := hline.eq_empty hR
  by_cases htext : buffer.line = ""
  · -- A line without text is dropped, and nothing was copied into it.
    obtain ⟨rfl, rfl⟩ := hline.eq_nil hR htext
    refine ⟨ls, ms, [], [], rfl, rfl, ?_, .fixed rfl, fun _ ↦ rfl⟩
    rwa [lines_endLine, lines_endLine, if_pos htext, if_pos (hempty.mp htext)]
  · refine ⟨ls ++ ps, ms ++ qs, [], [], (List.append_nil _).symm, (List.append_nil _).symm, ?_,
      .fixed rfl, fun _ ↦ rfl⟩
    rw [lines_endLine, lines_endLine, if_neg htext, if_neg (hempty.not.mp htext)]
    exact .concat hlines hline

theorem copiedLines_replicate {lines others : List String} (h : CopiedLines R xs ys lines others)
    (count : Nat) :
    CopiedLines R xs ys (lines ++ List.replicate count "") (others ++ List.replicate count "") := by
  induction count with
  | zero => simpa using h
  | succ count ih =>
    have hempty : Copied R [] [] "" "" := .fixed rfl
    have hnext := CopiedLines.concat ih hempty
    simpa [List.replicate_succ'] using hnext

theorem Faces.blankLines (hR : NonemptyTexts R) (h : Faces R fresh xs ys buffer other) (count : Int) :
    Faces R true xs ys (buffer.blankLines count) (other.blankLines count) := by
  obtain ⟨ls, ms, ps, qs, hxs, hys, hlines, hline, -⟩ := h.endLine hR
  exact ⟨ls, ms, ps, qs, hxs, hys, copiedLines_replicate hlines _, hline, fun _ ↦ rfl⟩

/-- The last line can only be extended in order where no line is being written. -/
theorem Faces.extendLast? (hR : NonemptyTexts R) {text word : String}
    (h : Faces R true xs ys buffer other) (htext : Copied R zs ws text word) :
    Option.Rel (Faces R true (xs ++ zs) (ys ++ ws)) (buffer.extendLast? text)
      (other.extendLast? word) := by
  obtain ⟨ls, ms, ps, qs, rfl, rfl, hlines, hline, hfresh⟩ := h
  obtain ⟨rfl, rfl⟩ := hline.eq_nil hR (hfresh rfl)
  obtain ⟨pending, lines⟩ := buffer
  obtain ⟨pendingOther, others⟩ := other
  change CopiedLines R ls ms lines others at hlines
  simp only [List.append_nil]
  unfold LineBuffer.extendLast?
  cases hlines with
  | nil => exact .none
  | @concat as bs cs ds lines others last lastOther hlines hlast =>
    -- Without its last line the first buffer still faces the second.
    have hbase : Faces R true as bs ⟨pending, lines⟩ ⟨pendingOther, others⟩ :=
      ⟨as, bs, [], [], (List.append_nil _).symm, (List.append_nil _).symm, hlines, hline, hfresh⟩
    have hnext := ((hbase.add hlast).add htext).endLine hR
    simp only [List.getLast?_concat, List.dropLast_concat]
    exact .some hnext

end LineBuffer

/-! ### Edits and drafts -/

section Drafts

open LineBuffer

variable {R : String → String → Prop} {fresh middle after : Bool} {xs ys zs ws : List String}
  {edits others more moreOthers : List Edit} {text word : String} {α β : Type}

/-- Edits that keep two buffers in the same frame and copy the texts `xs` into the first and `ys` into the
second.  They start where a line is being written unless `fresh`, and end so unless `after`. -/
def FacingEdits (R : String → String → Prop) (fresh : Bool) (xs ys : List String)
    (edits others : List Edit) (after : Bool) : Prop :=
  ∀ as bs buffer other, Faces R fresh as bs buffer other →
    Option.Rel (Faces R after (as ++ xs) (bs ++ ys)) (buffer.steps? edits) (other.steps? others)

def FacingDrafts (R : String → String → Prop) (fresh : Bool) (xs ys : List String)
    (draft other : Draft α) (after : Bool) : Prop :=
  ∀ as bs buffer target, Faces R fresh as bs buffer target →
    Read.Agree (fun found copy ↦ Faces R after (as ++ xs) (bs ++ ys) found.2 copy.2)
      (draft.write buffer) (other.write target)

theorem facing_nil : FacingEdits R fresh [] [] [] [] fresh := by
  intro as bs buffer other h
  simp only [List.append_nil]
  exact .some h

theorem FacingEdits.stale (h : FacingEdits R fresh xs ys edits others after) :
    FacingEdits R fresh xs ys edits others false := by
  intro as bs buffer other hfaces
  have hlast := h as bs buffer other hfaces
  generalize buffer.steps? edits = last at hlast ⊢
  generalize other.steps? others = lastOther at hlast ⊢
  cases hlast with
  | none => exact .none
  | some hlast => exact .some hlast.stale

theorem facing_cons {edit editOther : Edit}
    (hstep : ∀ as bs buffer other, Faces R fresh as bs buffer other →
      Option.Rel (Faces R middle (as ++ xs) (bs ++ ys)) (buffer.step? edit) (other.step? editOther))
    (h : FacingEdits R middle zs ws edits others after) :
    FacingEdits R fresh (xs ++ zs) (ys ++ ws) (edit :: edits) (editOther :: others) after := by
  intro as bs buffer other hfaces
  have hnext := hstep as bs buffer other hfaces
  simp only [steps?, ← List.append_assoc]
  generalize buffer.step? edit = next at hnext ⊢
  generalize other.step? editOther = nextOther at hnext ⊢
  cases hnext with
  | none => exact .none
  | some hnext => exact h _ _ _ _ hnext

theorem facing_add (htext : Copied R xs ys text word)
    (h : FacingEdits R false zs ws edits others after) :
    FacingEdits R fresh (xs ++ zs) (ys ++ ws) (.add text :: edits) (.add word :: others) after :=
  facing_cons (fun _ _ _ _ hfaces ↦ .some (hfaces.add htext)) h

theorem facing_fixed (htext : text.toList.all (!Word.isQuote ·) = true)
    (h : FacingEdits R false xs ys edits others after) :
    FacingEdits R fresh xs ys (.add text :: edits) (.add text :: others) after :=
  facing_add (.fixed htext) h

theorem facing_copied (htext : R text word) (h : FacingEdits R false xs ys edits others after) :
    FacingEdits R fresh (text :: xs) (word :: ys) (.add text :: edits) (.add word :: others) after :=
  facing_add (.copied htext) h

theorem facing_addLine (hR : NonemptyTexts R) (htext : Copied R xs ys text word)
    (h : FacingEdits R true zs ws edits others after) :
    FacingEdits R fresh (xs ++ zs) (ys ++ ws) (.addLine text :: edits) (.addLine word :: others)
      after :=
  facing_cons (fun _ _ _ _ hfaces ↦ .some ((hfaces.add htext).endLine hR)) h

theorem facing_addLine_nil (hR : NonemptyTexts R) (htext : Copied R xs ys text word) :
    FacingEdits R fresh xs ys [.addLine text] [.addLine word] true := by
  simpa only [List.append_nil] using facing_addLine hR htext facing_nil

theorem facing_endLine (hR : NonemptyTexts R) (h : FacingEdits R true xs ys edits others after) :
    FacingEdits R fresh xs ys (.endLine :: edits) (.endLine :: others) after := by
  have hstep : ∀ as bs buffer other, Faces R fresh as bs buffer other →
      Option.Rel (Faces R true (as ++ []) (bs ++ [])) (buffer.step? .endLine)
        (other.step? .endLine) := by
    intro as bs buffer other hfaces
    simp only [List.append_nil]
    exact .some (hfaces.endLine hR)
  exact facing_cons hstep h

theorem facing_line (hR : NonemptyTexts R) (htext : Copied R xs ys text word) :
    FacingEdits R fresh xs ys [.add text, .endLine] [.add word, .endLine] true := by
  simpa only [List.append_nil] using facing_add htext (facing_endLine hR facing_nil)

theorem facing_blankLines (hR : NonemptyTexts R) (count : Int) :
    FacingEdits R fresh [] [] [.blankLines count] [.blankLines count] true := by
  have hstep : ∀ as bs buffer other, Faces R fresh as bs buffer other →
      Option.Rel (Faces R true (as ++ []) (bs ++ [])) (buffer.step? (.blankLines count))
        (other.step? (.blankLines count)) := by
    intro as bs buffer other hfaces
    simp only [List.append_nil]
    exact .some (hfaces.blankLines hR count)
  exact facing_cons hstep facing_nil

theorem facing_extendLast (hR : NonemptyTexts R) (htext : Copied R xs ys text word) :
    FacingEdits R true xs ys [.extendLast text] [.extendLast word] true := by
  have hstep : FacingEdits R true (xs ++ []) (ys ++ []) [.extendLast text] [.extendLast word] true :=
    facing_cons (fun _ _ _ _ hfaces ↦ hfaces.extendLast? hR htext) facing_nil
  simpa only [List.append_nil] using hstep

theorem FacingEdits.append (h : FacingEdits R fresh xs ys edits others middle)
    (hmore : FacingEdits R middle zs ws more moreOthers after) :
    FacingEdits R fresh (xs ++ zs) (ys ++ ws) (edits ++ more) (others ++ moreOthers) after := by
  intro as bs buffer other hfaces
  have hnext := h as bs buffer other hfaces
  simp only [steps?_append, ← List.append_assoc]
  generalize buffer.steps? edits = next at hnext ⊢
  generalize other.steps? others = nextOther at hnext ⊢
  cases hnext with
  | none => exact .none
  | some hnext => exact hmore _ _ _ _ hnext

theorem FacingEdits.append_fixed (h : FacingEdits R fresh xs ys edits others middle)
    (hmore : FacingEdits R middle [] [] more moreOthers after) :
    FacingEdits R fresh xs ys (edits ++ more) (others ++ moreOthers) after := by
  simpa only [List.append_nil] using h.append hmore

theorem facing_done (h : FacingEdits R fresh xs ys edits others after) (result other : α) :
    FacingDrafts R fresh xs ys ⟨edits, .ok result⟩ ⟨others, .ok other⟩ after := by
  intro as bs buffer target hfaces
  have hlast := h as bs buffer target hfaces
  simp only [Draft.write]
  generalize buffer.steps? edits = last at hlast ⊢
  generalize target.steps? others = lastOther at hlast ⊢
  cases hlast with
  | none => exact .error rfl
  | some hlast => exact .ok hlast

theorem facing_emit (h : FacingEdits R fresh xs ys edits others after) :
    FacingDrafts R fresh xs ys (Draft.emit edits) (Draft.emit others) after :=
  facing_done h () ()

theorem facing_pure (result other : α) :
    FacingDrafts R fresh [] [] (pure result : Draft α) (pure other : Draft α) fresh := by
  intro as bs buffer target hfaces
  simp only [List.append_nil]
  exact .ok hfaces

/-- Where a layout fails, it does not matter what it would have copied. -/
theorem facing_fail (fault : Fault) :
    FacingDrafts R fresh xs ys (Draft.fail fault : Draft α) (Draft.fail fault : Draft α) after := by
  intro as bs buffer target hfaces
  exact .error rfl

theorem FacingDrafts.bind {draft other : Draft α} {next nextOther : α → Draft β}
    (h : FacingDrafts R fresh xs ys draft other middle)
    (hnext : ∀ a b, FacingDrafts R middle zs ws (next a) (nextOther b) after) :
    FacingDrafts R fresh (xs ++ zs) (ys ++ ws) (draft >>= next) (other >>= nextOther) after := by
  intro as bs buffer target hfaces
  rw [Draft.write_bind, Draft.write_bind]
  apply (h as bs buffer target hfaces).bind
  rintro ⟨a, written⟩ ⟨b, copy⟩ hcopy
  simp only [← List.append_assoc]
  exact hnext a b _ _ _ _ hcopy

theorem FacingDrafts.bind_pure {draft other : Draft α} {f g : α → β}
    (h : FacingDrafts R fresh xs ys draft other after) :
    FacingDrafts R fresh xs ys (draft >>= fun a ↦ pure (f a)) (other >>= fun b ↦ pure (g b)) after := by
  have hbind := h.bind fun a b ↦ facing_pure (f a) (g b)
  simpa only [List.append_nil] using hbind

end Drafts

end SqlLayout
