import SqlLayout.Proofs.Layout.Text
import SqlLayout.Proofs.Regular

/-!
# Values spell their tokens

Each layout function adds edits whose text is written with the tokens of its node.  The lemmas say so for
edits in front of others: what follows spells some tokens, so the whole spells the tokens of the node and
then those.  What follows a word has to start with a stop, which the end of a line always gives.
-/

namespace SqlLayout

open Text Word Token

namespace Edit

section Texts

variable {fresh : Bool} {edits : List Edit}

@[simp] theorem text_add (piece : String) :
    text false (.add piece :: edits) = piece.toList ++ text false edits := by
  by_cases h : piece = ""
  · simp [text, h]
  · simp [text, h, opening]

@[simp] theorem text_addLine (piece : String) :
    text false (.addLine piece :: edits) = piece.toList ++ text true edits := by
  by_cases h : piece = ""
  · simp [text, h]
  · simp [text, h, opening]

@[simp] theorem text_endLine : text fresh (.endLine :: edits) = text true edits := by
  cases fresh <;> rfl

@[simp] theorem text_extendLast (piece : String) :
    text fresh (.extendLast piece :: edits) = piece.toList ++ text true edits := by
  cases fresh <;> rfl

@[simp] theorem sound_add (piece : String) :
    sound false (.add piece :: edits) = sound false edits := rfl

@[simp] theorem sound_addLine (piece : String) :
    sound fresh (.addLine piece :: edits) = sound true edits := by
  cases fresh <;> rfl

@[simp] theorem sound_endLine : sound fresh (.endLine :: edits) = sound true edits := by
  cases fresh <;> rfl

/-- At the start of a line the only difference is the line feed. -/
theorem text_true (edits : List Edit) :
    text true edits = text false edits ∨ text true edits = '\n' :: text false edits := by
  induction edits with
  | nil => exact .inl rfl
  | cons edit edits ih =>
    cases edit with
    | add piece =>
      by_cases h : piece = ""
      · simpa [text, h] using ih
      · simp [text, h, opening]
    | addLine piece =>
      by_cases h : piece = ""
      · simp [text, h]
      · simp [text, h, opening]
    | blankLines count => exact .inl rfl
    | endLine => exact .inl rfl
    | extendLast piece => exact .inl rfl

theorem sound_of_false {edits : List Edit} (h : sound false edits = true) :
    sound fresh edits = true := by
  cases fresh with
  | false => exact h
  | true =>
    induction edits with
    | nil => rfl
    | cons edit edits ih =>
      cases edit with
      | add piece =>
        rw [sound_add] at h
        by_cases hpiece : piece = ""
        · simpa [sound, hpiece] using ih h
        · simpa [sound, hpiece] using h
      | addLine piece => exact h
      | blankLines count => exact h
      | endLine => exact h
      | extendLast piece => simp [sound] at h

/-- What follows the end of a line ends the words in front of it. -/
theorem ends_text_of_sound (h : sound true edits = true) : Ends (text true edits) := by
  have hfeed : isStop '\n' = true := by decide
  induction edits with
  | nil => exact ends_nil
  | cons edit edits ih =>
    cases edit with
    | add piece =>
      by_cases hpiece : piece = ""
      · simp only [text, hpiece, if_true]
        exact ih (by simpa [sound, hpiece] using h)
      · simp [text, hpiece, opening, hfeed]
    | addLine piece =>
      by_cases hpiece : piece = ""
      · simp only [text, hpiece, if_true]
        exact ih h
      · simp [text, hpiece, opening, hfeed]
    | blankLines count =>
      simp only [text]
      cases count.toNat with
      | zero => exact ih h
      | succ n => simp [List.replicate_succ, hfeed]
    | endLine => exact ih h
    | extendLast piece =>
      simp only [sound, Bool.and_eq_true] at h
      cases htext : piece.toList with
      | nil => simp [htext] at h
      | cons c tail =>
        have hc : isStop c = true := by simpa [htext] using h.1.2
        simp [text, htext, hc]

end Texts

end Edit

namespace Layout

variable {text : String} {branch : Node}

structure Inside (edits : List Edit) (tokens : List Token) : Prop where
  written : Written false (Edit.text false edits) tokens
  sound : Edit.sound false edits = true

structure Behind (edits : List Edit) (tokens : List Token) : Prop extends Inside edits tokens where
  ends : Ends (Edit.text false edits)
  noParen : tokens.head? ≠ some openParen

/-- Edits at the start of a line spell tokens; `table` tells whether a table is still expected. -/
structure AtLine (table : Bool) (edits : List Edit) (tokens : List Token) : Prop where
  written : Written table (Edit.text true edits) tokens
  sound : Edit.sound true edits = true
  noParen : tokens.head? ≠ some openParen

theorem written_append_of_blank {table : Bool} {blanks text : List Char} {tokens : List Token}
    (hblanks : blanks.all isBlank = true) (h : Written table text tokens) :
    Written table (blanks ++ text) tokens := by
  induction blanks with
  | nil => exact h
  | cons c blanks ih =>
    simp only [List.all_cons, Bool.and_eq_true] at hblanks
    exact .blank hblanks.1 (ih hblanks.2)

section Rules

variable {edits : List Edit} {tokens : List Token}

/-- Only the text of edits counts, not how it is cut into pieces. -/
theorem Inside.of_text {other : List Edit} (h : Inside edits tokens)
    (htext : Edit.text false other = Edit.text false edits)
    (hsound : Edit.sound false other = Edit.sound false edits) : Inside other tokens :=
  ⟨htext ▸ h.written, hsound ▸ h.sound⟩

theorem Behind.of_text {other : List Edit} (h : Behind edits tokens)
    (htext : Edit.text false other = Edit.text false edits)
    (hsound : Edit.sound false other = Edit.sound false edits) : Behind other tokens :=
  ⟨h.toInside.of_text htext hsound, htext ▸ h.ends, h.noParen⟩

theorem AtLine.of_inside (h : Inside edits tokens) (hparen : tokens.head? ≠ some openParen) :
    AtLine false edits tokens := by
  refine ⟨?_, Edit.sound_of_false h.sound, hparen⟩
  rcases Edit.text_true edits with htext | htext
  · exact htext ▸ h.written
  · exact htext ▸ .blank (by decide) h.written

theorem Behind.endLine (h : AtLine false edits tokens) : Behind (.endLine :: edits) tokens :=
  ⟨⟨by simpa using h.written, by simpa using h.sound⟩,
    by simpa using Edit.ends_text_of_sound h.sound, h.noParen⟩

theorem Inside.word (token : Token) (hwhole : token.isWhole = true)
    (hinsert : token.kind ≠ .insertWord) (h : Behind edits tokens) :
    Inside (.add token.text :: edits) (token :: tokens) := by
  refine ⟨?_, by simpa using h.sound⟩
  rw [Edit.text_add]
  exact .word hwhole hinsert h.ends h.noParen h.written

theorem Inside.blank {piece : String} (hblank : piece.toList.all isBlank = true)
    (h : Inside edits tokens) : Inside (.add piece :: edits) tokens := by
  refine ⟨?_, by simpa using h.sound⟩
  rw [Edit.text_add]
  exact written_append_of_blank hblank h.written

theorem Inside.indented (piece : String) {word : String} (hblank : piece.toList.all isBlank = true)
    (h : Inside (.add word :: edits) tokens) : Inside (.add (piece ++ word) :: edits) tokens :=
  (h.blank hblank).of_text (by simp) (by simp)

theorem Behind.space (h : Inside edits tokens) (hparen : tokens.head? ≠ some openParen) :
    Behind (.add " " :: edits) tokens :=
  ⟨.blank (by decide) h, by simp [show isStop ' ' = true by decide], hparen⟩

/-- A token that is a stop by itself may stand behind a word. -/
theorem Behind.stop (token : Token) (c : Char) (htext : token.text = String.ofList [c])
    (hc : isStop c = true) (hwhole : token.isWhole = true) (hinsert : token.kind ≠ .insertWord)
    (hparen : token ≠ openParen) (h : Behind edits tokens) :
    Behind (.add token.text :: edits) (token :: tokens) :=
  ⟨.word token hwhole hinsert h, by simp [htext, hc], by simpa using hparen⟩

theorem Behind.comma (h : Behind edits tokens) :
    Behind (.add "," :: edits) (comma :: tokens) :=
  .stop Token.comma ',' rfl (by decide) (isWhole_of_mem_ownWords (by decide)) (by decide) (by decide) h

theorem Behind.closeParen (h : Behind edits tokens) :
    Behind (.add ")" :: edits) (closeParen :: tokens) :=
  .stop Token.closeParen ')' rfl (by decide) (isWhole_of_mem_ownWords (by decide)) (by decide) (by decide) h

theorem Inside.call {name : String} (hname : isCallName name = true) (h : Inside edits tokens) :
    Inside (.add name :: .add "(" :: edits) (⟨.func, name⟩ :: openParen :: tokens) := by
  refine ⟨?_, by simpa using h.sound⟩
  rw [Edit.text_add, Edit.text_add]
  exact .call hname h.written

end Rules

/-! ### Values -/

section Values

open Spelling Regular

variable {edits : List Edit} {tokens : List Token}

theorem isWhole_of_isSound {token : Token} (h : token.isSound = true) (hkind : token.kind ≠ .func) :
    token.isWhole = true := by
  simpa [isSound, hkind] using h

theorem ne_openParen {token : Token} (h : token.kind ≠ .openParen) : token ≠ openParen := by
  rintro rfl
  exact h rfl

theorem tokenKind_ne (kind : TermKind) :
    kind.tokenKind ≠ .func ∧ kind.tokenKind ≠ .insertWord ∧ kind.tokenKind ≠ .openParen := by
  cases kind <;> decide

theorem ofValue_kind_ne (text : String) :
    (ofValue text).kind ≠ .func ∧ (ofValue text).kind ≠ .insertWord ∧
      (ofValue text).kind ≠ .openParen := by
  unfold ofValue plainKind
  dsimp only
  split
  · decide
  · split
    · decide
    · split
      · decide
      · split <;> decide

/-- A word that is no call is written as its token. -/
theorem Inside.spelled {kind : Kind} (hsound : isSound ⟨kind, text⟩ = true) (hfunc : kind ≠ .func)
    (hinsert : kind ≠ .insertWord) (h : Behind edits tokens) :
    Inside (.add text :: edits) (⟨kind, text⟩ :: tokens) :=
  .word ⟨kind, text⟩ (isWhole_of_isSound hsound hfunc) hinsert h

theorem Inside.term {t : Term} (hsound : (termToken t).isSound = true) (h : Behind edits tokens) :
    Inside (.add t.text :: edits) (termToken t :: tokens) :=
  .spelled hsound (tokenKind_ne t.kind).1 (tokenKind_ne t.kind).2.1 h

theorem Inside.value (hsound : (ofValue text).isSound = true) (h : Behind edits tokens) :
    Inside (.add text :: edits) (ofValue text :: tokens) :=
  .spelled hsound (ofValue_kind_ne text).1 (ofValue_kind_ne text).2.1 h

theorem ne_empty_of_isSound (hsound : (ofValue text).isSound = true) : text ≠ "" := by
  obtain ⟨c, tail, htext, -⟩ :=
    exists_of_isWhole (isWhole_of_isSound hsound (ofValue_kind_ne text).1)
  change text = String.ofList (c :: tail) at htext
  rw [htext]
  simp

theorem Behind.as (h : Behind edits tokens) :
    Behind (.add " AS" :: edits) (⟨.asWord, "AS"⟩ :: tokens) := by
  have has := Behind.space (.word ⟨.asWord, "AS"⟩ (isWhole_of_mem_ownWords (by decide)) (by decide) h)
    (by simp [openParen])
  exact has.of_text (by simp) (by simp)

theorem Behind.spaceValue (hsound : (ofValue text).isSound = true) (h : Behind edits tokens) :
    Behind (.add " " :: .add text :: edits) (ofValue text :: tokens) :=
  .space (.value hsound h) (by simpa using ne_openParen (ofValue_kind_ne text).2.2)

theorem ne_empty_of_upper {word keyword : String} (h : upper word = keyword) (hne : keyword ≠ "") :
    word ≠ "" := by
  rintro rfl
  exact hne (h ▸ rfl)

theorem behind_aliasName (aliasName : Option String)
    (hsound : ∀ token ∈ aliasTokens none aliasName, token.isSound = true)
    (h : Behind edits tokens) :
    Behind (aliasEdits none aliasName ++ edits) (aliasTokens none aliasName ++ tokens) := by
  cases aliasName with
  | none => exact h
  | some name =>
    have hvalue : (ofValue name).isSound = true := hsound _ (by simp [aliasTokens])
    simpa [aliasEdits, aliasTokens, isPresent, ne_empty_of_isSound hvalue] using
      Behind.spaceValue hvalue h

theorem behind_alias {asWord aliasName : Option String}
    (halias : isAlias asWord aliasName = true)
    (hsound : ∀ token ∈ aliasTokens asWord aliasName, token.isSound = true)
    (h : Behind edits tokens) :
    Behind (aliasEdits asWord aliasName ++ edits) (aliasTokens asWord aliasName ++ tokens) := by
  have hname := behind_aliasName aliasName
    (fun token htoken ↦ hsound token (List.mem_append_right _ htoken)) h
  cases asWord with
  | none => exact hname
  | some word =>
    have hword : upper word = "AS" := by
      simp only [isAlias, Option.all_some, Bool.and_eq_true, decide_eq_true_eq] at halias
      exact halias.1
    have hedits : aliasEdits (some word) aliasName = .add " AS" :: aliasEdits none aliasName := by
      simp [aliasEdits, isPresent, ne_empty_of_upper hword (by decide)]
    have htokens : aliasTokens (some word) aliasName =
        ⟨.asWord, "AS"⟩ :: aliasTokens none aliasName := by
      simp [aliasTokens, hword]
    rw [hedits, htokens]
    exact hname.as

theorem behind_callAlias {asWord aliasName : Option String}
    (hboth : asWord.isSome = aliasName.isSome) (halias : isAlias asWord aliasName = true)
    (hsound : ∀ token ∈ aliasTokens asWord aliasName, token.isSound = true)
    (h : Behind edits tokens) :
    Behind (callAliasEdits asWord aliasName ++ edits) (aliasTokens asWord aliasName ++ tokens) := by
  cases asWord with
  | none =>
    cases aliasName with
    | none => exact h
    | some name => simp at hboth
  | some word =>
    cases aliasName with
    | none => simp at hboth
    | some name =>
      have hword : upper word = "AS" := by
        simp only [isAlias, Option.all_some, Bool.and_eq_true, decide_eq_true_eq] at halias
        exact halias.1
      have hvalue : (ofValue name).isSound = true := hsound _ (by simp [aliasTokens])
      have hedits : callAliasEdits (some word) (some name) = [.add " AS ", .add name] := by
        simp [callAliasEdits, isPresent, ne_empty_of_upper hword (by decide),
          ne_empty_of_isSound hvalue]
      have htokens : aliasTokens (some word) (some name) =
          [⟨.asWord, "AS"⟩, ofValue name] := by
        simp [aliasTokens, hword]
      rw [hedits, htokens]
      exact (Behind.spaceValue hvalue h).as.of_text (by simp) (by simp)

theorem noParen_callTokens {node : Node} (hnode : isArg node = true) :
    (callTokens node ++ tokens).head? ≠ some openParen := by
  cases node with
  | term t => simpa [callTokens] using ne_openParen (tokenKind_ne t.kind).2.2
  | call name args asWord aliasName => simp [callTokens, openParen]
  | _ => simp [isArg] at hnode

theorem noParen_argTokens {arg : Node} {rest : List Node} (harg : isArg arg = true) :
    (argTokens (arg :: rest) ++ tokens).head? ≠ some openParen := by
  simp only [argTokens, List.append_assoc]
  exact noParen_callTokens harg

mutual

theorem inside_call {node : Node} {edits : List Edit} {tokens : List Token}
    (hnode : isArg node = true) (hsound : ∀ token ∈ callTokens node, token.isSound = true)
    (h : Behind edits tokens) : Inside (callEdits node ++ edits) (callTokens node ++ tokens) := by
  cases node with
  | term t => exact .term (hsound _ (by simp [callTokens])) h
  | call name args asWord aliasName =>
    simp only [isArg, Bool.and_eq_true, decide_eq_true_eq] at hnode
    obtain ⟨⟨hargs, hboth⟩, halias⟩ := hnode
    have hname : isCallName (upper name) = true := by
      have := hsound ⟨.func, upper name⟩ (by simp [callTokens])
      simpa [isSound] using this
    have hclose := (behind_callAlias hboth halias
      (fun token htoken ↦ hsound token (by simp [callTokens, htoken])) h).closeParen
    have hinside := inside_args hargs
      (fun token htoken ↦ hsound token (by simp [callTokens, htoken])) hclose
    simpa [callEdits, callTokens] using Inside.call hname hinside
  | _ => simp [isArg] at hnode

theorem inside_args {args : List Node} {edits : List Edit} {tokens : List Token}
    (hargs : areArgs args = true) (hsound : ∀ token ∈ argTokens args, token.isSound = true)
    (h : Behind edits tokens) : Inside (argEdits args ++ edits) (argTokens args ++ tokens) := by
  match args with
  | [] => exact h.toInside
  | [arg] =>
    simp only [areArgs, Bool.and_eq_true] at hargs
    have hcall := inside_call hargs.1
      (fun token htoken ↦ hsound token (by simp [argTokens, htoken])) h
    simpa [argEdits, argTokens, Layout.commaBefore, Spelling.commaBefore] using hcall
  | arg :: next :: rest =>
    rw [areArgs, Bool.and_eq_true] at hargs
    have hrest : Inside (argEdits (next :: rest) ++ edits) (argTokens (next :: rest) ++ tokens) :=
      inside_args hargs.2 (fun token htoken ↦ hsound token (by rw [argTokens]; simp [htoken])) h
    have hnext : isArg next = true := by
      rw [areArgs, Bool.and_eq_true] at hargs
      exact hargs.2.1
    have hcomma : Behind (.add ", " :: (argEdits (next :: rest) ++ edits)) _ :=
      (Behind.space hrest (noParen_argTokens hnext)).comma.of_text (by simp) (by simp)
    have hcall := inside_call hargs.1
      (fun token htoken ↦ hsound token (by rw [argTokens]; simp [htoken])) hcomma
    rw [argEdits, argTokens]
    simpa [Layout.commaBefore, Spelling.commaBefore] using hcall

end

theorem isBlank_indentation (level : Int) : (indentation level).toList.all isBlank = true := by
  unfold indentation
  induction level.toNat with
  | zero => rfl
  | succ n ih =>
    simp only [String.toList_join, List.replicate_succ, List.flatMap_cons, List.all_append,
      Bool.and_eq_true] at ih ⊢
    exact ⟨by decide, ih⟩

/-- A keyword that the layout writes by itself. -/
theorem Behind.keyword (token : Token) (hwhole : token.isWhole = true)
    (hinsert : token.kind ≠ .insertWord) (hparen : token.kind ≠ .openParen)
    (h : Behind edits tokens) : Behind (.add " " :: .add token.text :: edits) (token :: tokens) :=
  .space (.word token hwhole hinsert h) (by simpa using ne_openParen hparen)

theorem inside_branch (hbranch : isBranch branch = true)
    (hsound : ∀ token ∈ branchTokens branch, token.isSound = true) (h : Behind edits tokens) :
    Inside (.add branch.text :: edits) (branchTokens branch ++ tokens) := by
  cases branch with
  | whenThen whenWord tested thenWord result =>
    simp only [isBranch, Bool.and_eq_true, decide_eq_true_eq] at hbranch
    obtain ⟨⟨⟨hwhen, -⟩, hthen⟩, -⟩ := hbranch
    have htested : (ofValue tested).isSound = true := hsound _ (by simp [branchTokens])
    have hresult : (ofValue result).isSound = true := hsound _ (by simp [branchTokens])
    have hthen' := Behind.keyword ⟨.thenWord, "THEN"⟩ (isWhole_of_mem_ownWords (by decide)) (by decide)
      (by decide) (Behind.spaceValue hresult h)
    have hwhen' := Inside.word ⟨.whenWord, "WHEN"⟩ (isWhole_of_mem_ownWords (by decide)) (by decide)
      (Behind.spaceValue htested hthen')
    rw [branchTokens, hwhen, hthen]
    exact hwhen'.of_text (by simp [Node.text]) (by simp)
  | otherwise elseWord result =>
    simp only [isBranch, Bool.and_eq_true, decide_eq_true_eq] at hbranch
    have hresult : (ofValue result).isSound = true := hsound _ (by simp [branchTokens])
    have helse := Inside.word ⟨.elseWord, "ELSE"⟩ (isWhole_of_mem_ownWords (by decide)) (by decide)
      (Behind.spaceValue hresult h)
    rw [branchTokens, hbranch.1]
    exact helse.of_text (by simp [Node.text]) (by simp)
  | _ => simp [isBranch] at hbranch

theorem noParen_branchTokens (hbranch : isBranch branch = true) :
    (branchTokens branch ++ tokens).head? ≠ some openParen := by
  cases branch with
  | whenThen whenWord tested thenWord result => simp [branchTokens, openParen]
  | otherwise elseWord result => simp [branchTokens, openParen]
  | _ => simp [isBranch] at hbranch

theorem atLine_branch (indent : Int) (hbranch : isBranch branch = true)
    (hsound : ∀ token ∈ branchTokens branch, token.isSound = true) (h : Behind edits tokens) :
    AtLine false (.add (indentation indent ++ branch.text) :: edits)
      (branchTokens branch ++ tokens) := by
  have hinside := (inside_branch hbranch hsound h).indented _ (isBlank_indentation indent)
  exact .of_inside hinside (noParen_branchTokens hbranch)

theorem atLine_branches (indent : Int) {branches : List Node}
    (hbranches : branches.all isBranch = true)
    (hsound : ∀ token ∈ branches.flatMap branchTokens, token.isSound = true)
    (h : Behind edits tokens) :
    AtLine false (branchEdits indent branches ++ edits)
      (branches.flatMap branchTokens ++ tokens) := by
  induction branches with
  | nil => exact .of_inside h.toInside h.noParen
  | cons branch rest ih =>
    simp only [List.all_cons, Bool.and_eq_true] at hbranches
    have hfirst : ∀ token ∈ branchTokens branch, token.isSound = true :=
      fun token htoken ↦ hsound token (by simp [htoken])
    cases rest with
    | nil => simpa [branchEdits] using atLine_branch (indent + 2) hbranches.1 hfirst h
    | cons next rest =>
      have hrest := ih hbranches.2 fun token htoken ↦ hsound token
        (List.mem_append_right _ htoken)
      rw [branchEdits, List.flatMap_cons, List.append_assoc]
      · exact atLine_branch (indent + 2) hbranches.1 hfirst (.endLine hrest)
      · simp

/-- The end of the line of an item, with its comma. -/
theorem behind_commaBefore (rest : List Node) (h : AtLine false edits tokens) :
    Behind (Layout.commaBefore rest "," ++ .endLine :: edits)
      (Spelling.commaBefore rest ++ tokens) := by
  cases rest with
  | nil => exact .endLine h
  | cons node rest => exact (Behind.endLine h).comma

end Values

end Layout

end SqlLayout
