import SqlLayout.Proofs.Read.Steps

/-!
# The grammar of calls

A call is a function, a parenthesis, arguments with commas between them, the parenthesis that closes them
and an alias.  One comma may stand in front of the arguments and one behind them.  The reader accepts
exactly these calls, at any depth, and takes each alias as far as the tokens go.
-/

namespace SqlLayout

open Read

namespace Grammar

inductive IsAlias : List Token → Alias → Prop
  | none : IsAlias [] ⟨none, none⟩
  | word (word : String) : IsAlias [⟨.asWord, word⟩] ⟨some word, none⟩
  | name {token : Token} : token.kind.isValue = true → IsAlias [token] ⟨none, some token.text⟩
  | both (word : String) {token : Token} : token.kind.isValue = true →
      IsAlias [⟨.asWord, word⟩, token] ⟨some word, some token.text⟩

/-- An alias that is not the start of a longer one when `rest` follows. -/
structure IsLongestAlias (taken : List Token) (found : Alias) (rest : List Token) : Prop where
  isAlias : IsAlias taken found
  longest : ∀ more other, more <+: rest → IsAlias (taken ++ more) other → more = []

def leading : Option String → List Token
  | none => []
  | some word => [⟨.comma, word⟩]

mutual

/-- An argument in front of `rest` is a value or a call. -/
inductive IsArgument : List Token → Node → List Token → Prop
  | value {token : Token} {node : Node} {rest : List Token} :
      value? token = some node → IsArgument [token] node rest
  | call {taken rest : List Token} {node : Node} : IsCall taken node rest → IsArgument taken node rest

/-- Arguments with commas between them, of which the last may have a comma behind it, up to the parenthesis
that closes them. -/
inductive AreArguments : List Token → List Node → List Token → Prop
  | close (word : String) {rest : List Token} : AreArguments [⟨.closeParen, word⟩] [] rest
  | last (word : String) {front rest : List Token} {node : Node} :
      IsArgument front node (⟨.closeParen, word⟩ :: rest) →
      AreArguments (front ++ [⟨.closeParen, word⟩]) [node] rest
  | more (word : String) {front others rest : List Token} {node : Node} {nodes : List Node} :
      IsArgument front node (⟨.comma, word⟩ :: (others ++ rest)) → AreArguments others nodes rest →
      AreArguments (front ++ ⟨.comma, word⟩ :: others) (node :: nodes) rest

/-- A call in front of `rest`, whose alias belongs to it and not to a call in it. -/
inductive IsCall : List Token → Node → List Token → Prop
  | intro (name paren : String) (lead : Option String) {inner behind rest : List Token}
      {args : List Node} {found : Alias} :
      AreArguments inner args (behind ++ rest) → IsLongestAlias behind found rest →
      IsCall (⟨.func, name⟩ :: ⟨.openParen, paren⟩ :: (leading lead ++ inner ++ behind))
        (.call name args found.asWord found.name) rest

end

/-- Whether the parentheses of some tokens are balanced where `depth` more are open in front of them. -/
def areBalanced : (depth : Nat) → List Token → Bool
  | depth, [] => depth == 0
  | depth, token :: rest =>
    match token.kind with
    | .openParen => areBalanced (depth + 1) rest
    | .closeParen => 0 < depth && areBalanced (depth - 1) rest
    | _ => areBalanced depth rest

end Grammar

open Grammar

variable {bound depth count : Nat} {first : Bool} {token : Token} {node : Node} {args : List Node}
  {taken rest inner tokens : List Token} {found : Alias}

/-! ### Aliases -/

namespace Grammar

theorem IsAlias.length_le (h : IsAlias taken found) : taken.length ≤ 2 := by
  cases h <;> simp

theorem IsAlias.unique {other : Alias} (h : IsAlias taken found) (hother : IsAlias taken other) :
    found = other := by
  cases h with
  | none => cases hother; rfl
  | word word =>
    cases hother with
    | word => rfl
    | name hvalue => cases hvalue
  | name hvalue =>
    cases hother with
    | word => cases hvalue
    | name => rfl
  | both => cases hother; rfl

/-- What stands behind an AS that is an alias already. -/
theorem IsAlias.behind_word {word : String} {more : List Token}
    (h : IsAlias (⟨.asWord, word⟩ :: more) found) :
    more = [] ∨ ∃ token, token.kind.isValue = true ∧ more = [token] := by
  cases h with
  | word => exact .inl rfl
  | name => exact .inl rfl
  | both _ hvalue => exact .inr ⟨_, hvalue, rfl⟩

/-- An alias that starts with a token other than AS is a value. -/
theorem IsAlias.of_ne {more : List Token} (h : IsAlias (token :: more) found)
    (hkind : token.kind ≠ .asWord) : token.kind.isValue = true ∧ more = [] := by
  cases h with
  | word => exact absurd rfl hkind
  | name hvalue => exact ⟨hvalue, rfl⟩
  | both => exact absurd rfl hkind

/-- Of two aliases that are as long as the tokens allow, neither is longer than the other. -/
theorem IsLongestAlias.unique {taken' rest' : List Token} {found' : Alias}
    (h : IsLongestAlias taken found rest) (h' : IsLongestAlias taken' found' rest')
    (hsame : taken ++ rest = taken' ++ rest') : taken = taken' ∧ found = found' := by
  have hequal : taken = taken' := by
    rcases List.append_eq_append_iff.mp hsame with ⟨more, rfl, rfl⟩ | ⟨more, rfl, rfl⟩
    · rw [h.longest more found' (List.prefix_append _ _) h'.isAlias, List.append_nil]
    · rw [h'.longest more found (List.prefix_append _ _) h.isAlias, List.append_nil]
  subst hequal
  exact ⟨rfl, h.isAlias.unique h'.isAlias⟩

end Grammar

theorem exists_isLongestAlias (tokens : List Token) :
    ∃ taken rest, tokens = taken ++ rest ∧ IsLongestAlias taken (readAlias tokens).1 rest ∧
      (readAlias tokens).2 = taken.length := by
  cases tokens with
  | nil =>
    exact ⟨[], [], rfl, ⟨.none, fun more other hmore _ ↦ List.prefix_nil.mp hmore⟩, rfl⟩
  | cons token rest =>
    by_cases hkind : token.kind = .asWord
    · obtain ⟨kind, word⟩ := token
      obtain rfl : kind = .asWord := hkind
      cases hname : aliasName? rest with
      | none =>
        refine ⟨[⟨.asWord, word⟩], rest, rfl, ?_, by simp [readAlias, hname]⟩
        simp only [readAlias, hname]
        refine ⟨.word word, fun more other hmore halias ↦ ?_⟩
        rcases halias.behind_word with hnil | ⟨value, hvalue, rfl⟩
        · exact hnil
        · obtain ⟨others, rfl⟩ := hmore
          simp [aliasName?, hvalue] at hname
      | some name =>
        obtain ⟨value, others, rfl⟩ : ∃ value others, rest = value :: others := by
          cases rest with
          | nil => cases hname
          | cons value others => exact ⟨value, others, rfl⟩
        obtain ⟨hvalue, rfl⟩ : value.kind.isValue = true ∧ value.text = name := by
          simpa [aliasName?] using hname
        refine ⟨[⟨.asWord, word⟩, value], others, rfl, ?_, by simp [readAlias, hname]⟩
        simp only [readAlias, hname]
        refine ⟨.both word hvalue, fun more other _ halias ↦ ?_⟩
        have hlength := halias.length_le
        rw [List.length_append, List.length_cons, List.length_singleton] at hlength
        exact List.eq_nil_of_length_eq_zero (by omega)
    · rw [readAlias_of_ne hkind]
      by_cases hvalue : token.kind.isValue = true
      · simp only [aliasName?, if_pos hvalue]
        exact ⟨[token], rest, rfl, ⟨.name hvalue, fun more other _ halias ↦ (halias.of_ne hkind).2⟩, rfl⟩
      · simp only [aliasName?, if_neg hvalue]
        refine ⟨[], token :: rest, rfl, ⟨.none, fun more other hmore halias ↦ ?_⟩, rfl⟩
        cases more with
        | nil => rfl
        | cons next more =>
          obtain rfl := (List.cons_prefix_cons.mp hmore).1
          exact absurd (halias.of_ne hkind).1 hvalue

theorem Grammar.IsLongestAlias.readAlias_eq (h : IsLongestAlias taken found rest) :
    readAlias (taken ++ rest) = (found, taken.length) := by
  obtain ⟨others, more, hsame, hothers, hcount⟩ := exists_isLongestAlias (taken ++ rest)
  obtain ⟨rfl, hfound⟩ := h.unique hothers hsame
  exact Prod.ext hfound.symm hcount

/-! ### Arguments -/

/-- Some arguments are found at the front of the tokens, behind a comma only if they are the first. -/
def FindsArguments (first : Bool) (tokens : List Token) (args : List Node) (count : Nat) : Prop :=
  ∃ lead inner rest, (first = false → lead = none) ∧ tokens = leading lead ++ inner ++ rest ∧
    AreArguments inner args rest ∧ count = (leading lead ++ inner).length

theorem findsArguments_of_areArguments (first : Bool) (h : AreArguments inner args rest) :
    FindsArguments first (inner ++ rest) args inner.length :=
  ⟨none, inner, rest, fun _ ↦ rfl, rfl, h, rfl⟩

theorem FindsArguments.exists_areArguments (h : FindsArguments false tokens args count) :
    ∃ inner rest, tokens = inner ++ rest ∧ AreArguments inner args rest ∧ count = inner.length := by
  obtain ⟨lead, inner, rest, hlead, rfl, hargs, rfl⟩ := h
  obtain rfl := hlead rfl
  exact ⟨inner, rest, rfl, hargs, rfl⟩

/-- A call is a function with its arguments and the alias that is read behind them. -/
theorem isCall_iff_findsArguments :
    (∃ taken rest, tokens = taken ++ rest ∧ IsCall taken node rest ∧ count = taken.length) ↔
      ∃ name paren inner args taken, tokens = ⟨.func, name⟩ :: ⟨.openParen, paren⟩ :: inner ∧
        FindsArguments true inner args taken ∧
        node = .call name args (readAlias (inner.drop taken)).1.asWord
          (readAlias (inner.drop taken)).1.name ∧
        count = 2 + taken + (readAlias (inner.drop taken)).2 := by
  constructor
  · rintro ⟨_, rest, rfl, @⟨name, paren, lead, inner, behind, _, args, found, hargs, halias⟩, rfl⟩
    refine ⟨name, paren, leading lead ++ inner ++ (behind ++ rest), args, (leading lead ++ inner).length,
      by simp, ⟨lead, inner, behind ++ rest, by simp, rfl, hargs, rfl⟩, ?_, ?_⟩
    · rw [List.drop_left, halias.readAlias_eq]
    · rw [List.drop_left, halias.readAlias_eq]
      simp only [List.length_cons, List.length_append]
      omega
  · rintro ⟨name, paren, _, args, _, rfl, ⟨lead, inner, rest, -, rfl, hargs, rfl⟩, rfl, rfl⟩
    rw [List.drop_left]
    obtain ⟨behind, rest, rfl, halias, hcount⟩ := exists_isLongestAlias rest
    refine ⟨_, rest, ?_, .intro name paren lead hargs halias, ?_⟩
    · simp
    · simp only [hcount, List.length_cons, List.length_append]
      omega

/-- What stands for an argument is an argument, or nothing in front of a comma or parenthesis. -/
theorem readArg_finds {arg : List Node}
    (hbound : ∀ {tokens args count}, readArgs bound true tokens = .ok (args, count) →
      FindsArguments true tokens args count)
    (h : readArg bound first token rest = .ok (arg, count)) :
    (∃ node front behind, arg = [node] ∧ token :: rest = front ++ behind ∧
        IsArgument front node behind ∧ count = front.length) ∨
      ((first = true ∨ token.kind = .closeParen) ∧ arg = [] ∧ count = 0) := by
  rcases readArg_cases h with ⟨node, hvalue, rfl, rfl⟩ |
      ⟨⟨kind, paren⟩, inner, args, taken, hfunc, rfl, hparen, hargs, rfl, rfl⟩ |
      ⟨-, -, hfirst, rfl, rfl⟩
  · exact .inl ⟨node, [token], rest, rfl, rfl, .value hvalue, rfl⟩
  · obtain ⟨kind, name⟩ := token
    obtain rfl : kind = .func := hfunc
    obtain rfl := hparen
    obtain ⟨front, behind, hsame, hcall, hcount⟩ := isCall_iff_findsArguments.mpr
      ⟨name, paren, inner, args, taken, rfl, hbound hargs, rfl, rfl⟩
    exact .inl ⟨_, front, behind, rfl, hsame, .call hcall, hcount⟩
  · exact .inr ⟨hfirst, rfl, rfl⟩

theorem readArgs_finds (h : readArgs bound first tokens = .ok (args, count)) :
    FindsArguments first tokens args count := by
  induction bound generalizing first tokens args count with
  | zero => cases h
  | succ bound ih =>
    cases tokens with
    | nil => cases h
    | cons token rest =>
      rw [readArgs_succ] at h
      obtain ⟨⟨arg, taken⟩, harg, hafter⟩ := bind_eq_ok.mp h
      rcases readArg_finds ih harg with
        ⟨node, front, behind, rfl, hsame, hnode, rfl⟩ | ⟨hfirst, rfl, rfl⟩
      · rw [hsame] at hafter ⊢
        rw [List.drop_left] at hafter
        rcases readAfterArg_cases hafter with
          ⟨word, more, others, counted, rfl, hothers, rfl, rfl⟩ | ⟨word, more, rfl, rfl, rfl⟩
        · obtain ⟨inner, rest, rfl, hargs, rfl⟩ := (ih hothers).exists_areArguments
          have hfinds := findsArguments_of_areArguments first (.more word hnode hargs)
          rw [List.append_assoc, List.length_append, List.length_cons] at hfinds
          rwa [Nat.add_assoc, Nat.add_comm 1]
        · have hfinds := findsArguments_of_areArguments first (.last word hnode)
          rwa [List.append_assoc, List.length_append] at hfinds
      · rcases readAfterArg_cases hafter with
          ⟨word, more, others, counted, hdrop, hothers, rfl, rfl⟩ | ⟨word, more, hdrop, rfl, rfl⟩
        · obtain ⟨rfl, rfl⟩ := List.cons.inj hdrop
          obtain ⟨inner, rest, rfl, hargs, rfl⟩ := (ih hothers).exists_areArguments
          refine ⟨some word, inner, rest, fun hfalse ↦ ?_, rfl, hargs, ?_⟩
          · rcases hfirst with htrue | hclose
            · cases hfalse.symm.trans htrue
            · cases hclose
          · simp only [leading, List.length_append, List.length_singleton, Nat.zero_add]
        · obtain ⟨rfl, rfl⟩ := List.cons.inj hdrop
          exact findsArguments_of_areArguments first (.close word)

def ReadsArguments (bound : Nat) : Prop :=
  ∀ {first tokens args count}, FindsArguments first tokens args count → tokens.length ≤ bound →
    readArgs bound first tokens = .ok (args, count)

/-- An argument is read as one if the arguments of a call in it are read. -/
theorem readArgs_of_isArgument {front behind : List Token} (hbound : ReadsArguments bound)
    (h : IsArgument front node behind) (hlength : (front ++ behind).length ≤ bound + 1) (first : Bool) :
    readArgs (bound + 1) first (front ++ behind) = readAfterArg bound [node] front.length behind := by
  cases h with
  | value hvalue => exact readArgs_of_value hvalue
  | call hcall =>
    obtain ⟨name, paren, inner, args, taken, htokens, hargs, rfl, hcount⟩ :=
      isCall_iff_findsArguments.mp ⟨front, behind, rfl, hcall, rfl⟩
    have hread : readArgs bound true inner = .ok (args, taken) := by
      refine hbound hargs ?_
      rw [htokens, List.length_cons, List.length_cons] at hlength
      omega
    rw [htokens, readArgs_succ, ← htokens]
    simp [readArg, value?, termKind?, hread, Except.map, Except.bind, ← hcount]

theorem readsArguments (bound : Nat) : ReadsArguments bound := by
  induction bound with
  | zero =>
    rintro first tokens args count ⟨lead, inner, rest, -, rfl, hargs, -⟩ hlength
    cases hargs <;> simp [List.length_append] at hlength
  | succ bound ih =>
    rintro first tokens args count ⟨lead, inner, rest, hlead, rfl, hargs, rfl⟩ hlength
    cases lead with
    | some word =>
      obtain rfl : first = true := by
        cases first with
        | false => cases hlead rfl
        | true => rfl
      have hread : readArgs bound false (inner ++ rest) = .ok (args, inner.length) :=
        ih (findsArguments_of_areArguments false hargs) (Nat.le_of_succ_le_succ hlength)
      simp only [leading, List.cons_append, List.nil_append, readArgs_succ]
      simp [readArg, value?, termKind?, readAfterArg, hread, bind, Except.bind]
      omega
    | none =>
      simp only [leading, List.nil_append] at hlength ⊢
      cases hargs with
      | close word => cases first <;> rfl
      | @last word front _ node hnode =>
        rw [List.append_assoc, List.singleton_append] at hlength ⊢
        rw [readArgs_of_isArgument ih hnode hlength]
        simp [readAfterArg]
      | @more word front others _ node nodes hnode hothers =>
        rw [List.append_assoc] at hlength ⊢
        have hread : readArgs bound false (others ++ rest) = .ok (nodes, others.length) := by
          refine ih (findsArguments_of_areArguments false hothers) ?_
          simp only [List.length_append, List.length_cons, List.cons_append] at hlength ⊢
          omega
        rw [List.cons_append, readArgs_of_isArgument ih hnode hlength]
        simp [readAfterArg, hread, bind, Except.bind]
        omega

theorem readArgs_eq_ok_iff (hlength : tokens.length ≤ bound) :
    readArgs bound first tokens = .ok (args, count) ↔ FindsArguments first tokens args count :=
  ⟨readArgs_finds, fun h ↦ readsArguments bound h hlength⟩

/-! ### Balance -/

/-- Tokens that leave as many parentheses open as there are in front of them. -/
def Balances (tokens : List Token) : Prop :=
  ∀ depth rest, areBalanced depth (tokens ++ rest) = areBalanced depth rest

/-- Tokens that close one parenthesis more than they open. -/
def ClosesOne (tokens : List Token) : Prop :=
  ∀ depth rest, areBalanced (depth + 1) (tokens ++ rest) = areBalanced depth rest

theorem balances_nil : Balances [] := fun _ _ ↦ rfl

theorem balances_cons (hopen : token.kind ≠ .openParen) (hclose : token.kind ≠ .closeParen)
    (h : Balances tokens) : Balances (token :: tokens) := fun depth rest ↦ by
  rw [← h depth rest, List.cons_append, areBalanced]
  split
  · exact absurd ‹_› hopen
  · exact absurd ‹_› hclose
  · rfl

theorem balances_of_isValue (h : token.kind.isValue = true) : Balances [token] :=
  balances_cons (fun hkind ↦ by simp [hkind, Kind.isValue] at h)
    (fun hkind ↦ by simp [hkind, Kind.isValue] at h) balances_nil

theorem balances_leading (lead : Option String) : Balances (leading lead) := by
  cases lead with
  | none => exact balances_nil
  | some word => exact balances_cons (by simp) (by simp) balances_nil

theorem Grammar.IsAlias.balances (h : IsAlias taken found) : Balances taken := by
  cases h with
  | none => exact balances_nil
  | word word => exact balances_cons (by simp) (by simp) balances_nil
  | name hvalue => exact balances_of_isValue hvalue
  | both word hvalue => exact balances_cons (by simp) (by simp) (balances_of_isValue hvalue)

theorem balances_call (name paren : String) (lead : Option String) {behind : List Token}
    (hinner : ClosesOne inner) (halias : IsAlias behind found) :
    Balances (⟨.func, name⟩ :: ⟨.openParen, paren⟩ :: (leading lead ++ inner ++ behind)) := by
  intro depth rest
  calc areBalanced depth
        (⟨.func, name⟩ :: ⟨.openParen, paren⟩ :: (leading lead ++ inner ++ behind) ++ rest)
    _ = areBalanced (depth + 1) (leading lead ++ (inner ++ (behind ++ rest))) := by simp [areBalanced]
    _ = areBalanced depth rest := by rw [balances_leading, hinner, halias.balances]

/-- The induction is on a bound on the number of tokens, as a call among the arguments has fewer. -/
theorem Grammar.AreArguments.closesOne (h : AreArguments taken args rest) (hlength : taken.length ≤ bound) :
    ClosesOne taken := by
  induction bound generalizing taken args rest with
  | zero => cases h <;> simp at hlength
  | succ bound ih =>
    have hargument : ∀ {front node rest}, IsArgument front node rest → front.length ≤ bound + 1 →
        Balances front := by
      intro front node rest hnode hlength
      cases hnode with
      | value hvalue => exact balances_of_isValue (isValue_of_value? hvalue)
      | call hcall =>
        obtain @⟨name, paren, lead, inner, behind, _, args, found, hargs, halias⟩ := hcall
        refine balances_call name paren lead (ih hargs ?_) halias.isAlias
        simp only [List.length_cons, List.length_append] at hlength
        omega
    intro depth behind
    cases h with
    | close word => simp [areBalanced]
    | last word hnode =>
      rw [List.length_append] at hlength
      rw [List.append_assoc, hargument hnode (by omega)]
      simp [areBalanced]
    | more word hnode hothers =>
      rw [List.length_append, List.length_cons] at hlength
      rw [List.append_assoc, hargument hnode (by omega), List.cons_append, areBalanced]
      exact ih hothers (by omega) depth behind

theorem Grammar.IsCall.balances (h : IsCall taken node rest) : Balances taken := by
  obtain ⟨name, paren, lead, hargs, halias⟩ := h
  exact balances_call name paren lead (hargs.closesOne (Nat.le_refl _)) halias.isAlias

/-! ### Faults -/

/-- The ways in which reading a call fails: no argument where one is needed, a call that is not opened or
not closed, and no token at all. -/
def callFaults : List Fault :=
  [.invalidCall, .unbalanced, .endOfTokens]

theorem readAfterArg_faults {arg : List Node} {fault : Fault}
    (hbound : ∀ {tokens}, readArgs bound false tokens = .error fault → fault ∈ callFaults)
    (h : readAfterArg bound arg count tokens = .error fault) : fault ∈ callFaults := by
  unfold readAfterArg at h
  split at h
  · cases h
    decide
  · rcases bind_eq_error.mp h with hmore | ⟨found, -, hfound⟩
    · exact hbound hmore
    · cases hfound
  · cases h
  · cases h
    decide

theorem readArgs_faults {fault : Fault} (h : readArgs bound first tokens = .error fault) :
    fault ∈ callFaults := by
  induction bound generalizing first tokens with
  | zero =>
    cases h
    decide
  | succ bound ih =>
    cases tokens with
    | nil =>
      cases h
      decide
    | cons token rest =>
      rw [readArgs_succ] at h
      rcases bind_eq_error.mp h with harg | ⟨found, -, hafter⟩
      · unfold readArg at harg
        split at harg
        · cases harg
        · split at harg
          · split at harg
            · cases harg
              decide
            · split at harg
              · rename_i inner _
                cases hargs : readArgs bound true inner with
                | error stop =>
                  rw [hargs] at harg
                  cases harg
                  exact ih hargs
                | ok found =>
                  rw [hargs] at harg
                  cases harg
              · cases harg
                decide
          · split at harg
            · cases harg
              decide
            · cases harg
      · exact readAfterArg_faults ih hafter

/-! ### Reading without a bound -/

/-- What stands for one argument, with `call` to read the arguments of a call. -/
def argument (call : List Token → Except Fault (List Node × Nat)) (first : Bool) (token : Token)
    (rest : List Token) : Except Fault (List Node × Nat) :=
  match value? token with
  | some node => .ok ([node], 1)
  | none =>
    if token.kind = .func then
      match rest with
      | [] => .error .endOfTokens
      | paren :: inner =>
        if paren.kind = .openParen then
          (call inner).map fun found ↦
            ([.call token.text found.1 (readAlias (inner.drop found.2)).1.asWord
                (readAlias (inner.drop found.2)).1.name],
              2 + found.2 + (readAlias (inner.drop found.2)).2)
        else .error .unbalanced
    else if !first && token.kind != .closeParen then .error .invalidCall
    else .ok ([], 0)

/-- What is read behind an argument, with `others` to read the arguments behind a comma. -/
def behindArgument (others : List Token → Except Fault (List Node × Nat)) (arg : List Node) (count : Nat) :
    List Token → Except Fault (List Node × Nat)
  | [] => .error .endOfTokens
  | ⟨.comma, _⟩ :: more => (others more).map fun found ↦ (arg ++ found.1, count + 1 + found.2)
  | ⟨.closeParen, _⟩ :: _ => .ok (arg, count + 1)
  | _ :: _ => .error .invalidCall

/-- One turn of the reader of arguments; `next` is to read the arguments that are left. -/
def turn (next : Bool → List Token → Except Fault (List Node × Nat)) (first : Bool) :
    List Token → Except Fault (List Node × Nat)
  | [] => .error .unbalanced
  | token :: rest =>
    (argument (next true) first token rest).bind fun found ↦
      behindArgument (next false) found.1 found.2 ((token :: rest).drop found.2)

/-- The arguments of a call, read without a bound.  A turn that left as many tokens as it found would never
end. -/
def unboundedArgs (first : Bool) (tokens : List Token) : Except Fault (List Node × Nat) :=
  turn (fun first left ↦ if left.length < tokens.length then unboundedArgs first left else .error .endless)
    first tokens
termination_by tokens.length

/-- A turn goes on only with fewer tokens. -/
theorem turn_congr {next other : Bool → List Token → Except Fault (List Node × Nat)}
    (h : ∀ first left, left.length < tokens.length → next first left = other first left) (first : Bool) :
    turn next first tokens = turn other first tokens := by
  cases tokens with
  | nil => rfl
  | cons token rest =>
    have hargument : argument (next true) first token rest = argument (other true) first token rest := by
      cases rest with
      | nil => rfl
      | cons paren inner =>
        have hinner : inner.length < (token :: paren :: inner).length := by
          rw [List.length_cons, List.length_cons]
          omega
        simp only [argument, h true inner hinner]
    have hbehind : ∀ arg count,
        behindArgument (next false) arg count ((token :: rest).drop count) =
          behindArgument (other false) arg count ((token :: rest).drop count) := by
      intro arg count
      unfold behindArgument
      split
      · rfl
      · next more hdrop =>
        have hlength := congrArg List.length hdrop
        simp only [List.length_drop, List.length_cons] at hlength
        rw [h false more (by rw [List.length_cons]; omega)]
      · rfl
      · rfl
    simp only [turn, hargument, hbehind]

theorem readArgs_eq_turn (bound : Nat) (first : Bool) (tokens : List Token) :
    readArgs (bound + 1) first tokens = turn (readArgs bound) first tokens := by
  cases tokens with
  | nil => rfl
  | cons token rest => exact readArgs_succ bound first token rest

theorem readArgs_eq_unbounded (hlength : tokens.length ≤ bound) :
    readArgs bound first tokens = unboundedArgs first tokens := by
  induction bound generalizing first tokens with
  | zero =>
    obtain rfl := List.eq_nil_of_length_eq_zero (Nat.le_zero.mp hlength)
    rw [unboundedArgs]
    rfl
  | succ bound ih =>
    rw [readArgs_eq_turn, unboundedArgs]
    apply turn_congr
    intro first left hleft
    rw [if_pos hleft, ih (by omega)]

/-! ### The grammar -/

theorem readCall_iff_isCall :
    readCall tokens = .ok (node, count) ↔
      ∃ taken rest, tokens = taken ++ rest ∧ IsCall taken node rest ∧ count = taken.length := by
  rw [isCall_iff_findsArguments, readCall_eq_ok]
  constructor
  · rintro ⟨name, ⟨kind, paren⟩, inner, args, taken, rfl, hparen, hargs, hnode⟩
    obtain rfl : kind = .openParen := hparen
    exact ⟨name, paren, inner, args, taken, rfl, readArgs_finds hargs, hnode⟩
  · rintro ⟨name, paren, inner, args, taken, rfl, hargs, hnode⟩
    exact ⟨name, _, inner, args, taken, rfl, rfl, (readArgs_eq_ok_iff (Nat.le_refl _)).mpr hargs, hnode⟩

theorem readCall_faults {name paren : String} {fault : Fault}
    (h : readCall (⟨.func, name⟩ :: ⟨.openParen, paren⟩ :: inner) = .error fault) :
    fault ∈ callFaults := by
  rcases bind_eq_error.mp h with hargs | ⟨found, -, hfound⟩
  · exact readArgs_faults hargs
  · cases hfound

/-- Tokens that start with a function and a parenthesis are read as a call exactly if a call stands in front
of them, and as that call.  Its parentheses are balanced.  All other such tokens have one of three faults,
and the bound of the reader makes no difference. -/
theorem readCall_eq_ok_iff_isCall {tokens : List Token}
    (h : Token.startWith tokens [some [.func], some [.openParen]] = true) :
    (∀ node count, readCall tokens = .ok (node, count) ↔
      ∃ taken rest, tokens = taken ++ rest ∧ IsCall taken node rest ∧ count = taken.length) ∧
    (∀ node count, readCall tokens = .ok (node, count) →
      count ≤ tokens.length ∧ areBalanced 0 (tokens.take count) = true) ∧
    ((¬∃ taken node rest, tokens = taken ++ rest ∧ IsCall taken node rest) →
      ∃ fault ∈ callFaults, readCall tokens = .error fault) ∧
    ∀ bound, tokens.length ≤ bound + 2 →
      readArgs bound true (tokens.drop 2) = unboundedArgs true (tokens.drop 2) := by
  obtain ⟨name, paren, inner, rfl⟩ :
      ∃ name paren inner, tokens = ⟨.func, name⟩ :: ⟨.openParen, paren⟩ :: inner := by
    rcases tokens with _ | ⟨⟨kind, name⟩, _ | ⟨⟨other, paren⟩, inner⟩⟩
    · cases h
    · simp [Token.startWith] at h
    · simp only [Token.startWith, Bool.and_true, Bool.and_eq_true, List.contains_cons,
        List.contains_nil, Bool.or_false, beq_iff_eq] at h
      obtain ⟨rfl, rfl⟩ := h
      exact ⟨name, paren, inner, rfl⟩
  refine ⟨fun node count ↦ readCall_iff_isCall, fun node count hread ↦ ?_, fun hnone ↦ ?_,
    fun bound hbound ↦ readArgs_eq_unbounded (Nat.le_of_succ_le_succ (Nat.le_of_succ_le_succ hbound))⟩
  · obtain ⟨taken, rest, htokens, hcall, rfl⟩ := readCall_iff_isCall.mp hread
    rw [htokens, List.take_left, List.length_append]
    refine ⟨Nat.le_add_right _ _, ?_⟩
    rw [← List.append_nil taken, hcall.balances]
    rfl
  · cases hread : readCall (⟨.func, name⟩ :: ⟨.openParen, paren⟩ :: inner) with
    | error fault => exact ⟨fault, readCall_faults hread, rfl⟩
    | ok found =>
      obtain ⟨taken, rest, htokens, hcall, -⟩ := readCall_iff_isCall.mp hread
      exact absurd ⟨taken, found.1, rest, htokens, hcall⟩ hnone

/-- `f(, g(x) as, 1,) t as` -/
def danglingCall : List Token :=
  [⟨.func, "f"⟩, ⟨.openParen, "("⟩, ⟨.comma, ","⟩, ⟨.func, "g"⟩, ⟨.openParen, "("⟩, ⟨.identifier, "x"⟩,
    ⟨.closeParen, ")"⟩, ⟨.asWord, "as"⟩, ⟨.comma, ","⟩, ⟨.number, "1"⟩, ⟨.comma, ","⟩, ⟨.closeParen, ")"⟩,
    ⟨.identifier, "t"⟩, ⟨.asWord, "as"⟩]

theorem readCall_danglingCall_iff_isCall :
    Token.startWith danglingCall [some [.func], some [.openParen]] = true ∧
      (∀ node count, readCall danglingCall = .ok (node, count) ↔
        ∃ taken rest, danglingCall = taken ++ rest ∧ IsCall taken node rest ∧ count = taken.length) ∧
      readCall danglingCall = .ok (.call "f"
        [.call "g" [.plain .identifier "x"] (some "as") none, .plain .number "1"] none (some "t"), 13) := by
  have hstart : Token.startWith danglingCall [some [.func], some [.openParen]] = true := by decide
  exact ⟨hstart, (readCall_eq_ok_iff_isCall hstart).1, rfl⟩

end SqlLayout
