import SqlLayout.Read.Statement

/-!
# Guarded tokens

A reader that runs out of tokens, or finds a token that it never expects, stops without a report of the
defect.  A scan over the tokens tells where this cannot happen: what a call, a list of values or an
INSERT needs is there, no parenthesis closes anything else, no NOT stands in front of a call, and where
conditions start with a membership test each link leads to a condition.  Behind a token at which all
reading stops with a report, the tokens do not matter.
-/

namespace SqlLayout

def Kind.isPlain : Kind → Bool
  | .func | .openParen | .closeParen | .notWord | .inWord | .compare | .insertWord | .valuesWord =>
    false
  | _ => true

theorem Kind.isPlain_of_isValue {kind : Kind} (h : kind.isValue = true) : kind.isPlain = true := by
  cases kind <;> first | rfl | cases h

namespace Read

inductive Place where
  /-- Outside of calls and lists. -/
  | start
  /-- Behind a call or its alias. -/
  | ended
  /-- Behind a function that is an argument of this many calls. -/
  | called (depth : Nat)
  /-- Among the arguments of such a function. -/
  | inside (depth : Nat)
  /-- Behind a NOT. -/
  | negated
  /-- Behind an operator that a list may follow. -/
  | compared
  /-- In the list of a membership test. -/
  | members
  /-- Behind the word that starts an INSERT. -/
  | storing
  /-- Behind the table of an INSERT. -/
  | table
  /-- In the list of the columns of an INSERT. -/
  | columns
  /-- Behind the columns of an INSERT. -/
  | source
  /-- Behind the word in front of rows. -/
  | valued
  /-- Behind a token at which reading stops. -/
  | beyond

namespace Place

def outside? : Kind → Option Place
  | .func => some (called 0)
  | .openParen => some beyond
  | .closeParen => none
  | .notWord => some negated
  | .inWord | .compare => some compared
  | .insertWord => some storing
  | .valuesWord => some valued
  | _ => some start

/-- The place behind the arguments of a function that is an argument of `depth` calls. -/
def leave : (depth : Nat) → Place
  | 0 => ended
  | depth + 1 => inside depth

def argument (depth : Nat) : Kind → Place
  | .func => called (depth + 1)
  | .closeParen => leave depth
  | .identifier | .number | .str | .comma | .asWord => inside depth
  | _ => beyond

def listed? (stay close : Place) (kind : Kind) : Option Place :=
  if kind = .closeParen then some close
  else if kind.isValue || kind = .comma then some stay
  else none

/-- The place behind a token.  Behind a call no parenthesis may open: after a comparison of two calls it would
be taken without a look at it. -/
def behind? (kind : Kind) : Place → Option Place
  | start | source => outside? kind
  | ended =>
    if kind = .openParen then none
    else if kind.isValue || kind = .asWord then some ended
    else outside? kind
  | called depth => if kind = .openParen then some (inside depth) else none
  | inside depth => some (argument depth kind)
  | negated => if kind = .func then none else outside? kind
  | compared => if kind = .openParen then some members else outside? kind
  | members => listed? members start kind
  | storing => if kind = .identifier then some table else none
  | table => if kind = .openParen then some columns else outside? kind
  | columns => listed? columns source kind
  | valued => if kind = .openParen then none else outside? kind
  | beyond => some beyond

/-- Whether the tokens may end at a place. -/
def isLast : Place → Bool
  | start | ended | negated | compared | valued | beyond => true
  | _ => false

end Place

def closesFrom : Place → List Token → Bool
  | place, [] => place.isLast
  | place, token :: rest =>
    match place.behind? token.kind with
    | some next => closesFrom next rest
    | none => false

def startsCondition (tokens : List Token) : Bool :=
  (simpleCondition? tokens).isSome || opensMembership tokens

def linksLead : List Token → Bool
  | ⟨.betweenWord, _⟩ :: _ :: ⟨.link, _⟩ :: rest => linksLead rest
  | ⟨.link, _⟩ :: rest => startsCondition rest && linksLead rest
  | _ :: rest => linksLead rest
  | [] => true

/-- Whether the links behind each WHERE and HAVING that starts with a membership test lead on. -/
def testsLead : List Token → Bool
  | [] => true
  | token :: rest =>
    (!((token.kind = .whereWord || token.kind = .havingWord) && opensMembership rest) ||
      linksLead rest) && testsLead rest

def isGuarded (tokens : List Token) : Bool :=
  closesFrom .start tokens && testsLead tokens

section Scan

variable {depth : Nat} {place : Place} {text : String} {token : Token} {tokens rest : List Token}

def Closes (place : Place) (tokens : List Token) : Prop :=
  closesFrom place tokens = true

theorem closes_cons {next : Place} (h : place.behind? token.kind = some next) :
    Closes place (token :: rest) ↔ Closes next rest := by
  rw [Closes, closesFrom, h]
  rfl

theorem closes_beyond (tokens : List Token) : Closes .beyond tokens := by
  induction tokens with
  | nil => rfl
  | cons token rest ih => exact ih

theorem Closes.tail (h : Closes .start (token :: rest)) (hkind : token.kind.isPlain = true) :
    Closes .start rest := by
  refine (closes_cons ?_).mp h
  obtain ⟨kind, text⟩ := token
  cases kind <;> first | rfl | cases hkind

theorem Closes.of_value (h : Closes .start (token :: rest)) (hvalue : token.kind.isValue = true) :
    Closes .start rest :=
  h.tail (Kind.isPlain_of_isValue hvalue)

/-- Behind an operator that no list follows the tokens are as closed as anywhere. -/
theorem Closes.of_compared (h : Closes .start (⟨.compare, text⟩ :: token :: rest))
    (hkind : token.kind ≠ .openParen) : Closes .start (token :: rest) := by
  rw [Closes, closesFrom] at h
  simp only [Place.behind?, Place.outside?, closesFrom, if_neg hkind] at h
  exact h

theorem Closes.of_comparison (h : Closes .start (⟨.compare, text⟩ :: token :: rest))
    (hvalue : token.kind.isValue = true) : Closes .start rest := by
  have hparen : token.kind ≠ .openParen := by
    intro heq
    rw [heq] at hvalue
    cases hvalue
  exact (h.of_compared hparen).of_value hvalue

theorem Closes.of_negated (h : Closes .start (⟨.notWord, text⟩ :: token :: rest)) :
    token.kind ≠ .func ∧ Closes .start (token :: rest) := by
  rw [Closes, closesFrom] at h
  simp only [Place.behind?, Place.outside?, closesFrom] at h
  by_cases hkind : token.kind = .func
  · rw [if_pos hkind] at h
    cases h
  · rw [if_neg hkind] at h
    exact ⟨hkind, h⟩

theorem Closes.of_called (h : Closes (.called depth) rest) :
    ∃ word inner, rest = ⟨.openParen, word⟩ :: inner ∧ Closes (.inside depth) inner := by
  rcases rest with _ | ⟨⟨kind, word⟩, inner⟩
  · cases h
  · cases kind with
    | openParen => exact ⟨word, inner, rfl, h⟩
    | _ => cases h

/-- Each token of a list stays in it or closes it. -/
theorem Closes.of_listed {close : Place}
    (hplace : ∀ kind, place.behind? kind = Place.listed? place close kind)
    (h : Closes place (token :: rest)) :
    token.kind = .closeParen ∧ Closes close rest ∨
      (token.kind.isValue = true ∨ token.kind = .comma) ∧ Closes place rest := by
  rw [Closes, closesFrom, hplace] at h
  by_cases hclose : token.kind = .closeParen
  · rw [Place.listed?, if_pos hclose] at h
    exact .inl ⟨hclose, h⟩
  · rw [Place.listed?, if_neg hclose] at h
    split at h
    · rename_i next hnext
      split at hnext
      · rename_i hkind
        cases hnext
        rw [Bool.or_eq_true, decide_eq_true_eq] at hkind
        exact .inr ⟨hkind, h⟩
      · cases hnext
    · cases h

/-- Behind a call less may stand than elsewhere. -/
theorem Closes.of_ended (h : Closes .ended tokens) : Closes .start tokens := by
  induction tokens with
  | nil => rfl
  | cons token rest ih =>
    obtain ⟨kind, text⟩ := token
    cases kind with
    | identifier | number | str | asWord => exact ih h
    | openParen => cases h
    | _ => exact h

/-- A token that is taken without a look at it stands behind a call, and what it opens is not read. -/
theorem Closes.drop_of_ended (h : Closes .ended tokens) : Closes .start (tokens.drop 1) := by
  rcases tokens with _ | ⟨⟨kind, text⟩, rest⟩
  · rfl
  · cases kind with
    | identifier | number | str | asWord => exact Closes.of_ended h
    | openParen | closeParen => cases h
    | func =>
      obtain ⟨word, inner, rfl, -⟩ := Closes.of_called h
      exact closes_beyond inner
    | notWord | inWord | compare | valuesWord =>
      rcases rest with _ | ⟨⟨kind, text⟩, rest⟩
      · rfl
      · cases kind with
        | openParen => exact closes_beyond rest
        | func => first | exact h | cases h
        | _ => exact h
    | insertWord =>
      rcases rest with _ | ⟨⟨kind, text⟩, _ | ⟨⟨other, word⟩, rest⟩⟩
      · cases h
      · cases kind <;> cases h
      · cases kind with
        | identifier =>
          cases other with
          | openParen => exact closes_beyond rest
          | _ => exact h
        | _ => cases h
    | _ => exact h

theorem linksLead_cons (hlink : token.kind ≠ .link) (hbetween : token.kind ≠ .betweenWord) :
    linksLead (token :: rest) = linksLead rest := by
  obtain ⟨kind, text⟩ := token
  rw [linksLead]
  · rintro _ _ _ _ heq -
    exact hbetween (congrArg Token.kind heq)
  · rintro _ heq
    exact hlink (congrArg Token.kind heq)

theorem linksLead_cons_of_isValue (h : token.kind.isValue = true) :
    linksLead (token :: rest) = linksLead rest := by
  apply linksLead_cons
  all_goals
    intro heq
    rw [heq] at h
    cases h

theorem testsLead_drop (h : testsLead tokens = true) (count : Nat) :
    testsLead (tokens.drop count) = true := by
  induction count generalizing tokens with
  | zero => exact h
  | succ count ih =>
    cases tokens with
    | nil => exact h
    | cons token rest =>
      rw [testsLead, Bool.and_eq_true] at h
      exact ih h.2

end Scan

end Read

end SqlLayout
