import SqlLayout.Embedded

/-!
# Pieces of Python text

The segments of a text together with what stands around them.  The pieces make up the whole text, and
their queries are the queries of the text.
-/

namespace SqlLayout.Embedded

open Text

/-- A piece of a text: code, which here is all that stands outside the segments, with the quotes
around them, or what a segment has between its quotes. -/
inductive Piece where
  | code (text : List Char)
  | quoted (segment : Segment)
deriving DecidableEq, Repr

namespace Piece

def text : Piece → List Char
  | code text => text
  | quoted segment => segment.body

def query? : Piece → Option Query
  | code _ => none
  | quoted segment => segment.query?

end Piece

/-- The pieces of a text of which the first `skip` characters are already taken. -/
def piecesFrom : (skip : Nat) → List Char → List Piece
  | _, [] => []
  | skip + 1, _ :: rest => piecesFrom skip rest
  | 0, c :: rest =>
    match segmentAt? (c :: rest) with
    | some (segment, length) =>
      .code ((c :: rest).take (length - 3 - segment.body.length)) :: .quoted segment ::
        .code (((c :: rest).drop (length - 3)).take 3) :: piecesFrom (length - 1) rest
    | none => .code [c] :: piecesFrom 0 rest

def pieces (text : String) : List Piece :=
  piecesFrom 0 text.toList

theorem afterStatementStart_suffix (text : List Char) : afterStatementStart text <:+ text := by
  unfold afterStatementStart
  have h (p : Char → Bool) {part : List Char} (hpart : part <:+ text) : part.dropWhile p <:+ text :=
    (List.dropWhile_suffix p).trans hpart
  exact h _ (h _ (h _ (h _ (h _ (h _ (h _ (h _ List.suffix_rfl)))))))

theorem tripleQuote?_eq_some {text rest : List Char} {quote : Char}
    (h : tripleQuote? text = some (quote, rest)) : text = quote :: quote :: quote :: rest := by
  unfold tripleQuote? at h
  split at h
  all_goals cases h
  all_goals rfl

theorem upToTriple?_eq_some {quote : Char} {text body : List Char}
    (h : upToTriple? quote text = some body) :
    ∃ tail, text = body ++ quote :: quote :: quote :: tail := by
  induction text generalizing body with
  | nil => cases h
  | cons c rest ih =>
    simp only [upToTriple?] at h
    split at h
    · rename_i hquote
      cases h
      obtain ⟨tail, htail⟩ := List.isPrefixOf_iff_prefix.mp hquote
      exact ⟨tail, by simpa using htail.symm⟩
    · obtain ⟨body', hbody, rfl⟩ := Option.map_eq_some_iff.mp h
      obtain ⟨tail, rfl⟩ := ih hbody
      exact ⟨tail, rfl⟩

/-- What a segment takes of a text: all up to its opening quotes and these, its body, and its closing
quotes. -/
theorem segmentAt?_eq_some {text : List Char} {segment : Segment} {length : Nat}
    (h : segmentAt? text = some (segment, length)) :
    ∃ start quote tail, text = start ++ segment.body ++ [quote, quote, quote] ++ tail ∧
      length = start.length + segment.body.length + 3 := by
  simp only [segmentAt?, Option.bind_eq_bind, Option.bind_eq_some_iff, Option.pure_def,
    Option.some.injEq, Prod.mk.injEq] at h
  obtain ⟨⟨quote, rest⟩, hquote, body, hbody, rfl, rfl⟩ := h
  obtain ⟨start, hstart⟩ := afterStatementStart_suffix text
  dsimp only at hbody ⊢
  obtain ⟨tail, rfl⟩ := upToTriple?_eq_some hbody
  rw [tripleQuote?_eq_some hquote] at hstart
  refine ⟨start ++ [quote, quote, quote], quote, tail, by simp [← hstart], ?_⟩
  simp [← hstart]
  omega

theorem text_piecesFrom (skip : Nat) (text : List Char) :
    (piecesFrom skip text).flatMap Piece.text = text.drop skip := by
  induction text generalizing skip with
  | nil => simp [piecesFrom]
  | cons c rest ih =>
    cases skip with
    | succ skip => simp [piecesFrom, ih]
    | zero =>
      simp only [piecesFrom]
      split
      · rename_i segment length hsegment
        obtain ⟨start, quote, tail, htext, rfl⟩ := segmentAt?_eq_some hsegment
        have hrest : rest.drop (start.length + segment.body.length + 3 - 1) = tail := by
          change (c :: rest).drop (start.length + segment.body.length + 3) = tail
          rw [htext]
          exact List.drop_left' (by simp [Nat.add_assoc])
        simp only [List.flatMap_cons, Piece.text, ih, hrest, htext]
        simp
      · simp [Piece.text, ih]

theorem query?_piecesFrom (skip : Nat) (text : List Char) :
    (piecesFrom skip text).filterMap Piece.query? =
      (segmentsFrom skip text).filterMap Segment.query? := by
  induction text generalizing skip with
  | nil => simp [piecesFrom, segmentsFrom]
  | cons c rest ih =>
    cases skip with
    | succ skip => simp [piecesFrom, segmentsFrom, ih]
    | zero =>
      simp only [piecesFrom, segmentsFrom]
      cases segmentAt? (c :: rest) with
      | none => simp [List.filterMap_cons, Piece.query?, ih]
      | some found => simp [List.filterMap_cons, Piece.query?, ih]

end SqlLayout.Embedded
