import SqlLayout.Fault
import SqlLayout.LineBuffer

/-!
# Drafts

A draft is the list of edits that a layout asks for, followed by its result or by the fault that
stops it.  Drafts are put together without a buffer and then written into one, so that what a
layout does can be told apart from where it writes.
-/

namespace SqlLayout

/-- Edits in order, and how they end. -/
structure Draft (α : Type) where
  edits : List Edit
  outcome : Except Fault α

namespace Draft

def emit (edits : List Edit) : Draft Unit :=
  ⟨edits, .ok ()⟩

def fail {α : Type} (fault : Fault) : Draft α :=
  ⟨[], .error fault⟩

/-- One draft after another; a fault of the first stops both. -/
def andThen {α β : Type} (first : Draft α) (next : α → Draft β) : Draft β :=
  match first.outcome with
  | .error fault => ⟨first.edits, .error fault⟩
  | .ok result => ⟨first.edits ++ (next result).edits, (next result).outcome⟩

instance : Monad Draft where
  pure result := ⟨[], .ok result⟩
  bind := andThen

@[simp] theorem edits_pure {α : Type} (result : α) : (pure result : Draft α).edits = [] := rfl

@[simp] theorem outcome_pure {α : Type} (result : α) :
    (pure result : Draft α).outcome = .ok result := rfl

theorem bind_of_ok {α β : Type} {first : Draft α} {result : α} (h : first.outcome = .ok result)
    (next : α → Draft β) :
    first >>= next = ⟨first.edits ++ (next result).edits, (next result).outcome⟩ := by
  simp only [bind, andThen, h]

theorem bind_of_error {α β : Type} {first : Draft α} {fault : Fault}
    (h : first.outcome = .error fault) (next : α → Draft β) :
    first >>= next = ⟨first.edits, .error fault⟩ := by
  simp only [bind, andThen, h]

instance : LawfulMonad Draft :=
  LawfulMonad.mk' Draft
    (by
      rintro α ⟨edits, outcome⟩
      cases outcome <;> simp [Functor.map, andThen])
    (fun _ _ ↦ by simp [bind, andThen, pure])
    (by
      rintro α β γ ⟨edits, outcome⟩ f g
      cases outcome with
      | error fault => rfl
      | ok result => cases h : (f result).outcome <;> simp [bind, andThen, h])

/-- Writes a draft into a buffer.  An edit that fails makes the statement invalid, even if the draft
has a fault of its own further on. -/
def write {α : Type} (draft : Draft α) (buffer : LineBuffer) : Except Fault (α × LineBuffer) :=
  match buffer.steps? draft.edits with
  | none => .error .invalidStatement
  | some written => draft.outcome.map fun result ↦ (result, written)

end Draft

end SqlLayout
