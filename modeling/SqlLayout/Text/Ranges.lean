/-!
# Classes of characters as ranges

A class of characters is a list of closed ranges of code points, in increasing order.  The order
lets a search stop at the first range that starts past the code point it looks for.
-/

namespace SqlLayout.Text

/-- Closed ranges of code points, disjoint and in increasing order. -/
abbrev Ranges := List (Nat × Nat)

namespace Ranges

def has : Ranges → Nat → Bool
  | [], _ => false
  | (lo, hi) :: rest, n => if n < lo then false else n ≤ hi || has rest n

def Sorted : Ranges → Prop
  | [] => True
  | [(lo, hi)] => lo ≤ hi
  | (lo, hi) :: (lo', hi') :: rest => lo ≤ hi ∧ hi < lo' ∧ Sorted ((lo', hi') :: rest)

instance decidableSorted : (ranges : Ranges) → Decidable ranges.Sorted
  | [] => .isTrue trivial
  | [(lo, hi)] => inferInstanceAs (Decidable (lo ≤ hi))
  | (lo, hi) :: (lo', hi') :: rest =>
    have := decidableSorted ((lo', hi') :: rest)
    inferInstanceAs (Decidable (lo ≤ hi ∧ hi < lo' ∧ Sorted ((lo', hi') :: rest)))

theorem Sorted.tail {range : Nat × Nat} {rest : Ranges} (h : Sorted (range :: rest)) :
    rest.Sorted := by
  cases rest with
  | nil => trivial
  | cons next rest => exact h.2.2

theorem Sorted.lt_of_mem {lo hi : Nat} {rest : Ranges} (h : Sorted ((lo, hi) :: rest))
    {range : Nat × Nat} (hr : range ∈ rest) : hi < range.1 := by
  induction rest generalizing lo hi with
  | nil => simp at hr
  | cons next rest ih =>
    obtain ⟨lo', hi'⟩ := next
    have hnext : lo' ≤ hi' := by
      cases rest with
      | nil => exact h.2.2
      | cons => exact h.2.2.1
    rcases List.mem_cons.mp hr with rfl | hr
    · exact h.2.1
    · exact Nat.lt_trans (Nat.lt_of_lt_of_le h.2.1 hnext) (ih h.2.2 hr)

/-- In sorted ranges the search finds exactly the code points that lie in one of them. -/
theorem has_iff {ranges : Ranges} (h : ranges.Sorted) {n : Nat} :
    ranges.has n = true ↔ ∃ range ∈ ranges, range.1 ≤ n ∧ n ≤ range.2 := by
  induction ranges with
  | nil => simp [has]
  | cons range rest ih =>
    obtain ⟨lo, hi⟩ := range
    by_cases hlo : n < lo
    · have hnone : ∀ range ∈ rest, ¬range.1 ≤ n := by
        intro range hr hle
        have hhi := h.lt_of_mem hr
        have hle' : lo ≤ hi := by
          cases rest with
          | nil => exact h
          | cons => exact h.1
        omega
      simp only [has, hlo, if_true, Bool.false_eq_true, List.mem_cons, exists_eq_or_imp, false_iff,
        not_or]
      exact ⟨by omega, fun ⟨range, hr, hle, _⟩ ↦ hnone range hr hle⟩
    · simp only [has, hlo, if_false, Bool.or_eq_true, decide_eq_true_eq, ih h.tail, List.mem_cons,
        exists_eq_or_imp]
      constructor
      · rintro (hhi | hrest)
        · exact .inl ⟨by omega, hhi⟩
        · exact .inr hrest
      · rintro (⟨_, hhi⟩ | hrest)
        · exact .inl hhi
        · exact .inr hrest

end Ranges

end SqlLayout.Text
