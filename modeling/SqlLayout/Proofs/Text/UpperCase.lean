import SqlLayout.Text.Upper

/-!
# Upper case is stable

No character that an upper case consists of has another upper case.  The table of letters is checked
as a whole: the code points that change and the code points they change to are two sets of bits
without a common one, which a single conjunction of two large numbers shows.
-/

namespace SqlLayout.Text

def UpperRun.points (run : UpperRun) : List Nat :=
  (List.range ((run.last - run.first) / run.step + 1)).map fun k ↦ run.first + k * run.step

def changingPoints : List Nat :=
  upperRuns.flatMap UpperRun.points ++ upperExpansions.map Prod.fst

def resultPoints : List Nat :=
  upperRuns.flatMap (fun run ↦ run.points.map fun (n : Nat) ↦ (n + run.offset).toNat) ++
    upperExpansions.flatMap Prod.snd

def bitSet (points : List Nat) : Nat :=
  points.foldr (fun n bits ↦ bits ||| 1 <<< n) 0

theorem testBit_bitSet (points : List Nat) (n : Nat) :
    (bitSet points).testBit n = decide (n ∈ points) := by
  induction points with
  | nil => simp [bitSet]
  | cons m points ih =>
    have hcons : bitSet (m :: points) = bitSet points ||| 1 <<< m := rfl
    rw [hcons, Nat.testBit_or, ih, Nat.one_shiftLeft, Nat.testBit_two_pow]
    by_cases hm : m = n
    · simp [hm]
    · simp [hm, Ne.symm hm]

theorem disjoint_of_bitSet {xs ys : List Nat} (h : bitSet xs &&& bitSet ys = 0) {n : Nat}
    (hn : n ∈ xs) : n ∉ ys := by
  intro hy
  have hbit := congrArg (fun bits ↦ bits.testBit n) h
  simp [testBit_bitSet, hn, hy] at hbit

theorem resultPoints_disjoint : bitSet (0 :: resultPoints) &&& bitSet changingPoints = 0 := by
  decide +kernel

theorem exists_run_of_upperByRuns {n m : Nat} {runs : List UpperRun}
    (h : upperByRuns n runs = some m) :
    ∃ run ∈ runs, n ∈ run.points ∧ m = (n + run.offset).toNat := by
  induction runs with
  | nil => simp [upperByRuns] at h
  | cons run rest ih =>
    simp only [upperByRuns] at h
    split at h
    · simp at h
    · rename_i hfirst
      split at h
      · rename_i hin
        simp only [Bool.and_eq_true, decide_eq_true_eq, beq_iff_eq] at hin
        refine ⟨run, by simp, ?_, by simpa using h.symm⟩
        have hdvd := Nat.div_add_mod (n - run.first) run.step
        refine List.mem_map.mpr ⟨(n - run.first) / run.step, ?_, ?_⟩
        · rw [List.mem_range]
          exact Nat.lt_succ_of_le (Nat.div_le_div_right (by omega))
        · rw [Nat.mul_comm]
          omega
      · obtain ⟨found, hmem, hfound⟩ := ih h
        exact ⟨found, List.mem_cons_of_mem _ hmem, hfound⟩

theorem mem_of_upperByExpansions {n : Nat} {expansion : List Nat} {table : List (Nat × List Nat)}
    (h : upperByExpansions n table = some expansion) : (n, expansion) ∈ table := by
  induction table with
  | nil => simp [upperByExpansions] at h
  | cons entry rest ih =>
    obtain ⟨m, found⟩ := entry
    simp only [upperByExpansions] at h
    split at h
    · simp at h
    · split at h
      · rename_i hm
        simp_all
      · exact List.mem_cons_of_mem _ (ih h)

/-- A character whose code point does not change is its own upper case. -/
theorem upperChar_of_notMem {c : Char} (h : c.toNat ∉ changingPoints) : upperChar c = [c] := by
  simp only [changingPoints, List.mem_append, not_or] at h
  unfold upperChar
  cases hruns : upperByRuns c.toNat upperRuns with
  | some m =>
    obtain ⟨run, hrun, hpoint, -⟩ := exists_run_of_upperByRuns hruns
    exact absurd (List.mem_flatMap.mpr ⟨run, hrun, hpoint⟩) h.1
  | none =>
    cases hexp : upperByExpansions c.toNat upperExpansions with
    | none => rfl
    | some expansion =>
      have hmem := mem_of_upperByExpansions hexp
      exact absurd (List.mem_map.mpr ⟨_, hmem, rfl⟩) h.2

/-- The upper case of a character is the character itself or consists of results. -/
theorem upperChar_eq_or_results (c : Char) :
    upperChar c = [c] ∨ ∀ d ∈ upperChar c, ∃ n ∈ resultPoints, d = Char.ofNat n := by
  unfold upperChar
  cases hruns : upperByRuns c.toNat upperRuns with
  | some m =>
    obtain ⟨run, hrun, hpoint, hm⟩ := exists_run_of_upperByRuns hruns
    refine .inr fun d hd ↦ ⟨m, List.mem_append_left _ ?_, by simpa using hd⟩
    exact List.mem_flatMap.mpr ⟨run, hrun, List.mem_map.mpr ⟨_, hpoint, hm.symm⟩⟩
  | none =>
    cases hexp : upperByExpansions c.toNat upperExpansions with
    | none => exact .inl rfl
    | some expansion =>
      refine .inr fun d hd ↦ ?_
      obtain ⟨n, hn, rfl⟩ := List.mem_map.mp hd
      refine ⟨n, List.mem_append_right _ ?_, rfl⟩
      exact List.mem_flatMap.mpr ⟨_, mem_of_upperByExpansions hexp, hn⟩

theorem toNat_ofNat_of_result {n : Nat} (hn : n ∈ resultPoints) :
    (Char.ofNat n).toNat ∈ 0 :: resultPoints := by
  by_cases hvalid : n.isValidChar
  · have hpoint : (Char.ofNat n).toNat = n := by
      rw [Char.ofNat, dif_pos hvalid]
      rfl
    rw [hpoint]
    exact List.mem_cons_of_mem _ hn
  · have hpoint : (Char.ofNat n).toNat = 0 := by simp [Char.ofNat, hvalid]
    rw [hpoint]
    exact List.mem_cons_self

theorem upperChar_of_result {n : Nat} (hn : n ∈ resultPoints) :
    upperChar (Char.ofNat n) = [Char.ofNat n] := by
  apply upperChar_of_notMem
  exact disjoint_of_bitSet resultPoints_disjoint (toNat_ofNat_of_result hn)

/-- A class of characters that are in no upper case but their own gains no member. -/
theorem notMem_of_mem_upperChar {points : List Nat}
    (h : bitSet (0 :: resultPoints) &&& bitSet points = 0) {c d : Char} (hc : c.toNat ∉ points)
    (hd : d ∈ upperChar c) : d.toNat ∉ points := by
  rcases upperChar_eq_or_results c with hself | hresults
  · have hdc : d = c := by simpa [hself] using hd
    rwa [hdc]
  · obtain ⟨n, hn, rfl⟩ := hresults d hd
    exact disjoint_of_bitSet h (toNat_ofNat_of_result hn)

/-- Every character of an upper case is its own upper case. -/
theorem upperChar_of_mem_upperChar {c d : Char} (h : d ∈ upperChar c) : upperChar d = [d] := by
  rcases upperChar_eq_or_results c with hself | hresults
  · have hd : d = c := by simpa [hself] using h
    rw [hd, hself]
  · obtain ⟨n, hn, rfl⟩ := hresults d h
    exact upperChar_of_result hn

theorem flatMap_upperChar_of_fixed {text : List Char} (h : ∀ c ∈ text, upperChar c = [c]) :
    text.flatMap upperChar = text := by
  induction text with
  | nil => rfl
  | cons c text ih =>
    have hc : upperChar c = [c] := h c List.mem_cons_self
    simp [hc, ih fun d hd ↦ h d (List.mem_cons_of_mem _ hd)]

/-- Upper case is reached in one step. -/
@[simp] theorem upper_upper (text : String) : upper (upper text) = upper text := by
  have hfixed : ∀ d ∈ text.toList.flatMap upperChar, upperChar d = [d] := by
    intro d hd
    obtain ⟨c, -, hc⟩ := List.mem_flatMap.mp hd
    exact upperChar_of_mem_upperChar hc
  simp only [upper, String.toList_ofList]
  rw [flatMap_upperChar_of_fixed hfixed]

theorem upperChar_ne_nil (c : Char) : upperChar c ≠ [] := by
  unfold upperChar
  cases upperByRuns c.toNat upperRuns with
  | some n => simp
  | none =>
    cases hexp : upperByExpansions c.toNat upperExpansions with
    | none => simp
    | some expansion =>
      have hne : ∀ entry ∈ upperExpansions, entry.2 ≠ [] := by decide
      simpa using hne _ (mem_of_upperByExpansions hexp)

@[simp] theorem upper_eq_empty {text : String} : upper text = "" ↔ text = "" := by
  constructor
  · intro h
    rw [upper, String.ofList_eq_empty_iff, List.flatMap_eq_nil_iff] at h
    have hnil : text.toList = [] := List.eq_nil_iff_forall_not_mem.mpr fun c hc ↦
      upperChar_ne_nil c (h c hc)
    exact String.toList_eq_nil_iff.mp hnil
  · rintro rfl
    rfl

end SqlLayout.Text
