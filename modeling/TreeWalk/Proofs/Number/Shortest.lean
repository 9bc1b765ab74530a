import TreeWalk.Number.Numeral
import TreeWalk.Proofs.Number.Nearest
import TreeWalk.Proofs.Number.Positional

/-! The text of a number reads as the number, and is the plain digits for a whole number. -/

namespace TreeWalk

namespace Decimal

variable {tie : Tie} {pattern units n tries : Nat} {exponent : Int} {d : Decimal}

/-- What a grid offers is a multiple of its step that reads as the number. -/
theorem onGrid?_eq_some (h : onGrid? tie pattern units exponent = some d) :
    d.coefficient ≠ 0 ∧ d.pattern = pattern ∧ d.exponent = exponent := by
  have hfound := List.find?_some h
  have hmem := List.mem_of_find?_eq_some h
  simp only [ne_eq, Bool.and_eq_true, decide_eq_true_eq] at hfound
  refine ⟨hfound.1, hfound.2, ?_⟩
  split at hmem <;>
  · simp only [List.mem_cons, List.not_mem_nil, or_false] at hmem
    rcases hmem with rfl | rfl <;> rfl

theorem firstOnGrid?_eq_some (h : firstOnGrid? tie pattern units tries exponent = some d) :
    d.pattern = pattern := by
  induction tries generalizing exponent with
  | zero => cases h
  | succ tries ih =>
    rw [firstOnGrid?] at h
    cases hgrid : onGrid? tie pattern units exponent with
    | some d' =>
      rw [hgrid] at h
      cases h
      exact (onGrid?_eq_some hgrid).2.1
    | none =>
      rw [hgrid] at h
      exact ih h

/-- All digits of a finite number read as the number. -/
theorem exact_pattern (hp : pattern < Binary64.infinityPattern) :
    (exact (Binary64.unitsOfPattern pattern)).pattern = pattern := by
  generalize hunits : Binary64.unitsOfPattern pattern = units
  have hratio : ∀ k : Nat, 0 < k →
      (⟨units * Nat.pow 5 k, -(k : Int)⟩ : Decimal).ratio = (units * 5 ^ k, 10 ^ k) := by
    intro k hk
    have hnegative : ¬ (0 : Int) ≤ -(k : Int) := by omega
    have hcount : (-(-(k : Int))).toNat = k := by omega
    simp only [ratio, hnegative, if_false, hcount, Nat.pow_eq]
  obtain ⟨u, hu, hone⟩ := Binary64.exists_unitsPerOne_eq
  have hdecimal : exact units = ⟨units * Nat.pow 5 u, -(u : Int)⟩ := by
    have hcast : (1074 : Int) = (u : Int) := by rw [hu]; rfl
    rw [exact, ← hu, hcast]
  have hpositive : 0 < u := by omega
  rw [Decimal.pattern, hdecimal, hratio u hpositive]
  apply Binary64.nearestPattern_exact hp (Nat.pow_pos (by decide))
  rw [hone, hunits, Nat.mul_assoc, ← Nat.mul_pow]

/-- The decimal that a finite number is shown as reads as the number. -/
theorem shortest_pattern (tie : Tie) (hp : pattern < Binary64.infinityPattern) :
    (shortest tie pattern).pattern = pattern := by
  by_cases hzero : Binary64.unitsOfPattern pattern = 0
  · have hratio : (⟨0, 0⟩ : Decimal).ratio = (0, 1) := rfl
    simp only [shortest, hzero, if_true]
    rw [Decimal.pattern, hratio]
    apply Binary64.nearestPattern_exact hp Nat.one_pos
    rw [hzero, Nat.zero_mul, Nat.zero_mul]
  · simp only [shortest, hzero, if_false]
    cases hgrid : firstOnGrid? tie pattern (Binary64.unitsOfPattern pattern) 24
      (exponentAbove (Binary64.unitsOfPattern pattern)) with
    | some d => exact firstOnGrid?_eq_some hgrid
    | none => exact exact_pattern hp

section Whole

/-- The units themselves are on the grid of whole numbers. -/
theorem onGrid?_zero (tie : Tie) (hn : 0 < n) (h : Binary64.nearestPattern n 1 = pattern) :
    onGrid? tie pattern (n * Binary64.unitsPerOne) 0 = some ⟨n, 0⟩ := by
  obtain ⟨u, -, hone⟩ := Binary64.exists_unitsPerOne_eq
  have hpositive : 0 < Binary64.unitsPerOne := by
    rw [hone]
    exact Nat.two_pow_pos u
  have hpattern : (⟨n, 0⟩ : Decimal).pattern = pattern := by
    rw [Decimal.pattern, ← h]
    simp only [ratio, Int.le_refl, if_true, Int.toNat_zero, Nat.pow_eq, Nat.pow_zero, Nat.mul_one]
  simp only [onGrid?, Int.le_refl, if_true, Int.toNat_zero, Nat.pow_eq, Nat.pow_zero, Nat.mul_one,
    Nat.mul_mod_left, Nat.mul_div_cancel n hpositive, Nat.mul_zero, hpositive, decide_true,
    Bool.true_or]
  rw [List.find?_cons_of_pos]
  simp only [hpattern, hn.ne', ne_eq, not_false_eq_true, decide_true, Bool.and_self]

/-- The search ends at a grid that offers something, or before it gets there. -/
theorem firstOnGrid?_of_offered {g : Int} (hoffered : (onGrid? tie pattern units g).isSome)
    (hexponent : g ≤ exponent) (htries : exponent < g + tries) :
    ∃ d, firstOnGrid? tie pattern units tries exponent = some d ∧ g ≤ d.exponent ∧
      d.coefficient ≠ 0 := by
  induction tries generalizing exponent with
  | zero => omega
  | succ tries ih =>
    rw [firstOnGrid?]
    cases hgrid : onGrid? tie pattern units exponent with
    | some d =>
      obtain ⟨hnonzero, -, rfl⟩ := onGrid?_eq_some hgrid
      exact ⟨d, rfl, hexponent, hnonzero⟩
    | none =>
      have hne : exponent ≠ g := by
        rintro rfl
        rw [hgrid] at hoffered
        cases hoffered
      exact ih (by omega) (by omega)

theorem log2_mul_two_pow (hn : 0 < n) (u : Nat) : (n * 2 ^ u).log2 = n.log2 + u := by
  have hpos : n * 2 ^ u ≠ 0 := (Nat.mul_pos hn (Nat.two_pow_pos u)).ne'
  apply (Nat.log2_eq_iff hpos).mpr
  constructor
  · rw [Nat.pow_add]
    exact Nat.mul_le_mul_right _ (Nat.log2_self_le hn.ne')
  · have hnext : n.log2 + u + 1 = n.log2 + 1 + u := by omega
    rw [hnext, Nat.pow_add]
    exact Nat.mul_lt_mul_of_pos_right Nat.lt_log2_self (Nat.two_pow_pos u)

theorem log2_whole (hn : 0 < n) : (n * Binary64.unitsPerOne).log2 = n.log2 + 1074 := by
  obtain ⟨u, hu, hone⟩ := Binary64.exists_unitsPerOne_eq
  rw [hone, log2_mul_two_pow hn, hu]

theorem exponentAbove_whole (hn : 0 < n) :
    exponentAbove (n * Binary64.unitsPerOne) = ((n.log2 : Int) + 1) * 30103 / 100000 + 2 := by
  have hexponent : ((n.log2 + 1074 : Nat) : Int) + 1 - 1074 = (n.log2 : Int) + 1 := by omega
  rw [exponentAbove, log2_whole hn, hexponent]

/-- The multiple above a number is offered if it reads as the number. -/
theorem onGrid?_of_above {g : Nat}
    (h : Binary64.nearestPattern ((units / (Binary64.unitsPerOne * 10 ^ g) + 1) * 10 ^ g) 1 =
      pattern) : (onGrid? tie pattern units g).isSome := by
  have hgrid : (0 : Int) ≤ g := Int.natCast_nonneg g
  have hpattern : (⟨units / (Binary64.unitsPerOne * 10 ^ g) + 1, g⟩ : Decimal).pattern =
      pattern := by
    simpa only [Decimal.pattern, ratio, hgrid, if_true, Int.toNat_natCast, Nat.pow_eq] using h
  simp only [onGrid?, hgrid, if_true, Int.toNat_natCast, Nat.pow_eq]
  rw [List.find?_isSome]
  refine ⟨⟨units / (Binary64.unitsPerOne * 10 ^ g) + 1, g⟩, ?_, ?_⟩
  · split <;> simp
  · simp [hpattern]

/-- A power of ten that is well below a number of so many binary digits. -/
theorem pow_ten_lt {g k : Nat} (h : 10 * g < 3 * k) : 10 ^ g < 2 ^ k := by
  have hcubes : (10 ^ g) ^ 3 < (2 ^ k) ^ 3 := by
    calc (10 ^ g) ^ 3 = (10 ^ 3) ^ g := by rw [← Nat.pow_mul, ← Nat.pow_mul, Nat.mul_comm]
      _ ≤ (2 ^ 10) ^ g := Nat.pow_le_pow_left (by decide) g
      _ = 2 ^ (10 * g) := (Nat.pow_mul 2 10 g).symm
      _ < 2 ^ (3 * k) := Nat.pow_lt_pow_right (by decide) h
      _ = (2 ^ k) ^ 3 := by rw [← Nat.pow_mul, Nat.mul_comm]
  exact lt_of_pow_lt_pow_left' 3 hcubes

/-- The last grid that is tried for a whole number with so many binary digits. -/
theorem exists_last_grid {l : Nat} (hfar : ¬ ((l : Int) + 1) * 30103 / 100000 + 2 < 24)
    (hl : l < 1024) : ∃ g : Nat, 10 * g < 3 * (l - 53) ∧
      g ≤ ((l : Int) + 1) * 30103 / 100000 + 2 ∧
      ((l : Int) + 1) * 30103 / 100000 + 2 < (g : Int) + (24 : Nat) := by
  obtain ⟨g, hg⟩ := Int.eq_ofNat_of_zero_le
    (show 0 ≤ ((l : Int) + 1) * 30103 / 100000 - 21 by omega)
  exact ⟨g, by omega, by omega, by omega⟩

/-- The step of a grid in units, against a number of so many binary digits. -/
theorem step_lt {g k e : Nat} (h : 10 * g < 3 * k) (he : e = k + 1075) :
    2 * (Binary64.unitsPerOne * 10 ^ g) < 2 ^ e := by
  obtain ⟨u, hu, hone⟩ := Binary64.exists_unitsPerOne_eq
  have hexponent : 1 + u + k = e := by
    clear hone
    omega
  calc 2 * (Binary64.unitsPerOne * 10 ^ g) = 2 * 2 ^ u * 10 ^ g := by rw [hone, Nat.mul_assoc]
    _ < 2 * 2 ^ u * 2 ^ k := by
      apply Nat.mul_lt_mul_of_pos_left (pow_ten_lt h)
      exact Nat.mul_pos (by decide) (Nat.two_pow_pos u)
    _ = 2 ^ e := by rw [← hexponent, Nat.pow_add, Nat.pow_add, Nat.pow_one]

/-- Where the grid is finer than half the distance to the next number, the multiple above a number
reads as the number. -/
theorem nearestPattern_above {m s g : Nat} (hlow : 2 ^ 52 ≤ m) (hhigh : m < 2 ^ 53)
    (hfine : 2 * (Binary64.unitsPerOne * 10 ^ g) < 2 ^ s) :
    Binary64.nearestPattern ((m * 2 ^ s / (Binary64.unitsPerOne * 10 ^ g) + 1) * 10 ^ g) 1 =
      min (s * 2 ^ 52 + m) Binary64.infinityPattern := by
  generalize hquotient : m * 2 ^ s / (Binary64.unitsPerOne * 10 ^ g) = q
  have hscaled : (q + 1) * 10 ^ g * Binary64.unitsPerOne =
      q * (Binary64.unitsPerOne * 10 ^ g) + Binary64.unitsPerOne * 10 ^ g := by ring
  have hdouble : (2 * m + 1) * 2 ^ s * 1 = 2 * (m * 2 ^ s) + 2 ^ s := by ring
  obtain ⟨u, -, hone⟩ := Binary64.exists_unitsPerOne_eq
  have hpositive : 0 < Binary64.unitsPerOne * 10 ^ g := by
    rw [hone]
    exact Nat.mul_pos (Nat.two_pow_pos u) (Nat.pow_pos (by decide))
  clear hone
  have hbelow : q * (Binary64.unitsPerOne * 10 ^ g) ≤ m * 2 ^ s := by
    rw [← hquotient]
    exact Nat.div_mul_le_self _ _
  have habove : m * 2 ^ s <
      q * (Binary64.unitsPerOne * 10 ^ g) + Binary64.unitsPerOne * 10 ^ g := by
    rw [← hquotient]
    exact Nat.lt_div_mul_add hpositive
  apply Binary64.nearestPattern_near Nat.one_pos hlow hhigh
  · omega
  · omega

/-- A grid of whole numbers that the search comes to offers something: that of all whole numbers if
it is near enough, and one that is fine enough otherwise. -/
theorem exists_offered (tie : Tie) (hp : pattern < Binary64.infinityPattern)
    (hunits : Binary64.unitsOfPattern pattern = n * Binary64.unitsPerOne) (hn : 0 < n) :
    ∃ g : Nat, (onGrid? tie pattern (n * Binary64.unitsPerOne) g).isSome ∧
      g ≤ exponentAbove (n * Binary64.unitsPerOne) ∧
      exponentAbove (n * Binary64.unitsPerOne) < (g : Int) + (24 : Nat) := by
  rw [exponentAbove_whole hn]
  by_cases hfew : ((n.log2 : Int) + 1) * 30103 / 100000 + 2 < 24
  · have hnearest : Binary64.nearestPattern n 1 = pattern := by
      apply Binary64.nearestPattern_exact hp Nat.one_pos
      rw [hunits, Nat.mul_one]
    refine ⟨0, ?_, ?_, ?_⟩
    · exact Option.isSome_of_eq_some (onGrid?_zero tie hn hnearest)
    · omega
    · omega
  · have hlog : (Binary64.unitsOfPattern pattern).log2 = n.log2 + 1074 := by
      rw [hunits, log2_whole hn]
    have hlarge : 2 ^ 52 ≤ Binary64.unitsOfPattern pattern := by
      apply Nat.le_of_not_lt
      intro hsmall
      have hnonzero : Binary64.unitsOfPattern pattern ≠ 0 := by
        intro hzero
        rw [hzero, Nat.log2_zero] at hlog
        omega
      have hless := (Nat.log2_lt hnonzero).mpr hsmall
      omega
    obtain ⟨m, e, hlow, hhigh, hpattern, hself, hlog'⟩ := Binary64.units_of_large hp hlarge
    have hdigits : n.log2 = e - 1022 ∧ e < 2046 := by
      rw [Binary64.infinityPattern_eq] at hp
      clear hself hunits
      omega
    -- With 24 tries the last grid is so fine that the number has a multiple near it.
    obtain ⟨g, hfine, hbelow, habove⟩ := exists_last_grid hfew (by omega)
    refine ⟨g, ?_, hbelow, habove⟩
    apply onGrid?_of_above
    rw [← hunits, hself, nearestPattern_above hlow hhigh (step_lt hfine (by omega)), hpattern]
    exact Nat.min_eq_left (hpattern ▸ hp.le)

/-- A whole number is shown as a multiple of a power of ten. -/
theorem shortest_of_whole (tie : Tie) (hp : pattern < Binary64.infinityPattern)
    (hunits : Binary64.unitsOfPattern pattern = n * Binary64.unitsPerOne) (hn : 0 < n) :
    0 ≤ (shortest tie pattern).exponent ∧ (shortest tie pattern).coefficient ≠ 0 := by
  obtain ⟨g, hoffered, hbelow, habove⟩ := exists_offered tie hp hunits hn
  obtain ⟨d, hd, hexponent, hnonzero⟩ := firstOnGrid?_of_offered hoffered hbelow habove
  obtain ⟨u, -, hone⟩ := Binary64.exists_unitsPerOne_eq
  have hpositive : Binary64.unitsOfPattern pattern ≠ 0 := by
    rw [hunits, hone]
    exact (Nat.mul_pos hn (Nat.two_pow_pos u)).ne'
  have hshortest : shortest tie pattern = d := by
    simp only [shortest, hpositive, if_false]
    rw [hunits, hd]
    rfl
  rw [hshortest]
  exact ⟨(Int.natCast_nonneg g).trans hexponent, hnonzero⟩

/-- A whole number of at most 53 binary digits is shown by its digits. -/
theorem shortest_whole (tie : Tie) (hp : pattern < Binary64.infinityPattern)
    (hunits : Binary64.unitsOfPattern pattern = n * Binary64.unitsPerOne) (hn : n < 2 ^ 53) :
    (shortest tie pattern).positional = digitsOf n := by
  rcases Nat.eq_zero_or_pos n with rfl | hpositive
  · rw [Nat.zero_mul] at hunits
    simp only [shortest, hunits, if_true]
    rfl
  · obtain ⟨hexponent, hnonzero⟩ := shortest_of_whole tie hp hunits hpositive
    have hpattern := shortest_pattern tie hp
    generalize shortest tie pattern = d at hexponent hnonzero hpattern ⊢
    have hnearest : Binary64.nearestPattern n 1 = pattern := by
      apply Binary64.nearestPattern_exact hp Nat.one_pos
      rw [hunits, Nat.mul_one]
    -- The multiple that is shown and the number itself are whole numbers of one pattern.
    have hvalue : d.coefficient * 10 ^ d.exponent.toNat = n := by
      apply Binary64.whole_eq_of_nearestPattern_eq hpositive hn
      · exact Nat.mul_pos (Nat.pos_of_ne_zero hnonzero) (Nat.pow_pos (by decide))
      · rw [hnearest, ← hpattern]
        simp only [Decimal.pattern, ratio, hexponent, if_true, Nat.pow_eq]
    rw [(d.writes_whole hexponent).text, List.isEmpty_nil, if_pos rfl,
      ← digitsOf_mul_pow (Nat.pos_of_ne_zero hnonzero), hvalue]

end Whole

end Decimal

end TreeWalk
