import Mathlib.Tactic.Ring
import TreeWalk.Number.Decimal

/-! Rounding to binary64. A ratio that is exactly a finite number rounds to that number, and two
whole numbers round to the same one only if they are equal or both at least `2⁵³`. -/

namespace TreeWalk

namespace Binary64

variable {pattern num den n m s : Nat}

theorem infinityPattern_eq : infinityPattern = 2047 * 2 ^ 52 := by
  decide +kernel

/-- The number of digits is kept out of sight, so that the power is not computed. -/
theorem exists_unitsPerOne_eq : ∃ u, u = 1074 ∧ unitsPerOne = 2 ^ u := by
  unfold unitsPerOne
  generalize 1074 = u
  exact ⟨u, rfl, Nat.pow_eq⟩

/-- A finite magnitude counts its own pattern, or a significand of 53 digits times a power of
two. -/
theorem units_cases (h : pattern < infinityPattern) :
    (pattern < 2 ^ 52 ∧ unitsOfPattern pattern = pattern) ∨
      ∃ e f, f < 2 ^ 52 ∧ pattern = (e + 1) * 2 ^ 52 + f ∧
        unitsOfPattern pattern = (2 ^ 52 + f) * 2 ^ e := by
  rw [infinityPattern_eq] at h
  have hexponent : pattern / 2 ^ 52 % 2 ^ 11 = pattern / 2 ^ 52 := by
    apply Nat.mod_eq_of_lt
    omega
  have hunits : unitsOfPattern pattern =
      if pattern / 2 ^ 52 = 0 then pattern % 2 ^ 52
      else (2 ^ 52 + pattern % 2 ^ 52) * 2 ^ (pattern / 2 ^ 52 - 1) := by
    simp only [unitsOfPattern, Nat.pow_eq, hexponent]
  by_cases hzero : pattern / 2 ^ 52 = 0
  · rw [if_pos hzero] at hunits
    have hsmall : pattern < 2 ^ 52 := by omega
    exact .inl ⟨hsmall, hunits.trans (Nat.mod_eq_of_lt hsmall)⟩
  · rw [if_neg hzero] at hunits
    refine .inr ⟨pattern / 2 ^ 52 - 1, pattern % 2 ^ 52, ?_, ?_, hunits⟩
    · exact Nat.mod_lt _ (by decide)
    · omega

/-- What is less than half a step above a multiple is rounded down to it. -/
theorem divNearest_eq (hlow : m * den ≤ num) (hhigh : 2 * num < (2 * m + 1) * den) :
    divNearest num den = m := by
  have hstep : (2 * m + 1) * den = 2 * (m * den) + den := by ring
  have hnext : (m + 1) * den = m * den + den := Nat.succ_mul m den
  have hquotient : num / den = m := Nat.div_eq_of_lt_le hlow (by omega)
  have hrest : den * m + num % den = num := by
    rw [← hquotient]
    exact Nat.div_add_mod num den
  have hmultiple : den * m = m * den := Nat.mul_comm den m
  have hclose : 2 * (num % den) < den := by omega
  simp only [divNearest, hquotient, hclose, if_true]

theorem divNearest_mul (h : 0 < den) : divNearest (n * den) den = n := by
  apply divNearest_eq (Nat.le_refl _)
  have hstep : (2 * n + 1) * den = 2 * (n * den) + den := by ring
  omega

theorem div_le_divNearest (num den : Nat) : num / den ≤ divNearest num den := by
  unfold divNearest
  dsimp only
  split_ifs <;> omega

/-- A significand of 53 digits before so many others. -/
theorem log2_shifted {v : Nat} (hlow : 2 ^ 52 ≤ m) (hhigh : m < 2 ^ 53) (habove : m * 2 ^ s ≤ v)
    (hbelow : v < (m + 1) * 2 ^ s) : v.log2 = 52 + s := by
  have hstep := Nat.two_pow_pos s
  have hpos : v ≠ 0 := (Nat.lt_of_lt_of_le (Nat.mul_pos (by omega) hstep) habove).ne'
  apply (Nat.log2_eq_iff hpos).mpr
  constructor
  · calc 2 ^ (52 + s) = 2 ^ 52 * 2 ^ s := Nat.pow_add 2 52 s
      _ ≤ m * 2 ^ s := Nat.mul_le_mul_right _ hlow
      _ ≤ v := habove
  · calc v < (m + 1) * 2 ^ s := hbelow
      _ ≤ 2 ^ 53 * 2 ^ s := Nat.mul_le_mul_right _ hhigh
      _ = 2 ^ (52 + s + 1) := by rw [← Nat.pow_add]; congr 1; omega

/-- A magnitude of more than 52 binary digits is a significand of 53 of them and zeros. -/
theorem units_of_large (hp : pattern < infinityPattern) (h : 2 ^ 52 ≤ unitsOfPattern pattern) :
    ∃ m e, 2 ^ 52 ≤ m ∧ m < 2 ^ 53 ∧ pattern = e * 2 ^ 52 + m ∧
      unitsOfPattern pattern = m * 2 ^ e ∧ (unitsOfPattern pattern).log2 = 52 + e := by
  rcases units_cases hp with ⟨hsmall, hunits⟩ | ⟨e, f, hf, hpattern, hunits⟩
  · omega
  · have hlow : 2 ^ 52 ≤ 2 ^ 52 + f := Nat.le_add_right _ _
    have hhigh : 2 ^ 52 + f < 2 ^ 53 := by omega
    have hnext : (2 ^ 52 + f) * 2 ^ e < (2 ^ 52 + f + 1) * 2 ^ e :=
      Nat.mul_lt_mul_of_pos_right (Nat.lt_succ_self _) (Nat.two_pow_pos e)
    refine ⟨2 ^ 52 + f, e, hlow, hhigh, ?_, hunits, ?_⟩
    · rw [hpattern]
      ring
    · rw [hunits, log2_shifted hlow hhigh (Nat.le_refl _) hnext]

/-- What is less than half a step above a significand times a power of two rounds to that
significand. -/
theorem nearestPattern_near (hden : 0 < den) (hlow : 2 ^ 52 ≤ m) (hhigh : m < 2 ^ 53)
    (habove : m * 2 ^ s * den ≤ num * unitsPerOne)
    (hbelow : 2 * (num * unitsPerOne) < (2 * m + 1) * 2 ^ s * den) :
    nearestPattern num den = min (s * 2 ^ 52 + m) infinityPattern := by
  simp only [nearestPattern, Nat.pow_eq]
  generalize num * unitsPerOne = scaled at habove hbelow ⊢
  have hdouble : (2 * m + 1) * 2 ^ s * den = 2 * (m * 2 ^ s * den) + 2 ^ s * den := by ring
  have hnext : (m + 1) * 2 ^ s * den = m * 2 ^ s * den + 2 ^ s * den := by ring
  have hshift : (scaled / den).log2 - 52 = s := by
    have hfirst : m * 2 ^ s ≤ scaled / den := (Nat.le_div_iff_mul_le hden).mpr habove
    have hlast : scaled / den < (m + 1) * 2 ^ s := by
      apply (Nat.div_lt_iff_lt_mul hden).mpr
      omega
    rw [log2_shifted hlow hhigh hfirst hlast]
    omega
  have hsignificand : divNearest scaled (den * 2 ^ s) = m := by
    have hunit : m * (den * 2 ^ s) = m * 2 ^ s * den := by ring
    have hhalf : (2 * m + 1) * (den * 2 ^ s) = (2 * m + 1) * 2 ^ s * den := by ring
    apply divNearest_eq
    · rw [hunit]
      exact habove
    · rw [hhalf]
      exact hbelow
  rw [hshift, hsignificand]

/-- What is exactly a significand times a power of two steps rounds to that significand. -/
theorem nearestPattern_shifted (hden : 0 < den) (hlow : 2 ^ 52 ≤ m) (hhigh : m < 2 ^ 53)
    (h : num * unitsPerOne = m * 2 ^ s * den) :
    nearestPattern num den = min (s * 2 ^ 52 + m) infinityPattern := by
  have hstep : 0 < 2 ^ s * den := Nat.mul_pos (Nat.two_pow_pos s) hden
  have hdouble : (2 * m + 1) * 2 ^ s * den = 2 * (m * 2 ^ s * den) + 2 ^ s * den := by ring
  apply nearestPattern_near hden hlow hhigh
  · exact h.ge
  · rw [h, hdouble]
    omega

/-- A ratio that is exactly the finite number of a pattern rounds to it. -/
theorem nearestPattern_exact (hp : pattern < infinityPattern) (hden : 0 < den)
    (h : num * unitsPerOne = unitsOfPattern pattern * den) : nearestPattern num den = pattern := by
  rcases units_cases hp with ⟨hsmall, hunits⟩ | ⟨e, f, hf, hpattern, hunits⟩
  · -- Below the least normal number the steps are counted one by one.
    have hshift : pattern.log2 - 52 = 0 := by
      rcases Nat.eq_zero_or_pos pattern with rfl | hpos
      · rfl
      · have hlog := (Nat.log2_lt hpos.ne').mpr hsmall
        omega
    rw [hunits] at h
    simp only [nearestPattern, h, Nat.mul_div_cancel _ hden, hshift, Nat.pow_eq, Nat.pow_zero,
      Nat.mul_one, divNearest_mul hden]
    omega
  · rw [hunits] at h
    have hhigh : 2 ^ 52 + f < 2 ^ 53 := by omega
    rw [nearestPattern_shifted hden (Nat.le_add_right _ _) hhigh h]
    have hsum : e * 2 ^ 52 + (2 ^ 52 + f) = pattern := by
      rw [hpattern]
      ring
    rw [hsum]
    exact Nat.min_eq_left hp.le

section Whole

theorem log2_le_of_lt (hn : 0 < n) (h : n < 2 ^ 53) : n.log2 ≤ 52 := by
  have hlog := (Nat.log2_lt hn.ne').mpr h
  omega

/-- A whole number of at most 53 binary digits, filled up to 53 of them. -/
theorem filled_bounds (hn : 0 < n) (h : n < 2 ^ 53) :
    2 ^ 52 ≤ n * 2 ^ (52 - n.log2) ∧ n * 2 ^ (52 - n.log2) < 2 ^ 53 := by
  have hlog := log2_le_of_lt hn h
  constructor
  · calc 2 ^ 52 = 2 ^ n.log2 * 2 ^ (52 - n.log2) := by rw [← Nat.pow_add]; congr 1; omega
      _ ≤ n * 2 ^ (52 - n.log2) := Nat.mul_le_mul_right _ (Nat.log2_self_le hn.ne')
  · calc n * 2 ^ (52 - n.log2) < 2 ^ (n.log2 + 1) * 2 ^ (52 - n.log2) :=
          Nat.mul_lt_mul_of_pos_right Nat.lt_log2_self (Nat.two_pow_pos _)
      _ = 2 ^ 53 := by rw [← Nat.pow_add]; congr 1; omega

theorem nearestPattern_whole (hn : 0 < n) (h : n < 2 ^ 53) :
    nearestPattern n 1 = (1022 + n.log2) * 2 ^ 52 + n * 2 ^ (52 - n.log2) := by
  have hlog := log2_le_of_lt hn h
  obtain ⟨hlow, hhigh⟩ := filled_bounds hn h
  have hunits : n * unitsPerOne = n * 2 ^ (52 - n.log2) * 2 ^ (1022 + n.log2) * 1 := by
    obtain ⟨u, hu, hone⟩ := exists_unitsPerOne_eq
    have hexponent : 52 - n.log2 + (1022 + n.log2) = u := by
      clear hone
      omega
    rw [hone, Nat.mul_one, Nat.mul_assoc, ← Nat.pow_add, hexponent]
  rw [nearestPattern_shifted Nat.one_pos hlow hhigh hunits, infinityPattern_eq]
  omega

theorem le_nearestPattern_of_large (h : 2 ^ 53 ≤ n) : 1076 * 2 ^ 52 ≤ nearestPattern n 1 := by
  obtain ⟨u, hu, hone⟩ := exists_unitsPerOne_eq
  have hdigits : 53 + u = 1127 := by rw [hu]
  clear hu
  have hpos : n * 2 ^ u ≠ 0 := (Nat.mul_pos (by omega) (Nat.two_pow_pos u)).ne'
  have hlog : 53 + u ≤ (n * 2 ^ u).log2 := by
    apply (Nat.le_log2 hpos).mpr
    rw [Nat.pow_add]
    exact Nat.mul_le_mul_right _ h
  have hself : 2 ^ (n * 2 ^ u).log2 ≤ n * 2 ^ u := Nat.log2_self_le hpos
  simp only [nearestPattern, hone, Nat.div_one, Nat.pow_eq, Nat.one_mul, infinityPattern_eq]
  generalize (n * 2 ^ u).log2 = log at hlog hself ⊢
  have hsignificand : 2 ^ 52 ≤ divNearest (n * 2 ^ u) (2 ^ (log - 52)) := by
    have hexponent : 52 + (log - 52) = log := by omega
    refine Nat.le_trans ?_ (div_le_divNearest _ _)
    apply (Nat.le_div_iff_mul_le (Nat.two_pow_pos _)).mpr
    rw [← Nat.pow_add, hexponent]
    exact hself
  have hshift : 1075 * 2 ^ 52 ≤ (log - 52) * 2 ^ 52 := Nat.mul_le_mul_right _ (by omega)
  omega

/-- Below `2⁵³` no other whole number rounds to the same pattern. -/
theorem whole_eq_of_nearestPattern_eq (hn : 0 < n) (hsmall : n < 2 ^ 53) (hm : 0 < m)
    (h : nearestPattern m 1 = nearestPattern n 1) : m = n := by
  obtain ⟨hlow, hhigh⟩ := filled_bounds hn hsmall
  have hlog := log2_le_of_lt hn hsmall
  rw [nearestPattern_whole hn hsmall] at h
  rcases Nat.lt_or_ge m (2 ^ 53) with hmsmall | hlarge
  · obtain ⟨hmlow, hmhigh⟩ := filled_bounds hm hmsmall
    rw [nearestPattern_whole hm hmsmall] at h
    -- The significands have the same number of digits, so the powers of two agree.
    have hsame : m.log2 = n.log2 := by omega
    have hproducts : m * 2 ^ (52 - n.log2) = n * 2 ^ (52 - n.log2) := by
      rw [hsame] at h
      omega
    exact Nat.eq_of_mul_eq_mul_right (Nat.two_pow_pos _) hproducts
  · have hfar := le_nearestPattern_of_large hlarge
    rw [h] at hfar
    omega

end Whole

end Binary64

end TreeWalk
