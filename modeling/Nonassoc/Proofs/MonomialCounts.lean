import Mathlib.Algebra.MvPolynomial.Coeff
import Mathlib.Combinatorics.Enumerative.Catalan.Basic
import Mathlib.Data.Finsupp.Weight
import Nonassoc.Proofs.Monomials

/-!
# Counting monomials

A monomial is a way to multiply and a word of generators, so for multiplicities with sum `n` there are
`catalan (n - 1)` times the multinomial coefficient many monomials (`Monomial.card_content`). A product
is divided into its factors in one way (`Monomial.splitting`), which makes the number of monomials a
convolution over all ways to divide the multiplicities; multinomial coefficients are those of powers of
a sum of variables, so that their convolution is a product of powers (`sum_multinomial`).
-/

namespace Nonassoc

open Finset.HasAntidiagonal (antidiagonal mem_antidiagonal)

/-! ## Multinomial coefficients -/

/-- The sum of the variables in `s`. -/
noncomputable def variableSum (s : Finset ℕ) : MvPolynomial ℕ ℕ :=
  Finsupp.linearCombination ℕ MvPolynomial.X (Finsupp.indicator s fun _ _ => 1)

theorem coeff_variableSum_pow {s : Finset ℕ} {c : ℕ →₀ ℕ} (h : c.support ⊆ s) (n : ℕ) :
    (variableSum s ^ n).coeff c = if c.degree = n then c.multinomial else 0 := by
  have hprod : (c.prod fun g k => Finsupp.indicator s (fun _ _ => 1) g ^ k) = 1 :=
    Finset.prod_eq_one fun g hg => by
      simp only [Finsupp.indicator_of_mem (h hg), one_pow]
  rw [variableSum, MvPolynomial.coeff_linearCombination_X_pow, hprod, mul_one]
  rfl

/-- Choosing the first `i` and the last `j` generators of a word is choosing all of them. -/
theorem sum_multinomial {c : ℕ →₀ ℕ} {i j : ℕ} (h : c.degree = i + j) :
    ∑ ab ∈ antidiagonal c with ab.1.degree = i ∧ ab.2.degree = j,
      ab.1.multinomial * ab.2.multinomial = c.multinomial := by
  have hsupport : ∀ ab ∈ antidiagonal c, ab.1.support ⊆ c.support ∧ ab.2.support ⊆ c.support := by
    intro ab hab
    rw [← mem_antidiagonal.1 hab]
    exact ⟨Finsupp.support_mono le_self_add, Finsupp.support_mono le_add_self⟩
  have hpow : (variableSum c.support ^ i * variableSum c.support ^ j).coeff c = c.multinomial := by
    rw [← pow_add, coeff_variableSum_pow subset_rfl, if_pos h]
  rw [← hpow, MvPolynomial.coeff_mul, Finset.sum_filter]
  refine Finset.sum_congr rfl fun ab hab => ?_
  obtain ⟨ha, hb⟩ := hsupport ab hab
  rw [coeff_variableSum_pow ha, coeff_variableSum_pow hb]
  split_ifs <;> simp_all

/-- The ways to divide multiplicities into two parts, both with a generator. -/
noncomputable def divisions (c : ℕ →₀ ℕ) : Finset ((ℕ →₀ ℕ) × (ℕ →₀ ℕ)) :=
  {ab ∈ antidiagonal c | ab.1 ≠ 0 ∧ ab.2 ≠ 0}

theorem mem_divisions {c : ℕ →₀ ℕ} {ab : (ℕ →₀ ℕ) × (ℕ →₀ ℕ)} :
    ab ∈ divisions c ↔ ab.1 + ab.2 = c ∧ ab.1 ≠ 0 ∧ ab.2 ≠ 0 := by
  rw [divisions, Finset.mem_filter, mem_antidiagonal]

theorem degree_of_mem_divisions {c : ℕ →₀ ℕ} {ab : (ℕ →₀ ℕ) × (ℕ →₀ ℕ)} (h : ab ∈ divisions c) :
    0 < ab.1.degree ∧ 0 < ab.2.degree ∧ ab.1.degree + ab.2.degree = c.degree := by
  obtain ⟨hsum, ha, hb⟩ := mem_divisions.1 h
  rw [ne_eq, ← Finsupp.degree_eq_zero_iff, ← ne_eq, ← Nat.pos_iff_ne_zero] at ha hb
  exact ⟨ha, hb, by rw [← hsum, map_add]⟩

/-- Both parts have a generator if their degrees are not zero. -/
theorem filter_divisions (c : ℕ →₀ ℕ) (i j : ℕ) :
    {ab ∈ divisions c | ab.1.degree - 1 = i ∧ ab.2.degree - 1 = j} =
      {ab ∈ antidiagonal c | ab.1.degree = i + 1 ∧ ab.2.degree = j + 1} := by
  ext ab
  simp only [divisions, Finset.mem_filter, and_assoc, ne_eq, ← Finsupp.degree_eq_zero_iff]
  refine and_congr_right fun _ => ?_
  omega

/-- The number of ways to multiply as many factors as the degree says, times the number of words with
the given multiplicities. -/
noncomputable def treesAndWords (c : ℕ →₀ ℕ) : ℕ := catalan (c.degree - 1) * c.multinomial

theorem treesAndWords_single (g : ℕ) : treesAndWords (Finsupp.single g 1) = 1 := by
  rw [treesAndWords, Finsupp.degree_single, catalan_zero, one_mul, Finsupp.multinomial_eq,
    Finsupp.support_single _ one_ne_zero, Nat.multinomial_singleton]

theorem two_le_degree {c : ℕ →₀ ℕ} (hc : c ≠ 0) (h : ∀ g, Finsupp.single g 1 ≠ c) :
    2 ≤ c.degree := by
  obtain ⟨g, hg⟩ := Finsupp.ne_iff.1 hc
  have hle : Finsupp.single g 1 ≤ c := Finsupp.single_le_iff.2 (Nat.one_le_iff_ne_zero.2 hg)
  obtain ⟨rest, rfl⟩ := exists_add_of_le hle
  have hrest : rest.degree ≠ 0 := fun h0 =>
    h g (by rw [(Finsupp.degree_eq_zero_iff rest).1 h0, add_zero])
  rw [map_add, Finsupp.degree_single]
  omega

/-- The convolution of Catalan numbers, with the multinomial coefficients for each pair of degrees. -/
theorem sum_treesAndWords {c : ℕ →₀ ℕ} (h : 2 ≤ c.degree) :
    ∑ ab ∈ divisions c, treesAndWords ab.1 * treesAndWords ab.2 = treesAndWords c := by
  obtain ⟨n, hn⟩ : ∃ n, c.degree = n + 2 := ⟨c.degree - 2, by omega⟩
  have hmaps : ∀ ab ∈ divisions c, (ab.1.degree - 1, ab.2.degree - 1) ∈ antidiagonal n := by
    intro ab hab
    obtain ⟨ha, hb, hsum⟩ := degree_of_mem_divisions hab
    rw [mem_antidiagonal]
    omega
  have hdegrees : ∀ ij ∈ antidiagonal n,
      ∑ ab ∈ divisions c with (ab.1.degree - 1, ab.2.degree - 1) = ij,
        treesAndWords ab.1 * treesAndWords ab.2 =
      catalan ij.1 * catalan ij.2 * c.multinomial := by
    rintro ⟨i, j⟩ hij
    have hij := mem_antidiagonal.1 hij
    simp only [Prod.mk.injEq, filter_divisions]
    rw [← sum_multinomial (c := c) (i := i + 1) (j := j + 1) (by omega), Finset.mul_sum]
    refine Finset.sum_congr rfl fun ab hab => ?_
    obtain ⟨-, ha, hb⟩ := Finset.mem_filter.1 hab
    rw [treesAndWords, treesAndWords, ha, hb, Nat.add_sub_cancel, Nat.add_sub_cancel,
      mul_mul_mul_comm]
  calc ∑ ab ∈ divisions c, treesAndWords ab.1 * treesAndWords ab.2
      = ∑ ij ∈ antidiagonal n, catalan ij.1 * catalan ij.2 * c.multinomial := by
        rw [← Finset.sum_fiberwise_of_maps_to hmaps, Finset.sum_congr rfl hdegrees]
    _ = catalan (n + 1) * c.multinomial := by rw [catalan_succ', Finset.sum_mul]
    _ = treesAndWords c := by rw [treesAndWords, hn, Nat.add_sub_assoc (by omega)]

/-! ## Monomials -/

namespace Monomial

/-- How often each generator occurs. -/
noncomputable def content : Monomial → ℕ →₀ ℕ
  | .of g => Finsupp.single g 1
  | .mul u v => content u + content v

theorem coe_content (u : Monomial) : ⇑(content u) = u.count := by
  induction u with
  | of g => exact Finsupp.single_eq_pi_single g 1
  | mul u v ihu ihv =>
    show ⇑(content u + content v) = count u + count v
    rw [Finsupp.coe_add, ihu, ihv]

theorem degree_content (u : Monomial) : (content u).degree = u.length := by
  induction u with
  | of g => exact Finsupp.degree_single g 1
  | mul u v ihu ihv =>
    show (content u + content v).degree = u.length + v.length
    rw [map_add, ihu, ihv]

theorem content_ne_zero (u : Monomial) : content u ≠ 0 := by
  rw [ne_eq, ← Finsupp.degree_eq_zero_iff, degree_content]
  exact (FreeMagma.length_pos u).ne'

/-- A monomial with more than one generator is the product of two others in one way. -/
noncomputable def splitting {c : ℕ →₀ ℕ} (h : ∀ g, Finsupp.single g 1 ≠ c) :
    {u : Monomial // content u = c} ≃ Σ ab : divisions c,
      {u : Monomial // content u = ab.1.1} × {v : Monomial // content v = ab.1.2} where
  toFun
    | ⟨.of g, hg⟩ => absurd hg (h g)
    | ⟨.mul u v, huv⟩ => ⟨⟨(content u, content v), mem_divisions.2
        ⟨huv, content_ne_zero u, content_ne_zero v⟩⟩, ⟨u, rfl⟩, ⟨v, rfl⟩⟩
  invFun x := ⟨.mul x.2.1.1 x.2.2.1, (congrArg₂ (· + ·) x.2.1.2 x.2.2.2).trans
    (mem_divisions.1 x.1.2).1⟩
  left_inv := by
    rintro ⟨u | ⟨u, v⟩, hu⟩
    · exact absurd hu (h u)
    · rfl
  right_inv := by
    rintro ⟨⟨⟨a, b⟩, hab⟩, ⟨u, hu⟩, ⟨v, hv⟩⟩
    cases hu
    cases hv
    rfl

/-- A single generator is the only monomial with its multiplicities. -/
theorem content_eq_single {u : Monomial} {g : ℕ} : content u = Finsupp.single g 1 ↔ u = .of g := by
  refine ⟨fun h => ?_, fun h => h ▸ rfl⟩
  have hlength : u.length = 1 := by rw [← degree_content, h, Finsupp.degree_single]
  cases u with
  | of g' => exact congrArg FreeMagma.of (Finsupp.single_left_injective one_ne_zero h)
  | mul v w =>
    have hv := FreeMagma.length_pos v
    have hw := FreeMagma.length_pos w
    have hsum : v.length + w.length = 1 := hlength
    omega

/-- The number of monomials with the given multiplicities. -/
theorem card_content {c : ℕ →₀ ℕ} (hc : c ≠ 0) : Finite {u : Monomial // content u = c} ∧
    Nat.card {u : Monomial // content u = c} = treesAndWords c := by
  induction hd : c.degree using Nat.strong_induction_on generalizing c with
  | _ d ih =>
    by_cases hsingle : ∃ g, Finsupp.single g 1 = c
    · obtain ⟨g, rfl⟩ := hsingle
      have hunique : Unique {u : Monomial // content u = Finsupp.single g 1} :=
        ⟨⟨⟨.of g, rfl⟩⟩, fun u => Subtype.ext (content_eq_single.1 u.2)⟩
      exact ⟨inferInstance, by rw [Nat.card_unique, treesAndWords_single]⟩
    · have hsplit := splitting (not_exists.1 hsingle)
      -- both parts have a generator, so each has fewer than the whole
      have hpart : ∀ ab : divisions c, (Finite {u : Monomial // content u = ab.1.1} ∧
          Nat.card {u : Monomial // content u = ab.1.1} = treesAndWords ab.1.1) ∧
          Finite {v : Monomial // content v = ab.1.2} ∧
          Nat.card {v : Monomial // content v = ab.1.2} = treesAndWords ab.1.2 := by
        intro ab
        obtain ⟨-, ha, hb⟩ := mem_divisions.1 ab.2
        obtain ⟨hapos, hbpos, hsum⟩ := degree_of_mem_divisions ab.2
        exact ⟨ih _ (by omega) ha rfl, ih _ (by omega) hb rfl⟩
      have hleft := fun ab => (hpart ab).1.1
      have hright := fun ab => (hpart ab).2.1
      refine ⟨Finite.of_equiv _ hsplit.symm, ?_⟩
      calc Nat.card {u : Monomial // content u = c}
          = ∑ ab : divisions c, treesAndWords ab.1.1 * treesAndWords ab.1.2 := by
            rw [Nat.card_congr hsplit, Nat.card_sigma]
            refine Finset.sum_congr rfl fun ab _ => ?_
            rw [Nat.card_prod, (hpart ab).1.2, (hpart ab).2.2]
        _ = ∑ ab ∈ divisions c, treesAndWords ab.1 * treesAndWords ab.2 :=
            Finset.sum_coe_sort (divisions c) fun ab => treesAndWords ab.1 * treesAndWords ab.2
        _ = treesAndWords c := sum_treesAndWords (two_le_degree hc (not_exists.1 hsingle))

end Monomial

end Nonassoc
