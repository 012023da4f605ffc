import DiceCalculus.Proofs.Law.Sum

set_option autoImplicit false
set_option relaxedAutoImplicit false

/-!
# Integrals of maxima

The law of the greatest of a list of numbers takes in one independent number after the other, and
so does its integral.

## Main definitions

* `Outcome.greater` — the greatest component of two outcomes.
* `Law.max`, `Law.greatest` — the law of the greatest component of two independent outcomes, and of a
  list of them and of `-∞`.
* `Law.maximumIntegral` — the integral of a function of the greatest of a list of independent
  numbers and of a number given from the start.

## Main results

* `Law.integral_maximumFrom`, `Law.integral_maximum` — the integral over the law of a maximum.
* `Law.maximumIntegral_eq_rollAverage` — fair dice with one number of sides.
* `Law.maximumIntegral_of_mul` — functions of a maximum that are products, as the one that tells
  whether a bound holds.
* `Law.maximum_eq_ok`, `Law.exists_maximum` — without a limit of outcomes every maximum has a law.
-/

namespace DiceCalculus

variable {ρ : Type} [Scalar ρ] {limits : Limits ℚ}

namespace Outcome

variable {o o' p p' : Outcome ρ}

/-- The greatest component of two outcomes. -/
def greater (o o' : Outcome ρ) : Outcome ρ := single (Atom.greatest (o ++ o').atoms)

/-- The greater of two numbers. -/
lemma greater_number (x y : Number ρ) :
    greater (single (.number x)) (single (.number y)) = single (.number (Number.max x y)) := by
  show single (Atom.max (.number x) (.number y)) = single (.number (Number.max x y))
  unfold Atom.max Number.max
  rw [show compare (Atom.number x) (.number y) = compare x y from rfl]
  split <;> rfl

/-- An absent die has no part in a maximum. -/
lemma greater_absent (x : Number ρ) :
    greater (single (.number x)) (single .absent) = single (.number x) := rfl

/-- The greater of equal outcomes are equal. -/
lemma compare_greater (ho : compare o p = .eq) (ho' : compare o' p' = .eq) :
    compare (greater o o') (greater p p') = .eq :=
  (compare_single_eq_iff _ _).2 (isCongruent_greatest _ _ (compare_append_eq ho ho'))

/-- The greater of a number and another outcome is a number. -/
lemma exists_greater_number (x : Number ρ) (o : Outcome ρ) :
    ∃ y, greater (single (.number x)) o = single (.number y) := by
  have hfold (as : List (Atom ρ)) (x : Number ρ) : ∃ y, as.foldl Atom.max (.number x) = .number y := by
    induction as generalizing x with
    | nil => exact ⟨x, rfl⟩
    | cons a as ih =>
      have hmax : ∃ y, Atom.max (.number x) a = .number y := by
        unfold Atom.max
        cases a with
        | absent => exact ⟨x, rfl⟩
        | number z =>
          split
          · exact ⟨x, rfl⟩
          · exact ⟨z, rfl⟩
      obtain ⟨y, hy⟩ := hmax
      rw [List.foldl_cons, hy]
      exact ih y
  obtain ⟨y, hy⟩ := hfold o.atoms x
  exact ⟨y, congrArg single hy⟩

end Outcome

open Outcome

namespace Law

variable {l l' d start : Law ρ ℚ} {ls : List (Law ρ ℚ)} {g : Outcome ρ → ℚ}

/-- The integral of a function of the greatest of a list of independent numbers and of a number
given from the start. -/
def maximumIntegral (g : Outcome ρ → ℚ) : List (Law ρ ℚ) → Outcome ρ → ℚ
  | [], o => g o
  | l :: ls, o => l.integral fun o' => maximumIntegral g ls (greater o o')

/-- The integral of a function of a maximum does not depend on how numbers are written. -/
lemma isInvariant_maximumIntegral (hg : IsInvariant g) (ls : List (Law ρ ℚ)) :
    IsInvariant (maximumIntegral g ls) := by
  induction ls with
  | nil => exact hg
  | cons l ls ih =>
    intro o p h
    refine integral_congr fun e _ => ih _ _ ?_
    exact compare_greater h Std.ReflCmp.compare_self

/-- The law of the greatest component of two independent outcomes. -/
protected def max (l l' : Law ρ ℚ) : Law ρ ℚ := (l.product l').image fun o => Atom.greatest o.atoms

/-- The law of the greatest component of a list of independent outcomes and of `-∞`. -/
def greatest (ls : List (Law ρ ℚ)) : Law ρ ℚ := ls.foldl Law.max (.certain (.number .negInfinity))

/-- The integral over the greatest of two independent outcomes is an integral over both. -/
lemma integral_max (hg : IsInvariant g) (l l' : Law ρ ℚ) :
    (l.max l').integral g = l.integral fun o => l'.integral fun o' => g (greater o o') := by
  have hgreatest : IsInvariant fun o : Outcome ρ => g (single (Atom.greatest o.atoms)) :=
    hg.comp_isCongruent isCongruent_greatest
  unfold Law.max
  rw [integral_image hg, integral_product hgreatest]
  rfl

/-- The maximum of a law and of a list of laws takes in one law after the other. -/
lemma maximumFrom_cons_eq_ok_iff : maximumFrom limits start (l :: ls) = .ok d ↔
    limits.product start l = .ok (start.product l) ∧ maximumFrom limits (start.max l) ls = .ok d := by
  have hfold : (start.product l).fold (fun as => .ok (Atom.greatest as)) =
      (.ok (start.max l) : Except (Fault ρ ℚ) _) :=
    fold_eq_ok_iff.2 ⟨fun e _ => ⟨_, rfl⟩, rfl⟩
  constructor
  · intro h
    obtain ⟨joint, hjoint, h⟩ := Except.bind_eq_ok_iff.1 h
    obtain rfl := Limits.eq_product_of_ok hjoint
    rw [hfold] at h
    exact ⟨hjoint, h⟩
  · rintro ⟨hjoint, h⟩
    refine Except.bind_eq_ok_iff.2 ⟨_, hjoint, ?_⟩
    rw [hfold]
    exact h

/-- The integral over the maximum of a law and of a list of laws. -/
theorem integral_maximumFrom (hg : IsInvariant g) (h : maximumFrom limits start ls = .ok d) :
    d.integral g = start.integral (maximumIntegral g ls) := by
  induction ls generalizing start with
  | nil =>
    obtain rfl := Except.ok.inj h
    rfl
  | cons l ls ih =>
    rw [ih (maximumFrom_cons_eq_ok_iff.1 h).2, integral_max (isInvariant_maximumIntegral hg ls)]
    rfl

/-- The integral over the law of a maximum. -/
theorem integral_maximum (hg : IsInvariant g) (h : maximum limits ls = .ok d) :
    d.integral g = maximumIntegral g ls (single (.number .negInfinity)) := by
  rw [integral_maximumFrom hg h, integral_certain]

/-- Without a limit of outcomes, the law of the greatest is the law that is computed. -/
theorem maximum_eq_ok (hlimits : limits.maxOutcomes = none) (ls : List (Law ρ ℚ)) :
    maximum limits ls = .ok (greatest ls) := by
  have hfrom (start : Law ρ ℚ) : maximumFrom limits start ls = .ok (ls.foldl Law.max start) := by
    induction ls generalizing start with
    | nil => rfl
    | cons l ls ih =>
      exact maximumFrom_cons_eq_ok_iff.2 ⟨Limits.product_eq_ok hlimits start l, ih (start.max l)⟩
  exact hfrom _

/-- Without a limit of outcomes every maximum has a law. -/
theorem exists_maximum (hlimits : limits.maxOutcomes = none) (ls : List (Law ρ ℚ)) :
    ∃ d, maximum limits ls = .ok d :=
  ⟨greatest ls, maximum_eq_ok hlimits ls⟩

/-- The integral over the law of the greatest takes in one law after the other. -/
lemma integral_greatest (hg : IsInvariant g) (ls : List (Law ρ ℚ)) :
    (greatest ls).integral g = maximumIntegral g ls (single (.number .negInfinity)) := by
  have hfree : (⟨none, none, none, 0⟩ : Limits ℚ).maxOutcomes = none := rfl
  exact integral_maximum hg (maximum_eq_ok hfree ls)

/-- The maximum of a law of numbers and of laws whose masses are above zero is a law of numbers. -/
lemma isNumeric_of_maximumFrom (hstart : start.IsNumeric) (hls : ∀ l ∈ ls, l.Each fun _ p => 0 < p)
    (h : maximumFrom limits start ls = .ok d) : d.IsNumeric := by
  induction ls generalizing start with
  | nil => exact Except.ok.inj h ▸ hstart
  | cons l ls ih =>
    rw [List.forall_mem_cons] at hls
    refine ih (each_image isKeyPredicate_numeric numeric_add ?_) hls.2
      (maximumFrom_cons_eq_ok_iff.1 h).2
    refine each_product ?_ (fun _ _ _ hp hq => ⟨hp.1, add_pos hp.2 hq.2⟩) fun e he e' he' => ?_
    · exact fun o p _ hop => isKeyPredicate_numeric _ _ _
        ((compare_single_eq_iff _ _).2 (isCongruent_greatest o p hop))
    · obtain ⟨⟨x, hx⟩, hpos⟩ := hstart e he
      refine ⟨?_, mul_pos hpos (hls.1 e' he')⟩
      rw [hx]
      exact exists_greater_number x e'.1

/-- The maximum of laws whose masses are above zero is a law of numbers. -/
lemma isNumeric_of_maximum (hls : ∀ l ∈ ls, l.Each fun _ p => 0 < p)
    (h : maximum limits ls = .ok d) : d.IsNumeric :=
  isNumeric_of_maximumFrom (isNumeric_certain _) hls h

/-- The greatest of fair dice with one number of sides averages over the faces of a roll. -/
theorem maximumIntegral_eq_rollAverage (hg : IsInvariant g) {sides : Nat}
    (hls : ∀ l ∈ ls, ∀ h, IsInvariant h → l.integral h = (uniform sides : Law ρ ℚ).integral h)
    (x : Number ρ) : maximumIntegral g ls (single (.number x)) =
      rollAverage ls.length sides fun faces => g (single (.number
        ((faces.map fun face => .int face.toInt32).foldl Number.max x))) := by
  induction ls generalizing x with
  | nil => simp only [List.length_nil, rollAverage_zero, maximumIntegral, List.map_nil, List.foldl_nil]
  | cons l ls ih =>
    rw [List.forall_mem_cons] at hls
    have hinner : IsInvariant fun o' : Outcome ρ =>
        maximumIntegral g ls (greater (single (.number x)) o') := fun o p h =>
      isInvariant_maximumIntegral hg ls _ _ (compare_greater Std.ReflCmp.compare_self h)
    show l.integral (fun o' => maximumIntegral g ls (greater (single (.number x)) o')) = _
    rw [hls.1 _ hinner, integral_uniform hinner, List.length_cons, rollAverage_succ]
    refine congrArg (_ * ·) (congrArg List.sum (List.map_congr_left fun i _ => ?_))
    show maximumIntegral g ls (greater (single (.number x)) (single (.number _))) = _
    rw [greater_number, ih hls.2]
    rfl

/-- The integral over a longer list takes in the first part and then the second. -/
lemma maximumIntegral_append (g : Outcome ρ → ℚ) (ls ls' : List (Law ρ ℚ)) (o : Outcome ρ) :
    maximumIntegral g (ls ++ ls') o = maximumIntegral (maximumIntegral g ls') ls o := by
  induction ls generalizing o with
  | nil => rfl
  | cons l ls ih => exact integral_congr fun e _ => ih (greater o e.1)

/-- Laws that all integrate as one law does may be replaced by it. -/
lemma maximumIntegral_eq_replicate (hg : IsInvariant g)
    (hls : ∀ l ∈ ls, ∀ h, IsInvariant h → l.integral h = d.integral h) (o : Outcome ρ) :
    maximumIntegral g ls o = maximumIntegral g (List.replicate ls.length d) o := by
  induction ls generalizing o with
  | nil => rfl
  | cons l ls ih =>
    rw [List.forall_mem_cons] at hls
    have hinner : IsInvariant fun o' : Outcome ρ => maximumIntegral g ls (greater o o') :=
      fun _ _ h => isInvariant_maximumIntegral hg ls _ _ (compare_greater Std.ReflCmp.compare_self h)
    exact (hls.1 _ hinner).trans (integral_congr fun e _ => ih hls.2 _)

/-- The integral of a mixture of two functions, if it is known at numbers, mixes their integrals. -/
lemma maximumIntegral_mix {k g' : Outcome ρ → ℚ} {a b : ℚ}
    (hk : ∀ x, k (single (.number x)) = a * g (single (.number x)) + b * g' (single (.number x)))
    (ls : List (Law ρ ℚ)) (x : Number ρ) : maximumIntegral k ls (single (.number x)) =
      a * maximumIntegral g ls (single (.number x)) +
        b * maximumIntegral g' ls (single (.number x)) := by
  induction ls generalizing x with
  | nil => exact hk x
  | cons l ls ih =>
    show l.integral _ = a * l.integral _ + b * l.integral _
    rw [← integral_const_mul, ← integral_const_mul, ← integral_add]
    refine integral_congr fun e _ => ?_
    obtain ⟨y, hy⟩ := exists_greater_number x e.1
    rw [hy, ih]

/-- A number that no law takes in a greater one than is the greatest for certain. -/
lemma maximumIntegral_of_fixed (hg : IsInvariant g) {x : Number ρ}
    (hls : ∀ l ∈ ls, ∀ h, IsInvariant h →
      l.integral (fun o => h (greater (single (.number x)) o)) = h (single (.number x))) :
    maximumIntegral g ls (single (.number x)) = g (single (.number x)) := by
  induction ls with
  | nil => rfl
  | cons l ls ih =>
    rw [List.forall_mem_cons] at hls
    exact (hls.1 _ (isInvariant_maximumIntegral hg ls)).trans (ih hls.2)

/-- A function that takes maxima to products has an integral over a maximum that is a product. -/
theorem maximumIntegral_of_mul (hmul : ∀ x o, g (greater (single (.number x)) o) =
    g (single (.number x)) * g o) (ls : List (Law ρ ℚ)) (x : Number ρ) :
    maximumIntegral g ls (single (.number x)) =
      g (single (.number x)) * (ls.map fun l => l.integral g).prod := by
  induction ls generalizing x with
  | nil => simp [maximumIntegral]
  | cons l ls ih =>
    have hstep (o : Outcome ρ) : maximumIntegral g ls (greater (single (.number x)) o) =
        g (single (.number x)) * (g o * (ls.map fun l => l.integral g).prod) := by
      obtain ⟨y, hy⟩ := exists_greater_number x o
      rw [hy, ih, ← hy, hmul, mul_assoc]
    simp only [maximumIntegral, hstep, integral_const_mul, integral_mul_const, List.map_cons,
      List.prod_cons]

end Law

end DiceCalculus
