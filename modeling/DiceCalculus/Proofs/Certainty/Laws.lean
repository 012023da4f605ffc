import DiceCalculus.Meaning.Call
import DiceCalculus.Proofs.Congruence
import DiceCalculus.Proofs.Results
import DiceCalculus.Proofs.Table.Sums

set_option autoImplicit false
set_option relaxedAutoImplicit false

/-!
# Laws of numbers that are certain

A law that gives mass one to one number, and none to another, is as good as the number. What is
computed with such laws is what is computed with the numbers, down to the form in which they are
written, and the mass stays one exactly, in whatever arithmetic masses are computed.

## Main definitions

* `Mass.IsUnital` — what has to hold of the arithmetic of masses: one and zero are computed with as
  usual.
* `Law.IsCertain` — a law with one number.

## Main results

* `Mass.isUnital_double` — so it is with doubles.
* `Law.IsCertain.operate`, `Law.isCertain_maximum` — operators and maxima.
* `Law.IsCertain.chanceOfNonzero`, `Law.IsCertain.massOf_zero`, `Law.IsCertain.addScaled` — the
  choice of a branch.

## Design

Nothing is said here about masses other than zero and one, so the results hold of doubles, where
sums and products of these two are exact.
-/

namespace DiceCalculus

/-- One and zero are computed with as usual, and so is the number from which sums start. -/
structure Mass.IsUnital (μ : Type) [Mass μ] : Prop where
  /-- One times one is one. -/
  one_mul_one : (1 : μ) * 1 = 1
  /-- Zero and one are one. -/
  zero_add_one : (0 : μ) + 1 = 1
  /-- What sums start from and one are one. -/
  neutral_add_one : (neutral : μ) + 1 = 1
  /-- One is above zero. -/
  isPositive_one : isPositive (1 : μ) = true
  /-- Zero is not above zero. -/
  isPositive_zero : isPositive (0 : μ) = false
  /-- What sums start from is not above zero. -/
  isPositive_neutral : isPositive (neutral : μ) = false

/-- One and zero are doubles, and what is computed with them is not rounded. -/
theorem Mass.isUnital_double : IsUnital Float where
  one_mul_one := by decide +kernel
  zero_add_one := by decide +kernel
  neutral_add_one := by decide +kernel
  isPositive_one := by decide +kernel
  isPositive_zero := by decide +kernel
  isPositive_neutral := by decide +kernel

variable {ρ μ : Type} [Scalar ρ] [Mass μ]

namespace Law

/-- A law with one number, which has mass one. -/
def IsCertain (l : Law ρ μ) (x : Number ρ) : Prop := l.entries = [(.single (.number x), 1)]

variable {limits : Limits μ} {l l' d : Law ρ μ} {x y : Number ρ}

section

variable (hμ : Mass.IsUnital μ)

include hμ

/-- The law of a constant. -/
lemma isCertain_certain (x : Number ρ) : (certain (.number x) : Law ρ μ).IsCertain x := by
  refine (Table.entries_ofEntries_singleton _ _).trans ?_
  rw [hμ.zero_add_one]

/-- A function of the numbers of two laws has the law of its value. -/
lemma IsCertain.fold {f : List (Atom ρ) → Except (Fault ρ μ) (Atom ρ)} {joint : Law ρ μ}
    (hl : l.IsCertain x) (hl' : l'.IsCertain y) (hjoint : limits.product l l' = .ok joint)
    (hd : joint.fold f = .ok d) :
    ∃ a, f [.number x, .number y] = .ok a ∧ d.entries = [(.single a, 1)] := by
  obtain ⟨_, -, hproduct⟩ := Except.bind_eq_ok_iff.1 hjoint
  obtain rfl := Except.pure_eq_ok_iff.1 hproduct
  have hentries : (l.product l').entries = [(⟨.number x, [.number y]⟩, 1)] := by
    unfold Law.product
    rw [hl, hl']
    refine (Table.entries_ofEntries_singleton _ _).trans ?_
    rw [hμ.one_mul_one, hμ.zero_add_one]
    rfl
  unfold Law.fold at hd
  rw [hentries, Except.bind_eq_ok_iff] at hd
  obtain ⟨es, hes, hd⟩ := hd
  obtain rfl := Except.pure_eq_ok_iff.1 hd
  rw [Except.mapM_eq_ok_iff, List.forall₂_cons_left_iff] at hes
  obtain ⟨e, es, he, hnil, rfl⟩ := hes
  rw [List.forall₂_nil_left_iff] at hnil
  obtain ⟨a, ha, he⟩ := Except.bind_eq_ok_iff.1 he
  obtain rfl := Except.pure_eq_ok_iff.1 he
  refine ⟨a, ha, ?_⟩
  rw [hnil]
  refine (Table.entries_ofEntries_singleton _ _).trans ?_
  rw [hμ.zero_add_one]

/-- An operator between two numbers. -/
theorem IsCertain.operate {op : Operator} (hl : l.IsCertain x) (hl' : l'.IsCertain y)
    (hd : operate limits op l l' = .ok d) :
    ∃ z, op.apply (μ := μ) x y = .ok z ∧ d.IsCertain z := by
  obtain ⟨joint, hjoint, hfold⟩ := Except.bind_eq_ok_iff.1 hd
  obtain ⟨a, ha, hentries⟩ := hl.fold hμ hl' hjoint hfold
  obtain ⟨z, hz, rfl⟩ := Except.map_eq_ok_iff.1 (show Atom.number <$> op.apply x y = .ok a from ha)
  exact ⟨z, hz, hentries⟩

/-- The greatest of numbers, the last of equal ones. -/
lemma isCertain_maximumFrom {ls : List (Law ρ μ)} {xs : List (Number ρ)}
    (hls : List.Forall₂ IsCertain ls xs) (hl : l.IsCertain x)
    (hd : maximumFrom limits l ls = .ok d) : d.IsCertain (xs.foldl Number.max x) := by
  induction hls generalizing l x with
  | nil => exact Except.ok.inj hd ▸ hl
  | @cons l' y _ _ hl' _ ih =>
    obtain ⟨joint, hjoint, hd⟩ := Except.bind_eq_ok_iff.1 hd
    obtain ⟨d', hfold, hd⟩ := Except.bind_eq_ok_iff.1 hd
    obtain ⟨a, ha, hentries⟩ := hl.fold hμ hl' hjoint hfold
    have hmax : (.number (Number.max x y) : Atom ρ) = Atom.greatest [.number x, .number y] :=
      apply_ite Atom.number (compare x y = .gt) x y
    obtain rfl := Except.ok.inj ha
    rw [← hmax] at hentries
    exact ih hentries hd

/-- The greatest of numbers, the last of equal ones. -/
theorem isCertain_maximum {ls : List (Law ρ μ)} {xs : List (Number ρ)}
    (hls : List.Forall₂ IsCertain ls xs) (hd : maximum limits ls = .ok d) :
    d.IsCertain (xs.foldl Number.max .negInfinity) :=
  isCertain_maximumFrom hμ hls (isCertain_certain hμ _) hd

/-- A law is added to none with weight one. -/
theorem IsCertain.addScaled (hl : l.IsCertain x) : (addScaled .empty 1 l).IsCertain x := by
  unfold Law.addScaled
  rw [hl]
  refine (Table.entries_ofEntries_singleton _ _).trans ?_
  rw [hμ.one_mul_one, hμ.zero_add_one]

omit hμ in
/-- An outcome of one number is zero if the number is. -/
lemma compare_zero_beq (x : Number ρ) :
    (compare (Outcome.single (.number x)) (.single (.number .zero)) == .eq) = x.isZero := by
  rw [Bool.eq_iff_iff, beq_iff_eq, Outcome.compare_number_eq_iff, Number.isZero_iff]

/-- A number that is not zero is a test that comes out so for certain. -/
theorem IsCertain.chanceOfNonzero (hl : l.IsCertain x) :
    Builtin.chanceOfNonzero l = if x.isZero then Mass.neutral else 1 := by
  have hzero : ((Outcome.single (.number x) : Outcome ρ) != .single (.number .zero)) = !x.isZero :=
    congrArg (!·) (compare_zero_beq x)
  unfold Builtin.chanceOfNonzero
  rw [hl]
  cases hx : x.isZero with
  | true => simp [hzero, hx]
  | false => simp [hzero, hx, hμ.neutral_add_one]

omit hμ in
/-- A number that is zero is a test that comes out so for certain. -/
theorem IsCertain.massOf_zero (hl : l.IsCertain x) :
    l.massOf (.number .zero) = if x.isZero then 1 else 0 := by
  unfold massOf mass Table.find?
  rw [hl, List.find?_cons, compare_zero_beq]
  cases x.isZero <;> rfl

end

end Law

end DiceCalculus
