import Mathlib.Algebra.Order.Group.Nat
import Mathlib.Data.Set.Card
import Mathlib.Order.Interval.Finset.Nat
import DiceCalculus.Roller

set_option autoImplicit false
set_option relaxedAutoImplicit false

/-!
# Fair faces from random words

A word of 32 bits is turned into a face of a die, or refused. Every face comes from equally many words,
and faces are drawn from a source of words one after the other, in the order of the accepted words.

## Main definitions

* `firstWordOf` — the smallest word that is turned into a face.
* `WordSource.words`, `WordSource.after` — the next words of a source, and the source behind them.
* `acceptedFaces` — the faces of the accepted ones among the next words.
* `Deals` — faces that are drawn from the fewest words that are enough.

## Main results

* `faceOfWord?_eq_some_iff_mem` — the words of a face are as many as divide all words among the faces, and
  follow one another.
* `ncard_words_of_face` — every face has equally many words.
* `exists_drawFaces_eq` — what is drawn from a source, also if it is given up.
* `WordCircle.deals_roll` — the roller that reads words in a circle always deals as many faces as are
  asked for.
* `roller_deals_fair_dice` — all of this for every number of sides.
-/

namespace DiceCalculus

/-! ## The words of a face -/

section Words

variable {sides : Nat}

/-- The lower halves in the zone are as many as the greatest multiple of the number of sides that all
words reach. -/
lemma acceptanceZone_succ (hpos : 0 < sides) (hlt : sides < 2 ^ 32) :
    acceptanceZone sides + 1 = sides * (2 ^ 32 / sides) := by
  have hmod : (2 ^ 32 - sides) % sides = 2 ^ 32 % sides := by
    rw [← Nat.add_mod_right (2 ^ 32 - sides), Nat.sub_add_cancel hlt.le]
  have hdiv := Nat.div_add_mod (2 ^ 32) sides
  have hsmall := Nat.mod_lt (2 ^ 32) hpos
  unfold acceptanceZone
  rw [show UInt32.size = 2 ^ 32 from rfl, hmod]
  omega

/-- The face of a word: the word is taken times the number of sides, and accepted if the lower half of
the product is in the zone. The upper half is the face less one. -/
lemma faceOfWord?_eq_some_iff (hlt : sides < 2 ^ 32) {w f : UInt32} :
    faceOfWord? sides w = some f ↔
      w.toNat * sides % 2 ^ 32 ≤ 2 ^ 32 - 1 - (2 ^ 32 - sides) % sides ∧
        f.toNat = 1 + w.toNat * sides / 2 ^ 32 := by
  have hupper : w.toNat * sides / 2 ^ 32 ≤ sides - 1 := by
    have hproduct : w.toNat * sides ≤ (2 ^ 32 - 1) * sides :=
      Nat.mul_le_mul_right sides (Nat.le_pred_of_lt w.toNat_lt)
    omega
  have hface : (UInt32.ofNat (1 + w.toNat * sides / 2 ^ 32)).toNat = 1 + w.toNat * sides / 2 ^ 32 :=
    UInt32.toNat_ofNat_of_lt' (show 1 + w.toNat * sides / 2 ^ 32 < 2 ^ 32 by omega)
  unfold faceOfWord? acceptanceZone
  rw [show UInt32.size = 2 ^ 32 from rfl]
  dsimp only
  split
  · next h =>
    rw [Option.some_inj, ← UInt32.toNat_inj, hface, and_iff_right h, eq_comm]
  · next h => exact iff_of_false nofun fun ⟨hzone, _⟩ => h hzone

/-- A face is one of the faces of the die. -/
lemma face_bounds_of_faceOfWord? (hpos : 0 < sides) (hlt : sides < 2 ^ 32) {w f : UInt32}
    (h : faceOfWord? sides w = some f) : 1 ≤ f.toNat ∧ f.toNat ≤ sides := by
  obtain ⟨-, hface⟩ := (faceOfWord?_eq_some_iff hlt).1 h
  have hupper : w.toNat * sides / 2 ^ 32 < sides := by
    refine Nat.div_lt_of_lt_mul ?_
    exact Nat.mul_lt_mul_of_pos_right w.toNat_lt hpos
  omega

/-- The smallest word that is turned into a face. -/
def firstWordOf (sides face : Nat) : Nat := ((face - 1) * 2 ^ 32 + (sides - 1)) / sides

/-- The first word of a face is the first whose product with the number of sides reaches the upper half
of the face. -/
lemma firstWordOf_le_iff (hpos : 0 < sides) {face n : Nat} :
    firstWordOf sides face ≤ n ↔ (face - 1) * 2 ^ 32 ≤ n * sides := by
  unfold firstWordOf
  rw [← Nat.lt_succ_iff, Nat.div_lt_iff_lt_mul hpos, Nat.succ_mul]
  omega

/-- A number is below the end of a block of words exactly if its product is below the end of the zone of
the face. -/
lemma lt_firstWordOf_add_iff (hpos : 0 < sides) {face n block : Nat} :
    n < firstWordOf sides face + block ↔ n * sides < (face - 1) * 2 ^ 32 + sides * block := by
  rcases Nat.lt_or_ge n block with hlt | hge
  · have hproduct : n * sides < sides * block := by
      rw [Nat.mul_comm]
      exact Nat.mul_lt_mul_of_pos_left hlt hpos
    exact iff_of_true (Nat.lt_add_left _ hlt) (Nat.lt_add_left _ hproduct)
  · have hfirst : firstWordOf sides face ≤ n - block ↔ (face - 1) * 2 ^ 32 ≤ (n - block) * sides :=
      firstWordOf_le_iff hpos
    rw [Nat.sub_mul n, Nat.mul_comm block] at hfirst
    have hproduct : sides * block ≤ n * sides := by
      rw [Nat.mul_comm sides]
      exact Nat.mul_le_mul_right sides hge
    omega

/-- The words of a face follow one another, and are as many as there are if all words are shared out
evenly.

**Proof sketch.** A product has the upper half of the face and a lower half in the zone exactly if it
lies in an interval, whose length is the number of sides times the share of a face. The words whose
products lie there are counted by dividing its ends. -/
theorem faceOfWord?_eq_some_iff_mem (hpos : 0 < sides) (hlt : sides < 2 ^ 32) {w f : UInt32}
    (hf : 1 ≤ f.toNat) : faceOfWord? sides w = some f ↔ w.toNat ∈
      Set.Ico (firstWordOf sides f.toNat) (firstWordOf sides f.toNat + 2 ^ 32 / sides) := by
  have hzone := acceptanceZone_succ hpos hlt
  unfold acceptanceZone at hzone
  rw [show UInt32.size = 2 ^ 32 from rfl] at hzone
  have hle : sides * (2 ^ 32 / sides) ≤ 2 ^ 32 := Nat.mul_div_le ..
  rw [faceOfWord?_eq_some_iff hlt, Set.mem_Ico, firstWordOf_le_iff hpos, lt_firstWordOf_add_iff hpos]
  generalize w.toNat * sides = product at *
  generalize sides * (2 ^ 32 / sides) = zone at *
  omega

/-- Every face has equally many words. -/
theorem ncard_words_of_face (hpos : 0 < sides) (hlt : sides < 2 ^ 32) {f : UInt32}
    (hf : 1 ≤ f.toNat) (hle : f.toNat ≤ sides) :
    {w : UInt32 | faceOfWord? sides w = some f}.ncard = 2 ^ 32 / sides := by
  have himage : UInt32.toNat '' {w | faceOfWord? sides w = some f} =
      Set.Ico (firstWordOf sides f.toNat) (firstWordOf sides f.toNat + 2 ^ 32 / sides) := by
    refine Set.ext fun n => ⟨?_, fun hn => ?_⟩
    · rintro ⟨w, hw, rfl⟩
      exact (faceOfWord?_eq_some_iff_mem hpos hlt hf).1 hw
    · have hword : n < 2 ^ 32 := by
        have hproduct := (lt_firstWordOf_add_iff hpos).1 hn.2
        have hzone : sides * (2 ^ 32 / sides) ≤ 2 ^ 32 := Nat.mul_div_le ..
        have hupper : f.toNat * 2 ^ 32 ≤ sides * 2 ^ 32 := Nat.mul_le_mul_right _ hle
        have hupper : n * sides < 2 ^ 32 * sides := by omega
        exact Nat.lt_of_mul_lt_mul_right hupper
      have hn' : (UInt32.ofNat n).toNat = n := UInt32.toNat_ofNat_of_lt' hword
      exact ⟨.ofNat n, (faceOfWord?_eq_some_iff_mem hpos hlt hf).2 (hn'.symm ▸ hn), hn'⟩
  rw [← Set.ncard_image_of_injective _ fun _ _ => UInt32.toNat_inj.1, himage, ← Finset.coe_Ico,
    Set.ncard_coe_finset, Nat.card_Ico, Nat.add_sub_cancel_left]

end Words

/-! ## Words of a source -/

section Sources

variable {γ : Type} [WordSource γ] {sides attempts count : Nat}

namespace WordSource

/-- The next words of a source. -/
def words : (n : Nat) → γ → List UInt32
  | 0, _ => []
  | n + 1, g => (next g).1 :: words n (next g).2

/-- The source behind a number of words. -/
def after : (n : Nat) → γ → γ
  | 0, g => g
  | n + 1, g => after n (next g).2

/-- The next words in two parts. -/
lemma words_add (m n : Nat) (g : γ) : words (m + n) g = words m g ++ words n (after m g) := by
  induction m generalizing g with
  | zero => rw [Nat.zero_add]; rfl
  | succ m ih =>
    rw [Nat.succ_add]
    exact congrArg ((next g).1 :: ·) (ih (next g).2)

/-- The source is read on from where it was left. -/
lemma after_add (m n : Nat) (g : γ) : after (m + n) g = after n (after m g) := by
  induction m generalizing g with
  | zero => rw [Nat.zero_add]; rfl
  | succ m ih =>
    rw [Nat.succ_add]
    exact ih (next g).2

/-- The word at a place is one of the words up to there. -/
lemma next_after_mem_words {m n : Nat} (h : m < n) (g : γ) : (next (after m g)).1 ∈ words n g := by
  rw [← Nat.add_sub_cancel' h.le, words_add, ← Nat.succ_pred_eq_of_pos (Nat.sub_pos_of_lt h)]
  exact List.mem_append_right _ List.mem_cons_self

end WordSource

open WordSource

/-- The faces of the accepted ones among the next words, in their order. -/
def acceptedFaces (sides n : Nat) (g : γ) : List UInt32 := (words n g).filterMap (faceOfWord? sides)

/-- The faces of words in two parts. -/
lemma acceptedFaces_add (m n : Nat) (g : γ) : acceptedFaces sides (m + n) g =
    acceptedFaces sides m g ++ acceptedFaces sides n (after m g) := by
  unfold acceptedFaces
  rw [words_add, List.filterMap_append]

/-- More words have no fewer accepted ones. -/
lemma length_acceptedFaces_mono {m n : Nat} (h : m ≤ n) (g : γ) :
    (acceptedFaces sides m g).length ≤ (acceptedFaces sides n g).length := by
  rw [← Nat.add_sub_cancel' h, acceptedFaces_add, List.length_append]
  exact Nat.le_add_right ..

/-! ## Drawing faces -/

/-- Faces are drawn from the fewest words of a source that are enough: they are the faces of the accepted
ones in their order, as many as are asked for, and the source goes on behind the last of these words. -/
structure Deals (sides count : Nat) (g : γ) (dealt : List UInt32 × γ) (used : Nat) : Prop where
  /-- The faces are those of the words that are used, no word is left out, and none is used twice. -/
  eq_accepted : dealt = (acceptedFaces sides used g, after used g)
  /-- There are as many faces as are asked for. -/
  length_eq : dealt.1.length = count
  /-- Fewer words would not be enough. -/
  lt_of_lt : ∀ n < used, (acceptedFaces sides n g).length < count

/-- A face is drawn from the first word that is accepted, or it is given up after a number of words. -/
lemma drawFace_eq (sides attempts : Nat) (g : γ) :
    (∃ f n, n < attempts ∧ drawFace sides attempts g = (some f, after (n + 1) g) ∧
      acceptedFaces sides n g = [] ∧ acceptedFaces sides (n + 1) g = [f]) ∨
    (drawFace sides attempts g = (none, after attempts g) ∧ acceptedFaces sides attempts g = []) := by
  induction attempts generalizing g with
  | zero => exact .inr ⟨rfl, rfl⟩
  | succ attempts ih =>
    have hone : acceptedFaces sides 1 g = (faceOfWord? sides (next g).1).toList := by
      show List.filterMap _ [(next g).1] = _
      cases h : faceOfWord? sides (next g).1 <;> simp [h]
    have hmore (n : Nat) : acceptedFaces sides (n + 1) g =
        (faceOfWord? sides (next g).1).toList ++ acceptedFaces sides n (next g).2 := by
      rw [Nat.add_comm, acceptedFaces_add, hone]
      rfl
    unfold drawFace
    dsimp only
    cases hface : faceOfWord? sides (next g).1 with
    | some f =>
      refine .inl ⟨f, 0, attempts.succ_pos, rfl, rfl, ?_⟩
      rw [hone, hface]
      rfl
    | none =>
      simp only [hface, Option.toList_none, List.nil_append] at hmore
      rcases ih (next g).2 with ⟨f, n, hn, hdraw, hrefused, haccepted⟩ | ⟨hdraw, hrefused⟩
      · exact .inl ⟨f, n + 1, Nat.succ_lt_succ hn, hdraw, (hmore n).trans hrefused,
          (hmore (n + 1)).trans haccepted⟩
      · exact .inr ⟨hdraw, (hmore attempts).trans hrefused⟩

/-- If a face is drawn, the others are drawn behind it. -/
lemma drawFaces_succ_of_some {g g' : γ} {f : UInt32} (h : drawFace sides attempts g = (some f, g')) :
    drawFaces sides attempts (count + 1) g =
      (f :: (drawFaces sides attempts count g').1, (drawFaces sides attempts count g').2) := by
  rw [drawFaces, h]

/-- If a face is given up, so are the others. -/
lemma drawFaces_succ_of_none {g g' : γ} (h : drawFace sides attempts g = (none, g')) :
    drawFaces sides attempts (count + 1) g = ([], g') := by
  rw [drawFaces, h]

/-- Behind the first accepted word the faces of the other words follow. -/
lemma acceptedFaces_first {g : γ} {f : UInt32} {n : Nat} (h : acceptedFaces sides (n + 1) g = [f])
    (m : Nat) : acceptedFaces sides (n + 1 + m) g = f :: acceptedFaces sides m (after (n + 1) g) := by
  rw [acceptedFaces_add, h]
  rfl

/-- The first accepted word is dealt in front of what is dealt behind it. -/
lemma Deals.cons {g : γ} {f : UInt32} {n used : Nat} {dealt : List UInt32 × γ}
    (hrefused : acceptedFaces sides n g = []) (haccepted : acceptedFaces sides (n + 1) g = [f])
    (h : Deals sides count (after (n + 1) g) dealt used) :
    Deals sides (count + 1) g (f :: dealt.1, dealt.2) (n + 1 + used) where
  eq_accepted := by rw [h.eq_accepted, acceptedFaces_first haccepted, after_add (n + 1)]
  length_eq := congrArg (· + 1) h.length_eq
  lt_of_lt m hm := by
    rcases Nat.lt_or_ge n m with hlt | hle
    · rw [← Nat.add_sub_cancel' hlt, acceptedFaces_first haccepted, List.length_cons]
      exact Nat.succ_lt_succ (h.lt_of_lt _ (by omega))
    · have hmono : (acceptedFaces sides m g).length ≤ (acceptedFaces sides n g).length :=
        length_acceptedFaces_mono hle g
      rw [hrefused] at hmono
      exact Nat.lt_succ_of_le (hmono.trans (Nat.zero_le _))

/-- Faces are drawn from the fewest words that are enough, or they are given up after a number of words
in a row that are all refused. Also then they are the faces of the words that were used.

**Proof sketch.** By induction on the number of faces. The first face uses the refused words before it and
its own (`drawFace_eq`), and the others go on from there. -/
theorem exists_drawFaces_eq (sides attempts count : Nat) (g : γ) : ∃ used,
    drawFaces sides attempts count g = (acceptedFaces sides used g, after used g) ∧
      (Deals sides count g (drawFaces sides attempts count g) used ∨
        ∃ n, used = n + attempts ∧ (acceptedFaces sides used g).length < count ∧
          acceptedFaces sides attempts (after n g) = []) := by
  induction count generalizing g with
  | zero => exact ⟨0, rfl, .inl ⟨rfl, rfl, nofun⟩⟩
  | succ count ih =>
    rcases drawFace_eq sides attempts g with ⟨f, n, hn, hdraw, hrefused, haccepted⟩ | ⟨hdraw, hrefused⟩
    · obtain ⟨used, heq, h⟩ := ih (after (n + 1) g)
      have hmore := acceptedFaces_first haccepted
      refine ⟨n + 1 + used, ?_, ?_⟩
      · rw [drawFaces_succ_of_some hdraw, heq, hmore, after_add (n + 1) used]
      · rw [drawFaces_succ_of_some hdraw]
        rcases h with h | ⟨m, rfl, hlength, hrow⟩
        · exact .inl (h.cons hrefused haccepted)
        · refine .inr ⟨n + 1 + m, by omega, ?_, ?_⟩
          · rw [hmore, List.length_cons]
            exact Nat.succ_lt_succ hlength
          · rwa [after_add]
    · refine ⟨attempts, ?_, .inr ⟨0, (Nat.zero_add _).symm, ?_, hrefused⟩⟩
      · rw [drawFaces_succ_of_none hdraw, hrefused]
      · rw [hrefused]
        exact count.succ_pos

/-- If enough of the next words are accepted, and as many attempts are made for each face, then the faces
are dealt. -/
lemma exists_deals {n : Nat} {g : γ} (h : count ≤ (acceptedFaces sides n g).length)
    (hn : n ≤ attempts) : ∃ used ≤ n, Deals sides count g (drawFaces sides attempts count g) used := by
  obtain ⟨used, -, hdeals | ⟨m, rfl, hlength, -⟩⟩ := exists_drawFaces_eq sides attempts count g
  · exact ⟨used, not_lt.1 fun hlt => absurd (hdeals.lt_of_lt n hlt) (not_lt.2 h), hdeals⟩
  · have hmono : (acceptedFaces sides n g).length ≤ (acceptedFaces sides (m + attempts) g).length :=
      length_acceptedFaces_mono (by omega) g
    omega

/-- To draw some faces and then others is to draw all of them. -/
lemma drawFaces_add {a b : Nat} {g : γ} (h : (drawFaces sides attempts a g).1.length = a) :
    drawFaces sides attempts (a + b) g =
      ((drawFaces sides attempts a g).1 ++
        (drawFaces sides attempts b (drawFaces sides attempts a g).2).1,
      (drawFaces sides attempts b (drawFaces sides attempts a g).2).2) := by
  induction a generalizing g with
  | zero => rw [Nat.zero_add]; rfl
  | succ a ih =>
    rw [Nat.succ_add]
    rcases hdraw : drawFace sides attempts g with ⟨_ | f, g'⟩
    · rw [drawFaces_succ_of_none hdraw] at h
      cases h
    · rw [drawFaces_succ_of_some hdraw] at h ⊢
      rw [drawFaces_succ_of_some hdraw, ih (Nat.succ.inj h)]
      rfl

end Sources

/-! ## Words read in a circle -/

namespace WordCircle

open WordSource

variable {sides : Nat} {c : WordCircle}

/-- The words of a circle stay the same. -/
lemma items_after (n : Nat) (c : WordCircle) : (after n c).circle.items = c.circle.items := by
  induction n generalizing c with
  | zero => rfl
  | succ n ih => exact ih (next c).2

/-- A circle goes on by one place with each word. -/
lemma place_after (h : c.circle.place < c.circle.items.size) (n : Nat) :
    (after n c).circle.place = (c.circle.place + n) % c.circle.items.size := by
  induction n generalizing c with
  | zero => exact (Nat.mod_eq_of_lt h).symm
  | succ n ih =>
    have hsize : 0 < c.circle.items.size := Nat.zero_lt_of_lt h
    have hrest := ih (c := (next c).2) (Nat.mod_lt _ hsize)
    refine hrest.trans ?_
    show ((c.circle.place + 1) % c.circle.items.size + n) % c.circle.items.size = _
    rw [Nat.mod_add_mod, Nat.add_assoc, Nat.add_comm 1]

/-- A circle keeps the words that it delivered. -/
lemma drawn_after (n : Nat) (c : WordCircle) :
    (after n c).drawn = (words n c).reverse ++ c.drawn := by
  induction n generalizing c with
  | zero => rfl
  | succ n ih =>
    refine (ih (next c).2).trans ?_
    rw [words, List.reverse_cons, List.append_assoc]
    rfl

/-- The word zero is never refused. -/
lemma isSome_faceOfWord?_zero (sides : Nat) : (faceOfWord? sides 0).isSome := by
  unfold faceOfWord?
  simp

/-- Each word of a circle comes within a round. A place behind the end counts as one with the word
zero. -/
lemma exists_mem_words {w : UInt32} (hw : w ∈ c.circle.items) :
    w ∈ words c.circle.items.size c ∨ 0 ∈ words c.circle.items.size c := by
  obtain ⟨i, hi, rfl⟩ := Array.mem_iff_getElem.1 hw
  have hsize : 0 < c.circle.items.size := Nat.zero_lt_of_lt hi
  have hnext (n : Nat) : (next (after n c)).1 =
      (c.circle.items[(after n c).circle.place]?).getD 0 := by
    rw [← items_after n c]
    rfl
  rcases Nat.lt_or_ge c.circle.place c.circle.items.size with hplace | hplace
  · -- the number of words that are read before the circle arrives at the place of this one
    let n := (i + (c.circle.items.size - c.circle.place)) % c.circle.items.size
    have harrives : (after n c).circle.place = i := by
      rw [place_after hplace, Nat.add_mod_mod, Nat.add_left_comm, Nat.add_sub_cancel' hplace.le,
        Nat.add_mod_right, Nat.mod_eq_of_lt hi]
    have hword := next_after_mem_words (Nat.mod_lt _ hsize : n < c.circle.items.size) c
    rw [hnext, harrives, Array.getElem?_eq_getElem hi] at hword
    exact .inl hword
  · have hword := next_after_mem_words hsize c
    rw [hnext, Array.getElem?_eq_none (show _ ≤ (after 0 c).circle.place from hplace)] at hword
    exact .inr hword

/-- If a word of a circle is accepted, one is accepted in every round. -/
lemma acceptedFaces_round_ne_nil (h : ∃ w ∈ c.circle.items, (faceOfWord? sides w).isSome) :
    acceptedFaces sides c.circle.items.size c ≠ [] := by
  obtain ⟨w, hw, haccepted⟩ := h
  have hround : ∃ w ∈ words c.circle.items.size c, (faceOfWord? sides w).isSome := by
    rcases exists_mem_words hw with hw | hzero
    · exact ⟨w, hw, haccepted⟩
    · exact ⟨0, hzero, isSome_faceOfWord?_zero sides⟩
  obtain ⟨w, hw, haccepted⟩ := hround
  intro hnil
  rw [acceptedFaces, List.filterMap_eq_nil_iff] at hnil
  rw [hnil w hw] at haccepted
  cases haccepted

/-- If a word of a circle is accepted, any number of faces is dealt. -/
theorem deals_roll (h : ∃ w ∈ c.circle.items, (faceOfWord? sides w).isSome) (count : Nat) :
    ∃ used, Deals sides count c (Roller.roll count sides c) used := by
  obtain ⟨used, -, hdeals | ⟨n, -, -, hrow⟩⟩ :=
    exists_drawFaces_eq sides c.circle.items.size count c
  · exact ⟨used, hdeals⟩
  · rw [← items_after n c] at h hrow
    exact absurd hrow (acceptedFaces_round_ne_nil h)

/-- To roll some dice and then others is to roll all of them. -/
lemma roll_add (h : ∃ w ∈ c.circle.items, (faceOfWord? sides w).isSome) (a b : Nat) :
    Roller.roll (a + b) sides c =
      ((Roller.roll a sides c).1 ++ (Roller.roll b sides (Roller.roll a sides c).2).1,
        (Roller.roll b sides (Roller.roll a sides c).2).2) := by
  obtain ⟨used, hdeals⟩ := deals_roll h a
  have hitems : (Roller.roll a sides c).2.circle.items = c.circle.items := by
    rw [hdeals.eq_accepted]
    exact items_after used c
  have hrest : Roller.roll b sides (Roller.roll a sides c).2 =
      drawFaces sides c.circle.items.size b (Roller.roll a sides c).2 := by
    rw [← hitems]
    rfl
  rw [hrest]
  exact drawFaces_add hdeals.length_eq

end WordCircle

/-- Fair dice from a source of random words, for every number of sides from one up to the greatest of 32
bits.

* A word is taken times the number of sides. It is accepted if the lower half of the product is in the
  zone, and then its face is one more than the upper half.
* The face of an accepted word is one of the die, and each face of the die comes from equally many of
  all words.
* The faces that are drawn from any source are those of the accepted words, in their order and with none
  left out, and the source goes on behind the words that were used. There are as many faces as are asked
  for, and no word is used behind the last of them, unless a face is given up, when as many words in a
  row as there are attempts are refused. This does not happen if enough of the next words are accepted
  and there are as many attempts as these words; then to draw these faces and others behind them is to
  draw all of them, as it is whenever the first faces are as many as are asked for. No faces need no
  word.
* From a circle with a word that is accepted, every number of faces is dealt in this way, and all words
  that were used are kept.

**Proof sketch.** The rule for a word is the one that gives a face in question
(`faceOfWord?_eq_some_iff`), and the words of a face follow one another, as many for each face
(`ncard_words_of_face`). A source is followed word by word: either the faces are those of the
accepted words up to the last that is needed, or some face is given up. On a circle an accepted word
comes around within the attempts there are. -/
theorem roller_deals_fair_dice {sides : Nat} (hpos : 0 < sides) (hlt : sides < 2 ^ 32) :
    (∀ w f : UInt32, faceOfWord? sides w = some f ↔
      w.toNat * sides % 2 ^ 32 ≤ 2 ^ 32 - 1 - (2 ^ 32 - sides) % sides ∧
        f.toNat = 1 + w.toNat * sides / 2 ^ 32) ∧
    (∀ w f : UInt32, faceOfWord? sides w = some f → 1 ≤ f.toNat ∧ f.toNat ≤ sides) ∧
    (∀ f : UInt32, 1 ≤ f.toNat → f.toNat ≤ sides →
      {w : UInt32 | faceOfWord? sides w = some f}.ncard = 2 ^ 32 / sides) ∧
    (∀ (γ : Type) [WordSource γ] (g : γ) (attempts count : Nat),
      let dealt := drawFaces sides attempts count g
      (∃ used, dealt = (acceptedFaces sides used g, WordSource.after used g) ∧
        (Deals sides count g dealt used ∨ ∃ n, used = n + attempts ∧
          (acceptedFaces sides used g).length < count ∧
          acceptedFaces sides attempts (WordSource.after n g) = [])) ∧
      (∀ n ≤ attempts, count ≤ (acceptedFaces sides n g).length →
        (∃ used ≤ n, Deals sides count g dealt used) ∧
        ∀ more, drawFaces sides attempts (count + more) g =
          (dealt.1 ++ (drawFaces sides attempts more dealt.2).1,
            (drawFaces sides attempts more dealt.2).2)) ∧
      (∀ more, dealt.1.length = count → drawFaces sides attempts (count + more) g =
        (dealt.1 ++ (drawFaces sides attempts more dealt.2).1,
          (drawFaces sides attempts more dealt.2).2)) ∧
      drawFaces sides attempts 0 g = ([], g)) ∧
    ∀ c : WordCircle, (∃ w ∈ c.circle.items, (faceOfWord? sides w).isSome) → ∀ count : Nat,
      let dealt := Roller.roll count sides c
      (∃ used, Deals sides count c dealt used ∧
        dealt.2.drawn = (WordSource.words used c).reverse ++ c.drawn) ∧
      (∀ more, Roller.roll (count + more) sides c =
        (dealt.1 ++ (Roller.roll more sides dealt.2).1, (Roller.roll more sides dealt.2).2)) ∧
      Roller.roll 0 sides c = ([], c) := by
  refine ⟨fun w f => faceOfWord?_eq_some_iff hlt, fun w f => face_bounds_of_faceOfWord? hpos hlt,
    fun f => ncard_words_of_face hpos hlt, fun γ _ g attempts count => ?_,
    fun c hc count => ⟨?_, WordCircle.roll_add hc count, rfl⟩⟩
  · refine ⟨exists_drawFaces_eq sides attempts count g, fun n hn henough => ?_,
      fun more hlength => drawFaces_add hlength, rfl⟩
    obtain ⟨used, hused, hdeals⟩ := exists_deals henough hn
    exact ⟨⟨used, hused, hdeals⟩, fun more => drawFaces_add hdeals.length_eq⟩
  · obtain ⟨used, hdeals⟩ := WordCircle.deals_roll hc count
    refine ⟨used, hdeals, ?_⟩
    rw [hdeals.eq_accepted]
    exact WordCircle.drawn_after used c

/-- A die with three sides refuses a single word. Read first, it is left out. -/
theorem roller_deals_fair_dice_with_three_sides :
    let c : WordCircle := ⟨⟨#[1431655765, 4294967295, 0], 0⟩, []⟩
    {w : UInt32 | faceOfWord? 3 w = some 2}.ncard = 1431655765 ∧
    (∃ used, Deals 3 2 c (Roller.roll 2 3 c) used) ∧
    (Roller.roll 2 3 c).1 = [3, 1] ∧ (Roller.roll 2 3 c).2.drawn = [0, 4294967295, 1431655765] := by
  intro c
  obtain ⟨-, -, hcard, -, hcircle⟩ := roller_deals_fair_dice (show 0 < 3 by decide) (by decide)
  have hzero : ∃ w ∈ c.circle.items, (faceOfWord? 3 w).isSome :=
    ⟨0, by simp [c], by decide⟩
  obtain ⟨⟨used, hdeals, -⟩, -⟩ := hcircle c hzero 2
  exact ⟨hcard 2 (by decide) (by decide), ⟨used, hdeals⟩, by decide +kernel, by decide +kernel⟩

end DiceCalculus
