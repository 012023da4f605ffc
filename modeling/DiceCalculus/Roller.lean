import DiceCalculus.Sampler

set_option autoImplicit false
set_option relaxedAutoImplicit false

/-!
# Sources of faces

Three rollers: faces that advance by a fixed step, faces from a list that is read in a circle, and
fair faces drawn from a source of random words.

## Main definitions

* `Stepper` — faces that advance by a fixed step.
* `Circle` — a list that is read in a circle.
* `WordSource` — a source of random words of 32 bits.
* `drawFace`, `drawFaces` — fair faces from a source of words.
* `Source` — the rollers that a session can be given.

## Implementation notes

A word `w` is turned into a face by the product `w * sides`, whose upper half is the face less
one. Below a multiple of the number of sides all faces get equally many words, so a word whose
lower half lies above the last such multiple is refused and the next one drawn. More than half of
all words are accepted for any number of sides; but nothing forces a source to deliver one, so
the number of attempts is bounded.
-/

namespace DiceCalculus

/-! ## Faces by steps -/

/-- Faces that advance by a fixed step, each taken round to the number of sides. -/
structure Stepper where
  /-- The next face, before it is taken round. -/
  next : UInt32
  /-- What is added from one face to the following. -/
  step : UInt32

namespace Stepper

/-- The next faces. -/
def deal (sides : Nat) : (count : Nat) → Stepper → List UInt32 × Stepper
  | 0, s => ([], s)
  | count + 1, s =>
    let face := (s.next - 1) % .ofNat sides + 1
    let (faces, s') := deal sides count { s with next := s.next + s.step }
    (face :: faces, s')

instance : Roller Stepper where
  roll count sides s := s.deal sides count

end Stepper

/-! ## Lists read in a circle -/

/-- A list that is read in a circle. -/
structure Circle where
  /-- The items of one round. -/
  items : Array UInt32
  /-- The place of the next item. -/
  place : Nat

namespace Circle

/-- The next item. A circle without items delivers zeros. -/
def take (c : Circle) : UInt32 × Circle :=
  (c.items[c.place]?.getD 0, { c with place := (c.place + 1) % c.items.size })

/-- The next items. -/
def deal : (count : Nat) → Circle → List UInt32 × Circle
  | 0, c => ([], c)
  | count + 1, c =>
    let (face, c') := c.take
    let (faces, c'') := deal count c'
    (face :: faces, c'')

end Circle

/-! ## Fair faces from random words -/

/-- A source of random words of 32 bits. -/
class WordSource (γ : Type) where
  /-- The next word. -/
  next : γ → UInt32 × γ

/-- The greatest lower half of a product that is accepted: below it, every face has equally many
words. -/
def acceptanceZone (sides : Nat) : Nat := UInt32.size - 1 - (UInt32.size - sides) % sides

/-- The face of a word, if the word is accepted. -/
def faceOfWord? (sides : Nat) (w : UInt32) : Option UInt32 :=
  let product := w.toNat * sides
  if product % UInt32.size ≤ acceptanceZone sides then
    some (.ofNat (1 + product / UInt32.size))
  else none

section Draw

variable {γ : Type} [WordSource γ]

/-- Draws words until one is accepted, and gives up after a number of attempts. -/
def drawFace (sides : Nat) : (attempts : Nat) → γ → Option UInt32 × γ
  | 0, g => (none, g)
  | attempts + 1, g =>
    let (w, g') := WordSource.next g
    match faceOfWord? sides w with
    | some face => (some face, g')
    | none => drawFace sides attempts g'

/-- Draws faces one after the other, as long as the source delivers accepted words. -/
def drawFaces (sides attempts : Nat) : (count : Nat) → γ → List UInt32 × γ
  | 0, g => ([], g)
  | count + 1, g =>
    match drawFace sides attempts g with
    | (none, g') => ([], g')
    | (some face, g') =>
      let (faces, g'') := drawFaces sides attempts count g'
      (face :: faces, g'')

end Draw

/-- A circle of words that keeps the words it delivered, the last one first. -/
structure WordCircle where
  /-- The words. -/
  circle : Circle
  /-- The words that were drawn. -/
  drawn : List UInt32

namespace WordCircle

instance : WordSource WordCircle where
  next c :=
    let (w, circle) := c.circle.take
    (w, ⟨circle, w :: c.drawn⟩)

/-- Fair faces. If a whole round of words is refused, so is every later one. -/
instance : Roller WordCircle where
  roll count sides c := drawFaces sides c.circle.items.size count c

end WordCircle

/-! ## The rollers of a session -/

/-- A roller that a session can be given. -/
inductive Source where
  /-- Faces that advance by a fixed step. -/
  | steps (s : Stepper)
  /-- Faces from a list, whatever the number of sides. -/
  | faces (c : Circle)
  /-- Fair faces from a list of words. -/
  | words (c : WordCircle)

instance : Roller Source where
  roll count sides
    | .steps s => let (faces, s') := Roller.roll count sides s; (faces, .steps s')
    | .faces c => let (faces, c') := c.deal count; (faces, .faces c')
    | .words c => let (faces, c') := Roller.roll count sides c; (faces, .words c')

end DiceCalculus
