/-!
# Coefficient planes

The transform coefficients of a picture fall into four planes, by how
the picture is coded and by which component they belong to. Each plane
has contexts of its own.
-/

namespace AvsEntropy

/-- How a picture is coded. -/
inductive PictureCoding where
  /-- As one frame. -/
  | frame
  /-- As two fields. -/
  | field
  deriving DecidableEq, Repr

/-- A component of a picture. -/
inductive Component where
  /-- Brightness. -/
  | luma
  /-- Colour. -/
  | chroma
  deriving DecidableEq, Repr

/-- A class of transform coefficients. -/
structure Plane where
  /-- How the picture is coded. -/
  coding : PictureCoding
  /-- The component the coefficients belong to. -/
  component : Component
  deriving DecidableEq, Repr

namespace Plane

/-- The plane of a picture, field coded or not, chroma or not. -/
def ofPicture (field chroma : Bool) : Plane :=
  ⟨if field then .field else .frame, if chroma then .chroma else .luma⟩

/-- The place of a plane among the four. -/
def index : Plane → Nat
  | ⟨.frame, .luma⟩ => 0
  | ⟨.frame, .chroma⟩ => 1
  | ⟨.field, .luma⟩ => 2
  | ⟨.field, .chroma⟩ => 3

/-- The name of a plane. -/
def name : Plane → String
  | ⟨.frame, .luma⟩ => "FrameLuma"
  | ⟨.frame, .chroma⟩ => "FrameChroma"
  | ⟨.field, .luma⟩ => "FieldLuma"
  | ⟨.field, .chroma⟩ => "FieldChroma"

/-- The four planes in the order of their contexts. -/
def all : List Plane :=
  [⟨.frame, .luma⟩, ⟨.frame, .chroma⟩, ⟨.field, .luma⟩, ⟨.field, .chroma⟩]

end Plane

end AvsEntropy
