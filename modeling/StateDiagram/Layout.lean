/-! Layout hints for the whole drawing, and how the flags of a user choose them. -/
namespace StateDiagram

def defaultRankSeparation : String := "1.0 equally"

structure Layout where
  leftToRight : Bool
  /-- Left out of the document if there is none. -/
  rankSeparation : Option String
  deriving DecidableEq, Repr

namespace Layout

def standard : Layout := ⟨true, some defaultRankSeparation⟩

/-- Only what every drawing has. -/
def plain : Layout := ⟨false, none⟩

/-- The attributes of the document, in the order in which they are written. -/
def attributes (l : Layout) : List (String × String) :=
  (if l.leftToRight then [("rankdir", "LR")] else []) ++
    (l.rankSeparation.map fun s => ("ranksep", s)).toList ++
    [("overlap", "false"), ("splines", "true"), ("concentrate", "true")]

end Layout

structure LayoutFlags where
  topToBottom : Bool
  rankSeparation : Option String
  /-- Leave the rank separation out, whatever else is asked for. -/
  noRankSeparation : Bool
  deriving DecidableEq, Repr

namespace LayoutFlags

def none : LayoutFlags := ⟨false, Option.none, false⟩

def layout (f : LayoutFlags) : Layout where
  leftToRight := !f.topToBottom
  rankSeparation :=
    if f.noRankSeparation then Option.none
    else some (f.rankSeparation.getD defaultRankSeparation)

@[simp] theorem layout_none : LayoutFlags.none.layout = Layout.standard := rfl

end LayoutFlags
end StateDiagram
