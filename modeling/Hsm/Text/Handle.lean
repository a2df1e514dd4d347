import Hsm.Element
import Hsm.Kind

/-!
# The texts of handles, elements and kinds
-/

namespace Hsm

def RegionId.text (r : RegionId) : String :=
  "RegionId(" ++ toString r.index ++ ")"

def VertexId.text (v : VertexId) : String :=
  "VertexId(" ++ toString v.index ++ ")"

def TransitionId.text (t : TransitionId) : String :=
  "TransitionId(" ++ toString t.index ++ ")"

def Element.text : Element → String
  | .region r => "Region(" ++ r.text ++ ")"
  | .vertex v => "Vertex(" ++ v.text ++ ")"

def PseudoKind.text : PseudoKind → String
  | choice => "Choice"
  | deepHistory => "DeepHistory"
  | initial => "Initial"
  | junction => "Junction"
  | shallowHistory => "ShallowHistory"
  | terminate => "Terminate"

def TransitionKind.text : TransitionKind → String
  | external => "External"
  | internal => "Internal"
  | within => "Local"

def VertexKind.text : VertexKind → String
  | pseudo k => "Pseudo(" ++ k.text ++ ")"
  | state => "State"
  | finalState => "FinalState"
  | machine => "Machine"

/-- The text of an optional vertex. -/
def VertexId.optionText : Option VertexId → String
  | some v => "Some(" ++ v.text ++ ")"
  | none => "None"

end Hsm
