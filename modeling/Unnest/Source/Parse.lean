import Unnest.Sheet.Edit
import Unnest.Source.Outline

/-!
# From text to sheet

The pieces of a text become nodes in the order in which they stand: a piece
with content is the next free slot, under the innermost open block.
-/

namespace Unnest

open Source

namespace Sheet

/-- Adds the nodes of `pieces` inside the open nodes `enclosing`, of which the
first is the innermost. Without any, nodes go under the root. -/
def build (s : Sheet) (enclosing : List NodeId) : List Piece → Sheet
  | [] => s
  | .opening content :: pieces =>
      (s.grow (enclosing.headD rootId) content).build (s.size :: enclosing) pieces
  | .leaf content :: pieces =>
      (s.grow (enclosing.headD rootId) content).build enclosing pieces
  | .closing :: pieces => s.build enclosing.tail pieces

def ofPieces (pieces : List Piece) : Sheet :=
  empty.build [] pieces

end Sheet

def parse (source : String) : Except SyntaxError Sheet :=
  match outline source.toList with
  | .error fault => .error (.ofFault source.toList fault)
  | .ok pieces => .ok (.ofPieces pieces)

end Unnest
