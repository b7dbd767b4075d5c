namespace MarkupEditor

structure Rect where
  x : Float
  y : Float
  width : Float
  height : Float

def Rect.contains (r : Rect) (x y : Float) : Bool :=
  r.x ≤ x && x < r.x + r.width && r.y ≤ y && y < r.y + r.height

end MarkupEditor
