import MarkupEditor.Text.Decimal
import MarkupEditor.Markup.Node

namespace MarkupEditor

structure PreviewTag where
  path : String
  index : Nat
  deriving DecidableEq, Repr

namespace PreviewTag

def defaultAttribute : String := "data-reshaper-loc"

def format (t : PreviewTag) : String := t.path ++ ":" ++ Text.decimal t.index

def splitLast (cs : List Char) : Option (List Char × List Char) :=
  match cs.reverse.dropWhile (· ≠ ':') with
  | _ :: before => some (before.reverse, (cs.reverse.takeWhile (· ≠ ':')).reverse)
  | [] => none

-- A path may hold colons, so the last one divides it from the number.
def parse? (tag : String) : Option PreviewTag := do
  let (path, index) ← splitLast tag.toList
  let index ← Text.natUpTo? Text.largest64 index
  return ⟨String.ofList path, index⟩

end PreviewTag

namespace Annotate

variable (path mark : String)

mutual

-- Every element takes a number, whether or not it receives a tag.
def node (count : Nat) : Node → Node × Nat
  | .element loc name attrs kids selfClosing =>
    let (attrs', next) := attributes (count + 1) attrs
    let tagged := if (Attribute.find? attrs mark).isNone then
        attrs' ++ [.ofText mark (PreviewTag.format ⟨path, count⟩)]
      else attrs'
    let (kids', next) := nodes next kids
    (.element loc name tagged kids' selfClosing, next)
  | .fragment loc kids => let (kids', next) := nodes count kids; (.fragment loc kids', next)
  | .text loc value => (.text loc value, count)
  | .wrapper loc spread expression => let (ps, next) := parts count expression; (.wrapper loc spread ps, next)
  | .other loc ps => let (ps', next) := parts count ps; (.other loc ps', next)

def nodes (count : Nat) : List Node → List Node × Nat
  | [] => ([], count)
  | n :: ns =>
    let (n', next) := node count n
    let (ns', next) := nodes next ns
    (n' :: ns', next)

def part (count : Nat) : Part → Part × Nat
  | .code text => (.code text, count)
  | .node n => let (n', next) := node count n; (.node n', next)

def parts (count : Nat) : List Part → List Part × Nat
  | [] => ([], count)
  | p :: ps =>
    let (p', next) := part count p
    let (ps', next) := parts next ps
    (p' :: ps', next)

def attr (count : Nat) : Attribute → Attribute × Nat
  | .flag name => (.flag name, count)
  | .string name value quote => (.string name value quote, count)
  | .expression name ps => let (ps', next) := parts count ps; (.expression name ps', next)
  | .spread ps => let (ps', next) := parts count ps; (.spread ps', next)

def attributes (count : Nat) : List Attribute → List Attribute × Nat
  | [] => ([], count)
  | a :: rest =>
    let (a', next) := attr count a
    let (rest', next) := attributes next rest
    (a' :: rest', next)

end

end Annotate

def SourceTree.annotate (t : SourceTree) (path mark : String) : SourceTree :=
  ⟨(Annotate.parts path mark 0 t.body).1⟩

end MarkupEditor
