import Lossless.Text.Hex
import Lossless.View

/-!
# Comments and attributes

What annotates a declaration: a line comment, which may give an offset in hexadecimal, and an
attribute with its arguments.
-/

namespace Lossless

/-- A line comment. -/
abbrev CommentView := View .comment

abbrev AttributeView := View .attributeSection

namespace CommentView

/-- The text behind the slashes, without its line break. -/
def text (c : CommentView) : String :=
  ((c.node.firstOfKind? .commentText).bind Node.text?).getD ""

/-- The offset that the comment annotates something with. -/
def offset? (c : CommentView) : Option Nat := Text.hexOffset? c.text.toList

end CommentView

namespace AttributeView

def name? (a : AttributeView) : Option String := a.node.name?

/-- What stands between the parentheses, commas excluded. -/
def arguments (a : AttributeView) : List Node :=
  match a.node.firstOfKind? .attributeArgs with
  | some args => args.children.filter fun n =>
      n.kind != .leftParen && n.kind != .rightParen && n.kind != .comma
  | none => []

end AttributeView

end Lossless
