import MarkupBinding.Tree.Basic

/-!
# Trees as markup

Names, data and attribute values are written exactly as they are held: nothing is escaped, for all
that is in a tree is taken to be safe markup already. Attribute values stand between double marks.
-/

namespace MarkupBinding

/-- A start tag up to its closing bracket, which is not included. -/
def startTagMarkup (name : Text) (attrs : Attributes) : Text :=
  '<' :: name ++ attrs.flatMap fun (key, value) => ' ' :: key ++ ['=', '"'] ++ value ++ ['"']

/-- An end tag. -/
def endTagMarkup (name : Text) : Text := ['<', '/'] ++ name ++ ['>']

/-- Character data of each kind. -/
def DataKind.markup : DataKind → Text → Text
  | .text, content => content
  | .comment, content => "<!--".toList ++ content ++ "-->".toList
  | .cdata, content | .directive, content => '<' :: content ++ ['>']

/-- How the start tag of an empty element is closed, and the end tag that follows it if any. The
elements without end tags are known by the exact spelling of their names. -/
def emptyClosing (xhtml : Bool) (name : Text) : Text :=
  if Element.unclosedNames.contains name then
    if xhtml then " />".toList else ['>']
  else '>' :: endTagMarkup name

namespace Tree

mutual

/-- A tree as markup. In the XHTML form the void elements are closed with a slash. -/
def markup (xhtml : Bool) : Tree → Text
  | .data kind content => kind.markup content
  | .element name attrs [] => startTagMarkup name attrs ++ emptyClosing xhtml name
  | .element name attrs (child :: children) =>
    startTagMarkup name attrs ++ '>' :: markup xhtml child ++ markupAll xhtml children ++
      endTagMarkup name

/-- The markup of trees one after another. -/
def markupAll (xhtml : Bool) : List Tree → Text
  | [] => []
  | tree :: trees => markup xhtml tree ++ markupAll xhtml trees

end

end Tree
end MarkupBinding
