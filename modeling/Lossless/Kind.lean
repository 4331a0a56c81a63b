/-!
# Kinds of syntax

Every terminal and every non-terminal of the tree carries a `Kind`. The kinds are listed in one
fixed order, which numbers them, and each has the name under which it is printed.
-/

namespace Lossless

/-- What a node of the tree is. The terminals come first: punctuation, operators, literals, comment
marks, blanks and the end of input; then the non-terminals and the tags that words of the grammar
are given. -/
inductive Kind where
  | atSign | dot | colon | semicolon | comma | pipe | star | hash | slash | bang | leftParen
  | rightParen | leftBrace | rightBrace | leftBracket | rightBracket
  | minus | plus | plusEquals | minusEquals | equals | equalsEquals | fatArrow | greaterEquals
  | lessEquals | greater | less
  | stringLit | numberLit | ident
  | doubleSlash | blockCommentStart | blockCommentEnd
  | whitespace | tab | newline | carriageReturn
  | endOfInput
  | compilationUnit | usingDirective | qualifiedName | namespaceDecl | namespaceStatement
  | classDecl | classStatement | classInheritance | classBlock
  | accessor | abstractMod | sealedMod | staticMod | overrideMod | readonlyMod | virtualMod
  | constMod | externMod | outMod | refMod
  | attributeSection | attributeArgs
  | field | property | method | ctor | memberName
  | parameter | parameterDefault
  | typeRef | tupleType | genericArgs | arrayType
  | fieldInitializer | propertyBody | methodBody | ctorInitializer
  | comment | commentText | blockComment
deriving DecidableEq, Repr, Inhabited

namespace Kind

/-- The printed name of a kind. -/
def name : Kind → String
  | .atSign => "AT"
  | .dot => "DOT"
  | .colon => "COLON"
  | .semicolon => "SEMICOLON"
  | .comma => "COMMA"
  | .pipe => "PIPE"
  | .star => "STAR"
  | .hash => "HASH"
  | .slash => "SLASH"
  | .bang => "BANG"
  | .leftParen => "LEFT_PAREN"
  | .rightParen => "RIGHT_PAREN"
  | .leftBrace => "LEFT_BRACE"
  | .rightBrace => "RIGHT_BRACE"
  | .leftBracket => "LEFT_BRACKET"
  | .rightBracket => "RIGHT_BRACKET"
  | .minus => "MINUS"
  | .plus => "PLUS"
  | .plusEquals => "PLUS_EQ"
  | .minusEquals => "MINUS_EQ"
  | .equals => "EQ"
  | .equalsEquals => "EQ_EQ"
  | .fatArrow => "FAT_ARROW"
  | .greaterEquals => "GT_EQ"
  | .lessEquals => "LT_EQ"
  | .greater => "GT"
  | .less => "LT"
  | .stringLit => "STRING"
  | .numberLit => "NUMBER"
  | .ident => "IDENT"
  | .doubleSlash => "DOUBLE_SLASH"
  | .blockCommentStart => "BLOCK_COMMENT_START"
  | .blockCommentEnd => "BLOCK_COMMENT_END"
  | .whitespace => "WHITESPACE"
  | .tab => "TAB"
  | .newline => "NEWLINE"
  | .carriageReturn => "CARRIAGE_RETURN"
  | .endOfInput => "EOF"
  | .compilationUnit => "COMPILATION_UNIT"
  | .usingDirective => "USING"
  | .qualifiedName => "QUALIFIED_NAME"
  | .namespaceDecl => "NAMESPACE"
  | .namespaceStatement => "NAMESPACE_STATEMENT"
  | .classDecl => "CLASS"
  | .classStatement => "CLASS_STATEMENT"
  | .classInheritance => "CLASS_INHERITANCE"
  | .classBlock => "CLASS_BLOCK"
  | .accessor => "ACCESSOR"
  | .abstractMod => "ABSTRACT"
  | .sealedMod => "SEALED"
  | .staticMod => "STATIC"
  | .overrideMod => "OVERRIDE"
  | .readonlyMod => "READONLY"
  | .virtualMod => "VIRTUAL"
  | .constMod => "CONST"
  | .externMod => "EXTERN"
  | .outMod => "OUT"
  | .refMod => "REF"
  | .attributeSection => "ATTRIBUTE"
  | .attributeArgs => "ATTRIBUTE_ARGS"
  | .field => "FIELD"
  | .property => "PROPERTY"
  | .method => "METHOD"
  | .ctor => "CTOR"
  | .memberName => "MEMBER_NAME"
  | .parameter => "PARAM"
  | .parameterDefault => "PARAM_DEFAULT"
  | .typeRef => "TYPE"
  | .tupleType => "TUPLE_TYPE"
  | .genericArgs => "GENERIC_ARGS"
  | .arrayType => "ARRAY_TYPE"
  | .fieldInitializer => "FIELD_INITIALIZER"
  | .propertyBody => "PROPERTY_BODY"
  | .methodBody => "METHOD_BODY"
  | .ctorInitializer => "CTOR_INITIALIZER"
  | .comment => "COMMENT"
  | .commentText => "COMMENT_TEXT"
  | .blockComment => "BLOCK_COMMENT"

/-- All kinds, in their order. -/
def all : List Kind :=
  [.atSign, .dot, .colon, .semicolon, .comma, .pipe, .star, .hash, .slash, .bang, .leftParen,
   .rightParen, .leftBrace, .rightBrace, .leftBracket, .rightBracket, .minus, .plus, .plusEquals,
   .minusEquals, .equals, .equalsEquals, .fatArrow, .greaterEquals, .lessEquals, .greater, .less,
   .stringLit, .numberLit, .ident, .doubleSlash, .blockCommentStart, .blockCommentEnd,
   .whitespace, .tab, .newline, .carriageReturn, .endOfInput, .compilationUnit, .usingDirective,
   .qualifiedName, .namespaceDecl, .namespaceStatement, .classDecl, .classStatement,
   .classInheritance, .classBlock, .accessor, .abstractMod, .sealedMod, .staticMod, .overrideMod,
   .readonlyMod, .virtualMod, .constMod, .externMod, .outMod, .refMod, .attributeSection,
   .attributeArgs, .field, .property, .method, .ctor, .memberName, .parameter, .parameterDefault,
   .typeRef, .tupleType, .genericArgs, .arrayType, .fieldInitializer, .propertyBody, .methodBody,
   .ctorInitializer, .comment, .commentText, .blockComment]

/-- The place of a kind in the order, counted from zero. -/
def number (k : Kind) : Nat := k.ctorIdx

/-- The kind with a given printed name. -/
def ofName? (s : String) : Option Kind := all.find? fun k => k.name == s

/-- Kinds are ordered by their numbers. -/
instance : Ord Kind := ⟨fun a b => compare a.number b.number⟩

theorem number_lt (k : Kind) : k.number < 78 := by
  cases k <;> decide

/-- No kind is missing in the list of all kinds. -/
theorem mem_all (k : Kind) : k ∈ all := by
  cases k <;> decide

/-- A kind stands in the list of all kinds at its own number. -/
theorem all_getElem?_number (k : Kind) : all[k.number]? = some k := by
  cases k <;> rfl

/-- Kinds with the same number are the same, since the list of kinds gives the kind back. -/
theorem number_injective {a b : Kind} (h : a.number = b.number) : a = b := by
  have hb := all_getElem?_number b
  rw [← h, all_getElem?_number a] at hb
  exact Option.some.inj hb

end Kind

end Lossless
