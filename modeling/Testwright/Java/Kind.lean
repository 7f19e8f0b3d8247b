/-!
# Kinds of syntax nodes

The kinds of nodes of a Java syntax tree and the roles (`Field`) that children play in them. A
node of kind `Kind.token` stands for a keyword or punctuation; all others are *named*.
-/

namespace Testwright.Java

/-- What a syntax node stands for. -/
inductive Kind where
  /-- A keyword, an operator or punctuation. -/
  | token (text : String)
  | program | lineComment | blockComment
  -- names
  | identifier | typeIdentifier | scopedIdentifier | scopedTypeIdentifier | underscorePattern
  | asterisk
  -- literals
  | decimalInteger | hexInteger | octalInteger | binaryInteger | decimalFloat | hexFloat
  | trueLiteral | falseLiteral | characterLiteral | stringLiteral | nullLiteral
  -- expressions
  | castExpression | assignmentExpression | binaryExpression | instanceofExpression
  | lambdaExpression | inferredParameters | ternaryExpression | unaryExpression
  | updateExpression | switchExpression | parenthesizedExpression | classLiteral
  | objectCreationExpression | fieldAccess | arrayAccess | methodInvocation | methodReference
  | arrayCreationExpression | dimensionsExpr | argumentList | arrayInitializer
  | templateExpression | this | super
  -- patterns and switch bodies
  | switchBlock | switchBlockStatementGroup | switchRule | switchLabel | pattern | typePattern
  | recordPattern | recordPatternBody | recordPatternComponent | guard
  -- types
  | voidType | integralType | floatingType | booleanType | genericType | arrayType
  | annotatedType | typeArguments | wildcard | dimensions | typeParameters | typeParameter
  | typeBound | typeList
  -- statements
  | expressionStatement | labeledStatement | assertStatement | doStatement | breakStatement
  | continueStatement | returnStatement | yieldStatement | synchronizedStatement
  | throwStatement | tryStatement | catchClause | catchFormalParameter | catchType
  | finallyClause | tryWithResourcesStatement | resourceSpecification | resource | ifStatement
  | whileStatement | forStatement | enhancedForStatement | block | localVariableDeclaration
  | variableDeclarator
  -- annotations and modifiers
  | modifiers | annotationMark | annotationCall | annotationArgumentList | elementValuePair
  | elementValueArrayInitializer
  -- declarations
  | packageDeclaration | importDeclaration | moduleDeclaration | moduleBody | moduleDirective
  | classDeclaration | interfaceDeclaration | enumDeclaration | recordDeclaration
  | annotationTypeDeclaration | superclass | superInterfaces | extendsInterfaces | permits
  | classBody | interfaceBody | enumBody | enumConstant | enumBodyDeclarations
  | annotationTypeBody | annotationTypeElementDeclaration | fieldDeclaration
  | constantDeclaration | methodDeclaration | constructorDeclaration | constructorBody
  | compactConstructorDeclaration | explicitConstructorInvocation | staticInitializer
  | formalParameters | formalParameter | spreadParameter | receiverParameter | throws
  deriving DecidableEq, Repr, Inhabited

/-- Whether a node is named: anything but a keyword or punctuation. -/
def Kind.named : Kind → Bool
  | .token _ => false
  | _ => true

/-- The part a child plays in its parent. -/
inductive Field where
  | name | type | body | parameters | dimensions | declarator | value | operator | object | field
  | arguments | left | right | condition | consequence | alternative
  deriving DecidableEq, Repr, Inhabited

end Testwright.Java
