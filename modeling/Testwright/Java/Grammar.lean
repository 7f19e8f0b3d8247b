import Testwright.Java.Rule

/-!
# The grammar of Java

`grammar` gives every variable its rule. A text is a sequence of statements and method
declarations; the rules ask for form only, so a method of a class may lack a body and any
modifiers may stand together.

A keyword is an ordinary name wherever it cannot be a keyword, so each place that takes a name
lists the words it refuses.

The strength of the operators, from weak to strong, is: assignment and lambda, `? :` (3), `||` (4),
`&&` (5), `|` (6), `^` (7), `&` (8), equality (9), comparison and `instanceof` (10), shifts (11),
sums (12), products (13), casts (14), prefix and postfix operators (15).
-/

namespace Testwright.Java

open Rule

/-- The variables of the grammar. -/
inductive Variable where
  | program | statement | block | parenthesized | localVariable | declarators | declaratorId
  | variableDeclarator | initializer | arrayInitializer
  /-- An expression whose operators are at least as strong as `min`; the one of a switch label
  contains no lambda outside parentheses. -/
  | expression (label : Bool) (min : Nat)
  | operand (label : Bool)
  | primary | lambda | creation | arguments
  | switchExpression | switchBlock | switchLabel | recordPattern | recordPatternBody
  | type | unannotatedType | simpleType | classType | typeArguments | dimensions
  | decoration | elementValue | modifiers | qualifiedName
  | typeParameters | typeList | formalParameters | formalParameter | throws
  | declaration | classDeclaration | interfaceDeclaration | enumDeclaration | recordDeclaration
  | annotationTypeDeclaration | classBody | classMember | methodDeclaration | constructorBody
  deriving DecidableEq, Repr

namespace Grammar

/-- The rules of the grammar. -/
abbrev R := Rule Variable

def primitiveWords : List String :=
  ["byte", "short", "int", "long", "char", "float", "double", "boolean", "void"]

/-- The words that begin an expression of their own, those of types apart. -/
def termWords : List String := ["this", "super", "new", "true", "false", "null", "switch"]

/-- The words that cannot be a name in an expression. -/
def expressionWords : List String := termWords ++ primitiveWords

def modifierWords : List String :=
  ["public", "protected", "private", "abstract", "static", "final", "strictfp", "default",
    "synchronized", "native", "transient", "volatile"]

/-- The words that begin a statement of their own, modifiers apart. -/
def leadingWords : List String :=
  ["assert", "break", "case", "class", "continue", "do", "enum", "for", "if", "import",
    "interface", "package", "return", "switch", "throw", "try", "while"]

/-- The words that begin a statement of their own. -/
def statementWords : List String := leadingWords ++ modifierWords

/-- The words that are keywords in some places and names in others. -/
def contextualWords : List String := ["open", "module", "record", "with", "sealed", "yield"]

/-- The words that begin a member of a class, those of types apart. -/
def memberWords : List String :=
  modifierWords ++ ["class", "enum", "interface", "record", "sealed"]

def exprName : R := .name .identifier expressionWords

/-- A name after a point. -/
def memberName : R := .name .identifier ["this", "super", "new", "class"]

/-- A name where only a name can stand. -/
def anyName : R := .name .identifier []

def expr : R := .var (.expression false 0)

/-- A rule that begins with a type, at a place where some words are keywords; words of primitive
types never name another type. -/
def typed (keywords : List String) (r : R) : R :=
  .seq (.alt (.ahead (tok "@")) (.ahead (.name .identifier keywords))) r

/-- A rule that begins with a type, at a place where an expression may stand. -/
def typedTerm (r : R) : R := typed (termWords ++ contextualWords ++ modifierWords) r

/-- The type of a member, behind its modifiers. -/
def memberType : R := .field .type (typed memberWords (.var .unannotatedType))

/-! ## Expressions -/

/-- The binary operators with their pieces and strengths; an operator precedes those that begin
it. -/
def binaryOperators : List (List String × Nat) :=
  [(["||"], 4), (["&&"], 5), (["|"], 6), (["^"], 7), (["&"], 8), (["=="], 9), (["!="], 9),
    (["<="], 10), (["<<"], 11), (["<"], 10), ([">", ">", ">"], 11), ([">", ">"], 11),
    ([">", "="], 10), ([">"], 10), (["+"], 12), (["-"], 12), (["*"], 13), (["/"], 13), (["%"], 13)]

def assignmentOperators : List (List String) :=
  [["="], ["+="], ["-="], ["*="], ["/="], ["&="], ["|="], ["^="], ["%="], ["<<="],
    [">", ">", ">", "="], [">", ">", "="]]

/-- The steps from an operand to an expression whose operators are at least as strong as `min`.
Binary operators group to the left, the conditional operator to the right. -/
def operatorSteps (label : Bool) (min : Nat) : List (Step Variable) :=
  (if min ≤ 15 then
    [.mk [] .updateExpression none (tok "++"), .mk [] .updateExpression none (tok "--")]
  else []) ++
  (if min ≤ 10 then
    [.mk [] .instanceofExpression (some .left) <| all
      [tok "instanceof", opt (tok "final"),
        any [.field .field (.var .recordPattern),
          .seq (.field .right (.var .type))
            (opt (.field .name (.name .identifier ["instanceof", "when"])))]]]
  else []) ++
  (binaryOperators.filter fun op => min ≤ op.2).map (fun op =>
    .mk [] .binaryExpression (some .left) <| .seq (.field .operator (.token op.1))
      (.field .right (.var (.expression label (op.2 + 1))))) ++
  (if min ≤ 3 then
    [.mk [] .ternaryExpression (some .condition) <| all
      [tok "?", .field .consequence expr, tok ":",
        .field .alternative (.var (.expression label 3))]]
  else [])

/-- What an operator applies to: a lambda, an operator in front, a switch, a cast or a primary
expression, the last possibly as the target of an assignment. A name in parentheses before a sign
is no cast. -/
def operand (label : Bool) : R :=
  let inner : R := .var (.expression label 16)
  let term : R := all [tok "(", exprName, tok ")", .alt (tok "+") (tok "-")]
  any <|
    (if label then [] else [.var .lambda]) ++
    [.node .unaryExpression <| .seq (.field .operator (any [tok "+", tok "-", tok "!", tok "~"]))
      inner,
    .node .updateExpression <| .seq (any [tok "++", tok "--"]) inner,
    .var .switchExpression,
    .seq (.notAhead term) <| .node .castExpression <| all
      [tok "(", .field .type (typedTerm (.var .type)), tok ")",
        .field .value (.var (.expression label 15))],
    .node .castExpression <| all
      [tok "(", typedTerm (sepBy1 (tok "&") (.field .type (.var .type))), tok ")",
        .field .value (.alt (.var .lambda) (.var .primary))],
    .fold (.var .primary)
      [.mk [.identifier, .fieldAccess, .arrayAccess] .assignmentExpression (some .left) <|
        .seq (.field .operator (any (assignmentOperators.map .token)))
          (.field .right (.var (.expression label 0)))]]

def lambda : R :=
  .node .lambdaExpression <| all
    [.field .parameters <| any
      [exprName,
        .node .inferredParameters (all [tok "(", sepBy1 (tok ",") exprName, tok ")"]),
        .var .formalParameters],
      tok "->", .field .body (.alt (.var .block) expr)]

def objectCreation : R :=
  all [tok "new", .many (.var .decoration),
    opt (.seq (.var .typeArguments) (.many (.var .decoration))),
    .field .type (.var .simpleType), .field .arguments (.var .arguments), opt (.var .classBody)]

/-- The creation of an array or an object. -/
def creation : R :=
  .alt
    (.node .arrayCreationExpression <| all
      [tok "new", .many (.var .decoration), .field .type (.var .simpleType),
        .alt
          (.seq
            (many1 (.field .dimensions (.node .dimensionsExpr <| all
              [.many (.var .decoration), tok "[", expr, tok "]"])))
            (opt (.field .dimensions (.var .dimensions))))
          (.seq (.field .dimensions (.var .dimensions))
            (.field .value (.var .arrayInitializer)))])
    (.node .objectCreationExpression objectCreation)

/-- What follows the double colon of a method reference. -/
def referenced : R := all [opt (.var .typeArguments), .alt (tok "new") anyName]

/-- An expression that binds as tightly as a name. -/
def primary : R :=
  let arguments : R := .field .arguments (.var .arguments)
  .fold
    (any
      [.literal, .leaf .trueLiteral "true", .leaf .falseLiteral "false", .leaf .nullLiteral "null",
        .node .methodReference (all [typedTerm (.var .type), tok "::", referenced]),
        .node .classLiteral (all [typedTerm (.var .unannotatedType), tok ".", tok "class"]),
        .leaf .this "this",
        .seq (.leaf .super "super") (.ahead (.alt (tok ".") (tok "::"))),
        .node .parenthesizedExpression (all [tok "(", expr, tok ")"]),
        .var .creation,
        .node .methodInvocation (.seq (.field .name exprName) arguments),
        exprName])
    [.mk [] .methodInvocation (some .object) <| all
        [tok ".", opt (.seq (.leaf .super "super") (tok ".")), opt (.var .typeArguments),
          .field .name memberName, arguments],
      .mk [] .fieldAccess (some .object) <| all
        [tok ".", opt (.seq (.leaf .super "super") (tok ".")),
          .field .field (.alt (.leaf .this "this") memberName)],
      .mk [] .objectCreationExpression none (.seq (tok ".") objectCreation),
      .mk [] .templateExpression none (.seq (tok ".") .literal),
      .mk [] .arrayAccess none (all [tok "[", expr, tok "]"]),
      .mk [] .methodReference none (.seq (tok "::") referenced)]

/-! ## Switches and patterns -/

def switchExpression : R :=
  .node .switchExpression <| all
    [tok "switch", .field .condition (.var .parenthesized), .field .body (.var .switchBlock)]

/-- The body of a switch: groups of statements or rules, each behind its label. Where labels follow
one another, each begins a group. -/
def switchBlock : R :=
  .node .switchBlock <| all
    [tok "\x7b",
      .alt
        (many1 <| .node .switchBlockStatementGroup <| all
          [.var .switchLabel, tok ":", .many (.var .statement)])
        (.many <| .node .switchRule <| all
          [.var .switchLabel, tok "->",
            any [.var .block, .node .throwStatement (all [tok "throw", expr, tok ";"]),
              .node .expressionStatement (.seq expr (tok ";"))]]),
      tok "\x7d"]

def switchLabel : R :=
  .node .switchLabel <| .alt
    (all [tok "case",
      .alt
        (.node .pattern <| typedTerm <| .alt (.var .recordPattern)
          (.node .typePattern <| .seq (.var .unannotatedType) (.name .identifier ["when"])))
        (sepBy1 (tok ",") (.var (.expression true 0))),
      opt (.node .guard (.seq (tok "when") (.var (.expression true 0))))])
    (tok "default")

/-- A pattern that takes a record apart; the type of the record has no points unless it has type
arguments. -/
def recordPattern : R :=
  .node .recordPattern <| all
    [.notAhead (all [anyName, many1 (.seq (tok ".") anyName), tok "("]), .var .classType,
      .var .recordPatternBody]

def recordPatternBody : R :=
  .node .recordPatternBody <| all
    [tok "(",
      sepBy (tok ",") <| .alt (.var .recordPattern) <| .node .recordPatternComponent <|
        .alt (.seq (.var .unannotatedType) anyName) (.leaf .underscorePattern "_"),
      tok ")"]

/-! ## Types -/

/-- A type without annotations in front. -/
def unannotatedType : R :=
  .fold (.var .simpleType)
    [.mk [.voidType, .integralType, .floatingType, .booleanType, .typeIdentifier,
      .scopedTypeIdentifier, .genericType] .arrayType none
      (.field .dimensions (.var .dimensions))]

/-- A primitive type or a class type. -/
def simpleType : R :=
  any
    [.leaf .voidType "void",
      .node .integralType (any (["byte", "short", "int", "long", "char"].map tok)),
      .node .floatingType (any (["float", "double"].map tok)),
      .leaf .booleanType "boolean", .var .classType]

/-- A class type: names with points between them, each possibly with type arguments. -/
def classType : R :=
  .fold (.name .typeIdentifier primitiveWords)
    [.mk [.typeIdentifier, .scopedTypeIdentifier] .genericType none (.var .typeArguments),
      .mk [] .scopedTypeIdentifier none <| all
        [tok ".", .many (.var .decoration),
          .name .typeIdentifier ["this", "super", "new", "class"]]]

/-- Type arguments in angle brackets. -/
def typeArguments : R :=
  .node .typeArguments <| all
    [tok "<",
      sepBy (tok ",") <| .alt (.var .type) <| .node .wildcard <| all
        [.many (.var .decoration), tok "?",
          opt (.seq (.alt (tok "extends") (.leaf .super "super")) (.var .type))],
      tok ">"]

/-- Pairs of brackets. -/
def dimensions : R :=
  .node .dimensions (many1 (all [.many (.var .decoration), tok "[", tok "]"]))

/-! ## Annotations and modifiers -/

/-- An annotation. -/
def decoration : R :=
  let value : R := .field .value (.var .elementValue)
  let pair : R := .node .elementValuePair (all [anyName, tok "=", value])
  .alt
    (.node .annotationCall <| all
      [tok "@", .field .name (.var .qualifiedName),
        .field .arguments <| .node .annotationArgumentList <| all
          [tok "(", any [sepBy1 (tok ",") pair, .var .elementValue, .empty], tok ")"]])
    (.node .annotationMark (.seq (tok "@") (.field .name (.var .qualifiedName))))

/-- The value of an annotation's element. -/
def elementValue : R :=
  any
    [.node .elementValueArrayInitializer <| all
      [tok "\x7b", sepBy (tok ",") (.var .elementValue), opt (tok ","), tok "\x7d"],
      .var .decoration, expr]

/-- The modifiers of a declaration. -/
def modifiers : R :=
  .node .modifiers <| many1 <| any <|
    [.var .decoration] ++ (modifierWords ++ ["sealed"]).map tok ++
      [.token ["non", "-", "sealed"]]

/-- A name with points. -/
def qualifiedName : R :=
  .fold anyName [.mk [] .scopedIdentifier none (.seq (tok ".") anyName)]

/-! ## Statements -/

/-- `throw` with its expression. -/
def throwStatement : R := .node .throwStatement (all [tok "throw", expr, tok ";"])

/-- A handler of exceptions. -/
def catchClause : R :=
  .node .catchClause <| all
    [tok "catch", tok "(",
      .node .catchFormalParameter <| all
        [opt (.var .modifiers),
          typed modifierWords (.node .catchType (sepBy1 (tok "|") (.var .unannotatedType))),
          .var .declaratorId],
      tok ")", .field .body (.var .block)]

/-- What is done in any case after a `try`. -/
def finallyClause : R := .node .finallyClause (.seq (tok "finally") (.var .block))

/-- A resource of a `try`. -/
def resource : R :=
  .node .resource <| .alt
    (all [opt (.var .modifiers), .field .type (typedTerm (.var .unannotatedType)),
      .var .declaratorId, tok "=", .field .value expr])
    (.fold (.alt (.leaf .this "this") exprName)
      [.mk [] .fieldAccess (some .object) (.seq (tok ".") (.field .field memberName))])

/-- A `try` with or without resources. -/
def tryStatement : R :=
  .alt
    (.node .tryWithResourcesStatement <| all
      [tok "try",
        .node .resourceSpecification <| all
          [tok "(", sepBy1 (tok ";") resource, opt (tok ";"), tok ")"],
        .field .body (.var .block), .many catchClause, opt finallyClause])
    (.node .tryStatement <| all
      [tok "try", .field .body (.var .block),
        .alt (.seq (many1 catchClause) (opt finallyClause)) finallyClause])

/-- A `for` over the elements of a collection, or with an index. -/
def forStatement : R :=
  let body : R := .field .body (.var .statement)
  .alt
    (.node .enhancedForStatement <| all
      [tok "for", tok "(", opt (.var .modifiers),
        .field .type (typedTerm (.var .unannotatedType)), .var .declaratorId, tok ":",
        .field .value expr, tok ")", body])
    (.node .forStatement <| all
      [tok "for", tok "(",
        .alt (.var .localVariable) (.seq (sepBy (tok ",") expr) (tok ";")),
        opt (.field .condition expr), tok ";", sepBy (tok ",") expr, tok ")", body])

def statement : R :=
  let condition : R := .field .condition (.var .parenthesized)
  let body : R := .field .body (.var .statement)
  let jump (k : Kind) (word : String) : R := .node k (all [tok word, opt anyName, tok ";"])
  any
    [.var .block, tok ";",
      .node .ifStatement <| all
        [tok "if", condition, .field .consequence (.var .statement),
          opt (.seq (tok "else") (.field .alternative (.var .statement)))],
      .node .whileStatement (all [tok "while", condition, body]),
      forStatement,
      .node .doStatement (all [tok "do", body, tok "while", condition, tok ";"]),
      .var .switchExpression,
      .node .returnStatement (all [tok "return", opt expr, tok ";"]),
      throwStatement,
      tryStatement,
      .node .synchronizedStatement <| all
        [tok "synchronized", .var .parenthesized, .field .body (.var .block)],
      jump .breakStatement "break", jump .continueStatement "continue",
      .node .assertStatement <| all
        [tok "assert", expr, opt (.seq (tok ":") expr), tok ";"],
      .node .yieldStatement (all [tok "yield", expr, tok ";"]),
      .var .declaration,
      .var .localVariable,
      .node .labeledStatement <| all
        [.name .identifier (statementWords ++ expressionWords), tok ":", .var .statement],
      .seq (.notAhead (any (statementWords.map tok)))
        (.node .expressionStatement (.seq expr (tok ";")))]

def localVariable : R :=
  .node .localVariableDeclaration <| all
    [opt (.var .modifiers),
      .field .type (typed (termWords ++ statementWords ++ contextualWords) (.var .unannotatedType)),
      .var .declarators, tok ";"]

/-- The name of a declared variable, possibly with brackets after it. -/
def declaratorId : R :=
  .seq (.field .name anyName) (opt (.field .dimensions (.var .dimensions)))

def variableDeclarator : R :=
  .node .variableDeclarator <|
    .seq (.var .declaratorId) (opt (.seq (tok "=") (.field .value (.var .initializer))))

/-! ## Declarations -/

def importDeclaration : R :=
  .node .importDeclaration <| all
    [tok "import", opt (tok "static"), .var .qualifiedName,
      opt (.seq (tok ".") (.leaf .asterisk "*")), tok ";"]

def packageDeclaration : R :=
  .node .packageDeclaration <| all
    [.many (.var .decoration), tok "package", .var .qualifiedName, tok ";"]

def moduleDeclaration : R :=
  let names : R := sepBy1 (tok ",") (.var .qualifiedName)
  .node .moduleDeclaration <| all
    [.many (.var .decoration), opt (tok "open"), tok "module",
      .field .name (.var .qualifiedName),
      .node .moduleBody <| all
        [tok "\x7b",
          .many <| .node .moduleDirective <| .seq
            (any
              [all [tok "requires", .many (.alt (tok "transitive") (tok "static")),
                  .var .qualifiedName],
                all [.alt (tok "exports") (tok "opens"), .var .qualifiedName,
                  opt (.seq (tok "to") names)],
                all [tok "uses", .var .qualifiedName],
                all [tok "provides", .var .qualifiedName, tok "with", names]])
            (tok ";"),
          tok "\x7d"]]

def classDeclaration : R :=
  .node .classDeclaration <| all
    [opt (.var .modifiers), tok "class", .field .name anyName, opt (.var .typeParameters),
      opt (.node .superclass (.seq (tok "extends") (.var .type))),
      opt (.node .superInterfaces (.seq (tok "implements") (.var .typeList))),
      opt (.node .permits (.seq (tok "permits") (.var .typeList))),
      .field .body (.var .classBody)]

def interfaceDeclaration : R :=
  .node .interfaceDeclaration <| all
    [opt (.var .modifiers), tok "interface", .field .name anyName, opt (.var .typeParameters),
      opt (.node .extendsInterfaces (.seq (tok "extends") (.var .typeList))),
      opt (.node .permits (.seq (tok "permits") (.var .typeList))),
      .field .body <| .node .interfaceBody <| all
        [tok "\x7b",
          .many <| any
            [tok ";", .var .classDeclaration, .var .interfaceDeclaration, .var .enumDeclaration,
              .var .recordDeclaration, .var .annotationTypeDeclaration,
              .var .methodDeclaration,
              .node .constantDeclaration <| all
                [opt (.var .modifiers), memberType, .var .declarators, tok ";"]],
          tok "\x7d"]]

/-- An enumeration; its members other than constants stand behind a semicolon. -/
def enumDeclaration : R :=
  .node .enumDeclaration <| all
    [opt (.var .modifiers), tok "enum", .field .name anyName,
      opt (.node .superInterfaces (.seq (tok "implements") (.var .typeList))),
      .field .body <| .node .enumBody <| all
        [tok "\x7b",
          sepBy (tok ",") <| .node .enumConstant <| all
            [opt (.var .modifiers), .field .name anyName,
              opt (.field .arguments (.var .arguments)), opt (.field .body (.var .classBody))],
          opt (tok ","),
          opt (.node .enumBodyDeclarations (.seq (tok ";") (.many (.var .classMember)))),
          tok "\x7d"]]

def recordDeclaration : R :=
  .node .recordDeclaration <| all
    [opt (.var .modifiers), tok "record", .field .name anyName, opt (.var .typeParameters),
      .field .parameters (.var .formalParameters),
      opt (.node .superInterfaces (.seq (tok "implements") (.var .typeList))),
      .field .body (.var .classBody)]

def annotationTypeDeclaration : R :=
  .node .annotationTypeDeclaration <| all
    [opt (.var .modifiers), tok "@interface", .field .name anyName,
      .field .body <| .node .annotationTypeBody <| all
        [tok "\x7b",
          .many <| any
            [tok ";", .var .classDeclaration, .var .interfaceDeclaration, .var .enumDeclaration,
              .var .annotationTypeDeclaration,
              .node .annotationTypeElementDeclaration <| all
                [opt (.var .modifiers), memberType, .field .name anyName, tok "(", tok ")",
                  opt (.field .dimensions (.var .dimensions)),
                  opt (.seq (tok "default") (.field .value (.var .elementValue))), tok ";"],
              .node .constantDeclaration <| all
                [opt (.var .modifiers), memberType, .var .declarators, tok ";"]],
          tok "\x7d"]]

/-- A member of a class, record or enumeration. -/
def classMember : R :=
  let name : R := .field .name (.name .identifier (memberWords ++ primitiveWords))
  any
    [tok ";", .var .block, .node .staticInitializer (.seq (tok "static") (.var .block)),
      .var .classDeclaration, .var .interfaceDeclaration, .var .enumDeclaration,
      .var .recordDeclaration, .var .annotationTypeDeclaration, .var .methodDeclaration,
      .node .constructorDeclaration <| all
        [opt (.var .modifiers), opt (.var .typeParameters), name,
          .field .parameters (.var .formalParameters), opt (.var .throws),
          .field .body (.var .constructorBody)],
      .node .compactConstructorDeclaration <| all
        [opt (.var .modifiers), name, .field .body (.var .block)],
      .node .fieldDeclaration <| all
        [opt (.var .modifiers), memberType, .var .declarators, tok ";"]]

def methodDeclaration : R :=
  .node .methodDeclaration <| all
    [opt (.var .modifiers), opt (.seq (.var .typeParameters) (.many (.var .decoration))),
      memberType, .field .name anyName,
      .field .parameters (.var .formalParameters), opt (.field .dimensions (.var .dimensions)),
      opt (.var .throws), .alt (.field .body (.var .block)) (tok ";")]

/-- The body of a constructor, which may begin with a call of another one. -/
def constructorBody : R :=
  .node .constructorBody <| all
    [tok "\x7b",
      opt <| .node .explicitConstructorInvocation <| all
        [.alt
          (.seq (opt (.var .typeArguments)) (.alt (.leaf .this "this") (.leaf .super "super")))
          (all [.field .object (.var .primary), tok ".", opt (.var .typeArguments),
            .leaf .super "super"]),
          .field .arguments (.var .arguments), tok ";"],
      .many (.var .statement), tok "\x7d"]

/-- The parameters of a method, possibly behind the receiver. -/
def formalParameters : R :=
  let parameters : R := sepBy (tok ",") (.var .formalParameter)
  let receiver : R := .node .receiverParameter <| all
    [.many (.var .decoration), typed modifierWords (.var .unannotatedType),
      .many (.seq exprName (tok ".")),
      .leaf .this "this"]
  .node .formalParameters <| all
    [tok "(", any [all [receiver, tok ",", parameters], receiver, parameters], tok ")"]

/-- A parameter of a method; the last may stand for any number of arguments. -/
def formalParameter : R :=
  .alt
    (.node .formalParameter <| all
      [opt (.var .modifiers), .field .type (typed modifierWords (.var .unannotatedType)),
        .var .declaratorId])
    (.node .spreadParameter <| all
      [opt (.var .modifiers), typed modifierWords (.var .unannotatedType), tok "...", .many (.var .decoration),
        .var .variableDeclarator])

/-- Type parameters in angle brackets. -/
def typeParameters : R :=
  .node .typeParameters <| all
    [tok "<",
      sepBy1 (tok ",") <| .node .typeParameter <| all
        [.many (.var .decoration), .name .typeIdentifier [],
          opt <| .node .typeBound <|
            .seq (tok "extends") (sepBy1 (tok "&") (.var .type))],
      tok ">"]

end Grammar

open Grammar in
def grammar : Variable → Rule Variable
  | .program => .node .program <| .many <| .alt (.var .statement) <|
    .seq (.notAhead (any ((leadingWords ++ termWords ++ contextualWords.erase "sealed").map tok)))
      (.var .methodDeclaration)
  | .statement => statement
  | .block => .node .block (all [tok "\x7b", .many (.var .statement), tok "\x7d"])
  | .parenthesized => .node .parenthesizedExpression (all [tok "(", expr, tok ")"])
  | .localVariable => localVariable
  | .declarators => sepBy1 (tok ",") (.field .declarator (.var .variableDeclarator))
  | .declaratorId => declaratorId
  | .variableDeclarator => variableDeclarator
  | .initializer => .alt (.var .arrayInitializer) expr
  | .arrayInitializer => .node .arrayInitializer <| all
    [tok "\x7b", sepBy (tok ",") (.var .initializer), opt (tok ","), tok "\x7d"]
  | .expression label min => .fold (.var (.operand label)) (operatorSteps label min)
  | .operand label => operand label
  | .primary => primary
  | .lambda => lambda
  | .creation => creation
  | .arguments => .node .argumentList (all [tok "(", sepBy (tok ",") expr, tok ")"])
  | .switchExpression => switchExpression
  | .switchBlock => switchBlock
  | .switchLabel => switchLabel
  | .recordPattern => recordPattern
  | .recordPatternBody => recordPatternBody
  | .type =>
    .alt (.node .annotatedType (.seq (many1 (.var .decoration)) (.var .unannotatedType)))
      (.var .unannotatedType)
  | .unannotatedType => unannotatedType
  | .simpleType => simpleType
  | .classType => classType
  | .typeArguments => typeArguments
  | .dimensions => dimensions
  | .decoration => decoration
  | .elementValue => elementValue
  | .modifiers => modifiers
  | .qualifiedName => qualifiedName
  | .typeParameters => typeParameters
  | .typeList => .node .typeList (sepBy1 (tok ",") (.var .type))
  | .formalParameters => formalParameters
  | .formalParameter => formalParameter
  | .throws => .node .throws (.seq (tok "throws") (sepBy1 (tok ",") (.var .type)))
  | .declaration => any
    [packageDeclaration, importDeclaration, .var .classDeclaration, .var .interfaceDeclaration,
      .var .enumDeclaration, .var .recordDeclaration, .var .annotationTypeDeclaration,
      moduleDeclaration]
  | .classDeclaration => classDeclaration
  | .interfaceDeclaration => interfaceDeclaration
  | .enumDeclaration => enumDeclaration
  | .recordDeclaration => recordDeclaration
  | .annotationTypeDeclaration => annotationTypeDeclaration
  | .classBody => .node .classBody (all [tok "\x7b", .many (.var .classMember), tok "\x7d"])
  | .classMember => classMember
  | .methodDeclaration => methodDeclaration
  | .constructorBody => constructorBody

/-- The syntax tree of a text, comments included; `none` if the text is no Java. -/
def parse? (source : List Char) : Option Tree :=
  match tokens? source with
  | none => none
  | some ts =>
    let (comments, code) := ts.partition Token.isComment
    match Rule.run grammar (256 * (code.length + 4)) (.var .program) code with
    | some ([t], []) =>
      let t := match t with
        | .node k f _ _ cs => .node k f 0 source.length cs
      some (comments.foldl (fun t c => (ofComment c).insertInto t) t)
    | _ => none
where
  /-- The node of a comment. -/
  ofComment (c : Token) : Tree :=
    match c.lexeme with
    | .comment kind => .ofToken kind c
    | _ => .ofToken .blockComment c

end Testwright.Java
