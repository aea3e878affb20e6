import Bindery.Tree.Form

/-!
# Labels of forms

The label under which each category of nodes is listed when a tree is shown. Categories that share a
constructor of `Form` have labels of their own.

* `Form.label`: the label.
-/

namespace Bindery.Form

/-- The label of a category. -/
def label : Form → String
  | .sourceFile .. => "SourceFile"
  | .identifier .. => "Identifier"
  | .qualifiedName .. => "QualifiedName"
  | .modifier .. => "Modifier"
  | .wrapper .decorator _ => "Decorator"
  | .wrapper .expressionStatement _ => "ExpressionStatement"
  | .wrapper .returnStatement _ => "ReturnStatement"
  | .wrapper .parenthesized _ => "ParenthesizedExpression"
  | .heritage .. => "HeritageClause"
  | .typeParameter .. => "TypeParameter"
  | .field .parameter .. => "Parameter"
  | .field .property .. => "PropertyDeclaration"
  | .classLike .classDeclaration _ => "ClassDeclaration"
  | .classLike .interfaceDeclaration _ => "InterfaceDeclaration"
  | .enumeration .. => "EnumDeclaration"
  | .enumMember .. => "EnumMember"
  | .function .declaration _ => "FunctionDeclaration"
  | .function .method _ => "MethodDeclaration"
  | .function .constructor _ => "Constructor"
  | .function .getter _ => "GetAccessor"
  | .function .setter _ => "SetAccessor"
  | .function .arrow _ => "ArrowFunction"
  | .function .expression _ => "FunctionExpression"
  | .typeAlias .. => "TypeAliasDeclaration"
  | .variableStatement .. => "VariableStatement"
  | .variableDeclaration .. => "VariableDeclaration"
  | .propertySignature .. => "PropertySignature"
  | .methodSignature .. => "MethodSignature"
  | .block .. => "Block"
  | .ifStatement .. => "IfStatement"
  | .thisKeyword => "ThisKeyword"
  | .superKeyword => "SuperKeyword"
  | .literal .. => "Literal"
  | .access .. => "PropertyAccessExpression"
  | .element .. => "ElementAccessExpression"
  | .call .plain .. => "CallExpression"
  | .call .construction .. => "NewExpression"
  | .instantiation .. => "ExpressionWithTypeArguments"
  | .binary .. => "BinaryExpression"
  | .unary .. => "UnaryExpression"
  | .conditional .. => "ConditionalExpression"
  | .cast .. => "AsExpression"
  | .objectLiteral .. => "ObjectLiteral"
  | .assignment .. => "PropertyAssignment"
  | .arrayLiteral .. => "ArrayLiteral"
  | .keywordType .. => "KeywordType"
  | .literalType .. => "LiteralType"
  | .typeReference .. => "TypeReference"
  | .arrayType .. => "ArrayType"
  | .combination .union _ => "UnionType"
  | .combination .intersection _ => "IntersectionType"
  | .typeLiteral .. => "TypeLiteral"
  | .functionType .. => "FunctionType"
  | .tupleType .. => "TupleType"
  | .parenthesizedType .. => "ParenthesizedType"
  | .typeQuery .. => "TypeQuery"
  | .indexedAccess .. => "IndexedAccessType"

end Bindery.Form
