/-
  Inkentry.Index.Syntax

  A syntax tree as the walker sees it: the nodes that tree-sitter hands out,
  which of them become chunks in each language, what such a node is called, and
  the comment that documents it.
-/

import Inkentry.Index.Chunk
import Inkentry.Lib.TextLines

namespace Inkentry
namespace Index

open TextLines

/-! ## Trees -/

/-- A parsed tree over a source.  Offsets count characters of the source; the siblings of a node
are given nearest first. -/
structure Syntax (Node : Type) where
  source : List Char
  root : Node
  kind : Node → String
  isNamed : Node → Bool
  isExtra : Node → Bool
  start : Node → ℕ
  finish : Node → ℕ
  children : Node → List Node
  parent : Node → Option Node
  prevSiblings : Node → List Node
  nextSiblings : Node → List Node
  childByFieldName : Node → String → Option Node

namespace Syntax

variable {Node : Type} (sx : Syntax Node)

/-- The text of a node is its part of the source. -/
def text (n : Node) : List Char := (sx.source.drop (sx.start n)).take (sx.finish n - sx.start n)

/-- The row that an offset is in, from 0. -/
def row (offset : ℕ) : ℕ := (sx.source.take offset).count '\n'

def startRow (n : Node) : ℕ := sx.row (sx.start n)

def endRow (n : Node) : ℕ := sx.row (sx.finish n)

def namedChildren (n : Node) : List Node := (sx.children n).filter sx.isNamed

def nextNamedSiblings (n : Node) : List Node := (sx.nextSiblings n).filter sx.isNamed

end Syntax

/-! ## Texts -/

/-- A pattern taken off the front as often as it stands there. -/
def trimStartMatches (pattern : List Char) : ℕ → List Char → List Char
  | 0, text => text
  | fuel + 1, text =>
    if pattern ≠ [] ∧ pattern.isPrefixOf text then
      trimStartMatches pattern fuel (text.drop pattern.length)
    else text

/-- A character taken off both ends. -/
def trimMatches (c : Char) (text : List Char) : List Char :=
  (text.rdropWhile (· == c)).dropWhile (· == c)

/-! ## Function bindings -/

section Bindings

variable {Node : Type} (sx : Syntax Node)

def FUNCTIONS : List String :=
  ["arrow_function", "function_expression", "function", "generator_function"]

/-- A function, or a call with one among its arguments. -/
def isFunctionValue (value : Node) : Bool :=
  if FUNCTIONS.contains (sx.kind value) then true
  else if sx.kind value ≠ "call_expression" then false
  else match sx.childByFieldName value "arguments" with
    | none => false
    | some args => (sx.namedChildren args).any fun arg => FUNCTIONS.contains (sx.kind arg)

def functionDeclarator (node : Node) : Option Node :=
  (sx.namedChildren node).find? fun d =>
    sx.kind d = "variable_declarator"
      && (sx.childByFieldName d "value").any (isFunctionValue sx)

/-- A binding of a function that is not part of another. -/
def isModuleLevelFunctionBinding (node : Node) : Bool :=
  let moduleLevel := match sx.parent node with
    | none => false
    | some p =>
      sx.kind p = "program"
        || sx.kind p = "export_statement" && (sx.parent p).any fun pp => sx.kind pp = "program"
  moduleLevel && (functionDeclarator sx node).isSome

def functionBindingName (node : Node) : Option (List Char) :=
  (functionDeclarator sx node).bind fun d => (sx.childByFieldName d "name").map sx.text

end Bindings

/-! ## Which nodes become chunks -/

/-- A kind of node that becomes a chunk, and the field that names it. -/
structure NodeSpec (Node : Type) where
  kind : String
  chunkKind : ChunkKind
  nameField : Option String
  guard : Option (Node → Bool)

section Specs

variable {Node : Type} (sx : Syntax Node)

def s (kind : String) (chunkKind : ChunkKind) (nameField : Option String) : NodeSpec Node :=
  ⟨kind, chunkKind, nameField, none⟩

def functionBinding (kind : String) : NodeSpec Node :=
  ⟨kind, .function, none, some (isModuleLevelFunctionBinding sx)⟩

def nodeSpecs (language : String) : List (NodeSpec Node) :=
  match language with
  | "rust" =>
    [s "function_item" .function "name", s "impl_item" .impl none,
      s "struct_item" .struct "name", s "enum_item" .enum "name", s "trait_item" .trait "name",
      s "mod_item" .module "name", s "const_item" .constant "name", s "type_item" .typeAlias "name"]
  | "python" =>
    [s "function_definition" .function "name", s "class_definition" .classDef "name"]
  | "javascript" | "jsx" =>
    [s "function_declaration" .function "name", s "method_definition" .method "name",
      s "class_declaration" .classDef "name", s "generator_function_declaration" .function "name",
      functionBinding sx "lexical_declaration", functionBinding sx "variable_declaration"]
  | "typescript" | "tsx" =>
    [s "function_declaration" .function "name", s "method_definition" .method "name",
      s "class_declaration" .classDef "name", s "interface_declaration" .interface "name",
      s "type_alias_declaration" .typeAlias "name",
      s "generator_function_declaration" .function "name",
      functionBinding sx "lexical_declaration", functionBinding sx "variable_declaration"]
  | "go" =>
    [s "function_declaration" .function "name", s "method_declaration" .method "name",
      s "type_spec" .struct "name"]
  | "java" =>
    [s "class_declaration" .classDef "name", s "interface_declaration" .interface "name",
      s "method_declaration" .method "name", s "constructor_declaration" .method "name",
      s "enum_declaration" .enum "name"]
  | "c" =>
    [s "function_definition" .function none, s "struct_specifier" .struct "name",
      s "enum_specifier" .enum "name"]
  | "cpp" =>
    [s "function_definition" .function none, s "class_specifier" .classDef "name",
      s "struct_specifier" .struct "name", s "function_declarator" .function "declarator"]
  | "json" => []
  | "html" => [s "script_element" .function none, s "style_element" .module none]
  | "css" =>
    [s "rule_set" .rule none, s "media_statement" .module none,
      s "keyframes_statement" .function none, s "supports_statement" .module none]
  | "php" =>
    [s "function_definition" .function "name", s "method_declaration" .method "name",
      s "class_declaration" .classDef "name", s "interface_declaration" .interface "name",
      s "trait_declaration" .trait "name", s "enum_declaration" .enum "name"]
  | "ruby" =>
    [s "method" .method "name", s "singleton_method" .method "name", s "class" .classDef "name",
      s "module" .module "name"]
  | "csharp" =>
    [s "class_declaration" .classDef "name", s "struct_declaration" .struct "name",
      s "interface_declaration" .interface "name", s "enum_declaration" .enum "name",
      s "record_declaration" .struct "name", s "method_declaration" .method "name",
      s "constructor_declaration" .method "name"]
  | "kotlin" =>
    [s "class_declaration" .classDef none, s "object_declaration" .classDef none,
      s "function_declaration" .function none]
  | "swift" =>
    [s "class_declaration" .classDef "name", s "protocol_declaration" .interface "name",
      s "function_declaration" .function "name", s "init_declaration" .method none]
  | "hcl" => [s "block" .module none]
  | "proto" =>
    [s "message" .struct none, s "enum" .enum none, s "service" .interface none,
      s "rpc" .method none]
  | "sql" =>
    [s "create_table" .struct none, s "create_view" .typeAlias none,
      s "create_function" .function none, s "create_index" .constant none]
  | _ => []

end Specs

/-! ## What a node is called -/

section Names

variable {Node : Type} (sx : Syntax Node)

def MAX_IDENT_DEPTH : ℕ := 64

/-- The first identifier in a subtree, down to a depth. -/
def findIdentifierInner : ℕ → Node → Option (List Char)
  | 0, _ => none
  | depth + 1, node =>
    if sx.kind node = "identifier" ∨ sx.kind node = "field_identifier" then some (sx.text node)
    else (sx.children node).findSome? (findIdentifierInner depth)

def findIdentifier (node : Node) : Option (List Char) := findIdentifierInner sx MAX_IDENT_DEPTH node

def cFunctionName (node : Node) : Option (List Char) :=
  (sx.childByFieldName node "declarator").bind (findIdentifier sx)

/-- The selectors of a rule, or the keyword of an at-rule. -/
def cssChunkName (node : Node) : Option (List Char) :=
  (sx.children node).findSome? fun child =>
    if sx.kind child = "selectors" then some (trim (sx.text child))
    else if sx.kind child = "at_keyword" ∨ sx.kind child = "keyword" then some (sx.text child)
    else none

/-- The value of a `src` or `id` attribute. -/
def htmlAttribute (attr : Node) : Option (List Char) :=
  let last (kinds : List String) : List Char :=
    (((sx.children attr).filter fun c => kinds.contains (sx.kind c)).getLast?.map
      sx.text).getD []
  let name := last ["attribute_name"]
  let value := last ["attribute_value", "quoted_attribute_value"]
  if (name = "src".toList ∨ name = "id".toList) ∧ value ≠ [] then
    some (trimMatches '\'' (trimMatches '"' value))
  else none

def htmlChunkName (node : Node) : Option (List Char) :=
  ((sx.children node).find? fun child => sx.kind child = "start_tag").bind fun startTag =>
    let attributes := (sx.children startTag).filter fun c => sx.kind c = "attribute"
    let tagNames := (sx.children startTag).filter fun c => sx.kind c = "tag_name"
    (attributes.findSome? (htmlAttribute sx)).or (tagNames.getLast?.map sx.text)

/-- The type of a block and its labels. -/
def hclBlockName (node : Node) : Option (List Char) :=
  let parts := (sx.children node).filterMap fun child =>
    if sx.kind child = "identifier" then some (sx.text child)
    else if sx.kind child = "string_lit" then some (trimMatches '"' (sx.text child))
    else none
  if parts = [] then none else some (['.'].intercalate parts)

/-- The text of the first child that a test finds. -/
def textOfChild (test : String → Bool) (node : Node) : Option (List Char) :=
  ((sx.children node).find? fun child => test (sx.kind child)).map sx.text

def protoNamedChild (node : Node) : Option (List Char) := textOfChild sx (·.endsWith "_name") node

def sqlObjectName (node : Node) : Option (List Char) :=
  textOfChild sx (fun kind => kind = "object_reference") node

def kotlinDeclName (node : Node) : Option (List Char) :=
  match sx.kind node with
  | "class_declaration" | "object_declaration" =>
    textOfChild sx (fun kind => kind = "type_identifier") node
  | "function_declaration" => textOfChild sx (fun kind => kind = "simple_identifier") node
  | _ => none

def swiftInitName (node : Node) : Option (List Char) :=
  if sx.kind node = "init_declaration" then some "init".toList else none

/-- The field that names a node, or else what its language calls it. -/
def extractName (language : String) (spec : NodeSpec Node) (node : Node) : Option (List Char) :=
  let fromField := (spec.nameField.bind (sx.childByFieldName node)).map fun n =>
    if language = "json" then trimMatches '"' (sx.text n) else sx.text n
  fromField.or <| match language with
    | "c" | "cpp" => cFunctionName sx node
    | "css" => cssChunkName sx node
    | "html" => htmlChunkName sx node
    | "hcl" => hclBlockName sx node
    | "proto" => protoNamedChild sx node
    | "sql" => sqlObjectName sx node
    | "kotlin" => kotlinDeclName sx node
    | "swift" => swiftInitName sx node
    | "javascript" | "jsx" | "typescript" | "tsx" => functionBindingName sx node
    | _ => none

end Names

/-! ## Comments above a node -/

section Comments

variable {Node : Type} (sx : Syntax Node)

def COMMENTS : List String := ["comment", "line_comment", "block_comment", "doc_comment"]

/-- The nearest sibling that is not skipped, if it is a comment. -/
def scanBackwardForComment : List Node → Option Node
  | [] => none
  | prev :: earlier =>
    if sx.kind prev = "\n" || sx.kind prev = "newline" || sx.kind prev = "attribute_item"
        || sx.isExtra prev && !COMMENTS.contains (sx.kind prev) then
      scanBackwardForComment earlier
    else if COMMENTS.contains (sx.kind prev) then some prev
    else none

/-- The node itself, or what carries its decorators, its `export` or its visibility. -/
def docAnchor (node : Node) : Node :=
  match sx.parent node with
  | none => node
  | some parent =>
    if sx.kind parent = "decorated_definition" ∨ sx.kind parent = "export_statement" then parent
    else if sx.kind parent = "argument_list" ∧ (sx.namedChildren parent).length = 1 then
      match sx.parent parent with
      | some call => if sx.kind call = "call" then call else node
      | none => node
    else node

/-- The comment before a node; for the first of a body, the one before the body. -/
def precedingComment (node : Node) : Option Node :=
  let start := docAnchor sx node
  match sx.prevSiblings start with
  | prev :: earlier => scanBackwardForComment sx (prev :: earlier)
  | [] => (sx.parent start).bind fun parent => scanBackwardForComment sx (sx.prevSiblings parent)

/-- The first comment of the run that ends at `first`, among the ones before it. -/
def blockStartFrom (first : Node) : List Node → Node
  | [] => first
  | prev :: earlier =>
    if sx.kind prev ≠ sx.kind first ∨ sx.startRow prev + 1 ≠ sx.startRow first then first
    else blockStartFrom prev earlier

def commentBlockStart (comment : Node) : Node := blockStartFrom sx comment (sx.prevSiblings comment)

end Comments

/-! ## Test code -/

section TestSpans

variable {Node : Type} (sx : Syntax Node)

/-- Whether an attribute, without its white space, marks test code. -/
def marksTest (inner : Bool) (text : List Char) : Bool :=
  let opened := trimStartMatches (if inner then "#![" else "#[").toList text.length text
  let attr := opened.rdropWhile (· == ']')
  let path := attr.takeWhile (· ≠ '(')
  "cfg(test)".toList.isPrefixOf attr || "cfg(all(test".toList.isPrefixOf attr
    || path = "test".toList || "::test".toList.isSuffixOf path || path = "rstest".toList

/-- The lines that a test attribute marks, from 1. -/
def rustTestSpan (node : Node) : Option (ℕ × ℕ) :=
  let inner := sx.kind node = "inner_attribute_item"
  if sx.kind node ≠ "attribute_item" ∧ ¬ inner then none
  else if !marksTest inner ((sx.text node).filter fun c => !isWhitespace c) then none
  else
    let item :=
      if inner then
        (sx.parent node).bind fun parent =>
          if sx.kind parent = "declaration_list" then sx.parent parent else some parent
      else
        (sx.nextNamedSiblings node).find? fun next =>
          !(["attribute_item", "line_comment", "block_comment"].contains (sx.kind next))
    item.map fun item =>
      (sx.startRow (if inner then item else node) + 1, sx.endRow item + 1)

end TestSpans

end Index
end Inkentry
