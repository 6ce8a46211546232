/-
  Inkentry.Graph.Locals

  Name binding within a file: `FileScopes::analyse` and `FileScopes::binding`.

  The query's matches deliver scope nodes and definitions.  The scope nodes are
  numbered from the outside in, each under the scope that its parent lies in;
  a definition is recorded under its scope and its name, where definitions of
  one name share a slot.  A call is bound by the slots of the scopes around it.

  The callables and the types of the file, which the binding does not use, are
  left out.
-/

import Inkentry.Index.Syntax
import Inkentry.Lib.OrderLimit
import Inkentry.Lib.ParentTree
import Inkentry.Lib.SortedMap
import Mathlib.Data.String.Basic
import Mathlib.Data.Prod.Lex

namespace Inkentry
namespace Graph

open Index OrderLimit

/-! ## Trees and matches -/

/-- A parsed tree: only the root has no parent, and a node lies within its parent. -/
structure Parsed (Node : Type) extends Syntax Node where
  depth : Node → ℕ
  parent_eq_none_iff : ∀ n, parent n = none ↔ n = root
  depth_parent : ∀ n p, parent n = some p → depth n = depth p + 1
  nested : ∀ n p, parent n = some p → start p ≤ start n ∧ finish n ≤ finish p

variable {Node : Type} [DecidableEq Node]

/-- The tree by its parents. -/
def Parsed.up (sx : Parsed Node) : ParentTree Node where
  root := sx.root
  parent := sx.parent
  depth := sx.depth
  parent_eq_none_iff := sx.parent_eq_none_iff
  depth_parent := sx.depth_parent

/-- A match of the locals query: its captures with their names, and its property settings. -/
structure Match (Node : Type) where
  captures : List (Node × String)
  settings : List (String × Option String)

/-- In ascending precedence. -/
inductive DefKind where
  | value
  | imported
  | callable
  deriving DecidableEq

def DefKind.rank : DefKind → ℕ
  | .value => 0
  | .imported => 1
  | .callable => 2

/-- What follows a prefix. -/
def stripPrefix (pre text : String) : Option String :=
  if pre.toList.isPrefixOf text.toList then some (String.ofList (text.toList.drop pre.length)) else none

def defKind (capture : String) : Option DefKind :=
  (stripPrefix "local.definition" capture).bind fun rest =>
    if rest = "" then some .value
    else (stripPrefix "." rest).map fun sub =>
      if ["function", "method", "type", "macro", "namespace", "enum"].contains sub then .callable
      else if sub = "import" then .imported
      else .value

structure PendingDef (Node : Type) where
  node : Node
  kind : DefKind
  hoist : Option String
  ownScope : Option Node

/-- The property that hoists the definitions of a capture. -/
def scopeProperty (capture : String) : String :=
  String.ofList (trimStartMatches "local.".toList capture.length capture.toList) ++ ".scope"

/-- The nodes captured as scopes, in the order of the matches. -/
def scopeNodes (ms : List (Match Node)) : List Node :=
  ms.flatMap fun m => (m.captures.filter fun c => c.2 = "local.scope").map Prod.fst

/-- The definitions, in the order of the matches. -/
def defNodes (ms : List (Match Node)) : List (PendingDef Node) :=
  ms.flatMap fun m => m.captures.filterMap fun c =>
    if c.2 = "local.scope" then none
    else (defKind c.2).map fun kind =>
      { node := c.1
        kind := kind
        hoist := (m.settings.find? fun p => p.1 = scopeProperty c.2).bind Prod.snd
        ownScope := (m.captures.find? fun c => c.2 = "local.scope").map Prod.fst }

/-! ## Aliases and initialisers -/

def isScript (language : String) : Bool := ["javascript", "jsx", "typescript", "tsx"].contains language

/-- `parent.child_by_field_name(field)` is the node. -/
def bindsDef (sx : Parsed Node) (parent : Node) (field : String) (node : Node) : Bool :=
  sx.childByFieldName parent field = some node

/-- A dotted path by its last segment. -/
def lastSegment (text : List Char) : String :=
  String.ofList (text.rtakeWhile fun c => c ≠ '.' && c ≠ ':')

/-- The node that an alias renames. -/
def renamedNode (sx : Parsed Node) (node : Node) (language : String) : Option Node :=
  (sx.parent node).bind fun parent =>
    let isAlias := bindsDef sx parent "alias" node
    if isScript language ∧ sx.kind parent = "import_specifier" ∧ isAlias then
      sx.childByFieldName parent "name"
    else if language = "python" ∧ sx.kind parent = "aliased_import" ∧ isAlias then
      sx.childByFieldName parent "name"
    else if language = "rust" ∧ sx.kind parent = "use_as_clause" ∧ isAlias then
      (sx.childByFieldName parent "path").map fun path =>
        (sx.childByFieldName path "name").getD path
    else if language = "kotlin" ∧ sx.kind parent = "import_alias" then
      (sx.parent parent).bind fun header =>
        ((sx.namedChildren header).find? fun n => sx.kind n = "identifier").bind fun path =>
          (sx.namedChildren path).getLast?
    else none

/-- `aliases::original_name`. -/
def originalName (sx : Parsed Node) (node : Node) (language : String) : Option String :=
  (renamedNode sx node language).map fun original => lastSegment (sx.text original)

/-- The declarator around a pattern, and the part of it that the node lies in. -/
def declaratorFrom (sx : Parsed Node) : Node → List Node → Option (Node × Node)
  | _, [] => none
  | node, parent :: rest =>
    if sx.kind parent = "variable_declarator" then some (parent, node)
    else if ["object_pattern", "pair_pattern", "array_pattern"].contains (sx.kind parent) then
      declaratorFrom sx parent rest
    else none

/-- `aliases::required_name`: for a binding declared by `require(..)`, the name that it renames, if it
renames one. -/
def requiredName (sx : Parsed Node) (node : Node) (language : String) : Option (Option String) :=
  if !isScript language then none
  else
    (declaratorFrom sx node ((sx.parent node).elim [] sx.up.ancestors)).bind fun (declarator, top) =>
      if !bindsDef sx declarator "name" top then none
      else
        (sx.childByFieldName declarator "value").bind fun value =>
          (sx.childByFieldName value "function").bind fun callee =>
            if sx.kind value ≠ "call_expression" ∨ sx.text callee ≠ "require".toList then none
            else
              (sx.parent node).bind fun pair =>
                if sx.kind pair = "pair_pattern" ∧ bindsDef sx pair "value" node then
                  (sx.childByFieldName pair "key").map fun key => some (String.ofList (sx.text key))
                else some none

def DEFINITION_KINDS : List String :=
  ["arrow_function", "function_expression", "generator_function", "class", "lambda", "func_literal",
    "closure_expression", "lambda_expression", "anonymous_method_expression", "lambda_literal",
    "anonymous_function"]

/-- The value beside a binding. -/
def initialValue (sx : Parsed Node) (node parent : Node) : Option Node :=
  let kind := sx.kind parent
  if kind = "variable_declarator" ∧ bindsDef sx parent "name" node then
    ((sx.childByFieldName parent "value").or (sx.namedChildren parent).getLast?).filter (· ≠ node)
  else if kind = "assignment" ∧ bindsDef sx parent "left" node then
    sx.childByFieldName parent "right"
  else if ["var_spec", "const_spec", "const_item", "static_item"].contains kind
      ∧ bindsDef sx parent "name" node then
    sx.childByFieldName parent "value"
  else if kind = "init_declarator" ∧ bindsDef sx parent "declarator" node then
    sx.childByFieldName parent "value"
  else if kind = "variable_declaration"
      ∧ ((sx.parent parent).map sx.kind) = some "property_declaration" then
    (sx.nextNamedSiblings parent).head?
  else none

def initialiser (sx : Parsed Node) (node : Node) : Option Node :=
  ((sx.parent node).bind (initialValue sx node)).bind fun value =>
    if sx.kind value = "expression_list" then
      if (sx.namedChildren value).length = 1 then (sx.namedChildren value).head? else none
    else some value

def initialisedByADefinition (sx : Parsed Node) (node : Node) : Bool :=
  (initialiser sx node).any fun value => DEFINITION_KINDS.contains (sx.kind value)

/-! ## Scopes -/

structure Def where
  kind : DefKind
  /-- For a value, whether every binding of it is initialised by a definition. -/
  defines : Bool
  /-- For an import that renames what it imports, the original name. -/
  aliased : Option String
  deriving DecidableEq

structure FileScopes (Node : Type) where
  scopeOfNode : List (Node × ℕ)
  parent : List ℕ
  classBody : List Bool
  defs : SortedMap (ℕ ×ₗ String) Def
  callsReachValues : Bool

def FileScopes.scope? (fs : FileScopes Node) (n : Node) : Option ℕ :=
  (fs.scopeOfNode.find? fun e => e.1 = n).map Prod.snd

def FileScopes.parentOf (fs : FileScopes Node) (scope : ℕ) : ℕ := fs.parent.getD scope 0

def FileScopes.isClassBody (fs : FileScopes Node) (scope : ℕ) : Bool := fs.classBody.getD scope false

/-- The scope of the nearest node, upwards, that opens one; the file's where there is none. -/
def FileScopes.innermost (fs : FileScopes Node) (sx : Parsed Node) (node : Option Node) : ℕ :=
  ((node.elim [] sx.up.ancestors).findSome? fs.scope?).getD 0

/-- The scopes of a file before its query has run. -/
def FileScopes.ofFile (sx : Parsed Node) (language : String) : FileScopes Node where
  scopeOfNode := [(sx.root, 0)]
  parent := [0]
  classBody := [false]
  defs := SortedMap.empty
  callsReachValues := !(["ruby", "java", "php"].contains language)

/-- A scope node under the scope that its parent lies in; one that is known is passed over. -/
def addScope (sx : Parsed Node) (language : String) (fs : FileScopes Node) (node : Node) :
    FileScopes Node :=
  if (fs.scope? node).isSome then fs
  else
    { fs with
      scopeOfNode := fs.scopeOfNode ++ [(node, fs.parent.length)]
      parent := fs.parent ++ [fs.innermost sx (sx.parent node)]
      classBody := fs.classBody ++ [language == "python" && sx.kind node == "class_definition"] }

/-- From the outside in: by the start, and the longer node first. -/
def scopeKey (sx : Parsed Node) (n : Node) : ℕ ×ₗ ℕᵒᵈ := toLex (sx.start n, OrderDual.toDual (sx.finish n))

def addScopes (sx : Parsed Node) (language : String) (nodes : List Node) : FileScopes Node :=
  (sortBy (scopeKey sx) nodes).foldl (addScope sx language) (FileScopes.ofFile sx language)

/-! ## Definitions -/

/-- A definition as it is recorded: what it binds its name to in its scope. -/
structure Entry where
  kind : DefKind
  defines : Bool
  aliased : Option String
  deriving DecidableEq

/-- The scope that a definition is recorded in. -/
def FileScopes.scopeOfDef (fs : FileScopes Node) (sx : Parsed Node) (d : PendingDef Node)
    (kind : DefKind) : ℕ :=
  let scope := fs.innermost sx (some d.node)
  if d.hoist = some "parent" then fs.parentOf scope
  else if d.hoist = some "global" then 0
  else if kind ≠ .value ∧ d.ownScope.bind fs.scope? = some scope then fs.parentOf scope
  else scope

/-- The slot of a definition, and what it records there.  A `require` is an import. -/
def FileScopes.entryOf (fs : FileScopes Node) (sx : Parsed Node) (language : String)
    (d : PendingDef Node) : (ℕ ×ₗ String) × Entry :=
  let required := if d.kind = .value then requiredName sx d.node language else none
  let kind := if required.isSome then .imported else d.kind
  let aliased := required.join
  (toLex (fs.scopeOfDef sx d kind, String.ofList (sx.text d.node)),
    { kind := kind
      defines := kind = .value && initialisedByADefinition sx d.node
      aliased := if kind = .imported ∧ aliased = none then originalName sx d.node language
        else aliased })

/-- What a slot holds once an entry is recorded in it. -/
def record (slot : Option Def) (e : Entry) : Def :=
  let d := slot.getD { kind := e.kind, aliased := none, defines := e.defines }
  let d := if e.kind = .value then { d with defines := d.defines && e.defines } else d
  if d.kind.rank ≤ e.kind.rank then { d with kind := e.kind, aliased := e.aliased } else d

def addDef (sx : Parsed Node) (language : String) (fs : FileScopes Node) (d : PendingDef Node) :
    FileScopes Node :=
  let (key, e) := fs.entryOf sx language d
  { fs with defs := fs.defs.insert key (record (fs.defs.get key) e) }

/-- `FileScopes::analyse`, of the scope nodes and the definitions of the matches. -/
def analyseNodes (sx : Parsed Node) (language : String) (scopes : List Node)
    (defs : List (PendingDef Node)) : FileScopes Node :=
  defs.foldl (addDef sx language) (addScopes sx language scopes)

def analyse (sx : Parsed Node) (language : String) (ms : List (Match Node)) : FileScopes Node :=
  analyseNodes sx language (scopeNodes ms) (defNodes ms)

/-! ## Binding -/

/-- The definition of a name that a scope shows to a call that starts from a scope. -/
def FileScopes.shows (fs : FileScopes Node) (start : ℕ) (name : String) (scope : ℕ) : Option Def :=
  if scope = start ∨ fs.isClassBody scope = false then
    (fs.defs.get (toLex (scope, name))).filter fun d => fs.callsReachValues || d.kind ≠ .value
  else none

/-- The loop of `binding`, nothing when the fuel is spent. -/
def FileScopes.bindingFrom (fs : FileScopes Node) (start : ℕ) (name : String) :
    ℕ → ℕ → Option (Option (ℕ × Def))
  | 0, _ => none
  | fuel + 1, scope =>
    match fs.shows start name scope with
    | some d => some (some (scope, d))
    | none =>
      if scope = 0 then some none else FileScopes.bindingFrom fs start name fuel (fs.parentOf scope)

/-- `binding`, with fuel. -/
def FileScopes.binding (fs : FileScopes Node) (sx : Parsed Node) (fuel : ℕ) (node : Node)
    (name : String) : Option (Option (ℕ × Def)) :=
  fs.bindingFrom (fs.innermost sx (some node)) name fuel (fs.innermost sx (some node))

end Graph
end Inkentry
