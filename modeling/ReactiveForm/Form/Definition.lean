import ReactiveForm.Form.Identifier
import ReactiveForm.Rule.Encoding
import ReactiveForm.Tree.AnswerTree
import ReactiveForm.Tree.Encoding
import ReactiveForm.Value.Constructors

namespace ReactiveForm

/-! A form as its author writes it: a title, the nodes that it begins with,
and what is bound to them. -/

structure Skeleton where
  name : String
  isTemplate : Bool
  type : ValueType
  /-- The first answer, as text of the node's type. -/
  value : Option String
  attributes : List Attribute
  children : List Skeleton

structure Action where
  occasion : Occasion
  expression : Expression

structure Bind where
  target : Reference
  calculate : Option Expression
  relevant : Option Expression
  required : Option Expression
  constraint : Option Expression
  message : Option String
  actions : List Action

structure Definition where
  id : Option Identifier
  title : String
  skeleton : Skeleton
  binds : List Bind

def Skeleton.ofName (name : String) : Skeleton :=
  ⟨name, false, .unspecified, none, [], []⟩

def Bind.ofTarget (target : Reference) : Bind :=
  ⟨target, none, none, none, none, none, []⟩

mutual

def Skeleton.node (constructors : Constructors) :
    Skeleton → Except ValueError Node
  | ⟨name, isTemplate, type, value, attributes, children⟩ => do
      let answer ← value.mapM (constructors.construct type.tag)
      let facts : Facts :=
        { Facts.blank name (if isTemplate then .template else .index 0) with type, answer }
      let node := attributes.foldl Node.setAttribute (.leaf facts)
      Skeleton.appendNodes constructors node children

def Skeleton.appendNodes (constructors : Constructors) (node : Node) :
    List Skeleton → Except ValueError Node
  | [] => .ok node
  | child :: rest => do
      let appended := node.append (← child.node constructors)
      Skeleton.appendNodes constructors appended rest

end

def Definition.tree (definition : Definition) (constructors : Constructors) :
    Except ValueError AnswerTree :=
  (definition.skeleton.node constructors).map AnswerTree.ofRoot

namespace Bind

/-- The effects of a bind with their expressions: calculation, relevance,
requirement, constraint, and then the actions. -/
def effects (bind : Bind) : List (Effect × Expression) :=
  (bind.calculate.toList.map fun expression => (.calculate, expression)) ++
    (bind.relevant.toList.map fun expression => (.relevant, expression)) ++
    (bind.required.toList.map fun expression => (.required, expression)) ++
    (bind.constraint.toList.map fun expression =>
      (.constraint bind.message, expression)) ++
    bind.actions.map fun action => (.setValue action.occasion, action.expression)

def rules (bind : Bind) : Except ReferenceError (List Rule) :=
  bind.effects.mapM fun (effect, expression) => Rule.bind effect expression bind.target

end Bind

structure InvalidBind where
  target : Reference
  error : ReferenceError
  deriving DecidableEq, Repr

def InvalidBind.message (invalid : InvalidBind) : String :=
  "invalid bind on " ++ invalid.target.text ++ ": " ++ invalid.error.message

def Definition.rules (definition : Definition) : Except InvalidBind (List Rule) := do
  let rules ← definition.binds.mapM fun bind =>
    bind.rules.mapError (InvalidBind.mk bind.target)
  return rules.flatten

/-! Definitions in documents. -/

mutual

def Skeleton.toJson : Skeleton → Json
  | ⟨name, isTemplate, type, value, attributes, children⟩ =>
      .object ([("name", .text name)] ++ Json.memberIf "template" isTemplate ++
        [("type", .text type.tag)] ++ Json.member? "value" .text value ++
        Json.memberUnlessEmpty "attributes" Attribute.toJson attributes ++
        Json.memberUnlessEmpty "children" id (Skeleton.allToJson children))

def Skeleton.allToJson : List Skeleton → List Json
  | [] => []
  | skeleton :: rest => skeleton.toJson :: Skeleton.allToJson rest

end

def Skeleton.ofJsonWithin? : (levels : Nat) → Json → Option Skeleton
  | 0, _ => none
  | levels + 1, document => do
      let fields ←
        document.fields? ["name", "template", "type", "value", "attributes", "children"]
      let name ← fields.required? "name" Json.text?
      let isTemplate ← fields.withDefault? "template" false Json.boolean?
      let type ← fields.withDefault? "type" .unspecified ValueType.ofJson?
      let value ← fields.optional? "value" Json.text?
      let attributes ←
        fields.withDefault? "attributes" [] (Json.list? Attribute.ofJson?)
      let children ←
        fields.withDefault? "children" [] (Json.list? (Skeleton.ofJsonWithin? levels))
      return ⟨name, isTemplate, type, value, attributes, children⟩

def Skeleton.ofJson? (document : Json) : Option Skeleton :=
  ofJsonWithin? (document.depth + 1) document

def Action.toJson (action : Action) : Json :=
  .object (action.occasion.members ++ [("value", action.expression.toJson)])

/-- An action from a document. It comes as an object: all members but the
value say when it happens. -/
def Action.ofJson? (document : Json) : Option Action :=
  match document with
  | .object members =>
      match members.partition (·.1 == "value") with
      | ([(_, value)], occasion) => do
          let expression ← Expression.ofJson? value
          let occasion ← Occasion.ofJson? (.object occasion)
          return ⟨occasion, expression⟩
      | _ => none
  | _ => none

def Bind.toJson (bind : Bind) : Json :=
  .object ([("target", bind.target.toJson)] ++
    Json.member? "calculate" Expression.toJson bind.calculate ++
    Json.member? "relevant" Expression.toJson bind.relevant ++
    Json.member? "required" Expression.toJson bind.required ++
    Json.member? "constraint" Expression.toJson bind.constraint ++
    Json.member? "constraint_message" .text bind.message ++
    Json.memberUnlessEmpty "actions" Action.toJson bind.actions)

def Bind.ofJson? (document : Json) : Option Bind := do
  let fields ← document.fields?
    ["target", "calculate", "relevant", "required", "constraint", "constraint_message",
      "actions"]
  let target ← fields.required? "target" Reference.ofJson?
  let calculate ← fields.optional? "calculate" Expression.ofJson?
  let relevant ← fields.optional? "relevant" Expression.ofJson?
  let required ← fields.optional? "required" Expression.ofJson?
  let constraint ← fields.optional? "constraint" Expression.ofJson?
  let message ← fields.optional? "constraint_message" Json.text?
  let actions ← fields.withDefault? "actions" [] (Json.list? Action.ofJson?)
  return ⟨target, calculate, relevant, required, constraint, message, actions⟩

def Definition.toJson (definition : Definition) : Json :=
  .object (Json.member? "id" Identifier.toJson definition.id ++
    [("title", .text definition.title), ("instance", definition.skeleton.toJson),
      ("binds", .array (definition.binds.map Bind.toJson))])

def Definition.ofJson? (document : Json) : Option Definition := do
  let fields ← document.fields? ["id", "title", "instance", "binds"]
  let id ← fields.optional? "id" Identifier.ofJson?
  let title ← fields.required? "title" Json.text?
  let skeleton ← fields.required? "instance" Skeleton.ofJson?
  let binds ← fields.withDefault? "binds" [] (Json.list? Bind.ofJson?)
  return ⟨id, title, skeleton, binds⟩

end ReactiveForm
