/-
The grammar of the query language, as readers of token lists.

A reader takes a list of tokens and gives a node of the syntax tree with the
tokens that follow, or the offset of the first token that no rule accepts.  A
node that has a location is made with the text of the tokens that were taken.
The grammar covers executable definitions and type system definitions; of the
latter only their kind and text are kept.

Some rules are lenient.  An argument or an object field may be a name alone,
and then its node lacks the value; a schema definition need not have a body,
nor a root operation a type.  Nesting is limited by `nestingLimit`.
-/
import GraphQLEngine.Document.Tree

namespace GraphQLEngine

/-- Reads a value off the front of a list of tokens, and leaves the others.  The token that ends the
text is never read. -/
structure Reader (α : Type) where
  read : List Token → Except Nat (α × List Token)
  passes : ∀ {tokens a rest}, read tokens = .ok (a, rest) →
    ∃ run, tokens = run ++ rest ∧ ∀ token ∈ run, token.kind ≠ .endOfText

namespace Reader

/-! ## Combinators -/

def pure {α : Type} (a : α) : Reader α where
  read := fun tokens => .ok (a, tokens)
  passes := by
    intro tokens a rest h
    cases h
    exact ⟨[], rfl, List.forall_mem_nil _⟩

def bind {α β : Type} (r : Reader α) (next : α → Reader β) : Reader β where
  read := fun tokens =>
    match r.read tokens with
    | .ok (a, rest) => (next a).read rest
    | .error offset => .error offset
  passes := by
    intro tokens b rest h
    split at h
    · next hr =>
      obtain ⟨run, rfl, hrun⟩ := r.passes hr
      obtain ⟨more, rfl, hmore⟩ := (next _).passes h
      exact ⟨run ++ more, (List.append_assoc run more rest).symm,
        List.forall_mem_append.2 ⟨hrun, hmore⟩⟩
    · cases h

instance : Monad Reader where
  pure := pure
  bind := bind

/-- Refuses the next token. -/
def unexpected {α : Type} : Reader α where
  read := fun tokens => .error (tokens.head?.elim 0 Token.offset)
  passes := by
    intro tokens a rest h
    cases h

/-- What `look` says of the list of tokens, which stays as it is. -/
def looking {α : Type} (look : List Token → α) : Reader α where
  read := fun tokens => .ok (look tokens, tokens)
  passes := by
    intro tokens a rest h
    cases h
    exact ⟨[], rfl, List.forall_mem_nil _⟩

/-- The next token, which stays in the list. -/
def peek : Reader TokenKind :=
  looking (fun tokens => tokens.head?.elim .endOfText Token.kind)

/-- The token after the next one, unless a comma stands between the two.  Both stay in the list. -/
def peekSecond : Reader (Option TokenKind) :=
  looking fun tokens =>
    match tokens with
    | _ :: token :: _ => if token.afterComma then none else some token.kind
    | _ => none

/-- How many tokens are left. -/
def remaining : Reader Nat :=
  looking List.length

/-- Drops the next token, unless the text ends there. -/
def skip : Reader Unit where
  read := fun tokens =>
    match tokens with
    | [] => .ok ((), [])
    | token :: rest => .ok ((), if token.kind = .endOfText then token :: rest else rest)
  passes := by
    intro tokens a rest h
    split at h
    · cases h
      exact ⟨[], rfl, List.forall_mem_nil _⟩
    · next token rest =>
      cases h
      split
      · exact ⟨[], rfl, List.forall_mem_nil _⟩
      · next hkind => exact ⟨[token], rfl, List.forall_mem_singleton.2 hkind⟩

/-- The text of the tokens in a list up to the rest of it, with the ignored text before the first. -/
def textBetween (tokens rest : List Token) : NodeText where
  start := tokens.head?.elim 0 Token.start
  pieces := (tokens.take (tokens.length - rest.length)).flatMap Token.pieces

/-- A node that is made with the text of what is read. -/
def node {α : Type} (r : Reader (NodeText → α)) : Reader α where
  read := fun tokens =>
    match r.read tokens with
    | .ok (make, rest) => .ok (make (textBetween tokens rest), rest)
    | .error offset => .error offset
  passes := by
    intro tokens a rest h
    split at h
    · next hr =>
      cases h
      exact r.passes hr
    · cases h

/-- Whether the next token is the given one, which is dropped if so. -/
def accept (kind : TokenKind) : Reader Bool := do
  if (← peek) = kind then
    skip
    return true
  else return false

/-- Drops the given token. -/
def expect (kind : TokenKind) : Reader Unit := do
  if (← peek) = kind then skip else unexpected

/-- A name. -/
def name : Reader Name := do
  match ← peek with
  | .name n => skip; return n
  | _ => unexpected

/-- A name if the next token is one. -/
def name? : Reader (Option Name) := do
  match ← peek with
  | .name n => skip; return some n
  | _ => return none

/-- Values up to a closing mark, which is dropped. -/
def untilMark {α : Type} (close : Char) (r : Reader α) : Nat → Reader (List α)
  | 0 => unexpected
  | fuel + 1 => do
    if ← accept (.mark close) then return []
    else
      let a ← r
      let rest ← untilMark close r fuel
      return a :: rest

/-- Any number of values between two marks. -/
def between {α : Type} (opening close : Char) (r : Reader α) : Reader (List α) := do
  expect (.mark opening)
  untilMark close r (← remaining)

/-- At least one value between two marks. -/
def between₁ {α : Type} (opening close : Char) (r : Reader α) : Reader (List α) := do
  expect (.mark opening)
  let a ← r
  let rest ← untilMark close r (← remaining)
  return a :: rest

/-- At least one value between two marks if the opening one is there, else none. -/
def between? {α : Type} (opening close : Char) (r : Reader α) : Reader (List α) := do
  if (← peek) = .mark opening then between₁ opening close r else return []

/-- Further values, each after a mark. -/
def after {α : Type} (mark : Char) (r : Reader α) : Nat → Reader (List α)
  | 0 => return []
  | fuel + 1 => do
    if ← accept (.mark mark) then
      let a ← r
      let rest ← after mark r fuel
      return a :: rest
    else return []

/-- Values separated by a mark, which may also stand before the first one. -/
def separated {α : Type} (mark : Char) (r : Reader α) : Reader (List α) := do
  let _ ← accept (.mark mark)
  let a ← r
  let rest ← after mark r (← remaining)
  return a :: rest

/-! ## Types and values -/

/-- Makes a type non-null if an exclamation mark follows. -/
def withMark (type : TypeNode) : Reader TypeNode := do
  if ← accept (.mark '!') then return .nonNull (some type) else return type

/-- How many lists, object fields, selection sets and list types may be open at once. -/
def nestingLimit : Nat := 500

/-- A reference to a type; item types are read by `item`. -/
def typeRefOf (item : Reader TypeNode) : Reader TypeNode := do
  match ← peek with
  | .name n => skip; withMark (.named (some n))
  | .mark '[' =>
    skip
    let type ← item
    expect (.mark ']')
    withMark (.list (some type))
  | _ => unexpected

/-- A reference to a type with so many lists at most. -/
def typeRefWithin : Nat → Reader TypeNode
  | 0 => typeRefOf unexpected
  | levels + 1 => typeRefOf (typeRefWithin levels)

/-- A reference to a type. -/
def typeRef : Reader TypeNode :=
  typeRefWithin nestingLimit

/-- The value that a name stands for. -/
def nameValue (name : Name) : ValueNode :=
  if name = "true" then .boolean true
  else if name = "false" then .boolean false
  else if name = "null" then .null
  else .enumValue (some name)

/-- Whether variables may occur in a value. -/
inductive Constness where
  /-- They may not. -/
  | constant
  /-- They may. -/
  | general
deriving DecidableEq

/-- A field of an object, which may be a name alone.  Its value is read by `nested`. -/
def objectField (nested : Reader ValueNode) : Reader (Option Name × Option ValueNode) := do
  let key ← name
  if ← accept (.mark ':') then
    let value ← nested
    return (some key, some value)
  else return (some key, none)

/-- A value; values in lists and objects are read by `nested`. -/
def valueOf (constness : Constness) (nested : Reader ValueNode) : Reader ValueNode := do
  match ← peek with
  | .name n => skip; return nameValue n
  | .number text => skip; return .number text
  | .string s => skip; return .string s
  | .mark '$' =>
    match constness with
    | .constant => unexpected
    | .general =>
      skip
      let n ← name
      return .variable (some n)
  | .mark '[' =>
    let items ← between '[' ']' nested
    return .list items
  | .mark '\x7b' =>
    let fields ← between '\x7b' '\x7d' (objectField nested)
    return .object fields
  | _ => unexpected

/-- A value with so many levels of lists and object fields at most. -/
def valueWithin (constness : Constness) : Nat → Reader ValueNode
  | 0 => valueOf constness unexpected
  | levels + 1 => valueOf constness (valueWithin constness levels)

/-- A value outside of selection sets. -/
def value (constness : Constness) : Reader ValueNode :=
  valueWithin constness nestingLimit

/-- An argument, which may be a name alone. -/
def argument (value : Reader ValueNode) : Reader ArgumentNode := do
  let n ← name
  if ← accept (.mark ':') then
    let v ← value
    return ⟨some n, some v⟩
  else return ⟨some n, none⟩

def arguments (value : Reader ValueNode) : Reader (List ArgumentNode) :=
  between? '(' ')' (argument value)

/-- A directive after its mark. -/
def directive (value : Reader ValueNode) : Reader DirectiveNode := do
  let n ← name
  let args ← arguments value
  return ⟨some n, args⟩

/-- Any number of directives. -/
def directives (value : Reader ValueNode) : Reader (List DirectiveNode) := do
  after '@' (directive value) (← remaining)

/-- Any number of directives without variables. -/
def constantDirectives : Reader (List DirectiveNode) :=
  directives (value .constant)

/-! ## Selections -/

/-- What the parts of a selection are read by. -/
structure SelectionParts where
  value : Reader ValueNode
  /-- Sub-selections with their braces. -/
  selections : Reader (List SelectionNode)

/-- An alias with its colon, which must follow the name without a comma. -/
def alias? : Reader (Option Name) := do
  if (← peekSecond) = some (.mark ':') then
    let n ← name
    skip
    return some n
  else return none

def field (parts : SelectionParts) : Reader SelectionNode := node do
  let aliased ← alias?
  let n ← name
  let args ← arguments parts.value
  let dirs ← directives parts.value
  let sels? ← if (← peek) = .mark '\x7b' then do
      let sels ← parts.selections
      Pure.pure (some sels)
    else Pure.pure none
  return fun text => .field ⟨text, aliased.map some, some n, args, dirs, sels?⟩

/-- An inline fragment after its points and type condition. -/
def inlineFragment (parts : SelectionParts) (typeCondition : Option Name) :
    Reader (NodeText → SelectionNode) := do
  let dirs ← directives parts.value
  let sels ← parts.selections
  return fun text => .inlineFragment ⟨text, typeCondition.map some, dirs, some sels⟩

/-- A spread or an inline fragment.  What follows the points decides, so it must follow them
without a comma. -/
def fragmentSelection (parts : SelectionParts) : Reader SelectionNode := node do
  match ← peekSecond with
  | some (.name n) =>
    skip
    skip
    if n = "on" then
      let condition ← name
      inlineFragment parts (some condition)
    else
      let dirs ← directives parts.value
      return fun text => .spread ⟨text, some n, dirs⟩
  | some (.mark '@') => skip; inlineFragment parts none
  | some (.mark '\x7b') => skip; inlineFragment parts none
  | _ => unexpected

def selection (parts : SelectionParts) : Reader SelectionNode := do
  match ← peek with
  | .ellipsis => fragmentSelection parts
  | _ => field parts

/-- A selection set with its braces and so many levels at most. -/
def selectionSetWithin : Nat → Reader (List SelectionNode)
  | 0 => do
    expect (.mark '\x7b')
    unexpected
  | levels + 1 =>
    between₁ '\x7b' '\x7d'
      (selection ⟨valueWithin .general levels, selectionSetWithin levels⟩)

/-- A selection set with its braces. -/
def selections : Reader (List SelectionNode) :=
  selectionSetWithin nestingLimit

/-! ## Executable definitions -/

def variableDefinition : Reader VariableDefinitionNode := node do
  expect (.mark '$')
  let n ← name
  expect (.mark ':')
  let type ← typeRef
  let default? ← if ← accept (.mark '=') then do
      let v ← value .constant
      Pure.pure (some (some v))
    else Pure.pure none
  let _ ← constantDirectives
  return fun text => ⟨text, some n, some type, default?⟩

/-- An operation after its keyword. -/
def operation (keyword : Name) : Reader (NodeText → DefinitionNode) := do
  let n? ← name?
  let defs ← between? '(' ')' variableDefinition
  let dirs ← directives (value .general)
  let sels ← selections
  return fun text => .operation ⟨text, some keyword, n?, defs, dirs, some sels⟩

/-- A fragment after the first token of its definition. -/
def fragment : Reader (NodeText → DefinitionNode) := do
  if (← peek) = .name "on" then unexpected
  else
    let n ← name
    expect (.name "on")
    let condition ← name
    let dirs ← directives (value .general)
    let sels ← selections
    return fun text => .fragment ⟨text, some n, some (some condition), dirs, some sels⟩

/-! ## Type system definitions -/

/-- Drops a description if there is one. -/
def description : Reader Unit := do
  match ← peek with
  | .string _ => skip
  | _ => return ()

/-- An argument or input field definition. -/
def inputValueDefinition : Reader Unit := do
  description
  let _ ← name
  expect (.mark ':')
  let _ ← typeRef
  if ← accept (.mark '=') then
    let _ ← value .constant
  let _ ← constantDirectives

def fieldDefinition : Reader Unit := do
  description
  let _ ← name
  let _ ← between? '(' ')' inputValueDefinition
  expect (.mark ':')
  let _ ← typeRef
  let _ ← constantDirectives

def enumValueDefinition : Reader Unit := do
  description
  match ← peek with
  | .name n => if n = "true" ∨ n = "false" ∨ n = "null" then unexpected else skip
  | _ => unexpected
  let _ ← constantDirectives

/-- A root operation, which may lack its type. -/
def rootDefinition : Reader Unit := do
  match ← peek with
  | .name n => if n = "query" ∨ n = "mutation" ∨ n = "subscription" then skip else unexpected
  | _ => unexpected
  expect (.mark ':')
  match ← peek with
  | .name _ => skip
  | _ => return ()

/-- The interfaces of a type, if it has any; says whether it does. -/
def implementsClause : Reader Bool := do
  if ← accept (.name "implements") then
    let _ ← separated '&' name
    return true
  else return false

/-- Members of a union, if any are given; says whether they are. -/
def unionMembers : Reader Bool := do
  if ← accept (.mark '=') then
    let _ ← separated '|' name
    return true
  else return false

/-- Where a directive may stand. -/
def directiveLocations : List Name :=
  ["QUERY", "MUTATION", "SUBSCRIPTION", "FIELD", "FRAGMENT_DEFINITION", "FRAGMENT_SPREAD",
    "INLINE_FRAGMENT", "VARIABLE_DEFINITION", "SCHEMA", "SCALAR", "OBJECT", "FIELD_DEFINITION",
    "ARGUMENT_DEFINITION", "INTERFACE", "UNION", "ENUM", "ENUM_VALUE", "INPUT_OBJECT",
    "INPUT_FIELD_DEFINITION"]

def directiveLocation : Reader Unit := do
  match ← peek with
  | .name n => if n ∈ directiveLocations then skip else unexpected
  | _ => unexpected

/-- Whether a non-empty list was read. -/
def given {α : Type} (r : Reader (List α)) : Reader Bool := do
  let l ← r
  return !l.isEmpty

/-- What may follow the name of a type, by its keyword; says whether anything did. -/
def typeBody (keyword : Name) : Reader Bool := do
  if keyword = "scalar" then given (constantDirectives)
  else if keyword = "type" ∨ keyword = "interface" then
    let a ← implementsClause
    let b ← given (constantDirectives)
    let c ← given (between? '\x7b' '\x7d' fieldDefinition)
    return a || b || c
  else if keyword = "union" then
    let a ← given (constantDirectives)
    let b ← unionMembers
    return a || b
  else if keyword = "enum" then
    let a ← given (constantDirectives)
    let b ← given (between? '\x7b' '\x7d' enumValueDefinition)
    return a || b
  else if keyword = "input" then
    let a ← given (constantDirectives)
    let b ← given (between? '\x7b' '\x7d' inputValueDefinition)
    return a || b
  else unexpected

/-- A directive definition after its keyword. -/
def directiveDefinition : Reader Unit := do
  expect (.mark '@')
  let _ ← name
  let _ ← between? '(' ')' inputValueDefinition
  let _ ← accept (.name "repeatable")
  expect (.name "on")
  let _ ← separated '|' directiveLocation

/-- A schema definition after its keyword.  It may lack its body. -/
def schemaDefinition : Reader Unit := do
  let _ ← constantDirectives
  let _ ← between? '\x7b' '\x7d' rootDefinition

/-- The keywords that start the definition of a type. -/
def typeKeywords : List Name :=
  ["scalar", "type", "interface", "union", "enum", "input"]

/-- What may follow the keyword of a schema extension; says whether anything did. -/
def schemaExtensionBody : Reader Bool := do
  let a ← given constantDirectives
  if (← peek) = .mark '\x7b' then
    let b ← given (between '\x7b' '\x7d' rootDefinition)
    return a || b
  else return a

/-- An extension from its first keyword on; it must add something.  The second keyword decides, so
it must follow the first without a comma. -/
def extension : Reader TypeSystemDefinition := do
  match ← peekSecond with
  | some (.name keyword) =>
    if keyword = "schema" then
      skip
      skip
      if ← schemaExtensionBody then return .schemaExtension else unexpected
    else if keyword ∈ typeKeywords then
      skip
      skip
      let _ ← name
      if ← typeBody keyword then return .type else unexpected
    else unexpected
  | _ => unexpected

/-- A type system definition after its description. -/
def typeSystemDefinition : Reader TypeSystemDefinition := do
  match ← peek with
  | .name keyword =>
    if keyword = "schema" then
      skip
      schemaDefinition
      return .schema
    else if keyword = "directive" then
      skip
      directiveDefinition
      return .directive
    else if keyword ∈ typeKeywords then
      skip
      let _ ← name
      let _ ← typeBody keyword
      return .type
    else unexpected
  | _ => unexpected

/-! ## Documents -/

/-- A definition of the type system, of which the kind is read. -/
def typeSystem (kind : Reader TypeSystemDefinition) : Reader (NodeText → DefinitionNode) := do
  let k ← kind
  return .typeSystem k

/-- A definition that starts with a description, which the second token has to follow without a
comma.  Operations and extensions have none.

Where a fragment has one, it stands in the place of the keyword: the word `fragment` after it is the
name. -/
def describedDefinition : Reader (NodeText → DefinitionNode) := do
  match ← peekSecond with
  | some (.name keyword) =>
    if keyword = "fragment" then
      skip
      fragment
    else if keyword = "schema" ∨ keyword = "directive" ∨ keyword ∈ typeKeywords then
      skip
      typeSystem typeSystemDefinition
    else unexpected
  | _ => unexpected

def definition : Reader DefinitionNode := node do
  match ← peek with
  | .mark '\x7b' =>
    let sels ← selections
    return fun text => .operation ⟨text, none, none, [], [], some sels⟩
  | .string _ => describedDefinition
  | .name keyword =>
    if keyword = "query" ∨ keyword = "mutation" ∨ keyword = "subscription" then
      skip
      operation keyword
    else if keyword = "fragment" then
      skip
      fragment
    else if keyword = "extend" then
      typeSystem extension
    else
      typeSystem typeSystemDefinition
  | _ => unexpected

/-- Definitions up to the end of the text. -/
def definitionsUntilEnd : Nat → Reader (List DefinitionNode)
  | 0 => unexpected
  | fuel + 1 => do
    if (← peek) = .endOfText then return []
    else
      let d ← definition
      let rest ← definitionsUntilEnd fuel
      return d :: rest

/-- All definitions of a text, of which there is at least one. -/
def definitions : Reader (List DefinitionNode) := do
  let d ← definition
  let rest ← definitionsUntilEnd (← remaining)
  return d :: rest

end Reader

end GraphQLEngine
