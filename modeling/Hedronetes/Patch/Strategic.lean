import Hedronetes.Foundations.Budgets
import Hedronetes.Foundations.StableSort
import Hedronetes.Server.Resources
import Hedronetes.Server.Values

/-!
# Strategic merge

The native strategic merge: objects are merged field by field under the schema of the kind, lists
with a merge strategy item by item, and directives delete, replace and order. The work is paid from
a budget, and nesting is bounded.
-/

namespace Hedronetes.Strategic

open FirstMatch StableSort Effects Apply Server

/-- The work budget is what the computation leaves of it. -/
abbrev Spending := EStateM Stop ℕ

def spend (amount : ℕ) : Spending Unit :=
  Budgets.spend (failure 413 "RequestEntityTooLarge" "strategic patch work limit exceeded") amount

def saturatingMul (a b : ℕ) : ℕ := min (a * b) (2 ^ 64 - 1)

/-- The members of an object, in key order. -/
abbrev Fields := List (String × Json)

def expectList (v : Json) (message : String) : Outcome (List Json) :=
  match v.asArray with
  | some items => .ok items
  | none => .error (invalid message)

/-! ## The schema of a value -/

section

variable (schemas : Json)

def resolve (schema : Json) : Json :=
  match schema["$ref"].asString.bind (stripStart "#/definitions/") with
  | some name => schemas["definitions"][name]
  | none => schema

def field (schema : Json) (key : String) : Json :=
  let schema := resolve schemas schema
  (schema["properties"].field key).getD schema["additionalProperties"]

end

def strategy (schema : Json) (expected : String) : Bool :=
  schema["x-kubernetes-patch-strategy"].asString.any fun s => (splitOn ',' s).contains expected

def mergeKey (schema : Json) : Option String := schema["x-kubernetes-patch-merge-key"].asString

def isScalar : Json → Bool
  | .string _ => true
  | .number _ => true
  | .bool _ => true
  | _ => false

/-- What tells the items of a list apart: the merge key, or the item itself. -/
def identity (key : Option String) (value : Json) : Outcome Json := do
  let id ← match key with
    | some key =>
      match value.field key with
      | some id => Except.ok id
      | none => .error (invalid "strategic list item is missing its merge key")
    | none => .ok value
  if isScalar id then .ok id
  else .error (invalid "strategic list keys/items must be scalars")

/-- Every item can be told apart. -/
def identities (key : Option String) (values : List Json) : Outcome Unit :=
  values.forM fun v => do
    let _ ← identity key v
    return ()

/-! ## The order of a list -/

/-- The first place in a list that has the identity of the value. -/
def position (key : Option String) (list : List Json) (v : Json) : Option ℕ :=
  list.findIdx? fun other => (identity key v).toOption = (identity key other).toOption

/-- The place as a sort key: a value without one comes before the others. -/
def rank (key : Option String) (list : List Json) (v : Json) : ℕ :=
  match position key list v with
  | some place => place + 1
  | none => 0

/-- Whether an untouched value keeps its place before a requested one. -/
def before (key : Option String) (old : List Json) (left right : Json) : Bool :=
  match position key old left, position key old right with
  | some l, some r => l < r
  | _, _ => false

/-- The requested values in the requested order among the untouched ones in their old order. -/
def interleaved (key : Option String) (values order old : List Json) : List Json :=
  let requested := values.filter fun v => (position key order v).isSome
  let untouched := values.filter fun v => !(position key order v).isSome
  weave (before key old) (sortBy (rank key old) untouched) (sortBy (rank key order) requested)

def reorder (key : Option String) (values order old : List Json) : Spending (List Json) := do
  spend (saturatingMul (values.length + order.length) (old.length + order.length + 1))
  ofExcept (identities key (values ++ order ++ old))
  return interleaved key values order old

/-! ## New values -/

/-- A value that was not there is copied without null members and without what carries `$patch`. -/
def freshItem (fresh : Json → Spending (Option Json)) (result : List Json) (item : Json) :
    Spending (List Json) := do
  match ← fresh item with
  | some v => return result ++ [v]
  | none => return result

def freshField (fresh : Json → Spending (Option Json)) (result : Fields) (e : String × Json) :
    Spending Fields := do
  if e.2 = .null then return result
  match ← fresh e.2 with
  | some v => return insertKey e.1 v result
  | none => return result

/-- The levels count down where the source counts the depth up to 64. -/
def fresh : ℕ → Json → Spending (Option Json)
  | 0, _ => do
    spend 1
    throw (invalid "strategic patch nesting exceeds 64 levels")
  | levels + 1, value => do
    spend 1
    match value with
    | .object fields =>
      if (lookup "$patch" fields).isSome then return none
      let result ← fields.foldlM (freshField (fresh levels)) []
      return some (.object result)
    | .array items =>
      let result ← items.foldlM (freshItem (fresh levels)) []
      return some (.array result)
    | value => return some value

/-! ## Lists -/

/-- What the directives of a patch list leave of the current list, and its ordinary items. -/
structure Reading where
  result : List Json
  ordinary : List Json
  replace : Bool

def readItem (key : Option String) (reading : Reading) (item : Json) : Outcome Reading :=
  match item.field "$patch" with
  | some directive =>
    if key = none then .error (invalid "$patch list directives require a keyed list")
    else
      match directive.asString with
      | some "replace" => .ok { reading with replace := true }
      | some "delete" => do
        let id ← identity key item
        return { reading with
          result := reading.result.filter fun v => (identity key v).toOption ≠ some id }
      | _ => .error (invalid "invalid strategic list $patch directive")
  | none => do
    let _ ← identity key item
    return { reading with ordinary := reading.ordinary ++ [item] }

/-- An ordinary item is merged into the item of its identity, or added. -/
def mergeItem (merge : Json → Json → Json → Spending Json) (key : Option String) (schema : Json)
    (result : List Json) (item : Json) : Spending (List Json) := do
  let id ← ofExcept (identity key item)
  match result.findIdx? fun v => (identity key v).toOption = some id with
  | some index =>
    if key.isSome then
      let merged ← merge (result[index]?.getD .null) item schema
      return result.set index merged
    else return result
  | none => return result ++ [item]

def unique (values : List Json) : List Json :=
  values.foldl (fun unique v => if v ∈ unique then unique else unique ++ [v]) []

def list (schemas : Json) (merge : Json → Json → Json → Spending Json) (old patch : List Json)
    (schema : Json) : Spending Json := do
  spend (saturatingMul (old.length + patch.length) (patch.length + 1))
  let key := mergeKey schema
  ofExcept (identities key old)
  let reading ← ofExcept (patch.foldlM (readItem key) ⟨old, [], false⟩)
  if reading.replace then return .array reading.ordinary
  let result ← reading.ordinary.foldlM (mergeItem merge key (resolve schemas schema)["items"])
    reading.result
  if key.isSome then
    let ordered ← reorder key result reading.ordinary old
    return .array ordered
  else
    spend (saturatingMul result.length result.length)
    let ordered ← reorder key (unique result) reading.ordinary old
    return .array ordered

/-! ## Objects -/

/-- A field name that starts with `$` is a directive. -/
def isDirective (name : String) : Bool := name.toList.head? = some '$'

def retainKeys (patch result : Fields) : Spending Fields :=
  match lookup "$retainKeys" patch with
  | none => return result
  | some retain => do
    let retain ← ofExcept (expectList retain "$retainKeys must be a string list")
    spend (saturatingMul retain.length (result.length + patch.length))
    ofExcept (require (retain.all (fun v => v.asString.isSome) && patch.all fun e =>
      isDirective e.1 || e.2 = .null || retain.any fun v => v.asString = some e.1)
      "$retainKeys must contain every non-null patch field")
    return result.filter fun e => retain.any fun v => v.asString = some e.1

/-- A null removes a field, a field without a value is new, any other is merged. -/
def mergeField (schemas : Json) (merge : Json → Json → Json → Spending Json)
    (fresh : Json → Spending (Option Json)) (schema : Json) (result : Fields)
    (e : String × Json) : Spending Fields := do
  if e.2 = .null then return eraseKey e.1 result
  let old := (lookup e.1 result).getD .null
  if old = .null then
    match ← fresh e.2 with
    | some value => return insertKey e.1 value (eraseKey e.1 result)
    | none => return eraseKey e.1 result
  else
    let merged ← merge old e.2 (field schemas schema e.1)
    return insertKey e.1 merged (eraseKey e.1 result)

def deleteFromList (schemas schema : Json) (result : Fields) (e : String × Json) :
    Spending Fields :=
  if e.1 = "$retainKeys" then return result
  else
    match stripStart "$deleteFromPrimitiveList/" e.1 with
    | some name => do
      let child := field schemas schema name
      ofExcept (require (strategy child "merge" && (mergeKey child).isNone)
        "primitive deletion requires a primitive merge list")
      let removals ← ofExcept (expectList e.2 "primitive deletion must be a list")
      ofExcept (identities none removals)
      match lookup name result with
      | none => return result
      | some old =>
        let old ← ofExcept (expectList old "primitive deletion target is not a list")
        spend (saturatingMul old.length removals.length)
        return insertKey name (.array (old.filter fun v => v ∉ removals)) result
    | none =>
      if (stripStart "$setElementOrder/" e.1).isSome then return result
      else throw (invalid "unknown strategic patch directive")

/-- What the order leaves behind the item: the patched items must follow it. -/
def follow (key : Option String) (order : List Json) (v : Json) : Outcome (List Json) := do
  let id ← identity key v
  match order.findIdx? fun v => (identity key v).toOption = some id with
  | some offset => return order.drop (offset + 1)
  | none => .error (invalid "patch list conflicts with $setElementOrder")

def followed (key : Option String) (patch : Fields) (name : String) (order : List Json) :
    Spending Unit :=
  match lookup name patch with
  | none => return ()
  | some values => do
    let values ← ofExcept (expectList values "ordered patch must be a list")
    spend (saturatingMul values.length order.length)
    let _ ← ofExcept ((values.filter fun v => (v.field "$patch").isNone).foldlM (follow key) order)
    return ()

def orderList (schemas original : Json) (patch : Fields) (schema : Json) (result : Fields)
    (e : String × Json) : Spending Fields :=
  match stripStart "$setElementOrder/" e.1 with
  | none => return result
  | some name => do
    let child := field schemas schema name
    ofExcept (require (strategy child "merge") "element ordering requires a merge list")
    let order ← ofExcept (expectList e.2 "element order must be a list")
    let key := mergeKey child
    ofExcept (identities key order)
    followed key patch name order
    match lookup name result with
    | none => return result
    | some values =>
      let values ← ofExcept (expectList values "ordered value must be a list")
      let old := ((original.field name).bind Json.asArray).getD []
      let ordered ← reorder key values order old
      return insertKey name (.array ordered) (eraseKey name result)

def map (schemas : Json) (merge : Json → Json → Json → Spending Json)
    (fresh : Json → Spending (Option Json)) (original : Json) (patch : Fields) (schema : Json) :
    Spending Json :=
  match lookup "$patch" patch with
  | some directive =>
    match directive.asString with
    | some "replace" => return .object (eraseKey "$patch" patch)
    | some "delete" => return .object []
    | _ => throw (invalid "invalid strategic map $patch directive")
  | none => do
    let result ← retainKeys patch (original.asObject.getD [])
    let result ← (patch.filter fun e => !isDirective e.1).foldlM
      (mergeField schemas merge fresh schema) result
    let directives := patch.filter fun e => isDirective e.1
    let result ← directives.foldlM (deleteFromList schemas schema) result
    let result ← directives.foldlM (orderList schemas original patch schema) result
    return .object result

/-! ## The whole merge -/

/-- The levels count down where the source counts the depth up to 64. -/
def merge (schemas : Json) : ℕ → Json → Json → Json → Spending Json
  | 0, _, _, _ => do
    spend 1
    throw (invalid "strategic patch nesting exceeds 64 levels")
  | levels + 1, original, patch, schema => do
    spend 1
    match patch with
    | .object fields => map schemas (merge schemas levels) (fresh levels) original fields schema
    | .array items =>
      if strategy schema "merge" then
        list schemas (merge schemas levels) (original.asArray.getD []) items schema
      else return .array items
    | value => return value

def apply (schemas : Json) (kind : String) (original patch : Json) : Outcome Json :=
  if !patch.isObject then .error (invalid "strategic patch must be an object")
  else
    match schemas["roots"][kind].asString with
    | none => .error (invalid ("strategic merge is not implemented for this resource; " ++
        "use a JSON merge or a full update"))
    | some root =>
      match merge schemas 65 original patch schemas["definitions"][root] 1000000 with
      | .ok result _ => .ok result
      | .error e _ => .error e

end Hedronetes.Strategic
