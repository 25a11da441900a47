import FastJsonSchema.Compile.Scope

/-!
# Compilation

`compile` of `compiled_schema.c`, with the collections of `schema_collection.c`, the maps of
`properties_val.c` and the unknown containers of `nested_schemas.c`. It builds the compiled schema
of a value and extends the reference table on the way. The recursion is on a fuel; the nesting of
the value bounds it (`compile_emits` in `Compile.Positions`).
-/

namespace FastJsonSchema

open Ruby

/-- Why a schema is rejected. -/
inductive CompileError
  | emptyTypeArray
  | typeElementNotString
  | unknownType (name : RString)
  | duplicateType (name : RString)
  /-- `StringValueCStr` on a string with a NUL. -/
  | nullByte
  /-- A key of `patternProperties` is not a regular expression. -/
  | regexpError
  | unresolvedRef (ref : RString)
  | unresolvedRefTo (ref resolved : RString)
  /-- The fuel ran out; the compilation of no schema ends so. -/
  | starved
  deriving DecidableEq

/-- The message of an error that the extension raises itself. -/
def CompileError.message : CompileError → Option RString
  | .emptyTypeArray => some (str "Invalid 'type' array: must contain at least one element")
  | .typeElementNotString => some (str "Invalid 'type' array: elements must be strings")
  | .unknownType name => some (str "Invalid 'type' array: unknown type " ++ name)
  | .duplicateType name => some (str "Invalid 'type' array: duplicate type " ++ name)
  | .unresolvedRef ref => some (str "Unresolved $ref: " ++ ref)
  | .unresolvedRefTo ref resolved =>
    some (str "Unresolved $ref: " ++ ref ++ str " (resolved to " ++ resolved ++ str ")")
  | _ => none

/-- An error whose message names a string: `StringValueCStr` comes first. -/
def naming (names : List RString) (e : CompileError) : CompileError :=
  if names.any (·.contains 0) then .nullByte else e

/-- Compilation extends the reference table and may raise. -/
abbrev CompileM := StateT RefData (Except CompileError)

/-- Write entries to the reference table, one after the other. -/
def register (ws : RefData) : CompileM Unit := modify fun rd => ws.reverse ++ rd

/-- A recursive call of `compile`. -/
abbrev CompileCall := CompiledSchema → Value → CompileContext → CompileM CompiledSchema

/-! ## Keywords without subschemas -/

section Keywords

variable (kvs : List (Value × Value)) (keyword : RString)

/-- `ASSIGN_TYPED_VALUE_TO_COMPILED_SCHEMA_1(keyword, T_STRING)` -/
def stringKeyword : Option RString :=
  match Value.aref kvs keyword with
  | .str s => some s
  | _ => none

/-- `ASSIGN_TYPED_VALUE_TO_COMPILED_SCHEMA_1(keyword, T_ARRAY)` -/
def arrayKeyword : Option (List Value) :=
  match Value.aref kvs keyword with
  | .arr xs => some xs
  | _ => none

/-- `ASSIGN_TYPED_VALUE_TO_COMPILED_SCHEMA_2(keyword, T_TRUE, T_FALSE)` -/
def boolKeyword : Option Bool :=
  match Value.aref kvs keyword with
  | .bool b => some b
  | _ => none

/-- `ASSIGN_TYPED_VALUE_TO_COMPILED_SCHEMA_3(keyword, T_FIXNUM, T_BIGNUM, T_FLOAT)` -/
def numberKeyword : Option Value :=
  match Value.aref kvs keyword with
  | .int n => some (.int n)
  | .float x => some (.float x)
  | _ => none

end Keywords

/-- The flag of a type name. -/
def typeFlag (name : RString) : Option TypeFlag :=
  if name = nullTypeStr then some .null
  else if name = booleanTypeStr then some .bool
  else if name = stringTypeStr then some .string
  else if name = integerTypeStr then some .integer
  else if name = numberTypeStr then some .number
  else if name = arrayTypeStr then some .array
  else if name = objectStr then some .object
  else none

/-- The loop of `parse_type_array`. -/
def parseTypes : List Value → List TypeFlag → Except CompileError (List TypeFlag)
  | [], flags => .ok flags
  | .str name :: elems, flags =>
    match typeFlag name with
    | none => .error (naming [name] (.unknownType name))
    | some flag =>
      if flag ∈ flags then .error (naming [name] (.duplicateType name))
      else parseTypes elems (flags ++ [flag])
  | _ :: _, _ => .error .typeElementNotString

/-- `parse_type_array` -/
def parseTypeArray (arr : List Value) : Except CompileError (List TypeFlag) :=
  if arr = [] then .error .emptyTypeArray else parseTypes arr []

/-- `type_validation_function`, with the `type_flags` it sets. -/
def typeValidationFunction (kvs : List (Value × Value)) :
    Except CompileError (TypeValidationFunction × List TypeFlag) :=
  match Value.aref kvs typeStr with
  | .arr arr => (parseTypeArray arr).map fun flags => (.validateByTypeList, flags)
  | .str name =>
    let name := name.cString
    .ok (if name = nullTypeStr then .validateNull
      else if name = booleanTypeStr then .validateBool
      else if name = stringTypeStr then .validateString
      else if name = integerTypeStr then .validateInteger
      else if name = numberTypeStr then .validateNumber
      else if name = arrayTypeStr then .validateArray
      else if name = objectStr then .validateObject
      else .noOpValidate, [])
  | _ => .ok (.validateByDataType, [])

/-- The name of a built-in format. -/
def Format.name : Format → RString
  | .date => str "date"
  | .time => str "time"
  | .dateTime => str "date-time"
  | .email => str "email"
  | .idnEmail => str "idn-email"
  | .hostname => str "hostname"
  | .idnHostname => str "idn-hostname"
  | .ipv4 => str "ipv4"
  | .ipv6 => str "ipv6"
  | .uri => str "uri"
  | .uriReference => str "uri-reference"
  | .iri => str "iri"
  | .iriReference => str "iri-reference"
  | .uriTemplate => str "uri-template"
  | .regex => str "regex"
  | .jsonPointer => str "json-pointer"
  | .relativeJsonPointer => str "relative-json-pointer"

def Format.all : List Format :=
  [.date, .time, .dateTime, .email, .idnEmail, .hostname, .idnHostname, .ipv4, .ipv6, .uri,
    .uriReference, .iri, .iriReference, .uriTemplate, .regex, .jsonPointer, .relativeJsonPointer]

/-- `built_in_format_validation_function_for` -/
def builtInFormat (name : RString) : FormatValidationFunction :=
  match Format.all.find? (·.name == name) with
  | some f => .builtIn f
  | none => .noOpFormatValidate

/-- The three fields of `set_format_validation_function_for_compiled_schema`. -/
structure FormatFields where
  function : FormatValidationFunction
  callable : Option ℕ
  errorKey : Option RString

/-- `set_format_validation_function_for_compiled_schema` -/
def formatFields (customFormats : Option (List (RString × ℕ))) (formatVal : Value) :
    Except CompileError FormatFields :=
  match formatVal with
  | .str name =>
    match (customFormats.getD []).lookup name with
    | some callable =>
      .ok ⟨.validateCustomFormat, some callable, some (str "format_" ++ name)⟩
    | none => if name.contains 0 then .error .nullByte else .ok ⟨builtInFormat name, none, none⟩
  | _ => .ok ⟨.noOpFormatValidate, none, none⟩

/-! ## Keywords with subschemas -/

/-- A hash, `true` or `false`. -/
def isSchemaShaped : Value → Bool
  | .hash _ => true
  | .bool _ => true
  | _ => false

section Subschemas

variable (rec : CompileCall) (parent : CompiledSchema) (kvs : List (Value × Value))
  (ctx : CompileContext) (keyword : RString)

/-- `ASSIGN_SCHEMA_TO_COMPILED_SCHEMA`: the child gets the context of its parent. -/
def assignSchema : CompileM (Option CompiledSchema) :=
  let val := Value.aref kvs keyword
  if isSchemaShaped val then
    some <$> rec (.create (parent.addr ++ [keyword]) (newPath parent.path keyword)) val ctx
  else pure none

/-- The loop of `compile_schema_collection`, from an index on. -/
def compileElements : ℕ → List Value → CompileM (List CompiledSchema)
  | _, [] => pure []
  | i, v :: vs => do
    let path := appendLongToPath keyword i
    let child ← rec (.create (parent.addr ++ [keyword, decimal i]) (newPath parent.path path)) v
      (ctx.descend path)
    let rest ← compileElements (i + 1) vs
    pure (child :: rest)

/-- `ASSIGN_SCHEMA_COLLECTION_TO_COMPILED_SCHEMA` -/
def assignSchemaCollection : CompileM (Option (List CompiledSchema)) :=
  match Value.aref kvs keyword with
  | .arr xs => some <$> compileElements rec parent ctx keyword 0 xs
  | _ => pure none

/-- The loop over `compile_property`, with the value to compile at a key and the check of the key
transformation. -/
def compileMembers (value : Value → Value) (validKey : RString → Bool) :
    List (RString × Value) → CompileM (List (RString × CompiledSchema))
  | [] => pure []
  | (key, v) :: members => do
    let path := newPath keyword key
    let child ← rec (.create (parent.addr ++ [keyword, key]) (newPath parent.path path)) (value v)
      (ctx.descend path)
    if validKey key then
      let rest ← compileMembers value validKey members
      pure ((key, child) :: rest)
    else throw .regexpError

/-- `compile_properties`, and `compile_dependencies_val` for its own `value`. -/
def compileProperties (value : Value → Value) (validKey : RString → Bool) :
    CompileM (Option (List (RString × CompiledSchema))) :=
  match Value.aref kvs keyword with
  | .hash members =>
    some <$> compileMembers rec parent ctx keyword value validKey (Value.stringEntries members)
  | _ => pure none

end Subschemas

/-- The value that `compile_dependency` compiles: an array of names is a schema that requires
them. -/
def dependencySchema : Value → Value
  | .arr names => .hash [(.str requiredStr, .arr names), (.str typeStr, .str objectStr)]
  | v => v

section Nested

variable (rec : CompileCall) (parent : CompiledSchema) (ctx : CompileContext)

mutual

/-- `compile_entry`, at the path from the parent and its tokens -/
def compileEntry : Value → RString → List RString → CompileM (List CompiledSchema)
  | .arr xs, path, tokens => compileArrayEntries xs 0 path tokens
  | .hash kvs, path, tokens =>
    (fun c => [c]) <$> rec (.create (parent.addr ++ tokens) (newPath parent.path path)) (.hash kvs)
      (ctx.descend path)
  | .bool b, path, tokens =>
    (fun c => [c]) <$> rec (.create (parent.addr ++ tokens) (newPath parent.path path)) (.bool b)
      (ctx.descend path)
  | _, _, _ => pure []

/-- `compile_array_entries`, from an index on -/
def compileArrayEntries :
    List Value → ℕ → RString → List RString → CompileM (List CompiledSchema)
  | [], _, _, _ => pure []
  | v :: vs, i, path, tokens => do
    let entry ← compileEntry v (appendLongToPath path i) (tokens ++ [decimal i])
    let rest ← compileArrayEntries vs (i + 1) path tokens
    pure (entry ++ rest)

end

/-- The members that `compile_nested` takes: those of unknown keywords. -/
def unknownMembers (kvs : List (Value × Value)) : List (RString × Value) :=
  (Value.stringEntries kvs).filter fun kv => !isKnownKeyword kv.1

/-- The loop over `compile_nested`. -/
def compileNested : List (RString × Value) → CompileM (List CompiledSchema)
  | [] => pure []
  | (key, v) :: members => do
    let entry ← compileEntry rec parent ctx v key [key]
    let rest ← compileNested members
    pure (entry ++ rest)

end Nested

/-! ## The whole schema -/

/-- The part of `compile` up to `resolve_uri_scope`: the compiled schema with its `$id` and `$ref`,
and the context of its children. -/
def readScope (rt : Runtime) (cs : CompiledSchema) (kvs : List (Value × Value))
    (ctx : CompileContext) : CompiledSchema × CompileContext :=
  resolveUriScope rt
    { cs with idVal := stringKeyword kvs idStr, refVal := stringKeyword kvs refStr } ctx

/-- The part of `compile` after the registration of the keys, in the context of the children. -/
def compileKeywords (rt : Runtime) (rec : CompileCall) (cs : CompiledSchema)
    (kvs : List (Value × Value)) (child : CompileContext) : CompileM CompiledSchema := do
  let ifSchema ← assignSchema rec cs kvs child ifStr
  let thenSchema ← assignSchema rec cs kvs child thenStr
  let elseSchema ← assignSchema rec cs kvs child elseStr
  let allOfVal ← assignSchemaCollection rec cs kvs child allOfStr
  let anyOfVal ← assignSchemaCollection rec cs kvs child anyOfStr
  let oneOfVal ← assignSchemaCollection rec cs kvs child oneOfStr
  let notSchema ← assignSchema rec cs kvs child notStr
  let itemsSchema ← assignSchema rec cs kvs child itemsStr
  let itemsVal ← assignSchemaCollection rec cs kvs child itemsStr
  let additionalItemsSchema ← assignSchema rec cs kvs child additionalItemsStr
  let containsSchema ← assignSchema rec cs kvs child containsStr
  let propertyNamesSchema ← assignSchema rec cs kvs child propertyNamesStr
  let additionalPropertiesSchema ← assignSchema rec cs kvs child additionalPropertiesStr
  let propertiesVal ← compileProperties rec cs kvs child propertiesStr id fun _ => true
  let patternPropertiesVal ←
    compileProperties rec cs kvs child patternPropertiesStr id rt.validRegexp
  let dependenciesVal ←
    compileProperties rec cs kvs child dependenciesStr dependencySchema fun _ => true
  let nestedSchemas ← compileNested rec cs child (unknownMembers kvs)
  let format ← formatFields child.customFormats (Value.aref kvs formatStr)
  let type ← typeValidationFunction kvs
  pure { cs with
    validationFunction := some (if cs.refVal.isSome then .validateRef else .validate)
    constVal := Value.get kvs constStr
    enumVal := arrayKeyword kvs enumStr
    ifSchema := ifSchema
    thenSchema := thenSchema
    elseSchema := elseSchema
    allOfVal := allOfVal
    anyOfVal := anyOfVal
    oneOfVal := oneOfVal
    notSchema := notSchema
    multipleOfVal := numberKeyword kvs multipleOfStr
    maximumVal := numberKeyword kvs maximumStr
    exclusiveMaximumVal := numberKeyword kvs exclusiveMaximumStr
    minimumVal := numberKeyword kvs minimumStr
    exclusiveMinimumVal := numberKeyword kvs exclusiveMinimumStr
    maxLengthVal := numberKeyword kvs maxLengthStr
    minLengthVal := numberKeyword kvs minLengthStr
    patternVal := stringKeyword kvs patternStr
    itemsSchema := itemsSchema
    itemsVal := itemsVal
    additionalItemsSchema := additionalItemsSchema
    containsSchema := containsSchema
    maxItemsVal := numberKeyword kvs maxItemsStr
    minItemsVal := numberKeyword kvs minItemsStr
    uniqueItemsVal := boolKeyword kvs uniqueItemsStr
    maxContainsVal := numberKeyword kvs maxContainsStr
    minContainsVal := numberKeyword kvs minContainsStr
    propertyNamesSchema := propertyNamesSchema
    additionalPropertiesSchema := additionalPropertiesSchema
    maxPropertiesVal := numberKeyword kvs maxPropertiesStr
    minPropertiesVal := numberKeyword kvs minPropertiesStr
    requiredVal := arrayKeyword kvs requiredStr
    propertiesVal := propertiesVal
    patternPropertiesVal := patternPropertiesVal
    dependenciesVal := dependenciesVal
    nestedSchemas := nestedSchemas
    formatValidationFunction := some format.function
    customFormatCallableVal := format.callable
    customFormatErrorKeyVal := format.errorKey
    typeValidationFunction := some type.1
    typeFlags := type.2 }

/-- `compile` -/
def compile (rt : Runtime) : ℕ → CompileCall
  | 0, _, _, _ => throw .starved
  | n + 1, cs, rubySchema, ctx => do
    register (pathKeys cs)
    match rubySchema with
    | .bool false => pure { cs with validationFunction := some .falseValidate }
    | .hash (kv :: kvs) =>
      let scope := readScope rt cs (kv :: kvs) ctx
      register (idKeys scope.1 ctx.currentBase)
      compileKeywords rt (compile rt n) scope.1 (kv :: kvs) scope.2
    | _ => pure { cs with validationFunction := some .noOpValidate }

end FastJsonSchema
