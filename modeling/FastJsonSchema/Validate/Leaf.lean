import FastJsonSchema.Validate.Basic

/-!
# Checks of a single value

The checks that look at no part of the value but its own: `validate_null`, `validate_bool`,
`validate_integer`, `validate_number`, `validate_string` with the formats, `const`, `enum`,
`required` and the size keywords. Each is a program without calls.
-/

namespace FastJsonSchema

open Ruby Traversal

/-- A numeric keyword: one branch for an `Integer`, converted by `NUM2LONG`, one for a `Float`,
none for a keyword that is not set. -/
def numericKeyword (val : Option Value) (int : ℤ → Code) (float : Double → Code) : Code :=
  match val with
  | some (.int n) => converted (num2long (.int n)) int
  | some (.float x) => float x
  | _ => .skip

/-- A numeric keyword that compares the value. -/
def checkNumeric (cs : CompiledSchema) (d : Datum) (type : RString) (val : Option Value)
    (int : ℤ → Bool) (float : Double → Bool) : Code :=
  numericKeyword val (fun m => .when (int m) (yieldError cs d type))
    fun m => .when (float m) (yieldError cs d type)

/-- A size keyword, converted by `num`. -/
def checkSize (cs : CompiledSchema) (d : Datum) (type : RString)
    (num : Value → Except RubyError ℤ) (val : Option Value) (violated : ℤ → Bool) : Code :=
  match val with
  | none => .skip
  | some v => converted (num v) fun m => .when (violated m) (yieldError cs d type)

def validateNull (cs : CompiledSchema) (d : Datum) : Code :=
  match d.value with
  | .nil => .skip
  | _ => yieldError cs d (str "type_null")

def validateBool (cs : CompiledSchema) (d : Datum) : Code :=
  match d.value with
  | .bool _ => .skip
  | _ => yieldError cs d (str "type_bool")

section Numbers

variable (rt : Runtime) (cs : CompiledSchema) (d : Datum)

/-- `validate_integer`. An `Integer` bound is compared as a `long`, a `Float` bound as a `double`;
the remainder by zero and the one overflowing remainder trap. -/
def validateInteger : Code :=
  match d.value with
  | .int n => converted (num2long (.int n)) fun dataC => .block [
      numericKeyword cs.multipleOfVal
        (fun m =>
          if m = 0 ∨ dataC = longMin ∧ m = -1 then .crash
          else .when (dataC.tmod m ≠ 0) (yieldError cs d (str "multipleOf")))
        (fun m =>
          .when (rt.hasFraction 64 ((Double.ofInt dataC).div m))
            (yieldError cs d (str "multipleOf"))),
      checkNumeric cs d (str "maximum") cs.maximumVal (dataC > ·) (·.lt (.ofInt dataC)),
      checkNumeric cs d (str "exclusiveMaximum") cs.exclusiveMaximumVal
        (dataC ≥ ·) (·.le (.ofInt dataC)),
      checkNumeric cs d (str "minimum") cs.minimumVal (dataC < ·) (Double.lt (.ofInt dataC)),
      checkNumeric cs d (str "exclusiveMinimum") cs.exclusiveMinimumVal
        (dataC ≤ ·) (Double.le (.ofInt dataC))]
  | _ => yieldError cs d (str "type_integer")

/-- `validate_number` after the conversion of the value to a `double`. -/
def validateDouble (dataC : Double) : Code := .block [
  checkNumeric cs d (str "multipleOf") cs.multipleOfVal
    (fun m => rt.hasFraction 32 (dataC.div (.ofInt m))) (fun m => rt.hasFraction 32 (dataC.div m)),
  checkNumeric cs d (str "maximum") cs.maximumVal
    (fun m => (Double.ofInt m).lt dataC) (fun m => m.lt dataC),
  checkNumeric cs d (str "exclusiveMaximum") cs.exclusiveMaximumVal
    (fun m => (Double.ofInt m).le dataC) (fun m => m.le dataC),
  checkNumeric cs d (str "minimum") cs.minimumVal (fun m => dataC.lt (.ofInt m)) (dataC.lt ·),
  checkNumeric cs d (str "exclusiveMinimum") cs.exclusiveMinimumVal
    (fun m => dataC.le (.ofInt m)) (dataC.le ·)]

/-- `validate_number` -/
def validateNumber : Code :=
  match d.value with
  | .float x => validateDouble rt cs d x
  | .int n => converted (num2long (.int n)) fun m => validateDouble rt cs d (.ofInt m)
  | _ => yieldError cs d (str "type_number")

end Numbers

section Strings

variable (rt : Runtime) (cs : CompiledSchema) (d : Datum)

/-- The error of a built-in format. -/
def Format.error : Format → RString
  | .date => str "format_date"
  | .time => str "format_time"
  | .dateTime => str "format_date_time"
  | .email => str "format_email"
  | .idnEmail => str "format_idn_email"
  | .hostname => str "format_hostname"
  | .idnHostname => str "format_idn_hostname"
  | .ipv4 => str "format_ipv4"
  | .ipv6 => str "format_ipv6"
  | .uri => str "format_uri"
  | .uriReference => str "format_uri_reference"
  | .iri => str "format_iri"
  | .iriReference => str "format_iri_reference"
  | .uriTemplate => str "format_uri_template"
  | .regex => str "format_regex"
  | .jsonPointer => str "format_json_pointer"
  | .relativeJsonPointer => str "format_relative_json_pointer"

/-- `validate_custom_format`: an exception of the callable counts as a rejection. -/
def validateCustomFormat : Code :=
  match cs.customFormatCallableVal, cs.customFormatErrorKeyVal with
  | some callable, some errorKey =>
    .when (rt.call callable d.value ≠ some true) (yieldError cs d errorKey.cString)
  | _, _ => .crash

/-- The call of `format_validation_function`, for a string. -/
def validateFormat (s : RString) : Code :=
  match cs.formatValidationFunction with
  | some .noOpFormatValidate => .skip
  | some (.builtIn f) => .when (!rt.accepts f s) (yieldError cs d f.error)
  | some .validateCustomFormat => validateCustomFormat rt cs d
  | none => .crash

/-- The `pattern` keyword: the regular expression is built anew for each string. -/
def validatePattern (s : RString) : Code :=
  match cs.patternVal with
  | none => .skip
  | some pattern =>
    if rt.validRegexp pattern then
      converted (rt.regMatch pattern s) fun m => .when (!m) (yieldError cs d (str "pattern"))
    else .raise .regexpError

/-- `validate_string` -/
def validateString : Code :=
  match d.value with
  | .str s => .block [
      checkSize cs d (str "maxLength") num2long cs.maxLengthVal (RString.length s > ·),
      checkSize cs d (str "minLength") num2long cs.minLengthVal (RString.length s < ·),
      validatePattern rt cs d s,
      validateFormat rt cs d s]
  | _ => yieldError cs d (str "type_string")

end Strings

section Any

variable (cs : CompiledSchema) (d : Datum)

/-- `validate_const` -/
def validateConst (constVal : Value) : Code :=
  .when (!Value.equal false constVal d.value) (yieldError cs d (str "const"))

/-- `validate_enum` -/
def validateEnum (enumVal : List Value) : Code :=
  .when (!Value.includes enumVal d.value) (yieldError cs d (str "enum"))

/-- `validate_required`: one error for each name that is missing. -/
def validateRequired (kvs : List (Value × Value)) (requiredVal : List Value) : Code :=
  .block (requiredVal.map fun entry =>
    .when (Value.lookup kvs entry).isNone (yieldError cs d (str "required")))

/-- The checks of `validate_array` before the elements. -/
def validateArraySizes (xs : List Value) : Code := .block [
  checkSize cs d (str "maxItems") num2long cs.maxItemsVal (fun m => xs.length > m),
  checkSize cs d (str "minItems") num2long cs.minItemsVal (fun m => xs.length < m),
  .when (cs.uniqueItemsVal = some true ∧ (Value.uniq xs).length < xs.length)
    (yieldError cs d (str "uniqueItems"))]

/-- The checks of `validate_object` before the dependencies. -/
def validateObjectSizes (kvs : List (Value × Value)) : Code := .block [
  checkSize cs d (str "maxProperties") num2ulong cs.maxPropertiesVal (fun m => kvs.length > m),
  checkSize cs d (str "minProperties") num2ulong cs.minPropertiesVal (fun m => kvs.length < m),
  match cs.requiredVal with
  | none => .skip
  | some required => validateRequired cs d kvs required]

end Any

end FastJsonSchema
