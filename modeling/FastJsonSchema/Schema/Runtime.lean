import FastJsonSchema.Schema.CompiledSchema

/-!
# The code outside of compilation and validation

`Runtime` collects what the extension calls outside of itself, the regular expressions of Ruby,
`URI.join` and the callables of custom formats, and the parsers of the built-in formats.
-/

namespace FastJsonSchema

open Ruby

/-- The exceptions that validation may raise. -/
inductive RubyError
  /-- `RangeError`: a number does not fit into the C type. -/
  | rangeError
  /-- `TypeError`: a value is not a number. -/
  | typeError
  /-- `RegexpError`: a pattern is not a regular expression. -/
  | regexpError
  /-- The regular expression cannot be matched against the string. -/
  | matchError
  deriving DecidableEq

/-- The code outside of the extension. -/
structure Runtime where
  /-- Whether `rb_reg_new_str` accepts a pattern. -/
  validRegexp : RString → Bool
  /-- `rb_reg_match`: whether a pattern matches a string, or the exception. -/
  regMatch : RString → RString → Except RubyError Bool
  /-- Whether the parser of a built-in format, other than `regex`, accepts a string. -/
  parses : Format → RString → Bool
  /-- The callable of a custom format: whether its result is truthy, nothing when it raises. -/
  call : ℕ → Value → Option Bool
  /-- The value of the C cast of a double to a signed type of the given width that cannot hold it,
  which C leaves undefined. -/
  castOut : ℕ → Double → ℤ
  /-- `URI.join(base, ref).to_s`, nothing when it raises. -/
  uriJoin : RString → RString → Option RString

/-- A runtime that knows no regular expression, no format and no callable. -/
def Runtime.bare : Runtime where
  validRegexp _ := false
  regMatch _ _ := .error .regexpError
  parses _ _ := false
  call _ _ := none
  castOut _ _ := 0
  uriJoin _ _ := none

/-- A runtime whose `URI.join` knows fragments only. -/
def Runtime.joining : Runtime := { Runtime.bare with uriJoin := fun base ref => some (base ++ ref) }

/-- Whether a string has a built-in format. -/
def Runtime.accepts (rt : Runtime) : Format → RString → Bool
  | .regex, s => rt.validRegexp s
  | f, s => rt.parses f s

end FastJsonSchema
