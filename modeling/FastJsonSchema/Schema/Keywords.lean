import FastJsonSchema.Ruby.Value

/-!
# Keywords

The strings of `keywords.c`. `isKnownKeyword` decides which members of a schema object are left to
`compile_nested_schemas`.
-/

namespace FastJsonSchema

open Ruby

def rootPathStr : RString := str "#"

def idStr : RString := str "$id"
def refStr : RString := str "$ref"
def recursiveAnchorStr : RString := str "$recursiveAnchor"
def recursiveRefStr : RString := str "$recursiveRef"

def typeStr : RString := str "type"
def constStr : RString := str "const"
def enumStr : RString := str "enum"

def ifStr : RString := str "if"
def thenStr : RString := str "then"
def elseStr : RString := str "else"
def allOfStr : RString := str "allOf"
def anyOfStr : RString := str "anyOf"
def oneOfStr : RString := str "oneOf"
def notStr : RString := str "not"

-- Integer and number keywords
def multipleOfStr : RString := str "multipleOf"
def maximumStr : RString := str "maximum"
def exclusiveMaximumStr : RString := str "exclusiveMaximum"
def minimumStr : RString := str "minimum"
def exclusiveMinimumStr : RString := str "exclusiveMinimum"

-- String keywords
def maxLengthStr : RString := str "maxLength"
def minLengthStr : RString := str "minLength"
def patternStr : RString := str "pattern"
def formatStr : RString := str "format"

-- Array keywords
def itemsStr : RString := str "items"
def additionalItemsStr : RString := str "additionalItems"
def unevaluatedItemsStr : RString := str "unevaluatedItems"
def containsStr : RString := str "contains"
def maxItemsStr : RString := str "maxItems"
def minItemsStr : RString := str "minItems"
def uniqueItemsStr : RString := str "uniqueItems"
def maxContainsStr : RString := str "maxContains"
def minContainsStr : RString := str "minContains"

-- Object keywords
def propertiesStr : RString := str "properties"
def patternPropertiesStr : RString := str "patternProperties"
def additionalPropertiesStr : RString := str "additionalProperties"
def unevaluatedPropertiesStr : RString := str "unevaluatedProperties"
def propertyNamesStr : RString := str "propertyNames"
def maxPropertiesStr : RString := str "maxProperties"
def minPropertiesStr : RString := str "minProperties"
def requiredStr : RString := str "required"
def dependentRequiredStr : RString := str "dependentRequired"
def dependenciesStr : RString := str "dependencies"

/-- `known_keywords_hash`. -/
def knownKeywords : List RString :=
  [idStr, refStr, recursiveAnchorStr, recursiveRefStr, typeStr, constStr, enumStr, ifStr,
   thenStr, elseStr, allOfStr, anyOfStr, oneOfStr, notStr, multipleOfStr, maximumStr,
   exclusiveMaximumStr, minimumStr, exclusiveMinimumStr, maxLengthStr, minLengthStr, patternStr,
   formatStr, itemsStr, additionalItemsStr, unevaluatedItemsStr, containsStr, maxItemsStr,
   minItemsStr, uniqueItemsStr, maxContainsStr, minContainsStr, propertiesStr,
   patternPropertiesStr, additionalPropertiesStr, unevaluatedPropertiesStr, propertyNamesStr,
   maxPropertiesStr, minPropertiesStr, requiredStr, dependentRequiredStr, dependenciesStr]

def isKnownKeyword (key : RString) : Bool := knownKeywords.contains key

-- The names of the types
def nullTypeStr : RString := str "null"
def booleanTypeStr : RString := str "boolean"
def stringTypeStr : RString := str "string"
def integerTypeStr : RString := str "integer"
def numberTypeStr : RString := str "number"
def arrayTypeStr : RString := str "array"
def objectStr : RString := str "object"

end FastJsonSchema
