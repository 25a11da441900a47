import FastJsonSchema.Compile.Counting
import FastJsonSchema.Compile.Identifiers
import FastJsonSchema.Compile.Lifetime
import FastJsonSchema.Compile.Resources
import FastJsonSchema.Formats.PercentEncoding
import FastJsonSchema.Formats.PointerTokens
import FastJsonSchema.Formats.Recognisers
import FastJsonSchema.Formats.TaggedLiteral
import FastJsonSchema.Formats.TemplateGrammar
import FastJsonSchema.Formats.Timestamp
import FastJsonSchema.Traversal.Location
import FastJsonSchema.Validate.Agreement
import FastJsonSchema.Validate.DataPath
import FastJsonSchema.Validate.Multiples
import FastJsonSchema.Validate.Order
import FastJsonSchema.Validate.References
import FastJsonSchema.Validate.Stops
import FastJsonSchema.Validate.Termination
import FastJsonSchema.Validate.Types
import FastJsonSchema.Validate.Undisturbed
import FastJsonSchema.Validate.UniqueItems
import FastJsonSchema.Validate.Yielded
