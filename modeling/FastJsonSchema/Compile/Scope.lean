import FastJsonSchema.Schema.Runtime
import FastJsonSchema.Text.Pointer

/-!
# Paths, scopes and the reference table

`path.c`, `compile_context.c`, `uri_resolver.c`, `uri_scope.c`, `ref_decoder.c` and the two
registration functions of `ref_resolver.c`. The reference table is a hash that is only ever
extended, so the entry of a key is the newest one.
-/

namespace FastJsonSchema

open Ruby

/-- `new_path` -/
def newPath (root name : RString) : RString := root ++ str "/" ++ name

/-- `append_long_to_path` -/
def appendLongToPath (root : RString) (i : ℕ) : RString := root ++ str "/" ++ decimal i

/-- `CompileContext`, without the reference table -/
structure CompileContext where
  customFormats : Option (List (RString × ℕ))
  currentBase : Option RString
  currentPointer : Option RString

/-- `compile_context_descend` -/
def CompileContext.descend (parent : CompileContext) (step : RString) : CompileContext :=
  match parent.currentBase with
  | none => parent
  | some _ => { parent with currentPointer := some (newPath (parent.currentPointer.getD []) step) }

/-! ## URIs -/

def isAlpha (c : UInt8) : Bool := 0x61 ≤ c && c ≤ 0x7A || 0x41 ≤ c && c ≤ 0x5A

/-- The loop of `uri_resolver_is_absolute`. -/
def schemeEnds : RString → Bool
  | [] => false
  | c :: s =>
    if c = 0x3A then true
    else if isAlpha c || 0x30 ≤ c && c ≤ 0x39 || c = 0x2B || c = 0x2D || c = 0x2E then schemeEnds s
    else false

/-- `uri_resolver_is_absolute` -/
def isAbsolute : RString → Bool
  | c :: s => isAlpha c && schemeEnds s
  | [] => false

/-- `uri_resolver_join` -/
def uriResolverJoin (rt : Runtime) (base : Option RString) (ref : RString) : Option RString :=
  match base with
  | none => none
  | some base => if base = [] then none else rt.uriJoin base ref

/-- `resolve_ref_against_parent_base` -/
def resolveRefAgainstParentBase (rt : Runtime) (ctx : CompileContext) (ref : RString) :
    Option RString :=
  if isAbsolute ref then some ref else uriResolverJoin rt ctx.currentBase ref

/-- `resolve_id_against_parent_base` -/
def resolveIdAgainstParentBase (rt : Runtime) (ctx : CompileContext) (id : RString) : RString :=
  if isAbsolute id then id else (uriResolverJoin rt ctx.currentBase id).getD id

/-- `resolve_uri_scope`: the compiled schema with its resolved fields, and the context of its
children. -/
def resolveUriScope (rt : Runtime) (cs : CompiledSchema) (ctx : CompileContext) :
    CompiledSchema × CompileContext :=
  let cs := { cs with
    resolvedRefVal := cs.refVal.bind (resolveRefAgainstParentBase rt ctx)
    scopePointerVal := ctx.currentPointer
    resolvedIdVal := cs.idVal.map (resolveIdAgainstParentBase rt ctx) }
  match cs.resolvedIdVal with
  | none => (cs, ctx)
  | some id => (cs, { ctx with currentBase := some id, currentPointer := some [] })

/-! ## The reference table -/

/-- `ref_data`, the newest entry first -/
abbrev RefData := List (RString × Addr)

/-- `register_path_for_ref_resolution` -/
def pathKeys (cs : CompiledSchema) : RefData := [(cs.path, cs.addr)]

/-- The entry of `"<enclosing_base>#<scopePointer_val>"`, when there are both. -/
def scopeKeys (enclosingBase scopePointer : Option RString) (a : Addr) : RefData :=
  match enclosingBase, scopePointer with
  | some base, some pointer => if pointer ≠ [] then [(base ++ str "#" ++ pointer, a)] else []
  | _, _ => []

/-- The entries of `register_id_for_ref_resolution`, the oldest first. -/
def idKeys (cs : CompiledSchema) (enclosingBase : Option RString) : RefData :=
  (cs.idVal.toList.map fun id => (id, cs.addr))
    ++ (if cs.resolvedIdVal ≠ cs.idVal then cs.resolvedIdVal.toList.map fun id => (id, cs.addr)
        else [])
    ++ scopeKeys enclosingBase cs.scopePointerVal cs.addr

/-- `decode_ref` -/
def decodeRef (ref : RString) : RString :=
  Text.replace Text.tilde 0x30 Text.tilde
    (Text.replace Text.tilde 0x31 Text.slash (Text.percentDecode ref))

end FastJsonSchema
