import SourceSpecs.Extraction
import SourceSpecs.Json.Basic
/-!
Specs as JSON values.
-/
namespace SourceSpecs

open Text

def Param.toJson (p : Param) : Json :=
  .object [("name", .string p.name), ("type", .ofOption p.type),
    ("default_value", .ofOption p.default)]

def FunctionSpec.toJson (f : FunctionSpec) : Json :=
  .object [("name", .string f.name), ("params", .array (f.params.map Param.toJson)),
    ("return_type", .string f.returnType), ("custom_types", .strings (sortNames f.customTypes))]

def TypeSpec.toJson (t : TypeSpec) : Json :=
  .object [("kind", .string t.kind.label), ("name", .string t.name),
    ("is_exported", .bool t.isExported), ("definition", .string t.definition)]

def ImportSpec.toJson (i : ImportSpec) : Json :=
  .object [("kind", .string i.kind.label), ("from_path", .ofOption i.fromPath),
    ("definition", .string i.definition), ("custom_types", .strings (sortNames i.customTypes))]

namespace Contents

def toJson (c : Contents) : Json :=
  .object [("functions", .array (c.functions.map FunctionSpec.toJson)),
    ("types", .array (c.types.map TypeSpec.toJson)),
    ("imports", .array (c.imports.map ImportSpec.toJson))]

def summary (c : Contents) : Json :=
  c.toJson.append (.object [("counts", .object [("functions", .number c.functions.length),
    ("types", .number c.types.length), ("imports", .number c.imports.length)])])

end Contents

end SourceSpecs
