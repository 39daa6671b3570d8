import ProbeCoverage.Finally.Options
import ProbeCoverage.Json.Basic

/-! The JSON form of options. A field that is left out has its default. -/

namespace ProbeCoverage

namespace Shape

def toJson (s : Shape) : Json :=
  .obj [
    ("region_entry_skip", .int s.regionEntrySkip.toInt),
    ("catch_all_extra_skip", .int s.catchAllExtraSkip.toInt),
    ("athrow_lookbehind", .int s.athrowLookbehind.toInt),
    ("goto_lookbehind", .int s.gotoLookbehind.toInt),
    ("goto_lookahead", .int s.gotoLookahead.toInt),
    ("handler_adjacency", .int s.handlerAdjacency.toInt),
    ("probe_tail_primary_advance", .int s.probeTailPrimaryAdvance.toInt),
    ("tail_duplicate_advance", .int s.tailDuplicateAdvance.toInt),
    ("end_search_min", .int s.endSearchMin.toInt),
    ("end_search_max", .int s.endSearchMax.toInt)]

def ofJson? (j : Json) : Option Shape :=
  if j.isObject then do
    let usual : Shape := {}
    return {
      regionEntrySkip := ← j.defaulted? "region_entry_skip" usual.regionEntrySkip Json.int64?
      catchAllExtraSkip := ← j.defaulted? "catch_all_extra_skip" usual.catchAllExtraSkip Json.int64?
      athrowLookbehind := ← j.defaulted? "athrow_lookbehind" usual.athrowLookbehind Json.int64?
      gotoLookbehind := ← j.defaulted? "goto_lookbehind" usual.gotoLookbehind Json.int64?
      gotoLookahead := ← j.defaulted? "goto_lookahead" usual.gotoLookahead Json.int64?
      handlerAdjacency := ← j.defaulted? "handler_adjacency" usual.handlerAdjacency Json.int64?
      probeTailPrimaryAdvance :=
        ← j.defaulted? "probe_tail_primary_advance" usual.probeTailPrimaryAdvance Json.int64?
      tailDuplicateAdvance := ← j.defaulted? "tail_duplicate_advance" usual.tailDuplicateAdvance Json.int64?
      endSearchMin := ← j.defaulted? "end_search_min" usual.endSearchMin Json.int64?
      endSearchMax := ← j.defaulted? "end_search_max" usual.endSearchMax Json.int64? }
  else none

end Shape

namespace Options

def toJson (o : Options) : Json :=
  .obj [("merge_finally_duplicates", .bool o.mergeFinally), ("finally_shape", o.shape.toJson)]

def ofJson? (j : Json) : Option Options :=
  if j.isObject then do
    return ⟨← j.defaulted? "merge_finally_duplicates" true Json.bool?,
      ← j.defaulted? "finally_shape" {} Shape.ofJson?⟩
  else none

end Options

end ProbeCoverage
