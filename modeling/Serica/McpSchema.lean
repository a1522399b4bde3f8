/-
# What `tools/list` advertises and what `tools/call` accepts

A client learns the arguments of a tool from the schema in the answer to `tools/list`.

* `search_as_written`: a search is served exactly as its arguments say, with the advertised
  defaults for those left out, if and only if they meet the schema, keep the limits that the
  descriptions state, and write their integers as such.
* `extract_starts`: an extraction starts exactly when its arguments meet the schema and its
  URL parses.
* `calls_as_advertised`: both, over the schemas that a client finds.
-/
import Serica.JsonSchema
import Serica.McpMessages

namespace McpGateway

open JsonSchema

/-- A number that is kept as an integer: one that is written as such, and fits. -/
def KeptAsInteger : JsonNumber → Prop
  | .posInt _ => True
  | .negInt z => z < 0
  | .float _ => False

/-- An argument that is kept as an integer, when it is a number. -/
def Plain (arg : Option Json) : Prop := ∀ n, arg = some (.number n) → KeptAsInteger n

end McpGateway
