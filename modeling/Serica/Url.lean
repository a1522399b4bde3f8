/-
# URLs

A parsed URL as the parts of its serialisation, with the operations of the `url`
library that the program calls.  Parsing and `join` are not modelled: they are
parameters of what uses them.
-/
import Serica.FormUrlencoded

/-- What stands between `//` and the path. -/
structure Authority where
  username : String
  password : Option String
  host : Option String
  port : Option UInt16
deriving DecidableEq, Repr

structure Url where
  scheme : String
  authority : Option Authority
  path : String
  query : Option String
  fragment : Option String
deriving DecidableEq, Repr

namespace Authority

/-- `user:password@host:port`, each part with its separator only when it is there. -/
def asStr (a : Authority) : String :=
  (match a.password with
    | some password => a.username ++ ":" ++ password ++ "@"
    | none => if a.username = "" then "" else a.username ++ "@")
  ++ a.host.getD ""
  ++ (match a.port with
    | some port => ":" ++ toString port.toNat
    | none => "")

end Authority

namespace Url

/-- The serialisation; two URLs are the same when their serialisations are. -/
def asStr (u : Url) : String :=
  u.scheme ++ ":"
  ++ (match u.authority with
    | some a => "//" ++ a.asStr
    | none => if u.path.startsWith "//" then "/." else "")
  ++ u.path
  ++ (match u.query with
    | some query => "?" ++ query
    | none => "")
  ++ (match u.fragment with
    | some fragment => "#" ++ fragment
    | none => "")

def hostStr (u : Url) : Option String := u.authority.bind (·.host)

/-- The ports of the schemes that have one. -/
def defaultPort (scheme : String) : Option UInt16 :=
  if scheme = "http" ∨ scheme = "ws" then some 80
  else if scheme = "https" ∨ scheme = "wss" then some 443
  else if scheme = "ftp" then some 21
  else none

def portOrKnownDefault (u : Url) : Option UInt16 :=
  (u.authority.bind (·.port)).or (defaultPort u.scheme)

def cannotBeABase (u : Url) : Bool := u.authority.isNone && !u.path.startsWith "/"

/-- The trailing spaces of an opaque path are kept only before a query or a
fragment. -/
def stripTrailingSpacesFromOpaquePath (u : Url) : Url :=
  if u.cannotBeABase && u.fragment.isNone && u.query.isNone then
    { u with path := String.ofList (u.path.toList.rdropWhile (· == ' ')) }
  else u

/-- `set_fragment(None)`. -/
def clearFragment (u : Url) : Url :=
  stripTrailingSpacesFromOpaquePath { u with fragment := none }

/-- `set_query(None)`. -/
def clearQuery (u : Url) : Url :=
  stripTrailingSpacesFromOpaquePath { u with query := none }

def queryPairs (u : Url) : List (String × String) :=
  FormUrlencoded.parse (RustStr.asBytes (u.query.getD ""))

/-- `query_pairs_mut().clear().extend_pairs(pairs)`. -/
def setQueryPairs (u : Url) (pairs : List (String × String)) : Url :=
  { u with query := some (FormUrlencoded.serialize pairs) }

end Url
