/-
# Requests and responses

The data that the two gateways take and return.
-/
import Mathlib

/-! ## Search -/

structure SearchRequest where
  query : String
  page : UInt32
  safeSearch : UInt8
  language : Option String
deriving DecidableEq, Repr

structure SearchResult where
  url : String
  title : String
  snippet : String
deriving DecidableEq, Repr

/-- `totalResults` counts the results of this page that the filter kept. -/
structure SearchResponse where
  results : List SearchResult
  totalResults : ℕ
  page : UInt32
  timingMs : UInt64
  cached : Bool
deriving DecidableEq, Repr

/-! ## Extract -/

/-- Which stage of the fallback cascade supplied the content. -/
inductive ExtractMethod
  | markdown
  | textFallback
  | wholeDocFallback
deriving DecidableEq, Repr

/-- The result of an extraction.  `ratio` is there when the ratio check ran. -/
structure ExtractOutcome where
  content : Option String
  method : ExtractMethod
  title : Option String
  author : Option String
  date : Option String
  sitename : Option String
  pageType : Option String
  excerpt : Option String
  ratio : Option ℚ
deriving DecidableEq

structure ExtractResponse where
  url : String
  title : Option String
  author : Option String
  date : Option String
  sitename : Option String
  pageType : Option String
  content : Option String
  excerpt : Option String
  timingMs : UInt64
  cached : Bool
deriving DecidableEq, Repr

namespace ExtractResponse

/-- The response of a finished extraction. -/
def ofOutcome (url : String) (outcome : ExtractOutcome) (timingMs : UInt64) : ExtractResponse :=
  { url := url
    title := outcome.title
    author := outcome.author
    date := outcome.date
    sitename := outcome.sitename
    pageType := outcome.pageType
    content := outcome.content
    excerpt := outcome.excerpt
    timingMs := timingMs
    cached := false }

end ExtractResponse
