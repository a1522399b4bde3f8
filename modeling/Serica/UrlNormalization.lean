/-
# What normalisation keeps

`normalizeExtractUrl` drops the fragment and the tracking parameters of a URL.  Its
result is what is fetched, and its text is hashed into the cache key.

A query with a tracking parameter is parsed to texts and written again; a query
without one is left as it stands.

* `normalizeExtractUrl_preserves_iff`: the other parameters come back as the bytes
  they were unless the query is rewritten and one of them is no UTF-8.
* `normalizeExtractUrl_variant_iff`: a URL and its variant with tracking parameters
  are the same target unless the rewriting of the one changes how the other is
  written.
* `normalizeExtractUrl_resubmitted`: a URL that was reported is fetched as it is.
-/
import Serica.Search
import Serica.Ssrf

/-! ## Parameters -/

/-- The parameters of the query, as bytes. -/
def Url.params (u : Url) : List (List UInt8 × List UInt8) :=
  FormUrlencoded.parseBytes (RustStr.asBytes (u.query.getD ""))

/-- The pairs of a query are its parameters as texts. -/
theorem Url.queryPairs_eq (u : Url) : u.queryPairs
    = u.params.map (Prod.map FormUrlencoded.textOf FormUrlencoded.textOf) :=
  FormUrlencoded.parse_eq _

namespace Ssrf

open FormUrlencoded (textOf)

/-- A key that `trackingQueryParams` lists. -/
def isTracking (key : List UInt8) : Bool := key ∈ trackingQueryParams.map RustStr.asBytes

def hasTracking (u : Url) : Bool := u.params.any fun p => isTracking p.1

/-- The parameters that are no tracking parameters. -/
def kept (u : Url) : List (List UInt8 × List UInt8) := u.params.filter fun p => !isTracking p.1

/-- The lossy decoding of a key names a tracking parameter only when the key does. -/
theorem textOf_mem_trackingQueryParams (key : List UInt8) :
    textOf key ∈ trackingQueryParams ↔ isTracking key = true := by
  have hreplacement : ∀ name ∈ trackingQueryParams, Utf8.replacement ∉ name.toList := by decide
  rw [isTracking, decide_eq_true_eq, List.mem_map]
  constructor
  · intro hmem
    exact ⟨textOf key, hmem,
      ((FormUrlencoded.textOf_eq_iff (hreplacement _ hmem)).mp rfl).symm⟩
  · rintro ⟨name, hmem, hname⟩
    rw [← hname, FormUrlencoded.textOf_asBytes]
    exact hmem

/-- Without a tracking parameter all parameters are kept. -/
theorem kept_eq_params {u : Url} (h : hasTracking u = false) : kept u = u.params := by
  rw [kept, List.filter_eq_self]
  rw [hasTracking, List.any_eq_false] at h
  intro p hp
  simpa using h p hp

/-! ## The result, field by field -/

/-- The query of the result. -/
def normalizedQuery (u : Url) : Option String :=
  if hasTracking u = false then u.query
  else if kept u = [] then none
  else some (FormUrlencoded.serialize ((kept u).map (Prod.map textOf textOf)))

/-- The path of the result: an opaque path loses its trailing spaces when no query is
left behind it. -/
def normalizedPath (u : Url) : String :=
  if u.cannotBeABase = true ∧ normalizedQuery u = none then
    String.ofList (u.path.toList.rdropWhile (· == ' '))
  else u.path

theorem clearFragment_eq (u : Url) : u.clearFragment
    = { u with
        path := if u.cannotBeABase = true ∧ u.query = none then
            String.ofList (u.path.toList.rdropWhile (· == ' ')) else u.path
        fragment := none } := by
  rw [Url.clearFragment, Url.stripTrailingSpacesFromOpaquePath]
  have hbase : ({ u with fragment := none } : Url).cannotBeABase = u.cannotBeABase := rfl
  simp only [hbase, Option.isNone_none, Bool.and_true, Bool.and_eq_true,
    Option.isNone_iff_eq_none]
  split_ifs <;> rfl

theorem clearQuery_eq (u : Url) (h : u.fragment = none) : u.clearQuery
    = { u with
        path := if u.cannotBeABase = true then
            String.ofList (u.path.toList.rdropWhile (· == ' ')) else u.path
        query := none } := by
  rw [Url.clearQuery, Url.stripTrailingSpacesFromOpaquePath]
  have hbase : ({ u with query := none, fragment := none } : Url).cannotBeABase
      = u.cannotBeABase := rfl
  simp only [h, hbase, Option.isNone_none, Bool.and_true]
  split_ifs <;> rfl

/-- Reading the parameters as texts makes no difference to which of them track. -/
theorem hasTracking_eq (u : Url) :
    (u.queryPairs.any fun p => p.1 ∈ trackingQueryParams) = hasTracking u := by
  rw [Url.queryPairs_eq, List.any_map, hasTracking]
  congr 1
  funext p
  rw [Bool.eq_iff_iff, Function.comp_apply, decide_eq_true_eq]
  exact textOf_mem_trackingQueryParams p.1

/-- The pairs that are written again are the kept parameters as texts. -/
theorem retained_eq (u : Url) : (u.queryPairs.filter fun p => p.1 ∉ trackingQueryParams)
    = (kept u).map (Prod.map textOf textOf) := by
  rw [Url.queryPairs_eq, List.filter_map, kept]
  congr 2
  funext p
  rw [Bool.eq_iff_iff, Function.comp_apply, decide_eq_true_eq, Bool.not_eq_true',
    ← Bool.not_eq_true, ← textOf_mem_trackingQueryParams]
  rfl

/-- A tracking parameter stands in a query. -/
theorem query_ne_none {u : Url} (h : hasTracking u = true) : u.query ≠ none := by
  intro hquery
  rw [hasTracking, Url.params, hquery] at h
  exact absurd h (by decide)

/-- **What normalisation returns.** -/
theorem normalizeExtractUrl_eq (u : Url) : normalizeExtractUrl u
    = { u with path := normalizedPath u, query := normalizedQuery u, fragment := none } := by
  have hpairs : u.clearFragment.queryPairs = u.queryPairs := by
    rw [clearFragment_eq]
    rfl
  rw [normalizeExtractUrl, hpairs, hasTracking_eq, retained_eq]
  cases htracking : hasTracking u with
  | false => simp [clearFragment_eq, normalizedPath, normalizedQuery, htracking]
  | true =>
      have hpath : u.clearFragment = { u with fragment := none } := by
        rw [clearFragment_eq, if_neg fun h => query_ne_none htracking h.2]
      rw [hpath]
      cases hkept : kept u with
      | nil => simp [clearQuery_eq, normalizedPath, normalizedQuery, htracking, hkept,
          Url.cannotBeABase]
      | cons p ps => simp [Url.setQueryPairs, normalizedPath, normalizedQuery, htracking, hkept]

/-! ## What is preserved -/

/-- What the comment on `normalizeExtractUrl` promises of its result `n`: the
fragment and the tracking parameters are gone and nothing else. -/
structure Preserves (u n : Url) : Prop where
  params : n.params = u.params.filter fun p => !isTracking p.1
  scheme : n.scheme = u.scheme
  authority : n.authority = u.authority
  path : n.path = u.path
  fragment : n.fragment = none
  untouched : (∀ p ∈ u.params, isTracking p.1 = false) → n.query = u.query

/-- The bytes are UTF-8. -/
def IsText (bs : List UInt8) : Prop := ∃ s, bs = RustStr.asBytes s

/-- If a parameter is dropped, those that stay are UTF-8. -/
def KeptAreTexts (u : Url) : Prop :=
  hasTracking u = true → ∀ p ∈ kept u, IsText p.1 ∧ IsText p.2

/-- The path is opaque, its last character is a space, and there is no query behind
it once the tracking parameters are gone. -/
def EndsInSpace (u : Url) : Prop :=
  u.cannotBeABase = true ∧ u.path.toList.getLast? = some ' '
    ∧ (u.query = none ∨ hasTracking u = true ∧ kept u = [])

/-- The bytes of a text, and no others, are kept by a lossy decoding. -/
theorem asBytes_textOf_iff (bs : List UInt8) : RustStr.asBytes (textOf bs) = bs ↔ IsText bs := by
  constructor
  · intro h
    exact ⟨textOf bs, h.symm⟩
  · rintro ⟨s, rfl⟩
    rw [FormUrlencoded.textOf_asBytes]

/-- The query is gone when there was none, or nothing of it is kept. -/
theorem normalizedQuery_eq_none_iff (u : Url) :
    normalizedQuery u = none ↔ u.query = none ∨ hasTracking u = true ∧ kept u = [] := by
  rw [normalizedQuery]
  split_ifs with htracking hkept
  · simp [htracking]
  · simp [hkept, Bool.not_eq_false _ ▸ htracking]
  · simp [hkept, query_ne_none (Bool.not_eq_false _ ▸ htracking)]

/-- The path stays unless it is opaque and ends in a space with no query behind it. -/
theorem normalizedPath_eq_iff (u : Url) : normalizedPath u = u.path ↔ ¬ EndsInSpace u := by
  have hlast : String.ofList (u.path.toList.rdropWhile (· == ' ')) = u.path
      ↔ u.path.toList.getLast? ≠ some ' ' := by
    rw [← String.toList_inj, String.toList_ofList, List.rdropWhile_eq_self_iff]
    rcases List.eq_nil_or_concat u.path.toList with hnil | ⟨cs, c, hcs⟩
    · simp [hnil]
    · simp [hcs]
  rw [EndsInSpace, ← normalizedQuery_eq_none_iff, normalizedPath]
  split_ifs with hstrip
  · rw [hlast, not_and, not_and]
    constructor
    · intro hne _ hspace
      exact absurd hspace hne
    · intro hno hspace
      exact hno hstrip.1 hspace hstrip.2
  · refine iff_of_true rfl ?_
    rintro ⟨hbase, -, hquery⟩
    exact hstrip ⟨hbase, hquery⟩

/-- The parameters of the result are the kept ones exactly when these are texts. -/
theorem params_normalizeExtractUrl_iff (u : Url) :
    (normalizeExtractUrl u).params = kept u ↔ KeptAreTexts u := by
  rw [normalizeExtractUrl_eq, Url.params, normalizedQuery, KeptAreTexts]
  split_ifs with htracking hkept
  · simp only [htracking, Bool.false_eq_true, false_imp_iff, iff_true]
    exact (kept_eq_params htracking).symm
  · simp only [hkept, List.not_mem_nil, false_imp_iff, implies_true, iff_true]
    rfl
  · rw [Option.getD_some, FormUrlencoded.parseBytes_serialize, List.map_map]
    have hid : (kept u).map (Prod.map RustStr.asBytes RustStr.asBytes ∘ Prod.map textOf textOf)
        = kept u
          ↔ ∀ p ∈ kept u, (RustStr.asBytes (textOf p.1), RustStr.asBytes (textOf p.2)) = p := by
      nth_rewrite 2 [← List.map_id (kept u)]
      exact List.map_inj_left
    rw [hid]
    simp only [Bool.not_eq_false] at htracking
    simp only [htracking, true_imp_iff, ← asBytes_textOf_iff, Prod.ext_iff]

/-- **Every other parameter is preserved** unless the query is rewritten and a parameter
is no UTF-8, or an opaque path ends in a space. -/
theorem normalizeExtractUrl_preserves_iff (u : Url) :
    Preserves u (normalizeExtractUrl u) ↔ KeptAreTexts u ∧ ¬ EndsInSpace u := by
  rw [← params_normalizeExtractUrl_iff, ← normalizedPath_eq_iff]
  constructor
  · intro h
    refine ⟨h.params, ?_⟩
    have hpath := h.path
    rw [normalizeExtractUrl_eq] at hpath
    exact hpath
  · rintro ⟨hparams, hpath⟩
    rw [normalizeExtractUrl_eq] at hparams ⊢
    refine ⟨hparams, rfl, rfl, hpath, rfl, fun hnone => ?_⟩
    have htracking : hasTracking u = false := by
      rw [hasTracking, List.any_eq_false]
      intro p hp
      rw [hnone p hp]
      exact Bool.false_ne_true
    exact if_pos htracking

/-- `%FF` is no UTF-8 and is replaced when a tracking parameter is dropped. -/
theorem normalizeExtractUrl_damages :
    ¬ ∀ u : Url, Preserves u (normalizeExtractUrl u) := by
  intro h
  have hparams := (h ⟨"https", some ⟨"", none, some "example.com", none⟩, "/",
    some "x=%FF&utm_source=a", none⟩).params
  rw [normalizeExtractUrl_eq] at hparams
  revert hparams
  decide +kernel

/-! ## Variants of a URL -/

/-- A parameter as it is written, with its key among the tracking parameters. -/
def TrackingSegment (s : String) : Prop :=
  '&' ∉ s.toList ∧ isTracking (FormUrlencoded.pairBytes (RustStr.asBytes s)).1 = true

instance (s : String) : Decidable (TrackingSegment s) := inferInstanceAs (Decidable (_ ∧ _))

/-- `ys` is `xs` with tracking parameters between its elements. -/
inductive Inserted : List String → List String → Prop
  | nil : Inserted [] []
  | keep {xs ys : List String} (s : String) : Inserted xs ys → Inserted (s :: xs) (s :: ys)
  | insert {xs ys : List String} {s : String} :
      TrackingSegment s → Inserted xs ys → Inserted xs (s :: ys)

/-- The query `q'` is the query `q` with tracking parameters added, at least one. -/
def QueryExtends (q q' : Option String) : Prop :=
  ∃ xs ys : List String, q.getD "" = "&".intercalate xs ∧ (∀ s ∈ xs, '&' ∉ s.toList)
    ∧ Inserted xs ys ∧ xs.length < ys.length ∧ q' = some ("&".intercalate ys)

/-- `v` is `u` with any fragment and with tracking parameters added. -/
structure Variant (u v : Url) : Prop where
  scheme : v.scheme = u.scheme
  authority : v.authority = u.authority
  path : v.path = u.path
  query : v.query = u.query ∨ QueryExtends u.query v.query

/-- Two URLs are the same target: both normalise to one URL, both have one cache key
and both are fetched by the same requests. -/
def SameTarget (u v : Url) : Prop :=
  (normalizeExtractUrl v).asStr = (normalizeExtractUrl u).asStr
    ∧ (∀ hash, Search.extractCacheKey hash (normalizeExtractUrl v)
        = Search.extractCacheKey hash (normalizeExtractUrl u))
    ∧ ∀ lib proxyUrl, fetchExtractTarget lib v proxyUrl = fetchExtractTarget lib u proxyUrl

/-- The query is written as `serialize` writes its parameters, and there is none when it
has no parameters. -/
def Canonical (u : Url) : Prop :=
  u.query = if u.queryPairs = [] then none else some (FormUrlencoded.serialize u.queryPairs)

instance (u : Url) : Decidable (Canonical u) := inferInstanceAs (Decidable (_ = _))

/-- The parameters of the segments that are no tracking parameters. -/
def keptOf (segments : List String) : List (List UInt8 × List UInt8) :=
  (((segments.map RustStr.asBytes).filter (· ≠ [])).map FormUrlencoded.pairBytes).filter
    fun p => !isTracking p.1

/-- The kept parameters of a query are those of its segments. -/
theorem kept_eq_keptOf {u : Url} {segments : List String}
    (h : u.query.getD "" = "&".intercalate segments) (hamp : ∀ s ∈ segments, '&' ∉ s.toList) :
    kept u = keptOf segments := by
  rw [kept, Url.params, h, FormUrlencoded.parseBytes_intercalate, keptOf]
  intro s hs hmem
  exact hamp s hs ((Utf8.mem_encode_ascii (a := '&') (by decide)).mp hmem)

theorem TrackingSegment.asBytes_ne_nil {s : String} (h : TrackingSegment s) :
    RustStr.asBytes s ≠ [] := by
  intro hnil
  have htracking := h.2
  rw [hnil] at htracking
  exact absurd htracking (by decide)

theorem keptOf_cons (s : String) (segments : List String) :
    keptOf (s :: segments) = keptOf [s] ++ keptOf segments := by
  rw [keptOf, keptOf, keptOf, ← List.filter_append, ← List.map_append, ← List.filter_append,
    ← List.map_append, List.singleton_append]

/-- Nothing of a tracking segment is kept. -/
theorem TrackingSegment.keptOf_eq {s : String} (h : TrackingSegment s) : keptOf [s] = [] := by
  rw [keptOf, List.map_singleton, List.filter_cons_of_pos (by simpa using h.asBytes_ne_nil),
    List.filter_nil, List.map_singleton, List.filter_cons_of_neg (by simp [h.2]), List.filter_nil]

/-- Inserted tracking segments make no difference to what is kept. -/
theorem Inserted.keptOf_eq {xs ys : List String} (h : Inserted xs ys) : keptOf ys = keptOf xs := by
  induction h with
  | nil => rfl
  | @keep xs ys s _ ih => rw [keptOf_cons, ih, ← keptOf_cons]
  | insert hs _ ih => rw [keptOf_cons, hs.keptOf_eq, List.nil_append, ih]

theorem Inserted.amp {xs ys : List String} (h : Inserted xs ys)
    (hamp : ∀ s ∈ xs, '&' ∉ s.toList) : ∀ s ∈ ys, '&' ∉ s.toList := by
  induction h with
  | nil => exact hamp
  | keep s _ ih =>
      rw [List.forall_mem_cons] at hamp ⊢
      exact ⟨hamp.1, ih hamp.2⟩
  | insert hs _ ih =>
      rw [List.forall_mem_cons]
      exact ⟨hs.1, ih hamp⟩

/-- When there are more segments, one of them tracks. -/
theorem Inserted.exists_tracking {xs ys : List String} (h : Inserted xs ys)
    (hlt : xs.length < ys.length) : ∃ s ∈ ys, TrackingSegment s := by
  induction h with
  | nil => exact absurd hlt (lt_irrefl _)
  | keep s _ ih =>
      obtain ⟨t, ht, htracking⟩ := ih (by simpa using hlt)
      exact ⟨t, List.mem_cons_of_mem s ht, htracking⟩
  | insert hs _ _ => exact ⟨_, List.mem_cons_self, hs⟩

/-- The added parameters change nothing in what is kept. -/
theorem kept_of_queryExtends {u v : Url} (h : QueryExtends u.query v.query) :
    kept v = kept u ∧ hasTracking v = true := by
  obtain ⟨xs, ys, hq, hamp, hins, hlt, hq'⟩ := h
  have hv : v.query.getD "" = "&".intercalate ys := by rw [hq', Option.getD_some]
  refine ⟨?_, ?_⟩
  · rw [kept_eq_keptOf hq hamp, kept_eq_keptOf hv (hins.amp hamp), hins.keptOf_eq]
  · obtain ⟨s, hs, htracking⟩ := hins.exists_tracking hlt
    rw [hasTracking, Url.params, hv, FormUrlencoded.parseBytes_intercalate, List.any_eq_true]
    · refine ⟨_, List.mem_map_of_mem (List.mem_filter.mpr ⟨List.mem_map_of_mem hs, ?_⟩),
        htracking.2⟩
      exact decide_eq_true htracking.asBytes_ne_nil
    · intro t ht hmem
      exact hins.amp hamp t ht ((Utf8.mem_encode_ascii (a := '&') (by decide)).mp hmem)

/-! ## When a variant is the same target -/

section Variant

variable {u v : Url}

/-- URLs with the same origin, path and normalised query have the same normal form. -/
theorem normalizeExtractUrl_congr (hscheme : v.scheme = u.scheme)
    (hauthority : v.authority = u.authority) (hpath : v.path = u.path)
    (hquery : normalizedQuery v = normalizedQuery u) :
    normalizeExtractUrl v = normalizeExtractUrl u := by
  have hbase : v.cannotBeABase = u.cannotBeABase := by
    rw [Url.cannotBeABase, Url.cannotBeABase, hauthority, hpath]
  rw [normalizeExtractUrl_eq, normalizeExtractUrl_eq, normalizedPath, normalizedPath, hbase,
    hscheme, hauthority, hpath, hquery]

/-- What precedes the path of a URL that is no base does not depend on the path. -/
theorem not_startsWith_of_cannotBeABase (h : u.cannotBeABase = true) {path : String}
    (hstarts : path.toList <+: u.path.toList) : path.startsWith "//" = false := by
  rw [Url.cannotBeABase, Bool.and_eq_true, Bool.not_eq_true',
    String.startsWith_string_eq_false_iff] at h
  rw [String.startsWith_string_eq_false_iff]
  intro hslashes
  have hslash : "/".toList <+: "//".toList := ⟨['/'], rfl⟩
  exact h.2 ((hslash.trans hslashes).trans hstarts)

/-- The text of a normalised URL grows when a query is added. -/
theorem length_asStr_lt (hscheme : v.scheme = u.scheme) (hauthority : v.authority = u.authority)
    (hpath : v.path = u.path) (hu : normalizedQuery u = none) {q : String}
    (hv : normalizedQuery v = some q) :
    (normalizeExtractUrl u).asStr.length < (normalizeExtractUrl v).asStr.length := by
  have hpathV : normalizedPath v = u.path := by
    rw [normalizedPath, if_neg (by simp [hv]), hpath]
  have hstarts : (normalizedPath u).toList <+: u.path.toList := by
    rw [normalizedPath]
    split_ifs
    · rw [String.toList_ofList]
      exact List.rdropWhile_prefix _ _
    · exact List.prefix_rfl
  have hslashes : (normalizedPath u).startsWith "//" = u.path.startsWith "//" := by
    rw [normalizedPath]
    split_ifs with hstrip
    · rw [not_startsWith_of_cannotBeABase hstrip.1 List.prefix_rfl,
        not_startsWith_of_cannotBeABase hstrip.1]
      rw [String.toList_ofList]
      exact List.rdropWhile_prefix _ _
    · rfl
  have hlen : (normalizedPath u).length ≤ u.path.length := hstarts.length_le
  rw [normalizeExtractUrl_eq, normalizeExtractUrl_eq, Url.asStr, Url.asStr]
  simp only [hu, hv, hpathV, hslashes, hscheme, hauthority, String.length_append,
    String.append_empty]
  have hquestion : "?".length = 1 := rfl
  omega

theorem normalizedQuery_of_asStr_eq (hscheme : v.scheme = u.scheme)
    (hauthority : v.authority = u.authority) (hpath : v.path = u.path)
    (h : (normalizeExtractUrl v).asStr = (normalizeExtractUrl u).asStr) :
    normalizedQuery v = normalizedQuery u := by
  cases hu : normalizedQuery u with
  | none =>
      cases hv : normalizedQuery v with
      | none => rfl
      | some q =>
          have hlt := length_asStr_lt hscheme hauthority hpath hu hv
          rw [h] at hlt
          exact absurd hlt (lt_irrefl _)
  | some q =>
      cases hv : normalizedQuery v with
      | none =>
          have hlt := length_asStr_lt hscheme.symm hauthority.symm hpath.symm hv hu
          rw [h] at hlt
          exact absurd hlt (lt_irrefl _)
      | some q' =>
          have hpathU : normalizedPath u = u.path := by rw [normalizedPath, if_neg (by simp [hu])]
          have hpathV : normalizedPath v = u.path := by
            rw [normalizedPath, if_neg (by simp [hv]), hpath]
          rw [normalizeExtractUrl_eq, normalizeExtractUrl_eq, Url.asStr, Url.asStr] at h
          simp only [hu, hv, hpathU, hpathV, hscheme, hauthority, String.append_empty] at h
          rw [(String.append_right_inj "?").mp ((String.append_right_inj _).mp h)]

/-- A variant is the same target when its query comes out as that of the URL does. -/
theorem sameTarget_iff (h : Variant u v) :
    SameTarget u v ↔ normalizedQuery v = normalizedQuery u := by
  constructor
  · rintro ⟨htext, -⟩
    exact normalizedQuery_of_asStr_eq h.scheme h.authority h.path htext
  · intro hquery
    have hnorm := normalizeExtractUrl_congr h.scheme h.authority h.path hquery
    refine ⟨by rw [hnorm], fun hash => by rw [hnorm], fun lib proxyUrl => ?_⟩
    rw [fetchExtractTarget, fetchExtractTarget, hnorm]

/-- The query that is left when a variant's query is rewritten. -/
theorem normalizedQuery_of_kept_eq (htracking : hasTracking v = true) (hkept : kept v = kept u)
    (hu : hasTracking u = false) : normalizedQuery v
      = if u.queryPairs = [] then none else some (FormUrlencoded.serialize u.queryPairs) := by
  rw [normalizedQuery, if_neg (by simp [htracking]), hkept, kept_eq_params hu, ← Url.queryPairs_eq]
  rw [Url.queryPairs_eq]
  simp only [List.map_eq_nil_iff]

/-- **A variant is the same target** if and only if no tracking parameter was added to
a query without any that is not written canonically. -/
theorem normalizeExtractUrl_variant_iff (h : Variant u v) : SameTarget u v
    ↔ (hasTracking v = true → hasTracking u = true ∨ Canonical u) := by
  rw [sameTarget_iff h]
  cases hv : hasTracking v with
  | false =>
      have hquery : v.query = u.query := by
        refine h.query.resolve_right fun hext => ?_
        rw [(kept_of_queryExtends hext).2] at hv
        exact absurd hv Bool.noConfusion
      have hu : hasTracking u = false := by
        rw [hasTracking, Url.params, hquery] at hv
        exact hv
      simp [normalizedQuery, hu, hv, hquery]
  | true =>
      have hkept : kept v = kept u := by
        rcases h.query with hquery | hext
        · rw [kept, kept, Url.params, Url.params, hquery]
        · exact (kept_of_queryExtends hext).1
      cases hu : hasTracking u with
      | true => simp [normalizedQuery, hu, hv, hkept]
      | false =>
          have hu' : normalizedQuery u = u.query := if_pos hu
          rw [normalizedQuery_of_kept_eq hv hkept hu, hu', Canonical, eq_comm]
          simp

end Variant

/-- A page of `example.com`. -/
def examplePage (query : Option String) : Url :=
  { scheme := "https"
    authority := some ⟨"", none, some "example.com", none⟩
    path := "/search"
    query := query
    fragment := none }

theorem examplePage_variant {q q' : String} (h : QueryExtends (some q) (some q')) :
    Variant (examplePage (some q)) (examplePage (some q')) := ⟨rfl, rfl, rfl, Or.inr h⟩

theorem queryExtends_pair {q t : String} (hq : '&' ∉ q.toList) (ht : TrackingSegment t) :
    QueryExtends (some q) (some (q ++ "&" ++ t)) := by
  refine ⟨[q], [q, t], rfl, by simpa using hq, .keep q (.insert ht .nil), by simp, rfl⟩

theorem variant_page : SameTarget (examplePage (some "q=rust"))
    (examplePage (some "q=rust&utm_source=x")) := by
  have hext : QueryExtends (some "q=rust") (some "q=rust&utm_source=x") :=
    queryExtends_pair (t := "utm_source=x") (by decide) (by decide)
  exact (normalizeExtractUrl_variant_iff (examplePage_variant hext)).mpr
    fun _ => Or.inr (by decide +kernel)

/-- A space that is written as `%20` is written as `+` once a tracking parameter is
dropped. -/
theorem variant_splits : ¬ ∀ u v, Variant u v → SameTarget u v := by
  intro h
  have hext : QueryExtends (some "q=a%20b") (some "q=a%20b&utm_source=x") :=
    queryExtends_pair (t := "utm_source=x") (by decide) (by decide)
  have hvariant := examplePage_variant hext
  have hquery := (sameTarget_iff hvariant).mp (h _ _ hvariant)
  revert hquery
  decide +kernel

/-! ## A URL that is submitted again -/

/-- Normalisation finds nothing to drop. -/
structure Normal (u : Url) : Prop where
  fragment : u.fragment = none
  untracked : hasTracking u = false
  path : normalizedPath u = u.path

/-- A normal URL is its own normal form. -/
theorem normalizeExtractUrl_of_normal {u : Url} (h : Normal u) : normalizeExtractUrl u = u := by
  obtain ⟨hfragment, huntracked, hpath⟩ := h
  rw [normalizeExtractUrl_eq, hpath, normalizedQuery, if_pos huntracked, ← hfragment]

/-- The parameters that are kept name no tracking parameter once they are written again. -/
theorem untracked_serialize (u : Url) :
    ∀ p ∈ FormUrlencoded.parseBytes (RustStr.asBytes
        (FormUrlencoded.serialize ((kept u).map (Prod.map textOf textOf)))),
      isTracking p.1 = false := by
  intro p hp
  rw [FormUrlencoded.parseBytes_serialize, List.map_map] at hp
  obtain ⟨q, hq, rfl⟩ := List.mem_map.mp hp
  have hkey : isTracking q.1 = false := by simpa using (List.mem_filter.mp hq).2
  have hagain : textOf (RustStr.asBytes (textOf q.1)) = textOf q.1 :=
    FormUrlencoded.textOf_asBytes _
  rw [← Bool.not_eq_true, ← textOf_mem_trackingQueryParams] at hkey ⊢
  exact fun h => hkey (hagain ▸ h)

/-- No tracking parameter is left. -/
theorem hasTracking_normalizeExtractUrl (u : Url) :
    hasTracking (normalizeExtractUrl u) = false := by
  rw [normalizeExtractUrl_eq, hasTracking, Url.params, normalizedQuery]
  split_ifs with htracking hkept
  · exact htracking
  · rfl
  · rw [Option.getD_some, List.any_eq_false]
    intro p hp
    rw [untracked_serialize u p hp]
    exact Bool.false_ne_true

/-- The path of the result stays as it is. -/
theorem normalizedPath_normalizeExtractUrl (u : Url) :
    normalizedPath (normalizeExtractUrl u) = (normalizeExtractUrl u).path := by
  have hquery : normalizedQuery (normalizeExtractUrl u) = (normalizeExtractUrl u).query :=
    if_pos (hasTracking_normalizeExtractUrl u)
  rw [normalizedPath, hquery]
  split_ifs with hstrip
  · -- The trailing spaces were dropped the first time.
    obtain ⟨hbase, hnone⟩ := hstrip
    rw [normalizeExtractUrl_eq] at hbase hnone ⊢
    by_cases hu : u.cannotBeABase = true
    · have hpath : normalizedPath u = String.ofList (u.path.toList.rdropWhile (· == ' ')) :=
        if_pos ⟨hu, hnone⟩
      dsimp only
      rw [hpath, String.toList_ofList, List.rdropWhile_idempotent]
    · have hpath : normalizedPath u = u.path := if_neg fun h => hu h.1
      rw [hpath] at hbase
      exact absurd hbase hu
  · rfl

/-- The result is normal. -/
theorem normal_normalizeExtractUrl (u : Url) : Normal (normalizeExtractUrl u) where
  fragment := by rw [normalizeExtractUrl_eq]
  untracked := hasTracking_normalizeExtractUrl u
  path := normalizedPath_normalizeExtractUrl u

section Fetch

variable {lib : FetchLib} {env : Env NetI} {proxyUrl : Option String}

/-- The client is built without a request. -/
theorem buildPinnedExtractClient_quiet (env : Env NetI) (k : ℕ) (host : String) (addr : SocketAddr)
    (proxyUrl : Option String) :
    ∀ ev ∈ (buildPinnedExtractClient host addr proxyUrl).trace env k, isSend ev = false := by
  have hbuild : ∀ client j, ∀ ev ∈ (buildClient client).trace env j, isSend ev = false := by
    intro client j
    rw [buildClient, Prog.trace_call]
    cases env j (.buildClient client) <;> simp [isSend]
  unfold buildPinnedExtractClient
  cases proxyUrl with
  | none => exact hbuild _ k
  | some url =>
      rw [Prog.trace_call, List.forall_mem_cons]
      refine ⟨rfl, ?_⟩
      cases env k (.parseProxy url) with
      | some e => simp
      | none => exact hbuild _ (k + 1)

/-- What a hop does with the reply: it fails, returns it, or follows the redirect. -/
theorem fetchLoop_eq (lib : FetchLib) (proxyUrl : Option String) (n : ℕ)
    {current : Url} {host : String} (hhost : current.hostStr = some host) :
    ∃ handle : Client → Except String Response → Net (Response × Url),
      fetchLoop lib proxyUrl current n
        = ((validateExtractTarget current).andThen fun validatedAddr =>
          (buildPinnedExtractClient host validatedAddr proxyUrl).andThen fun client =>
            .call (I := NetI) (.send client current requestHeaders) (handle client))
      ∧ ∀ client reply, (∃ e, handle client reply = .ret (.error e))
        ∨ (∃ response, handle client reply = .ret (.ok (response, current)))
        ∨ ∃ next, handle client reply = fetchLoop lib proxyUrl next (n + 1) := by
  rw [fetchLoop, hhost]
  dsimp only
  refine ⟨_, rfl, ?_⟩
  rintro client (e | response)
  · exact Or.inl ⟨_, rfl⟩
  · dsimp only
    split_ifs
    · exact Or.inr (Or.inl ⟨response, rfl⟩)
    · exact Or.inl ⟨_, rfl⟩
    · cases response.location.bind headerToStr with
      | none => exact Or.inl ⟨_, rfl⟩
      | some location =>
          dsimp only
          cases resolveRedirectTarget lib.join current location with
          | error e => exact Or.inl ⟨e, rfl⟩
          | ok next => exact Or.inr (Or.inr ⟨next, rfl⟩)

/-- A hop that does not fail has sent one request, and ends the run or is followed by
another hop. -/
theorem fetchLoop_ok {k n : ℕ} {current u : Url} {response : Response}
    (h : (fetchLoop lib proxyUrl current n).result env k = .ok (response, u)) :
    ∃ events, events.countP isSend = 1
      ∧ ((u = current ∧ (fetchLoop lib proxyUrl current n).trace env k = events)
        ∨ ∃ next k', (fetchLoop lib proxyUrl next (n + 1)).result env k' = .ok (response, u)
          ∧ (fetchLoop lib proxyUrl current n).trace env k
            = events ++ (fetchLoop lib proxyUrl next (n + 1)).trace env k') := by
  rcases validateExtractTarget_cases env k current with
    ⟨e, herr, -⟩ | ⟨host, port, addrs, addr, hok, htrace, -, hhost, -, -⟩
  · rw [fetchLoop, Prog.result_andThen_error _ herr] at h
    cases h
  · obtain ⟨handle, hloop, hreply⟩ := fetchLoop_eq lib proxyUrl n hhost
    rw [hloop, Prog.result_andThen_ok _ hok] at h
    rw [hloop, Prog.trace_andThen_ok _ hok]
    generalize k + ((validateExtractTarget current).trace env k).length = j at h ⊢
    have hquiet := buildPinnedExtractClient_quiet env j host addr proxyUrl
    cases hbuilt : (buildPinnedExtractClient host addr proxyUrl).result env j with
    | error e =>
        rw [Prog.result_andThen_error _ hbuilt] at h
        cases h
    | ok client =>
        rw [Prog.result_andThen_ok _ hbuilt, Prog.result_call] at h
        rw [Prog.trace_andThen_ok _ hbuilt, Prog.trace_call, htrace]
        generalize (buildPinnedExtractClient host addr proxyUrl).trace env j = built at hquiet h ⊢
        have hbuild : built.countP isSend = 0 :=
          List.countP_eq_zero.mpr fun ev hev => by simp [hquiet ev hev]
        generalize hsent : (⟨.send client current requestHeaders, env (j + built.length)
          (.send client current requestHeaders)⟩ : Event NetI) = sent at h ⊢
        have hcount : (⟨.lookupHost host port, .ok addrs⟩ :: (built ++ [sent])).countP isSend
            = 1 := by
          rw [List.countP_cons, List.countP_append, hbuild, ← hsent]
          rfl
        refine ⟨_, hcount, ?_⟩
        rcases hreply client (env (j + built.length) (.send client current requestHeaders)) with
          ⟨e, he⟩ | ⟨answer, hanswer⟩ | ⟨next, hnext⟩
        · rw [he] at h
          cases h
        · rw [hanswer] at h ⊢
          cases h
          exact Or.inl ⟨rfl, rfl⟩
        · rw [hnext] at h ⊢
          exact Or.inr ⟨next, _, h, by simp⟩

/-- A fetch that succeeds has sent a request. -/
theorem countP_isSend_pos {k n : ℕ} {current u : Url} {response : Response}
    (h : (fetchLoop lib proxyUrl current n).result env k = .ok (response, u)) :
    0 < ((fetchLoop lib proxyUrl current n).trace env k).countP isSend := by
  obtain ⟨events, hcount, ⟨-, htrace⟩ | ⟨next, k', -, htrace⟩⟩ := fetchLoop_ok h
  · rw [htrace, hcount]
    exact Nat.one_pos
  · rw [htrace, List.countP_append, hcount]
    exact Nat.add_pos_left Nat.one_pos _

/-- With one request, the URL that is reported is the one that the fetch starts with. -/
theorem fetchLoop_once {k n : ℕ} {current u : Url} {response : Response}
    (h : (fetchLoop lib proxyUrl current n).result env k = .ok (response, u))
    (honce : ((fetchLoop lib proxyUrl current n).trace env k).countP isSend = 1) :
    u = current := by
  obtain ⟨events, hcount, ⟨hu, -⟩ | ⟨next, k', hnext, htrace⟩⟩ := fetchLoop_ok h
  · exact hu
  · have hpos := countP_isSend_pos hnext
    rw [htrace, List.countP_append, hcount] at honce
    omega

end Fetch

/-- **Normalisation is idempotent**, so a URL that a fetch without redirects reports is, when
it is submitted again, fetched as it is and looked up under the key of the first request. -/
theorem normalizeExtractUrl_resubmitted (u : Url) :
    normalizeExtractUrl (normalizeExtractUrl u) = normalizeExtractUrl u
      ∧ ∀ (platform : Platform) (lib : FetchLib) (proxyUrl : Option String)
          (env : Env NetI) (response : Response) (reported : Url),
        platform.parseUrl (normalizeExtractUrl u).asStr = .ok (normalizeExtractUrl u) →
        (fetchExtractTarget lib u proxyUrl).result env 0 = .ok (response, reported) →
        ((fetchExtractTarget lib u proxyUrl).trace env 0).countP isSend = 1 →
        platform.parseUrl reported.asStr = .ok reported
          ∧ normalizeExtractUrl reported = reported
          ∧ SameTarget u reported := by
  have hidem := normalizeExtractUrl_of_normal (normal_normalizeExtractUrl u)
  refine ⟨hidem, ?_⟩
  intro platform lib proxyUrl env response reported hparse hok honce
  obtain rfl := fetchLoop_once hok honce
  refine ⟨hparse, hidem, ?_, ?_, ?_⟩
  · rw [hidem]
  · intro hash
    rw [hidem]
  · intro lib proxyUrl
    rw [fetchExtractTarget, fetchExtractTarget, hidem]

/-- A network on which every page is there. -/
def openNet : Env NetI
  | _, .lookupHost _ port => .ok [⟨.v4 ⟨93, 184, 215, 14⟩, port⟩]
  | _, .parseProxy _ => none
  | _, .buildClient _ => none
  | _, .send _ _ _ => .ok ⟨200, none, some (RustStr.asBytes "text/html"), none, []⟩

theorem resubmitted_page : SameTarget (examplePage (some "q=rust&utm_source=x"))
    (examplePage (some "q=rust")) := by
  have hnorm : normalizeExtractUrl (examplePage (some "q=rust&utm_source=x"))
      = examplePage (some "q=rust") := by
    rw [normalizeExtractUrl_eq]
    decide +kernel
  let platform : Platform := { Platform.ascii with
    parseUrl := fun s =>
      if s = "https://example.com/search?q=rust" then .ok (examplePage (some "q=rust"))
      else .error "relative URL without a base" }
  refine ((normalizeExtractUrl_resubmitted (examplePage (some "q=rust&utm_source=x"))).2 platform
    ⟨fun _ _ => none, fun _ => "200 OK"⟩ none openNet
    ⟨200, none, some (RustStr.asBytes "text/html"), none, []⟩ (examplePage (some "q=rust")) ?_ ?_
    ?_).2.2
  · rw [hnorm]
    decide +kernel
  · rw [fetchExtractTarget, fetchLoop, hnorm]
    rfl
  · rw [fetchExtractTarget, fetchLoop, hnorm]
    rfl

end Ssrf
