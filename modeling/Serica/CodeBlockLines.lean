/-
# The lines of a code block

What `preserveCodeBlockLineBreaks` does to the text of a `<pre>` region, as a reader of the
HTML sees it.

* `regions` are the parts of a document inside `<pre>`, `preRegions` those of a text.
* `preRegions_breaks`: line by line, what is added to a region.
* `linesApart_iff`: when no line is joined with what follows it.
-/
import Serica.HtmlReader
import Serica.CodeblockLinebreaks

namespace CodeBlockLines

open HtmlTokens HtmlReader TagScan CodeblockLinebreaks

/-! ## Regions -/

section Regions

variable {α : Type} (isOpen isClose : α → Bool)

/-- The parts between an opening item and the next closing one; the last may be unclosed.
With the flag the list starts inside a region. -/
def regions : Bool → List α → List (List α)
  | false, [] => []
  | true, [] => [[]]
  | false, a :: as => regions (isOpen a) as
  | true, a :: as =>
      if isClose a then [] :: regions false as else (regions true as).modifyHead (a :: ·)

/-- Inside a region its rest comes first, up to the next closing item. -/
theorem regions_true (as : List α) :
    ∃ more, regions isOpen isClose true as = as.takeWhile (fun a => !isClose a) :: more := by
  induction as with
  | nil => exact ⟨[], rfl⟩
  | cons a as ih =>
      obtain ⟨more, hmore⟩ := ih
      rw [regions]
      cases ha : isClose a with
      | true =>
          -- The item ends the region, so the rest of it is empty.
          exact ⟨_, by rw [List.takeWhile_cons, ha]; rfl⟩
      | false => exact ⟨more, by rw [List.takeWhile_cons, ha, hmore]; rfl⟩

/-- Inside a region items that close nothing belong to it. -/
theorem regions_append_true {as : List α} (h : ∀ a ∈ as, isClose a = false) (bs : List α) :
    regions isOpen isClose true (as ++ bs)
      = (regions isOpen isClose true bs).modifyHead (as ++ ·) := by
  induction as with
  | nil => exact (congrFun List.modifyHead_id _).symm
  | cons a as ih =>
      rw [List.cons_append, regions, h a List.mem_cons_self, if_neg (by simp),
        ih fun a' h' => h a' (List.mem_cons_of_mem a h'), List.modifyHead_modifyHead]
      rfl

/-- Outside of the regions items that open nothing belong to none. -/
theorem regions_append_false {as : List α} (h : ∀ a ∈ as, isOpen a = false) (bs : List α) :
    regions isOpen isClose false (as ++ bs) = regions isOpen isClose false bs := by
  induction as with
  | nil => rfl
  | cons a as ih =>
      rw [List.cons_append, regions, h a List.mem_cons_self,
        ih fun a' h' => h a' (List.mem_cons_of_mem a h')]

/-- Reading each item by itself keeps the regions, when an item that opens or closes one
is read as such an item. -/
theorem regions_flatMap {β : Type} (isOpen' isClose' : β → Bool) {f : α → List β}
    (hf : ∀ a, (∃ b, f a = [b] ∧ isOpen' b = isOpen a ∧ isClose' b = isClose a)
      ∨ isOpen a = false ∧ isClose a = false
        ∧ ∀ b ∈ f a, isOpen' b = false ∧ isClose' b = false) (r : Bool) (as : List α) :
    regions isOpen' isClose' r (as.flatMap f)
      = (regions isOpen isClose r as).map (List.flatMap f) := by
  induction as generalizing r with
  | nil => cases r <;> rfl
  | cons a as ih =>
      have hmore : ((regions isOpen isClose true as).map (List.flatMap f)).modifyHead (f a ++ ·)
          = ((regions isOpen isClose true as).modifyHead (a :: ·)).map (List.flatMap f) := by
        cases regions isOpen isClose true as with
        | nil => rfl
        | cons region more => rfl
      rw [List.flatMap_cons]
      rcases hf a with ⟨b, hb, hopen, hclose⟩ | ⟨hopen, hclose, hall⟩
      -- The item is read as one item of its own kind.
      · rw [hb] at hmore ⊢
        cases r with
        | false => rw [List.singleton_append, regions, regions, hopen, ih]
        | true =>
            rw [List.singleton_append, regions, regions, hclose, ih, ih]
            split_ifs
            · rfl
            · exact hmore
      -- Or as items that neither open nor close, all on the same side.
      · cases r with
        | false =>
            rw [regions_append_false _ _ fun b hb => (hall b hb).1, ih, regions, hopen]
        | true =>
            rw [regions_append_true _ _ fun b hb => (hall b hb).2, ih, regions, hclose,
              if_neg (by simp), hmore]

end Regions

/-! ## Tokens, read -/

theorem isNamePart (n : Name) : ∀ c ∈ n.chars, IsNamePart c := by
  intro c hc
  obtain ⟨h1, h2, h3, -, -, -, h4⟩ := isNameChar_cases (n.all c hc)
  exact ⟨h2, h1, h3, h4⟩

theorem isBare (v : Chars isUnquoted) : ∀ c ∈ v.chars, IsBare c := by
  intro c hc
  have := v.all c hc
  simp only [isUnquoted, Bool.and_eq_true, Bool.not_eq_true', bne_iff_ne] at this
  exact ⟨this.1.2, this.1.1.1.1.1.1, this.1.1.1.1.1.2, this.1.1.1.1.2⟩

theorem ne_quote {q : Char} (v : Chars (isQuoted q)) : ∀ c ∈ v.chars, c ≠ q := by
  intro c hc
  have := v.all c hc
  simp only [isQuoted, Bool.and_eq_true, bne_iff_ne] at this
  exact this.1

/-- An attribute, with the whitespace before it, keeps the name of the tag. -/
theorem goes_attr (space : Chars1 isSpace) (a : Attr) {s : State} {tag : StartTag}
    (h : s.tag? = some tag) :
    ∃ t tag', Goes s (space.chars ++ a.render) t ∧ t.tag? = some tag' ∧ tag'.name = tag.name := by
  obtain ⟨t, hspace, -, hbetween⟩ := Goes.space h space.all
  rw [hbetween space.ne_nil] at hspace
  have hname (n : Name) := Goes.attrName (isNamePart n) n.ne_nil tag
  cases a with
  | bare n => exact ⟨_, _, hspace.append (hname n), rfl, rfl⟩
  | unquoted n v =>
      obtain ⟨t, hvalue, htag⟩ := Goes.bareValue (isBare v) tag n.chars
      exact ⟨t, _, hspace.append ((hname n).append ((Goes.equals tag n.chars).append hvalue)),
        htag, rfl⟩
  | singleQuoted n v =>
      have hvalue := Goes.quotedValue .single (ne_quote v) tag n.chars
      exact ⟨_, _, hspace.append ((hname n).append ((Goes.equals tag n.chars).append hvalue)),
        rfl, rfl⟩
  | doubleQuoted n v =>
      have hvalue := Goes.quotedValue .double (ne_quote v) tag n.chars
      exact ⟨_, _, hspace.append ((hname n).append ((Goes.equals tag n.chars).append hvalue)),
        rfl, rfl⟩

/-- The attributes of a start tag are read without an end. -/
theorem goes_startTail (attrs : List (Chars1 isSpace × Attr)) (space : Chars isSpace)
    (selfClosing : Bool) {s : State} {tag : StartTag} (h : s.tag? = some tag) :
    ∃ t tag', Goes s (startTail attrs space selfClosing) t ∧ t.tag? = some tag'
      ∧ tag'.name = tag.name := by
  induction attrs generalizing s tag with
  | nil =>
      obtain ⟨t, hspace, htag, -⟩ := Goes.space h space.all
      cases selfClosing with
      | false => exact ⟨t, tag, hspace.append (.nil t), htag, rfl⟩
      | true =>
          obtain ⟨hnone, tag', htag', hname⟩ := step_slash htag
          exact ⟨_, tag', hspace.append (.cons hnone (.nil _)), htag', hname⟩
  | cons a attrs ih =>
      obtain ⟨t, tag', hattr, htag', hname'⟩ := goes_attr a.1 a.2 h
      obtain ⟨u, tag'', hrest, htag'', hname''⟩ := ih htag'
      refine ⟨u, tag'', ?_, htag'', hname''.trans hname'⟩
      have hboth := hattr.append hrest
      simpa only [startTail, renderAttrs, List.flatMap_cons, List.append_assoc] using hboth

/-- What a token is read as. -/
def Reads (t : Token) (ps : List Piece) : Prop :=
  match t with
  | .text b => ps = b.chars.map .char
  | .startTag n _ _ _ => ∃ tag, ps = [.start tag] ∧ tag.name = n.chars
  | .endTag n _ => ps = [.stop n.chars]

/-- A token is read by itself. -/
theorem parse_token (t : Token) : after .text t.render = .text ∧ Reads t (parse t.render) := by
  cases t with
  | text b =>
      have hne : ∀ c ∈ b.chars, c ≠ '<' := fun c hc => by simpa using b.all c hc
      exact read_text hne
  | startTag n attrs space selfClosing =>
      have hopen := Goes.open (isNamePart n) n.ne_nil
      obtain ⟨t, tag, htail, htag, hname⟩ :=
        goes_startTail attrs space selfClosing (s := .name n.chars) rfl
      have hgoes := hopen.append htail
      have hrender : (Token.startTag n attrs space selfClosing).render
          = '<' :: n.chars ++ startTail attrs space selfClosing ++ ['>'] := by
        simp [Token.render]
      have hgt := step_gt htag
      rw [parse, hrender, after_append, pieces_append, hgoes.1, hgoes.2, after_cons, pieces_cons,
        hgt]
      exact ⟨rfl, tag, rfl, hname⟩
  | endTag n space => exact read_stop (isNamePart n) space.all

/-- A document is read token by token. -/
theorem parse_cons (t : Token) (cs : List Char) :
    parse (t.render ++ cs) = parse t.render ++ parse cs := by
  rw [parse, pieces_append, (parse_token t).1]
  rfl

/-! ## What the line breaks add -/

def isStartOf (name : List Char) : Piece → Bool
  | .start tag => tag.name.map Char.toLower == name.map Char.toLower
  | _ => false

def isStopOf (name : List Char) : Piece → Bool
  | .stop n => n.map Char.toLower == name.map Char.toLower
  | _ => false

/-- The `<pre>` regions of a list of pieces, or what is left of them. -/
def preParts (r : Bool) (ps : List Piece) : List (List Piece) :=
  regions (isStartOf preName) (isStopOf preName) r ps

/-- The `<pre>` regions of a text. -/
def preRegions (cs : List Char) : List (List Piece) := preParts false (parse cs)

/-- An end tag named `div`, `p`, `tr` or `li`. -/
def isLineStop (p : Piece) : Bool := lineBoundaryCloseTags.any fun name => isStopOf name p

/-- A piece comes next, and it is neither an end tag nor whitespace. -/
def moreNext : List Piece → Bool
  | .char c :: _ => !isSpace c
  | .start _ :: _ => true
  | _ => false

/-- The region with a line break after each line end that more follows. -/
def breakLines : List Piece → List Piece
  | [] => []
  | p :: ps =>
      p :: ((if isLineStop p && moreNext ps then [.char '\n'] else []) ++ breakLines ps)

/-- Pieces that end no line get no break. -/
theorem breakLines_append {xs : List Piece} (h : ∀ p ∈ xs, isLineStop p = false)
    (ps : List Piece) : breakLines (xs ++ ps) = xs ++ breakLines ps := by
  induction xs with
  | nil => rfl
  | cons p xs ih =>
      rw [List.cons_append, breakLines, h p List.mem_cons_self,
        ih fun q hq => h q (List.mem_cons_of_mem p hq)]
      rfl

/-- Whether more follows is decided inside the region. -/
theorem moreNext_takeWhile (ps : List Piece) :
    moreNext (ps.takeWhile fun p => !isStopOf preName p) = moreNext ps := by
  cases ps with
  | nil => rfl
  | cons p ps =>
      cases p with
      | char c => rfl
      | start tag => rfl
      | stop n =>
          rw [List.takeWhile_cons]
          split_ifs <;> rfl

/-- More follows among the pieces exactly when it follows in the document. -/
theorem moreNext_parse (ts : List Token) : moreNext (parse (render ts)) = moreFollows ts := by
  cases ts with
  | nil => rfl
  | cons t ts =>
      rw [render_cons, parse_cons]
      have hreads := (parse_token t).2
      cases t with
      | text b =>
          obtain ⟨c, cs, hc⟩ := List.exists_cons_of_ne_nil b.ne_nil
          rw [show parse (Token.text b).render = _ from hreads, moreFollows, hc]
          rfl
      | startTag n attrs space selfClosing =>
          obtain ⟨tag, htag, -⟩ := hreads
          rw [htag]
          rfl
      | endTag n space =>
          rw [show parse (Token.endTag n space).render = _ from hreads]
          rfl

/-- Inside a region a part without line ends goes in front of the rest. -/
theorem preParts_append_true {xs : List Piece} (hstop : ∀ p ∈ xs, isStopOf preName p = false)
    (hline : ∀ p ∈ xs, isLineStop p = false) {ps qs : List Piece}
    (hrest : preParts true qs = (preParts true ps).map breakLines) :
    preParts true (xs ++ qs) = (preParts true (xs ++ ps)).map breakLines := by
  obtain ⟨more, hmore⟩ := regions_true (isStartOf preName) (isStopOf preName) ps
  rw [preParts, preParts, regions_append_true _ _ hstop, regions_append_true _ _ hstop]
  change (preParts true qs).modifyHead (xs ++ ·) = _
  rw [hrest, preParts, hmore, List.map_cons, List.modifyHead_cons, List.modifyHead_cons,
    List.map_cons, breakLines_append hline]

/-- A line end inside a region. -/
theorem preParts_lineStop {p : Piece} (hstop : isStopOf preName p = false)
    (hline : isLineStop p = true) {ps qs : List Piece}
    (hrest : preParts true qs = (preParts true ps).map breakLines) :
    preParts true (p :: ((if moreNext ps then [.char '\n'] else []) ++ qs))
      = (preParts true (p :: ps)).map breakLines := by
  have hbreak : ∀ q ∈ p :: (if moreNext ps then [.char '\n'] else []),
      isStopOf preName q = false := by
    intro q hq
    rcases List.mem_cons.mp hq with rfl | hq
    · exact hstop
    · split_ifs at hq
      · rw [List.mem_singleton.mp hq]
        rfl
      · exact absurd hq (by simp)
  have hleft := regions_append_true (isStartOf preName) _ hbreak qs
  have hright : regions (isStartOf preName) (isStopOf preName) true (p :: ps)
      = (regions (isStartOf preName) (isStopOf preName) true ps).modifyHead (p :: ·) := by
    rw [regions, hstop, if_neg (by simp)]
  obtain ⟨more, hmore⟩ := regions_true (isStartOf preName) (isStopOf preName) ps
  rw [← List.cons_append, preParts, hleft]
  change (preParts true qs).modifyHead _ = (regions _ _ true (p :: ps)).map breakLines
  rw [hrest, preParts, hright, hmore, List.map_cons, List.modifyHead_cons, List.modifyHead_cons,
    List.map_cons, breakLines, hline, Bool.true_and, moreNext_takeWhile]
  rfl

section Tokens

variable {ts : List Token} (r : Bool)
  (ih : ∀ r, preParts r (parse (breakPass r (render ts)))
    = (preParts r (parse (render ts))).map breakLines)

include ih

theorem preParts_text (b : Chars1 (· != '<')) :
    preParts r (parse (breakPass r ((Token.text b).render ++ render ts)))
      = (preParts r (parse ((Token.text b).render ++ render ts))).map breakLines := by
  have hreads : parse (Token.text b).render = _ := (parse_token (.text b)).2
  rw [breakPass_cons, List.append_assoc, parse_cons, parse_cons]
  -- A text ends no line, so the pass copies it.
  have hline : isLineEnd (.text b) = false := rfl
  have hregion : regionAfter r (.text b) = r := rfl
  have hchar : ∀ p ∈ b.chars.map Piece.char, isStartOf preName p = false
      ∧ isStopOf preName p = false ∧ isLineStop p = false := by
    intro p hp
    obtain ⟨c, _, rfl⟩ := List.mem_map.mp hp
    exact ⟨rfl, rfl, rfl⟩
  rw [hreads, hline, if_neg (by simp), hregion,
    List.nil_append]
  cases r with
  | false =>
      have hopen := fun p hp => (hchar p hp).1
      rw [preParts, preParts, regions_append_false _ _ hopen, regions_append_false _ _ hopen]
      exact ih false
  | true =>
      exact preParts_append_true (fun p hp => (hchar p hp).2.1) (fun p hp => (hchar p hp).2.2)
        (ih true)

theorem preParts_startTag (n : Name) (attrs : List (Chars1 isSpace × Attr))
    (space : Chars isSpace) (selfClosing : Bool) :
    preParts r (parse (breakPass r
        ((Token.startTag n attrs space selfClosing).render ++ render ts)))
      = (preParts r (parse
          ((Token.startTag n attrs space selfClosing).render ++ render ts))).map breakLines := by
  have hreads := (parse_token (.startTag n attrs space selfClosing)).2
  rw [breakPass_cons, List.append_assoc, parse_cons, parse_cons]
  obtain ⟨tag, htag, hname⟩ := hreads
  have hline : isLineEnd (.startTag n attrs space selfClosing) = false := rfl
  have hopen : isStartOf preName (.start tag) = Named preName n := by
    rw [isStartOf, hname, Named]
  have hregion : regionAfter r (.startTag n attrs space selfClosing)
      = if Named preName n then true else r := rfl
  rw [htag, hline, if_neg (by simp), List.nil_append, hregion]
  cases r with
  | false =>
      -- The tag opens a region for the pass exactly when it does for the reader.
      have hflag : (if Named preName n then true else false)
          = isStartOf preName (.start tag) := by
        rw [hopen]
        cases Named preName n <;> rfl
      rw [hflag]
      exact ih _
  | true =>
      rw [ite_self]
      exact preParts_append_true (by simp [isStopOf]) (by simp [isLineStop, isStopOf]) (ih true)

theorem preParts_endTag (n : Name) (space : Chars isSpace) :
    preParts r (parse (breakPass r ((Token.endTag n space).render ++ render ts)))
      = (preParts r (parse ((Token.endTag n space).render ++ render ts))).map breakLines := by
  have hreads : parse (Token.endTag n space).render = _ := (parse_token (.endTag n space)).2
  rw [breakPass_cons, List.append_assoc, parse_cons, parse_cons]
  have hline : isLineStop (.stop n.chars) = isLineEnd (.endTag n space) := rfl
  have hstop : isStopOf preName (.stop n.chars) = Named preName n := rfl
  have hregion : regionAfter r (.endTag n space) = if Named preName n then false else r := rfl
  rw [hreads, hregion]
  cases r with
  | false =>
      rw [if_neg (by simp), List.nil_append, ite_self]
      exact ih false
  | true =>
      cases hpre : Named preName n with
      | true =>
          -- `</pre>` ends the region; no line break is added in front of what follows.
          have hend := isLineEnd_of_isEnd_pre (t := .endTag n space) hpre
          rw [hend, if_neg (by simp), if_pos rfl, List.nil_append, List.singleton_append,
            List.singleton_append, preParts, preParts, regions, regions, hstop, hpre,
            if_pos rfl, if_pos rfl, List.map_cons]
          exact congrArg _ (ih false)
      | false =>
          rw [hpre] at hstop
          rw [if_neg (show ¬ false = true by simp), List.singleton_append,
            List.singleton_append, ← hline, ← moreNext_parse]
          cases hend : isLineStop (.stop n.chars) with
          | false =>
              rw [if_neg (by simp), List.nil_append]
              have hall : ∀ q ∈ [Piece.stop n.chars], isStopOf preName q = false := by
                simpa using hstop
              exact preParts_append_true hall (by simpa using hend) (ih true)
          | true =>
              -- The end of a line: broken exactly when more of the region follows.
              have hbroken := preParts_lineStop hstop hend (ih true)
              simp only [true_and]
              split_ifs at hbroken ⊢ with hnext
              · exact hbroken
              · exact hbroken

/-- One token. -/
theorem preParts_token (t : Token) :
    preParts r (parse (breakPass r (t.render ++ render ts)))
      = (preParts r (parse (t.render ++ render ts))).map breakLines := by
  cases t with
  | text b => exact preParts_text r ih b
  | startTag n attrs space selfClosing => exact preParts_startTag r ih n attrs space selfClosing
  | endTag n space => exact preParts_endTag r ih n space

end Tokens

/-- **Line by line**: every region of a document gets the line breaks that are missing in
it, and no region comes or goes. -/
theorem preRegions_breaks (ts : List Token) :
    preRegions (breakPass false (render ts)) = (preRegions (render ts)).map breakLines := by
  have hparts : ∀ (ts : List Token) (r : Bool), preParts r (parse (breakPass r (render ts)))
      = (preParts r (parse (render ts))).map breakLines := by
    intro ts
    induction ts with
    | nil =>
        intro r
        rw [render_nil, breakPass, breaks.run_nil]
        cases r <;> rfl
    | cons t ts ih => exact fun r => preParts_token r ih t
  exact hparts ts false

/-! ## Lines that are joined with what follows -/

/-- After each line end the first character of a text that is no whitespace has whitespace
before it. -/
def LinesApart (region : List Piece) : Prop :=
  ∀ before p between c rest, region = before ++ p :: (between ++ .char c :: rest) →
    isLineStop p = true → isSpace c = false → (∀ d, .char d ∈ between → isSpace d = true) →
    ∃ d, .char d ∈ between ∧ isSpace d = true

/-- When only tags stand between a line end and a text that starts with no whitespace, more
follows that line end or one of the line ends among these tags. -/
def BreaksInTime (region : List Piece) : Prop :=
  ∀ before p between c rest, region = before ++ p :: (between ++ .char c :: rest) →
    isLineStop p = true → isSpace c = false → (∀ d, .char d ∉ between) →
    ∃ xs q ys, p :: between = xs ++ q :: ys ∧ isLineStop q = true
      ∧ moreNext (ys ++ [.char c]) = true

def charOf : Piece → Option Char
  | .char c => some c
  | _ => none

/-- The first character of a text. -/
def firstChar (ps : List Piece) : Option Char := ps.findSome? charOf

theorem firstChar_char (c : Char) (ps : List Piece) : firstChar (.char c :: ps) = some c := rfl

/-- Pieces without characters are passed. -/
theorem firstChar_append {xs : List Piece} (h : ∀ d, .char d ∉ xs) (ps : List Piece) :
    firstChar (xs ++ ps) = firstChar ps := by
  have hnone : xs.findSome? charOf = none := by
    rw [List.findSome?_eq_none_iff]
    intro p hp
    cases p with
    | char c => exact absurd hp (h c)
    | start tag => rfl
    | stop n => rfl
  rw [firstChar, List.findSome?_append, hnone]
  rfl

/-- The first character stands behind pieces without any. -/
theorem firstChar_eq_some {ps : List Piece} {c : Char} (h : firstChar ps = some c) :
    ∃ between rest, ps = between ++ .char c :: rest ∧ ∀ d, .char d ∉ between := by
  obtain ⟨between, p, rest, rfl, hp, hnone⟩ := List.findSome?_eq_some_iff.mp h
  cases p with
  | char d =>
      obtain rfl : d = c := by simpa [charOf] using hp
      exact ⟨between, rest, rfl, fun e he => absurd (hnone _ he) (by simp [charOf])⟩
  | start tag => exact absurd hp (by simp [charOf])
  | stop n => exact absurd hp (by simp [charOf])

/-- What holds of each item and the items after it. -/
theorem forall_split_cons {α : Type} {Q : α → List α → Prop} {a : α} {as : List α} :
    (∀ before b after, a :: as = before ++ b :: after → Q b after)
      ↔ Q a as ∧ ∀ before b after, as = before ++ b :: after → Q b after := by
  constructor
  · intro h
    exact ⟨h [] a as rfl, fun before b after has => h (a :: before) b after (by rw [has]; rfl)⟩
  · rintro ⟨hhead, htail⟩ before b after has
    cases before with
    | nil =>
        obtain ⟨rfl, rfl⟩ := List.cons.inj has
        exact hhead
    | cons d before => exact htail before b after (List.cons.inj has).2

/-- Lines are apart when the first character behind each is a blank. -/
theorem linesApart_iff_firstChar (ps : List Piece) :
    LinesApart ps ↔ ∀ before p after, ps = before ++ p :: after → isLineStop p = true →
      (firstChar after).all isSpace = true := by
  constructor
  · intro h before p after hps hline
    cases hc : firstChar after with
    | none => rfl
    | some c =>
        obtain ⟨between, rest, rfl, hno⟩ := firstChar_eq_some hc
        by_contra hspace
        obtain ⟨d, hd, -⟩ := h before p between c rest hps hline (by simpa using hspace)
          fun d hd => absurd hd (hno d)
        exact hno d hd
  · intro h before p between c rest hps hline hc hspaces
    by_contra hnone
    have hno : ∀ d, .char d ∉ between := fun d hd => hnone ⟨d, hd, hspaces d hd⟩
    have hfirst := h before p _ hps hline
    rw [firstChar_append hno, firstChar_char, Option.all_some, hc] at hfirst
    exact absurd hfirst (by simp)

/-- A line break comes before the first character of a text. -/
def breakAhead : List Piece → Bool
  | [] => false
  | p :: ps => (isLineStop p && moreNext ps) || ((charOf p).isNone && breakAhead ps)

theorem moreNext_append_char (ys : List Piece) (c : Char) (rest : List Piece) :
    moreNext (ys ++ .char c :: rest) = moreNext (ys ++ [.char c]) := by
  cases ys with
  | nil => rfl
  | cons y ys => cases y <;> rfl

/-- A break comes before the next character when a line in front of it goes on. -/
theorem breakAhead_iff {xs : List Piece} (h : ∀ d, .char d ∉ xs) (c : Char) (rest : List Piece) :
    breakAhead (xs ++ .char c :: rest) = true
      ↔ ∃ ws q ys, xs = ws ++ q :: ys ∧ isLineStop q = true
        ∧ moreNext (ys ++ [.char c]) = true := by
  induction xs with
  | nil => simp [breakAhead, charOf, isLineStop, isStopOf]
  | cons p xs ih =>
      have hnone : charOf p = none := by
        cases p with
        | char d => exact absurd List.mem_cons_self (h d)
        | start tag => rfl
        | stop n => rfl
      rw [List.cons_append, breakAhead, hnone, Option.isNone_none, Bool.true_and, Bool.or_eq_true,
        ih fun d hd => h d (List.mem_cons_of_mem p hd), Bool.and_eq_true, moreNext_append_char]
      constructor
      · rintro (⟨hline, hnext⟩ | ⟨ws, q, ys, rfl, hq⟩)
        · exact ⟨[], p, xs, rfl, hline, hnext⟩
        · exact ⟨p :: ws, q, ys, rfl, hq⟩
      · rintro ⟨ws, q, ys, hsplit, hline, hnext⟩
        cases ws with
        | nil =>
            obtain ⟨rfl, rfl⟩ := List.cons.inj hsplit
            exact Or.inl ⟨hline, hnext⟩
        | cons w ws => exact Or.inr ⟨ws, q, ys, (List.cons.inj hsplit).2, hline, hnext⟩

theorem char_not_mem_cons {p : Piece} (hp : isLineStop p = true) {xs : List Piece}
    (h : ∀ d, .char d ∉ xs) : ∀ d, .char d ∉ p :: xs := by
  intro d hd
  rcases List.mem_cons.mp hd with rfl | hd
  · exact absurd hp (by simp [isLineStop, isStopOf])
  · exact h d hd

theorem breaksInTime_iff_firstChar (ps : List Piece) :
    BreaksInTime ps ↔ ∀ before p after, ps = before ++ p :: after → isLineStop p = true →
      (firstChar after).all isSpace = true ∨ breakAhead (p :: after) = true := by
  constructor
  · intro h before p after hps hline
    cases hc : firstChar after with
    | none => exact Or.inl rfl
    | some c =>
        obtain ⟨between, rest, rfl, hno⟩ := firstChar_eq_some hc
        cases hspace : isSpace c with
        | true => exact Or.inl hspace
        | false =>
            have hahead := breakAhead_iff (char_not_mem_cons hline hno) c rest
            exact Or.inr (hahead.mpr (h before p between c rest hps hline hspace hno))
  · intro h before p between c rest hps hline hc hno
    have hahead := breakAhead_iff (char_not_mem_cons hline hno) c rest
    refine hahead.mp ((h before p _ hps hline).resolve_left ?_)
    rw [firstChar_append hno, firstChar_char, Option.all_some, hc]
    simp

/-- The first character is the break where one comes. -/
theorem firstChar_breakLines (ps : List Piece) :
    firstChar (breakLines ps) = if breakAhead ps then some '\n' else firstChar ps := by
  induction ps with
  | nil => rfl
  | cons p ps ih =>
      cases hp : charOf p with
      | some c =>
          have hline : isLineStop p = false := by
            cases p with
            | char d => rfl
            | start tag => exact absurd hp (by simp [charOf])
            | stop n => exact absurd hp (by simp [charOf])
          have hfirst (qs : List Piece) : firstChar (p :: qs) = some c := by
            rw [firstChar, List.findSome?_cons, hp]
          rw [breakLines, breakAhead, hline, hp, hfirst, hfirst]
          rfl
      | none =>
          have hfirst (qs : List Piece) : firstChar (p :: qs) = firstChar qs := by
            rw [firstChar, List.findSome?_cons, hp]
            rfl
          rw [breakLines, breakAhead, hp, hfirst, hfirst, Option.isNone_none, Bool.true_and]
          cases isLineStop p && moreNext ps with
          | true => rfl
          | false => exact ih

/-- What the inserted line breaks are worth. -/
theorem linesApart_breakLines (ps : List Piece) :
    LinesApart (breakLines ps) ↔ BreaksInTime ps := by
  rw [linesApart_iff_firstChar, breaksInTime_iff_firstChar]
  induction ps with
  | nil => simp [breakLines]
  | cons p ps ih =>
      have hbreak : (∀ before q after,
            (if isLineStop p && moreNext ps then [.char '\n'] else []) ++ breakLines ps
              = before ++ q :: after → isLineStop q = true →
            (firstChar after).all isSpace = true)
          ↔ ∀ before q after, breakLines ps = before ++ q :: after → isLineStop q = true →
            (firstChar after).all isSpace = true := by
        split_ifs
        · rw [List.singleton_append, forall_split_cons, and_iff_right]
          intro h
          exact absurd h (by simp [isLineStop, isStopOf])
        · rfl
      rw [breakLines, forall_split_cons, forall_split_cons, hbreak, ih]
      refine and_congr_left fun _ => forall_congr' fun hline => ?_
      have hnone : charOf p = none := by
        cases p with
        | char d => exact absurd hline (by simp [isLineStop, isStopOf])
        | start tag => rfl
        | stop n => rfl
      rw [breakAhead, hline, hnone, Bool.true_and, Option.isNone_none, Bool.true_and]
      have hspace : isSpace '\n' = true := by decide
      cases hnext : moreNext ps with
      | true =>
          rw [if_pos rfl, List.singleton_append, firstChar_char, Option.all_some, hspace]
          simp
      | false =>
          rw [if_neg (by simp), List.nil_append, firstChar_breakLines, Bool.false_or]
          cases breakAhead ps with
          | true => simp [hspace]
          | false => simp

/-- **When no line is joined with what follows it**, region by region: exactly when every
line end in front of a text gets its line break in time. -/
theorem linesApart_iff (ts : List Token) :
    ∃ out, preserveCodeBlockLineBreaks (String.ofList (render ts)) = some out
      ∧ List.Forall₂ (fun source region => LinesApart region ↔ BreaksInTime source)
        (preRegions (render ts)) (preRegions out.toList) := by
  refine ⟨_, preserveCodeBlockLineBreaks_eq _, ?_⟩
  rw [String.toList_ofList, String.toList_ofList, preRegions_breaks, List.forall₂_map_right_iff,
    List.forall₂_same]
  exact fun ps _ => linesApart_breakLines ps

/-- The list ends in front of an end tag, so the text after it is joined with its last
line. -/
def listDoc : List Token :=
  let pre : Name := preName_isName.toName
  let ul : Name := ⟨⟨['u', 'l'], by simp [isNameChar]⟩, by simp⟩
  let li : Name := ⟨⟨['l', 'i'], by simp [isNameChar]⟩, by simp⟩
  [.startTag pre [] .nil false, .startTag ul [] .nil false, .startTag li [] .nil false,
    .text (.single 'a' rfl), .endTag li .nil, .endTag ul .nil, .text (.single 'b' rfl),
    .endTag pre .nil]

theorem line_joined : ¬ ∀ (ts : List Token) (out : String),
    preserveCodeBlockLineBreaks (String.ofList (render ts)) = some out →
    ∀ region ∈ preRegions out.toList, LinesApart region := by
  intro h
  have hregion : [Piece.start ⟨['u', 'l'], []⟩, .start ⟨['l', 'i'], []⟩, .char 'a',
      .stop ['l', 'i'], .stop ['u', 'l'], .char 'b'] ∈ preRegions (render listDoc) := by decide
  have hbroken := List.mem_map_of_mem (f := breakLines) hregion
  rw [← preRegions_breaks] at hbroken
  have hapart := h listDoc _ (preserveCodeBlockLineBreaks_eq _)
  rw [String.toList_ofList, String.toList_ofList] at hapart
  obtain ⟨d, hd, -⟩ := hapart _ hbroken [.start ⟨['u', 'l'], []⟩, .start ⟨['l', 'i'], []⟩,
    .char 'a'] (.stop ['l', 'i']) [.stop ['u', 'l']] 'b' [] rfl (by decide) (by decide) (by simp)
  exact absurd hd (by simp)

end CodeBlockLines
