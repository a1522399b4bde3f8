/-
# Line breaks inside code blocks

`util/codeblock_linebreaks.rs`: inside every `<pre>` region a line break goes after
each closing tag of a line that is directly followed by more content.

* `preserveCodeBlockLineBreaks` is the scanner, turn by turn, on byte indices, with
  the flag `inPre` as its state.
* `breakCut` is what a turn does to the remaining characters, and `breakPass` the
  text it makes of a text.
* `preserveCodeBlockLineBreaks_eq`: the scanner never panics and computes `breakPass`.
* `breakPass_broken`: the text is changed by inserted line breaks only.
* `preserveCodeBlockLineBreaks_render`: on the tokens of a document, the line breaks go
  exactly after the closing tags inside `pre` that more content follows.
-/
import Serica.HtmlTokens

namespace CodeblockLinebreaks

open CopyLoop TagScan

/-! ## The source -/

/-- The name `pre`. -/
def preName : List Char := ['p', 'r', 'e']

/-- `LINE_BOUNDARY_CLOSE_TAGS`. -/
def lineBoundaryCloseTags : List (List Char) :=
  [['d', 'i', 'v'], ['p'], ['t', 'r'], ['l', 'i']]

/-- The bytes of `<` and a tag name. -/
def openBytes (name : List Char) : List UInt8 := Utf8.encode ('<' :: name)

/-- The bytes of `</` and a tag name. -/
def closeBytes (name : List Char) : List UInt8 := Utf8.encode ('<' :: '/' :: name)

/-- The comparison ignores the case of letters, and `<` is none. -/
def isTagOpenAt (bytes : List UInt8) (i : ℕ) (name : List Char) : Bool :=
  openAt (openBytes name) bytes i

/-- The comparison ignores the case of letters, and `<` and `/` are none. -/
def closingTagLen (bytes : List UInt8) (j : ℕ) (name : List Char) : Option ℕ :=
  closeLen (closeBytes name) bytes j

/-- `needs_break`: more content follows, and it is neither whitespace nor a closing
tag. -/
def needsBreak (bytes : List UInt8) (i : ℕ) : Bool :=
  match bytes[i]? with
  | none => false
  | some b =>
      if isAsciiWhitespace b then false
      else if b == 0x3C && bytes[i + 1]? == some 0x2F then false
      else true

/-- The turn at a `<`. -/
def breakTurn (html : String) (bytes : List UInt8) (inPre : Bool) (i : ℕ) :
    Option (Turn Bool) :=
  match if !inPre && isTagOpenAt bytes i preName then findTagEnd bytes i else none with
  | some tagEnd => do
      let tag ← RustStr.slice html i (tagEnd + 1)
      some ⟨tag, tagEnd + 1, true⟩
  | none =>
      if inPre then
        match closingTagLen bytes i preName with
        | some closeLen => do
            let tag ← RustStr.slice html i (i + closeLen)
            some ⟨tag, i + closeLen, false⟩
        | none =>
            match lineBoundaryCloseTags.findSome? (closingTagLen bytes i) with
            | some closeLen => do
                let tag ← RustStr.slice html i (i + closeLen)
                let broken := if needsBreak bytes (i + closeLen) then tag.push '\n' else tag
                some ⟨broken, i + closeLen, inPre⟩
            | none => some ⟨"<", i + 1, inPre⟩
      else some ⟨"<", i + 1, inPre⟩

/-- `preserve_code_block_line_breaks`; `none` is a panic. -/
def preserveCodeBlockLineBreaks (html : String) : Option String :=
  copy (breakTurn html (RustStr.asBytes html)) false html

/-! ## The turn on characters -/

/-- More content follows, and it is neither whitespace nor a closing tag. -/
def breakNeeded : List Char → Bool
  | [] => false
  | c :: cs => !isSpace c && !(c == '<' && cs.head? == some '/')

/-- The turn on characters. -/
def breakCut (inPre : Bool) (cs : List Char) : Cut Bool :=
  match if !inPre && tagOpen (openBytes preName) cs then tagEnd false false cs else none with
  | some (tag, rest) => ⟨tag, rest, true⟩
  | none =>
      if inPre then
        match closeTag (closeBytes preName) cs with
        | some (tag, rest) => ⟨tag, rest, false⟩
        | none =>
            match lineBoundaryCloseTags.findSome? fun name => closeTag (closeBytes name) cs with
            | some (tag, rest) =>
                ⟨if breakNeeded rest then tag ++ ['\n'] else tag, rest, inPre⟩
            | none => ⟨['<'], cs.tail, inPre⟩
      else ⟨['<'], cs.tail, inPre⟩

/-- The closing tag of a line and the rest make up the text. -/
theorem boundaryTag_eq {cs tag rest : List Char}
    (h : lineBoundaryCloseTags.findSome? (fun name => closeTag (closeBytes name) cs)
      = some (tag, rest)) : cs = tag ++ rest ∧ tag ≠ [] := by
  obtain ⟨name, _, hname⟩ := List.exists_of_findSome?_eq_some h
  exact closeTag_eq hname

/-- The closing tag of a line ends in `>`. -/
theorem boundaryTag_gt {cs tag rest : List Char}
    (h : lineBoundaryCloseTags.findSome? (fun name => closeTag (closeBytes name) cs)
      = some (tag, rest)) : ∃ front, tag = front ++ ['>'] := by
  obtain ⟨name, _, hname⟩ := List.exists_of_findSome?_eq_some h
  exact closeTag_gt hname

/-- The scanner on characters. -/
def breaks : Rewriter Bool where
  cut := breakCut
  shorter := by
    intro inPre cs
    unfold breakCut
    split
    · rename_i tag rest h
      split_ifs at h
      obtain ⟨hcs, hne⟩ := tagEnd_eq h
      exact rest_length_le hcs hne
    · split_ifs
      · split
        · rename_i tag rest h
          obtain ⟨hcs, hne⟩ := closeTag_eq h
          exact rest_length_le hcs hne
        · split
          · rename_i tag rest h
            obtain ⟨hcs, hne⟩ := boundaryTag_eq h
            exact rest_length_le hcs hne
          · exact le_rfl
      · exact le_rfl

/-- The text that the scanner makes of a text, in a `<pre>` region or not. -/
def breakPass (inPre : Bool) (cs : List Char) : List Char := breaks.run inPre cs

/-! ## The scanner computes `breakPass` -/

theorem openBytes_ascii {name : List Char} (h : ∀ c ∈ name, c.toNat < 128) :
    AsciiTag (openBytes name) := by
  apply asciiTag_encode
  simpa using h

theorem closeBytes_ascii {name : List Char} (h : ∀ c ∈ name, c.toNat < 128) :
    AsciiTag (closeBytes name) := by
  apply asciiTag_encode
  simpa using h

theorem lineBoundaryCloseTags_ascii :
    ∀ name ∈ lineBoundaryCloseTags, ∀ c ∈ name, c.toNat < 128 := by
  simp [lineBoundaryCloseTags]

/-- The bytes and the characters agree on whether a break is needed. -/
theorem needsBreak_encode {bytes : List UInt8} {i : ℕ} {cs : List Char} (h : At bytes i cs) :
    needsBreak bytes i = breakNeeded cs := by
  cases cs with
  | nil =>
      rw [needsBreak, h.getElem?_eq]
      rfl
  | cons c cs =>
      have hspace := h.any_eq isAsciiWhitespace_ascii
      have hlt : (bytes[i]? == some 0x3C) = (some c == some '<') :=
        h.getElem?_beq (a := '<') (by decide)
      have hi := h.lt_length_iff.mpr (List.cons_ne_nil _ _)
      rw [List.getElem?_eq_getElem hi] at hspace hlt
      rw [needsBreak, breakNeeded, List.getElem?_eq_getElem hi]
      change isAsciiWhitespace bytes[i] = isSpace c at hspace
      change (bytes[i] == 0x3C) = (c == '<') at hlt
      simp only [hspace, hlt]
      cases hc : isSpace c with
      | true => rfl
      | false =>
          by_cases hlt' : c = '<'
          · subst hlt'
            have hslash : (bytes[i + 1]? == some 0x2F) = (cs.head? == some '/') :=
              (h.afterAscii (p := (· == 0x3C)) rfl).getElem?_beq (a := '/') (by decide)
            rw [hslash]
            cases cs.head? == some '/' <;> rfl
          · have hfalse : (c == '<') = false := by simpa using hlt'
            rw [hfalse]
            rfl

/-- The bytes and the characters agree on the closing tag of a line. -/
theorem findTag_encode {bytes : List UInt8} {i : ℕ} {cs : List Char} (h : At bytes i cs)
    (names : List (List Char)) (hnames : ∀ name ∈ names, ∀ c ∈ name, c.toNat < 128) :
    names.findSome? (closingTagLen bytes i)
      = (names.findSome? fun name => closeTag (closeBytes name) cs).map
          fun p => (Utf8.encode p.1).length := by
  induction names with
  | nil => rfl
  | cons name names ih =>
      have hname := closeBytes_ascii (hnames name List.mem_cons_self)
      rw [List.findSome?_cons, List.findSome?_cons, closingTagLen, closeLen_encode hname h,
        ih fun n hn => hnames n (List.mem_cons_of_mem _ hn)]
      cases closeTag (closeBytes name) cs <;> rfl

theorem preName_ascii : ∀ c ∈ preName, c.toNat < 128 := by simp [preName]

/-- The `<pre` tag that a turn finds outside of code blocks. -/
theorem preOpen_encode {bytes : List UInt8} {i : ℕ} {cs : List Char} (h : At bytes i cs)
    (inPre : Bool) :
    (if !inPre && isTagOpenAt bytes i preName then findTagEnd bytes i else none)
      = (if !inPre && tagOpen (openBytes preName) cs then tagEnd false false cs else none).map
          fun p => i + (Utf8.encode p.1).length - 1 := by
  rw [isTagOpenAt, openAt_encode (openBytes_ascii preName_ascii) h, findTagEnd_encode h]
  split_ifs <;> rfl

/-- The scanner makes the turns of the patch. -/
theorem breakTurn_implements (html : String) :
    Implements (breakTurn html (RustStr.asBytes html)) breaks html := by
  intro inPre i cs hb
  have hat := hb.at_asBytes
  -- A `<` that starts none of the tags is copied alone.
  have hlone : Boundary html (i + 1) cs := hb.afterLt
  show ∃ j, breakTurn html (RustStr.asBytes html) inPre i
      = some ⟨String.ofList (breakCut inPre ('<' :: cs)).pushed, j,
          (breakCut inPre ('<' :: cs)).state⟩
    ∧ Boundary html j (breakCut inPre ('<' :: cs)).rest
  unfold breakTurn breakCut
  rw [preOpen_encode hat]
  cases hend : (if !inPre && tagOpen (openBytes preName) ('<' :: cs)
      then tagEnd false false ('<' :: cs) else none) with
  | some p =>
      obtain ⟨tag, rest⟩ := p
      split_ifs at hend
      obtain ⟨hcs, hne⟩ := tagEnd_eq hend
      rw [hcs] at hb
      refine ⟨_, ?_, hb.advance⟩
      simp only [Option.map_some, sub_one_add_one i hne, hb.slice_eq, Option.bind_eq_bind,
        Option.bind_some]
  | none =>
      cases inPre with
      | false => exact ⟨i + 1, rfl, hlone⟩
      | true =>
          simp only [Option.map_none, if_true, closingTagLen,
            closeLen_encode (closeBytes_ascii preName_ascii) hat]
          cases hclose : closeTag (closeBytes preName) ('<' :: cs) with
          | some p =>
              obtain ⟨tag, rest⟩ := p
              obtain ⟨hcs, -⟩ := closeTag_eq hclose
              rw [hcs] at hb
              refine ⟨_, ?_, hb.advance⟩
              simp only [Option.map_some, hb.slice_eq, Option.bind_eq_bind, Option.bind_some]
          | none =>
              rw [Option.map_none]
              simp only []
              rw [findTag_encode hat _ lineBoundaryCloseTags_ascii]
              cases hline : lineBoundaryCloseTags.findSome?
                  (fun name => closeTag (closeBytes name) ('<' :: cs)) with
              | none => exact ⟨i + 1, rfl, hlone⟩
              | some p =>
                  obtain ⟨tag, rest⟩ := p
                  obtain ⟨hcs, -⟩ := boundaryTag_eq hline
                  rw [hcs] at hb
                  refine ⟨_, ?_, hb.advance⟩
                  simp only [Option.map_some, hb.slice_eq, Option.bind_eq_bind, Option.bind_some,
                    needsBreak_encode hb.advance.at_asBytes]
                  split_ifs
                  · rw [String.push_eq_append, String.ofList_append]
                    rfl
                  · rfl

/-- **The scanner computes `breakPass`**; in particular it never panics. -/
theorem preserveCodeBlockLineBreaks_eq (html : String) :
    preserveCodeBlockLineBreaks html = some (String.ofList (breakPass false html.toList)) :=
  copy_eq (breakTurn_implements html) false

/-! ## What a break changes -/

/-- The first text is the second with line breaks inserted, each after a `>`. -/
inductive Broken : List Char → List Char → Prop
  | nil : Broken [] []
  | copied (c : Char) {xs cs : List Char} (h : Broken xs cs) : Broken (c :: xs) (c :: cs)
  | broken {xs cs : List Char} (h : Broken xs cs) : Broken ('>' :: '\n' :: xs) ('>' :: cs)

namespace Broken

theorem append (tag : List Char) {xs cs : List Char} (h : Broken xs cs) :
    Broken (tag ++ xs) (tag ++ cs) := by
  induction tag with
  | nil => exact h
  | cons c tag ih => exact .copied c ih

/-- Only line breaks come in. -/
theorem mem_iff {xs cs : List Char} (h : Broken xs cs) {c : Char} (hc : c ≠ '\n') :
    c ∈ xs ↔ c ∈ cs := by
  induction h with
  | nil => exact Iff.rfl
  | copied d _ ih => rw [List.mem_cons, List.mem_cons, ih]
  | broken _ ih => simp [ih, hc]

/-- A scan that `>` stops does not see the line breaks. -/
theorem takeWhile_eq {p : Char → Bool} (hp : p '>' = false) {xs cs : List Char}
    (h : Broken xs cs) : xs.takeWhile p = cs.takeWhile p := by
  induction h with
  | nil => rfl
  | copied c _ ih => rw [List.takeWhile_cons, List.takeWhile_cons, ih]
  | broken =>
      rw [List.takeWhile_cons_of_neg (by simp [hp]), List.takeWhile_cons_of_neg (by simp [hp])]

end Broken

/-- The scanner only inserts line breaks after the `>` of closing tags. -/
theorem breakPass_broken (inPre : Bool) (cs : List Char) : Broken (breakPass inPre cs) cs := by
  refine breaks.run_induction .nil (fun c _ _ h => .copied c h) ?_ inPre cs
  intro r cs xs h
  show Broken ((breakCut r ('<' :: cs)).pushed ++ xs) ('<' :: cs)
  change Broken xs (breakCut r ('<' :: cs)).rest at h
  unfold breakCut at h ⊢
  split at h
  · rename_i tag rest hend
    split_ifs at hend
    rw [(tagEnd_eq hend).1]
    exact h.append tag
  · split_ifs at h ⊢ with hr
    · split at h
      · rename_i tag rest hclose
        rw [(closeTag_eq hclose).1]
        exact h.append tag
      · split at h
        · rename_i tag rest hline
          rw [(boundaryTag_eq hline).1]
          -- The closing tag ends in `>`, and the line break goes after it.
          obtain ⟨front, rfl⟩ := boundaryTag_gt hline
          split_ifs
          · rw [List.append_assoc, List.append_assoc, List.append_assoc]
            exact (Broken.broken h).append front
          · exact h.append _
        · exact .copied '<' h
    · exact .copied '<' h

/-! ## Well-formed documents -/

open HtmlTokens

/-- A `<pre>` region is open after these tokens: some start tag named `pre` is among
them, and no end tag named `pre` after it. -/
def InPre (before : List Token) : Prop :=
  ∃ xs t ys, before = xs ++ t :: ys ∧ t.isStart preName = true ∧ ∀ y ∈ ys, y.isEnd preName = false

/-- Whether a `<pre>` region is open after a token. -/
def regionAfter (inPre : Bool) (t : Token) : Bool :=
  if t.isStart preName then true else if t.isEnd preName then false else inPre

/-- The flag that the scanner carries. -/
theorem inPre_iff (before : List Token) :
    InPre before ↔ before.foldl regionAfter false = true := by
  induction before using List.reverseRecOn with
  | nil =>
      constructor
      · rintro ⟨xs, t, ys, h, -⟩
        exact absurd h (by simp)
      · intro h
        exact absurd h (by simp)
  | append_singleton before t ih =>
      rw [List.foldl_append, List.foldl_cons, List.foldl_nil, regionAfter]
      have hlast : ∀ {xs : List Token} {u : Token} {ys : List Token},
          before ++ [t] = xs ++ u :: ys → (u = t ∧ ys = []) ∨
            ∃ zs, ys = zs ++ [t] ∧ before = xs ++ u :: zs := by
        intro xs u ys h
        rcases List.eq_nil_or_concat ys with rfl | ⟨zs, v, rfl⟩
        · have := List.append_inj' h rfl
          exact Or.inl ⟨(List.cons.inj this.2).1.symm, rfl⟩
        · rw [List.concat_eq_append, ← List.cons_append, ← List.append_assoc] at h
          have := List.append_inj' h rfl
          refine Or.inr ⟨zs, ?_, this.1⟩
          rw [List.concat_eq_append, (List.cons.inj this.2).1]
      split_ifs with hstart hend
      · exact iff_of_true ⟨before, t, [], rfl, hstart, by simp⟩ rfl
      · -- The end tag closes every region.
        refine iff_of_false ?_ (by simp)
        rintro ⟨xs, u, ys, h, hu, hys⟩
        rcases hlast h with ⟨rfl, rfl⟩ | ⟨zs, rfl, -⟩
        · exact hstart hu
        · rw [hys t (by simp)] at hend
          exact absurd hend (by simp)
      · rw [← ih]
        constructor
        · rintro ⟨xs, u, ys, h, hu, hys⟩
          rcases hlast h with ⟨rfl, rfl⟩ | ⟨zs, rfl, hbefore⟩
          · exact absurd hu hstart
          · exact ⟨xs, u, zs, hbefore, hu, fun y hy => hys y (List.mem_append_left _ hy)⟩
        · rintro ⟨xs, u, ys, rfl, hu, hys⟩
          refine ⟨xs, u, ys ++ [t], by simp, hu, ?_⟩
          intro y hy
          rcases List.mem_append.mp hy with hy | hy
          · exact hys y hy
          · rw [List.mem_singleton.mp hy]
            simpa using hend

instance (before : List Token) : Decidable (InPre before) :=
  decidable_of_iff _ (inPre_iff before).symm

/-- An end tag named `div`, `p`, `tr` or `li`. -/
def isLineEnd (t : Token) : Bool := lineBoundaryCloseTags.any fun name => t.isEnd name

/-- A token comes next, and it is neither an end tag nor a text that starts with
whitespace. -/
def moreFollows : List Token → Bool
  | [] => false
  | .text b :: _ => !b.chars.head?.any isSpace
  | .startTag .. :: _ => true
  | .endTag .. :: _ => false

/-- The text of a document with a line break after each line end inside a `<pre>`
region that more follows.  `before` are the tokens before the list. -/
def renderBreaks (before : List Token) : List Token → List Char
  | [] => []
  | t :: ts =>
      t.render ++ (if InPre before ∧ isLineEnd t ∧ moreFollows ts then ['\n'] else [])
        ++ renderBreaks (before ++ [t]) ts

theorem preName_isName : IsName preName := ⟨by simp [preName], by simp [preName, isNameChar]⟩

theorem lineBoundaryCloseTags_isName : ∀ name ∈ lineBoundaryCloseTags, IsName name := by
  simp [lineBoundaryCloseTags, IsName, isNameChar]

/-- A break is needed exactly when more follows on the line. -/
theorem breakNeeded_render (ts : List Token) : breakNeeded (render ts) = moreFollows ts := by
  cases ts with
  | nil => rfl
  | cons t ts =>
      rw [render_cons]
      cases t with
      | text b =>
          obtain ⟨c, cs, hc⟩ := List.exists_cons_of_ne_nil b.ne_nil
          have hlt : (c == '<') = false := by
            have := b.all c (by rw [hc]; exact List.mem_cons_self)
            simpa using this
          rw [Token.render, hc, List.cons_append, breakNeeded, moreFollows, hc, hlt,
            Bool.false_and, Bool.not_false, Bool.and_true, List.head?_cons, Option.any_some]
      | startTag n attrs space selfClosing =>
          obtain ⟨c, cs, hc⟩ := List.exists_cons_of_ne_nil n.ne_nil
          have hslash := (isNameChar_cases (n.all c (by rw [hc]; exact List.mem_cons_self))).2.2.1
          have hspace : isSpace '<' = false := by decide
          rw [Token.render, hc, List.cons_append, List.cons_append, breakNeeded, moreFollows,
            hspace]
          simpa using hslash
      | endTag n space =>
          have hspace : isSpace '<' = false := by decide
          rw [Token.render, List.cons_append, breakNeeded, moreFollows, hspace]
          rfl

/-- The first closing tag that an end tag is, among several names. -/
theorem findSome_closeTag_end {names : List (List Char)} (hnames : ∀ name ∈ names, IsName name)
    (n : Name) (space : Chars isSpace) (rest : List Char) :
    names.findSome? (fun name => closeTag (closeBytes name) ((Token.endTag n space).render ++ rest))
      = if names.any (fun name => Named name n) then some ((Token.endTag n space).render, rest)
        else none := by
  induction names with
  | nil => rfl
  | cons name names ih =>
      have hclose : closeTag (closeBytes name) ((Token.endTag n space).render ++ rest)
          = if Named name n then some ((Token.endTag n space).render, rest) else none :=
        closeTag_end (hnames name List.mem_cons_self) n space rest
      rw [List.findSome?_cons, hclose, List.any_cons,
        ih fun name' h' => hnames name' (List.mem_cons_of_mem _ h')]
      cases Named name n <;> rfl

/-- A start tag is no closing tag. -/
theorem findSome_closeTag_start (names : List (List Char)) (n : Name)
    (attrs : List (Chars1 isSpace × Attr)) (space : Chars isSpace) (selfClosing : Bool)
    (rest : List Char) :
    names.findSome? (fun name => closeTag (closeBytes name)
      ((Token.startTag n attrs space selfClosing).render ++ rest)) = none := by
  rw [List.findSome?_eq_none_iff]
  intro name _
  exact closeTag_start n attrs space selfClosing rest

/-- An end tag named `pre` is no line end. -/
theorem isLineEnd_of_isEnd_pre {t : Token} (h : t.isEnd preName = true) : isLineEnd t = false := by
  obtain ⟨n, space, rfl, hn⟩ := Token.isEnd_eq_true h
  rw [Named, beq_iff_eq] at hn
  simp only [isLineEnd, lineBoundaryCloseTags, Token.isEnd, Named, hn]
  decide

/-- What the scanner's cut is at a tag. -/
theorem breakCut_start (r : Bool) (n : Name) (attrs : List (Chars1 isSpace × Attr))
    (space : Chars isSpace) (selfClosing : Bool) (rest : List Char) :
    breakCut r ((Token.startTag n attrs space selfClosing).render ++ rest)
      = if !r && Named preName n then
          ⟨(Token.startTag n attrs space selfClosing).render, rest, true⟩
        else ⟨['<'], (Token.startTag n attrs space selfClosing).inner ++ rest, r⟩ := by
  have hopen : tagOpen (openBytes preName)
      ((Token.startTag n attrs space selfClosing).render ++ rest) = Named preName n :=
    tagOpen_start preName_isName n attrs space selfClosing rest
  have hclose : closeTag (closeBytes preName)
      ((Token.startTag n attrs space selfClosing).render ++ rest) = none :=
    closeTag_start n attrs space selfClosing rest
  unfold breakCut
  rw [hopen, tagEnd_start, hclose, findSome_closeTag_start]
  cases r <;> cases Named preName n <;> rfl

/-- What the patch does at an end tag. -/
theorem breakCut_end (r : Bool) (n : Name) (space : Chars isSpace) (ts : List Token) :
    breakCut r ((Token.endTag n space).render ++ render ts)
      = if !r then ⟨['<'], (Token.endTag n space).inner ++ render ts, r⟩
        else if Named preName n then ⟨(Token.endTag n space).render, render ts, false⟩
        else if isLineEnd (.endTag n space) then
          ⟨(Token.endTag n space).render ++ (if moreFollows ts then ['\n'] else []),
            render ts, r⟩
        else ⟨['<'], (Token.endTag n space).inner ++ render ts, r⟩ := by
  have hopen : tagOpen (openBytes preName) ((Token.endTag n space).render ++ render ts) = false :=
    tagOpen_end preName_isName n space _
  have hclose : closeTag (closeBytes preName) ((Token.endTag n space).render ++ render ts)
      = if Named preName n then some ((Token.endTag n space).render, render ts) else none :=
    closeTag_end preName_isName n space _
  unfold breakCut
  rw [hopen, hclose, findSome_closeTag_end lineBoundaryCloseTags_isName, Bool.and_false]
  have hline : lineBoundaryCloseTags.any (fun name => Named name n)
      = isLineEnd (.endTag n space) := rfl
  rw [hline]
  cases r with
  | false => rfl
  | true =>
      cases Named preName n with
      | true => rfl
      | false =>
          cases isLineEnd (.endTag n space) with
          | true =>
              simp only [Bool.false_eq_true, if_false, if_true, Bool.not_true, breakNeeded_render]
              cases moreFollows ts with
              | true => rfl
              | false => simp
          | false => rfl

/-- One token of the document: it is copied, with a line break after it where one is
missing, and the flag is the region's. -/
theorem breakPass_cons (r : Bool) (t : Token) (ts : List Token) :
    breakPass r (t.render ++ render ts)
      = t.render ++ (if r = true ∧ isLineEnd t ∧ moreFollows ts then ['\n'] else [])
        ++ breakPass (regionAfter r t) (render ts) := by
  unfold breakPass
  cases t with
  | text b =>
      have hline : isLineEnd (.text b) = false := rfl
      rw [run_text, hline, if_neg (by simp), List.append_nil]
      rfl
  | startTag n attrs space selfClosing =>
      have hline : isLineEnd (.startTag n attrs space selfClosing) = false := rfl
      have hcut := breakCut_start r n attrs space selfClosing (render ts)
      have hregion : regionAfter r (.startTag n attrs space selfClosing)
          = if Named preName n then true else r := rfl
      rw [hline, if_neg (by simp), List.append_nil, hregion]
      -- Inside a region a further `<pre>` is copied like any tag.
      split_ifs at hcut with hpre
      · rw [Bool.and_eq_true] at hpre
        rw [if_pos hpre.2]
        exact run_cut breaks r rfl hcut
      · have hsame : (if Named preName n then true else r) = r := by
          cases r <;> cases hn : Named preName n <;> simp_all
        rw [hsame]
        exact run_tag breaks r rfl hcut
  | endTag n space =>
      have hcut := breakCut_end r n space ts
      have hregion : regionAfter r (.endTag n space) = if Named preName n then false else r := rfl
      rw [hregion]
      cases r with
      | false =>
          rw [if_neg (by simp), List.append_nil, ite_self]
          exact run_tag breaks false rfl hcut
      | true =>
          rw [Bool.not_true, if_neg (by simp)] at hcut
          cases hpre : Named preName n with
          | true =>
              have hline := isLineEnd_of_isEnd_pre (t := .endTag n space) hpre
              rw [hpre, if_pos rfl] at hcut
              rw [hline, if_neg (by simp), List.append_nil, if_pos rfl]
              exact run_cut breaks true rfl hcut
          | false =>
              rw [hpre, if_neg (by simp)] at hcut
              rw [if_neg (show ¬ false = true by simp)]
              cases hline : isLineEnd (.endTag n space) with
              | true =>
                  rw [hline, if_pos rfl] at hcut
                  simp only [true_and]
                  exact run_cut breaks true rfl hcut
              | false =>
                  rw [hline, if_neg (by simp)] at hcut
                  rw [if_neg (by simp), List.append_nil]
                  exact run_tag breaks true rfl hcut

/-- The scanner on characters, from any point of a document on. -/
theorem breakPass_render (before ts : List Token) :
    breakPass (before.foldl regionAfter false) (render ts) = renderBreaks before ts := by
  induction ts generalizing before with
  | nil => exact breaks.run_nil _
  | cons t ts ih =>
      have hnext := ih (before ++ [t])
      rw [List.foldl_append, List.foldl_cons, List.foldl_nil] at hnext
      rw [render_cons, breakPass_cons, renderBreaks, hnext]
      simp only [inPre_iff]

/-- **Exactness**: on every well-formed document the scanner inserts the missing line
breaks and nothing else.  Texts may even be adjacent here. -/
theorem preserveCodeBlockLineBreaks_render (ts : List Token) :
    preserveCodeBlockLineBreaks (String.ofList (render ts))
      = some (String.ofList (renderBreaks [] ts)) := by
  rw [preserveCodeBlockLineBreaks_eq, String.toList_ofList, ← breakPass_render]
  rfl

end CodeblockLinebreaks
