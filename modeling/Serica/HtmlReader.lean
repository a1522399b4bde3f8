/-
# Reading HTML

What a text says as HTML, read character by character: the characters of its texts, its
start tags with their attributes, and its end tags.  There are no comments and no raw
texts; a name and a value are read as they are written.

* `parse` is the reader, `State.step` one character of it.
* `read_text`, `read_stop`: a text is read as its characters, an end tag as its name.
* `step_gt` and the `Goes` lemmas: the parts of a start tag.
* `values_pieces`: the values of the start tags are the characters that the reader took for
  values, which `erase_after` reads off its mode alone.
-/
import Serica.TagScan

namespace HtmlReader

open TagScan

/-! ## The reader -/

structure Attribute where
  name : List Char
  value : Option (List Char)
deriving DecidableEq

structure StartTag where
  name : List Char
  attrs : List Attribute
deriving DecidableEq

inductive Piece
  | char (c : Char)
  | start (tag : StartTag)
  | stop (name : List Char)
deriving DecidableEq

/-- Adds an attribute. -/
def StartTag.add (tag : StartTag) (name : List Char) (value : Option (List Char)) : StartTag :=
  { tag with attrs := tag.attrs ++ [⟨name, value⟩] }

inductive Quote
  | single
  | double
deriving DecidableEq

def Quote.char : Quote → Char
  | single => '\''
  | double => '"'

/-- Where the reader is, and what it has read of a tag. -/
inductive State
  | text
  | opened
  | name (n : List Char)
  | between (tag : StartTag)
  | attr (tag : StartTag) (a : List Char)
  | equals (tag : StartTag) (a : List Char)
  | quoted (q : Quote) (tag : StartTag) (a v : List Char)
  | unquoted (tag : StartTag) (a v : List Char)
  | endName (n : List Char)
  | endTail (n : List Char)

/-- What sets attributes apart. -/
def isGap (c : Char) : Bool := isSpace c || c == '/'

/-- One character: the next state, and the piece that it ends, if it ends one. -/
def State.step : State → Char → State × List Piece
  -- Every `<` opens a tag, whatever follows it.
  | text, c => if c = '<' then (opened, []) else (text, [.char c])
  | opened, c =>
      if c = '>' then (text, []) else if c = '/' then (endName [], []) else (name [c], [])
  | name n, c =>
      if c = '>' then (text, [.start ⟨n, []⟩])
      else if isGap c then (between ⟨n, []⟩, [])
      else (name (n ++ [c]), [])
  | between tag, c =>
      if c = '>' then (text, [.start tag])
      else if isGap c then (between tag, [])
      else (attr tag [c], [])
  | attr tag a, c =>
      if c = '>' then (text, [.start (tag.add a none)])
      else if isGap c then (between (tag.add a none), [])
      else if c = '=' then (equals tag a, [])
      else (attr tag (a ++ [c]), [])
  | equals tag a, c =>
      if c = '>' then (text, [.start (tag.add a (some []))])
      else if isSpace c then (between (tag.add a (some [])), [])
      else if c = '\'' then (quoted .single tag a [], [])
      else if c = '"' then (quoted .double tag a [], [])
      else (unquoted tag a [c], [])
  -- Only the quote ends a quoted value: `<` and `>` belong to it.
  | quoted q tag a v, c =>
      if c = q.char then (between (tag.add a (some v)), [])
      else (quoted q tag a (v ++ [c]), [])
  | unquoted tag a v, c =>
      if c = '>' then (text, [.start (tag.add a (some v))])
      else if isSpace c then (between (tag.add a (some v)), [])
      else (unquoted tag a (v ++ [c]), [])
  | endName n, c =>
      if c = '>' then (text, [.stop n])
      else if isSpace c then (endTail n, [])
      else (endName (n ++ [c]), [])
  -- What follows the name of an end tag is skipped.
  | endTail n, c => if c = '>' then (text, [.stop n]) else (endTail n, [])

/-- The state after a text. -/
def after : State → List Char → State
  | s, [] => s
  | s, c :: cs => after (s.step c).1 cs

/-- The pieces that end in a text. -/
def pieces : State → List Char → List Piece
  | _, [] => []
  | s, c :: cs => (s.step c).2 ++ pieces (s.step c).1 cs

/-- What a text says. -/
def parse (cs : List Char) : List Piece := pieces .text cs

@[simp] theorem after_nil (s : State) : after s [] = s := rfl

@[simp] theorem pieces_nil (s : State) : pieces s [] = [] := rfl

theorem after_cons (s : State) (c : Char) (cs : List Char) :
    after s (c :: cs) = after (s.step c).1 cs := rfl

theorem pieces_cons (s : State) (c : Char) (cs : List Char) :
    pieces s (c :: cs) = (s.step c).2 ++ pieces (s.step c).1 cs := rfl

/-- Two texts are read one after the other. -/
theorem after_append (s : State) (xs ys : List Char) :
    after s (xs ++ ys) = after (after s xs) ys := by
  induction xs generalizing s with
  | nil => rfl
  | cons c xs ih => rw [List.cons_append, after_cons, ih, after_cons]

/-- The pieces of two texts are those of the first and those of the second behind it. -/
theorem pieces_append (s : State) (xs ys : List Char) :
    pieces s (xs ++ ys) = pieces s xs ++ pieces (after s xs) ys := by
  induction xs generalizing s with
  | nil => rfl
  | cons c xs ih =>
      rw [List.cons_append, pieces_cons, ih, pieces_cons, after_cons, List.append_assoc]

/-- From one state to another without ending a piece. -/
def Goes (s : State) (xs : List Char) (t : State) : Prop := after s xs = t ∧ pieces s xs = []

theorem Goes.nil (s : State) : Goes s [] s := ⟨rfl, rfl⟩

theorem Goes.cons {s t : State} {c : Char} {xs : List Char} (hc : (s.step c).2 = [])
    (h : Goes (s.step c).1 xs t) : Goes s (c :: xs) t := by
  refine ⟨h.1, ?_⟩
  rw [pieces_cons, hc, h.2, List.append_nil]

/-- Two texts without pieces are read one after the other. -/
theorem Goes.append {s t u : State} {xs ys : List Char} (hx : Goes s xs t) (hy : Goes t ys u) :
    Goes s (xs ++ ys) u := by
  refine ⟨?_, ?_⟩
  · rw [after_append, hx.1, hy.1]
  · rw [pieces_append, hx.1, hx.2, hy.2, List.append_nil]

/-! ## Texts and end tags -/

/-- A text is read as its characters. -/
theorem read_text {xs : List Char} (h : ∀ c ∈ xs, c ≠ '<') :
    after .text xs = .text ∧ pieces .text xs = xs.map .char := by
  induction xs with
  | nil => exact ⟨rfl, rfl⟩
  | cons c xs ih =>
      obtain ⟨hafter, hpieces⟩ := ih fun c' h' => h c' (List.mem_cons_of_mem c h')
      have hstep : State.text.step c = (.text, [.char c]) := if_neg (h c List.mem_cons_self)
      rw [after_cons, pieces_cons, hstep]
      exact ⟨hafter, by rw [hpieces]; rfl⟩

/-- A character of a name of a tag. -/
def IsNamePart (c : Char) : Prop := c ≠ '>' ∧ isSpace c = false ∧ c ≠ '/' ∧ c ≠ '='

/-- A name has no gap in it. -/
theorem isGap_eq_false {c : Char} (h : IsNamePart c) : isGap c = false := by
  simp [isGap, h.2.1, h.2.2.1]

theorem Goes.endName {xs : List Char} (h : ∀ c ∈ xs, IsNamePart c) (n : List Char) :
    Goes (.endName n) xs (.endName (n ++ xs)) := by
  induction xs generalizing n with
  | nil => rw [List.append_nil]; exact .nil _
  | cons c xs ih =>
      obtain ⟨hgt, hspace, -⟩ := h c List.mem_cons_self
      have hstep : (State.endName n).step c = (.endName (n ++ [c]), []) := by
        rw [State.step, if_neg hgt, hspace]
        rfl
      have hrest := ih (fun c' h' => h c' (List.mem_cons_of_mem c h')) (n ++ [c])
      rw [List.append_assoc, List.singleton_append] at hrest
      exact .cons (by rw [hstep]) (by rw [hstep]; exact hrest)

/-- The end of an end tag. -/
theorem pieces_endTail {space : List Char} (h : ∀ c ∈ space, isSpace c = true) (n : List Char) :
    ∀ s, s = .endName n ∨ s = .endTail n →
      after s (space ++ ['>']) = .text ∧ pieces s (space ++ ['>']) = [.stop n] := by
  induction space with
  | nil =>
      rintro s (rfl | rfl) <;> exact ⟨rfl, rfl⟩
  | cons c space ih =>
      intro s hs
      have hspace := h c List.mem_cons_self
      have hgt : c ≠ '>' := by
        rintro rfl
        exact absurd hspace (by decide)
      have hstep : s.step c = (.endTail n, []) := by
        rcases hs with rfl | rfl
        · rw [State.step, if_neg hgt, hspace]
          rfl
        · rw [State.step, if_neg hgt]
      rw [List.cons_append, after_cons, pieces_cons, hstep]
      exact ih (fun c' h' => h c' (List.mem_cons_of_mem c h')) _ (Or.inr rfl)

/-- An end tag is read as its name. -/
theorem read_stop {name space : List Char} (hname : ∀ c ∈ name, IsNamePart c)
    (hspace : ∀ c ∈ space, isSpace c = true) :
    after .text ('<' :: '/' :: (name ++ (space ++ ['>']))) = .text
      ∧ pieces .text ('<' :: '/' :: (name ++ (space ++ ['>']))) = [.stop name] := by
  have hgoes := Goes.endName hname []
  have hend := pieces_endTail hspace name (.endName name) (Or.inl rfl)
  have hafter : after .text ('<' :: '/' :: (name ++ (space ++ ['>'])))
      = after (.endName []) (name ++ (space ++ ['>'])) := rfl
  have hpieces : pieces .text ('<' :: '/' :: (name ++ (space ++ ['>'])))
      = pieces (.endName []) (name ++ (space ++ ['>'])) := rfl
  rw [hafter, hpieces, after_append, pieces_append, hgoes.1, hgoes.2]
  exact hend

/-! ## Start tags -/

/-- The start tag that a `>` would end here. -/
def State.tag? : State → Option StartTag
  | name n => some ⟨n, []⟩
  | between tag => some tag
  | attr tag a => some (tag.add a none)
  | equals tag a => some (tag.add a (some []))
  | unquoted tag a v => some (tag.add a (some v))
  | _ => none

/-- A `>` ends the tag. -/
theorem step_gt {s : State} {tag : StartTag} (h : s.tag? = some tag) :
    s.step '>' = (.text, [.start tag]) := by
  cases s <;> simp_all [State.tag?, State.step]

/-- Whitespace sets the next attribute apart. -/
theorem step_space {s : State} {tag : StartTag} (h : s.tag? = some tag) {c : Char}
    (hc : isSpace c = true) : s.step c = (.between tag, []) := by
  have hgt : c ≠ '>' := by
    rintro rfl
    exact absurd hc (by decide)
  cases s <;> simp_all [State.tag?, State.step, isGap]

/-- A slash keeps the name of the tag, and the tag itself after a name or a quoted value. -/
theorem step_slash {s : State} {tag : StartTag} (h : s.tag? = some tag) :
    (s.step '/').2 = [] ∧ ∃ tag', (s.step '/').1.tag? = some tag' ∧ tag'.name = tag.name := by
  have hspace : isSpace '/' = false := by decide
  cases s <;> simp_all [State.tag?, State.step, isGap, StartTag.add] <;> rw [← h]

/-- Whitespace between the parts of a tag. -/
theorem Goes.space {s : State} {tag : StartTag} (h : s.tag? = some tag) {space : List Char}
    (hspace : ∀ c ∈ space, isSpace c = true) :
    ∃ t, Goes s space t ∧ t.tag? = some tag ∧ (space ≠ [] → t = .between tag) := by
  induction space generalizing s with
  | nil => exact ⟨s, .nil s, h, fun hne => absurd rfl hne⟩
  | cons c space ih =>
      have hstep := step_space h (hspace c List.mem_cons_self)
      obtain ⟨t, hgoes, htag, hne⟩ := ih (s := .between tag) rfl
        fun c' h' => hspace c' (List.mem_cons_of_mem c h')
      refine ⟨t, .cons (by rw [hstep]) (by rw [hstep]; exact hgoes), htag, fun _ => ?_⟩
      cases space with
      | nil => exact hgoes.1.symm
      | cons d space => exact hne (List.cons_ne_nil d space)

theorem Goes.name {xs : List Char} (h : ∀ c ∈ xs, IsNamePart c) (n : List Char) :
    Goes (.name n) xs (.name (n ++ xs)) := by
  induction xs generalizing n with
  | nil => rw [List.append_nil]; exact .nil _
  | cons c xs ih =>
      have hc := h c List.mem_cons_self
      have hstep : (State.name n).step c = (.name (n ++ [c]), []) := by
        rw [State.step, if_neg hc.1, isGap_eq_false hc]
        rfl
      have hrest := ih (fun c' h' => h c' (List.mem_cons_of_mem c h')) (n ++ [c])
      rw [List.append_assoc, List.singleton_append] at hrest
      exact .cons (by rw [hstep]) (by rw [hstep]; exact hrest)

/-- The name of a start tag. -/
theorem Goes.open {name : List Char} (h : ∀ c ∈ name, IsNamePart c) (hne : name ≠ []) :
    Goes .text ('<' :: name) (.name name) := by
  obtain ⟨c, cs, rfl⟩ := List.exists_cons_of_ne_nil hne
  have hc := h c List.mem_cons_self
  have hstep : State.opened.step c = (.name [c], []) := by
    rw [State.step, if_neg hc.1, if_neg hc.2.2.1]
  refine .cons rfl (.cons (by rw [show (State.text.step '<').1 = .opened from rfl, hstep]) ?_)
  rw [show (State.text.step '<').1 = .opened from rfl, hstep]
  exact Goes.name (fun c' h' => h c' (List.mem_cons_of_mem c h')) [c]

theorem Goes.attr {xs : List Char} (h : ∀ c ∈ xs, IsNamePart c) (tag : StartTag) (a : List Char) :
    Goes (.attr tag a) xs (.attr tag (a ++ xs)) := by
  induction xs generalizing a with
  | nil => rw [List.append_nil]; exact .nil _
  | cons c xs ih =>
      have hc := h c List.mem_cons_self
      have hstep : (State.attr tag a).step c = (.attr tag (a ++ [c]), []) := by
        rw [State.step, if_neg hc.1, isGap_eq_false hc, if_neg (by simp), if_neg hc.2.2.2]
      have hrest := ih (fun c' h' => h c' (List.mem_cons_of_mem c h')) (a ++ [c])
      rw [List.append_assoc, List.singleton_append] at hrest
      exact .cons (by rw [hstep]) (by rw [hstep]; exact hrest)

/-- The name of an attribute. -/
theorem Goes.attrName {name : List Char} (h : ∀ c ∈ name, IsNamePart c) (hne : name ≠ [])
    (tag : StartTag) : Goes (.between tag) name (.attr tag name) := by
  obtain ⟨c, cs, rfl⟩ := List.exists_cons_of_ne_nil hne
  have hc := h c List.mem_cons_self
  have hstep : (State.between tag).step c = (.attr tag [c], []) := by
    rw [State.step, if_neg hc.1, isGap_eq_false hc]
    rfl
  refine .cons (by rw [hstep]) ?_
  rw [hstep]
  exact Goes.attr (fun c' h' => h c' (List.mem_cons_of_mem c h')) tag [c]

theorem Goes.equals (tag : StartTag) (a : List Char) : Goes (.attr tag a) ['='] (.equals tag a) :=
  ⟨rfl, rfl⟩

/-- A character of an unquoted value. -/
def IsBare (c : Char) : Prop := c ≠ '>' ∧ isSpace c = false ∧ c ≠ '\'' ∧ c ≠ '"'

theorem Goes.unquoted {xs : List Char} (h : ∀ c ∈ xs, IsBare c) (tag : StartTag)
    (a v : List Char) : Goes (.unquoted tag a v) xs (.unquoted tag a (v ++ xs)) := by
  induction xs generalizing v with
  | nil => rw [List.append_nil]; exact .nil _
  | cons c xs ih =>
      obtain ⟨hgt, hspace, -⟩ := h c List.mem_cons_self
      have hstep : (State.unquoted tag a v).step c = (.unquoted tag a (v ++ [c]), []) := by
        rw [State.step, if_neg hgt, hspace]
        rfl
      have hrest := ih (fun c' h' => h c' (List.mem_cons_of_mem c h')) (v ++ [c])
      rw [List.append_assoc, List.singleton_append] at hrest
      exact .cons (by rw [hstep]) (by rw [hstep]; exact hrest)

/-- An unquoted value. -/
theorem Goes.bareValue {v : List Char} (h : ∀ c ∈ v, IsBare c) (tag : StartTag) (a : List Char) :
    ∃ t, Goes (.equals tag a) v t ∧ t.tag? = some (tag.add a (some v)) := by
  cases v with
  | nil => exact ⟨_, .nil _, rfl⟩
  | cons c v =>
      obtain ⟨hgt, hspace, hsq, hdq⟩ := h c List.mem_cons_self
      have hstep : (State.equals tag a).step c = (.unquoted tag a [c], []) := by
        rw [State.step, if_neg hgt, hspace, if_neg (by simp), if_neg hsq, if_neg hdq]
      refine ⟨.unquoted tag a (c :: v), .cons (by rw [hstep]) ?_, rfl⟩
      rw [hstep]
      exact Goes.unquoted (fun c' h' => h c' (List.mem_cons_of_mem c h')) tag a [c]

/-- Between quotes everything but the quote belongs to the value. -/
theorem Goes.quoted {q : Quote} {xs : List Char} (h : ∀ c ∈ xs, c ≠ q.char) (tag : StartTag)
    (a v : List Char) : Goes (.quoted q tag a v) xs (.quoted q tag a (v ++ xs)) := by
  induction xs generalizing v with
  | nil => rw [List.append_nil]; exact .nil _
  | cons c xs ih =>
      have hstep : (State.quoted q tag a v).step c = (.quoted q tag a (v ++ [c]), []) :=
        if_neg (h c List.mem_cons_self)
      have hrest := ih (fun c' h' => h c' (List.mem_cons_of_mem c h')) (v ++ [c])
      rw [List.append_assoc, List.singleton_append] at hrest
      exact .cons (by rw [hstep]) (by rw [hstep]; exact hrest)

/-- A quoted value. -/
theorem Goes.quotedValue (q : Quote) {v : List Char} (h : ∀ c ∈ v, c ≠ q.char) (tag : StartTag)
    (a : List Char) :
    Goes (.equals tag a) (q.char :: (v ++ [q.char])) (.between (tag.add a (some v))) := by
  have hstep : (State.equals tag a).step q.char = (.quoted q tag a [], []) := by
    cases q <;> rfl
  have hvalue : Goes (.quoted q tag a []) v (.quoted q tag a v) := Goes.quoted h tag a []
  have hclose : (State.quoted q tag a v).step q.char = (.between (tag.add a (some v)), []) :=
    if_pos rfl
  refine .cons (by rw [hstep]) ?_
  rw [hstep]
  exact hvalue.append (.cons (by rw [hclose]) (by rw [hclose]; exact .nil _))

/-! ## Values -/

/-- The values of a tag, one after the other. -/
def StartTag.values (tag : StartTag) : List Char := tag.attrs.flatMap fun a => a.value.getD []

def Piece.values : Piece → List Char
  | .start tag => tag.values
  | _ => []

/-- The characters of values in what the reader has read of a tag. -/
def State.held : State → List Char
  | between tag => tag.values
  | attr tag _ => tag.values
  | equals tag _ => tag.values
  | quoted _ tag _ v => tag.values ++ v
  | unquoted tag _ v => tag.values ++ v
  | _ => []

/-- What a character adds to the values. -/
def State.takes : State → Char → List Char
  | equals _ _, c => if c = '>' ∨ isSpace c = true ∨ c = '\'' ∨ c = '"' then [] else [c]
  | quoted q _ _ _, c => if c = q.char then [] else [c]
  | unquoted _ _ _, c => if c = '>' ∨ isSpace c = true then [] else [c]
  | _, _ => []

/-- The characters of a text that go into values. -/
def valueChars : State → List Char → List Char
  | _, [] => []
  | s, c :: cs => s.takes c ++ valueChars (s.step c).1 cs

/-- What two texts put into values is what each of them does. -/
theorem valueChars_append (s : State) (xs ys : List Char) :
    valueChars s (xs ++ ys) = valueChars s xs ++ valueChars (after s xs) ys := by
  induction xs generalizing s with
  | nil => rfl
  | cons c xs ih => rw [List.cons_append, valueChars, ih, valueChars, after_cons, List.append_assoc]

theorem StartTag.values_add (tag : StartTag) (a : List Char) (value : Option (List Char)) :
    (tag.add a value).values = tag.values ++ value.getD [] := by
  simp [StartTag.add, StartTag.values]

/-- A step neither loses a character of a value nor makes one up. -/
theorem values_step (s : State) (c : Char) :
    (s.step c).2.flatMap Piece.values ++ (s.step c).1.held = s.held ++ s.takes c := by
  have hnil (n : List Char) : StartTag.values ⟨n, []⟩ = [] := rfl
  cases s <;> simp only [State.step, State.takes] <;> split_ifs <;>
    simp_all [State.held, Piece.values, StartTag.values_add]

/-- **No character of a value is lost or made up.** -/
theorem values_pieces (s : State) (xs : List Char) :
    (pieces s xs).flatMap Piece.values ++ (after s xs).held = s.held ++ valueChars s xs := by
  induction xs generalizing s with
  | nil => simp [valueChars]
  | cons c xs ih =>
      rw [pieces_cons, after_cons, List.flatMap_append, List.append_assoc, ih, ← List.append_assoc,
        values_step, List.append_assoc]
      rfl

/-- Where the reader is. -/
def State.erase : State → State
  | name _ => name []
  | between _ => between ⟨[], []⟩
  | attr _ _ => attr ⟨[], []⟩ []
  | equals _ _ => equals ⟨[], []⟩ []
  | quoted q _ _ _ => quoted q ⟨[], []⟩ [] []
  | unquoted _ _ _ => unquoted ⟨[], []⟩ [] []
  | endName _ => endName []
  | endTail _ => endTail []
  | s => s

/-- Where the reader goes does not depend on what it has read. -/
theorem erase_step (s : State) (c : Char) : (s.step c).1.erase = (s.erase.step c).1.erase := by
  cases s <;> simp only [State.step, State.erase] <;> split_ifs <;> rfl

theorem takes_erase (s : State) (c : Char) : s.erase.takes c = s.takes c := by
  cases s <;> rfl

/-- Where the reader goes and what it takes for values depends on where it is only. -/
theorem erase_after {s t : State} (h : s.erase = t.erase) (xs : List Char) :
    (after s xs).erase = (after t xs).erase ∧ valueChars s xs = valueChars t xs := by
  induction xs generalizing s t with
  | nil => exact ⟨h, rfl⟩
  | cons c xs ih =>
      have hstep : (s.step c).1.erase = (t.step c).1.erase := by
        rw [erase_step, h, ← erase_step]
      obtain ⟨hafter, hvalues⟩ := ih hstep
      rw [after_cons, after_cons, valueChars, valueChars, ← takes_erase s, h, takes_erase, hvalues]
      exact ⟨hafter, rfl⟩

/-- The reader is inside a quoted value. -/
def State.isQuoted : State → Bool
  | quoted .. => true
  | _ => false

/-- After a `>` the reader is in a text or inside a quoted value. -/
theorem after_gt (s : State) (front : List Char) (h : (after s (front ++ ['>'])).isQuoted = false) :
    after s (front ++ ['>']) = .text := by
  rw [after_append, after_cons, after_nil] at h ⊢
  cases hfront : after s front with
  | quoted q tag a v =>
      have hne : '>' ≠ q.char := by cases q <;> decide
      have hstep : (State.quoted q tag a v).step '>' = (.quoted q tag a (v ++ ['>']), []) :=
        if_neg hne
      rw [hfront, hstep] at h
      exact absurd h (by simp [State.isQuoted])
  | _ => rfl

end HtmlReader
