/-
# What the scanners examine

Both code-block patches call `find_tag_end` on their way through the text.  A call examines a
window of bytes: from its start up to the `>` that it finds, or up to the end of the text when
it finds none.

* `traced` is the loop with the windows of its calls, `traced_erase` its result without them.
* `Rewriter.calls` are the calls on characters, and `traced_eq` relates the two.
* `windows_disjoint_iff`: no byte is examined twice if and only if no tag is cut off in front
  of another one.
-/
import Serica.PatchLaws

namespace CopyLoop

open TagScan

variable {σ : Type}

/-! ## The instrumented loop -/

/-- The positions from `start` up to `stop`. -/
structure Window where
  start : ℕ
  stop : ℕ
deriving DecidableEq, Repr

def Window.positions (w : Window) : Finset ℕ := Finset.Ico w.start w.stop

/-- What `find_tag_end` examines when it is called at `start`. -/
def tagEndWindow (bytes : List UInt8) (start : ℕ) : Window :=
  ⟨start, match findTagEnd bytes start with
    | some k => k + 1
    | none => bytes.length⟩

/-- `copyLoop`, with the windows so far.  `examines` are those of the calls that the turn at
an index makes. -/
def tracedLoop (atLt : σ → ℕ → Option (Turn σ)) (examines : σ → ℕ → List Window)
    (html : String) (bytes : List UInt8) :
    ℕ → σ → ℕ → String → List Window → Option (String × List Window)
  | 0, _, _, _, _ => none
  | fuel + 1, s, i, out, ws =>
      if i < bytes.length then
        if bytes[i]? == some 0x3C then do
          let turn ← atLt s i
          tracedLoop atLt examines html bytes fuel turn.state turn.next (out ++ turn.pushed)
            (ws ++ examines s i)
        else do
          let run ← RustStr.slice html i (nextLt bytes i)
          tracedLoop atLt examines html bytes fuel s (nextLt bytes i) (out ++ run) ws
      else some (out, ws)

def traced (atLt : σ → ℕ → Option (Turn σ)) (examines : σ → ℕ → List Window) (s : σ)
    (html : String) : Option (String × List Window) :=
  tracedLoop atLt examines html (RustStr.asBytes html) (RustStr.len html + 1) s 0 "" []

/-- The windows change nothing in the run. -/
theorem traced_erase (atLt : σ → ℕ → Option (Turn σ)) (examines : σ → ℕ → List Window) (s : σ)
    (html : String) : (traced atLt examines s html).map Prod.fst = copy atLt s html := by
  have hloop : ∀ fuel s i out ws,
      (tracedLoop atLt examines html (RustStr.asBytes html) fuel s i out ws).map Prod.fst
        = copyLoop atLt html (RustStr.asBytes html) fuel s i out := by
    intro fuel
    induction fuel with
    | zero => intro s i out ws; rfl
    | succ fuel ih =>
        intro s i out ws
        rw [tracedLoop, copyLoop]
        split_ifs
        · cases atLt s i with
          | none => rfl
          | some turn => exact ih _ _ _ _
        · cases RustStr.slice html i (nextLt (RustStr.asBytes html) i) with
          | none => rfl
          | some run => exact ih _ _ _ _
        · rfl
  exact hloop _ _ _ _ _

/-! ## The calls on characters -/

namespace Rewriter

variable (R : Rewriter σ) (after : σ → List Char → Option (List Char))

/-- The calls of a run: for each the text where it starts, and the text behind its window.
`after` is the latter for the turn at a text that starts with `<`, when it makes a call. -/
def calls : σ → List Char → List (List Char × List Char)
  | _, [] => []
  | s, c :: cs =>
      if c = '<' then
        ((after s ('<' :: cs)).map fun rest => ('<' :: cs, rest)).toList
          ++ calls (R.cut s ('<' :: cs)).state (R.cut s ('<' :: cs)).rest
      else calls s cs
termination_by _ cs => cs.length
decreasing_by
  · exact Nat.lt_succ_of_le (R.shorter s cs)
  · exact Nat.lt_succ_self _

theorem calls_nil (s : σ) : R.calls after s [] = [] := by rw [calls]

/-- At a `<` there may be a call, and the calls behind the cut. -/
theorem calls_lt (s : σ) (cs : List Char) :
    R.calls after s ('<' :: cs)
      = ((after s ('<' :: cs)).map fun rest => ('<' :: cs, rest)).toList
        ++ R.calls after (R.cut s ('<' :: cs)).state (R.cut s ('<' :: cs)).rest := by
  rw [calls, if_pos rfl]

/-- Other characters are passed without a call. -/
theorem calls_cons (s : σ) {c : Char} (hc : c ≠ '<') (cs : List Char) :
    R.calls after s (c :: cs) = R.calls after s cs := by
  rw [calls, if_neg hc]

theorem calls_append (s : σ) {xs : List Char} (hxs : ∀ c ∈ xs, c ≠ '<') (cs : List Char) :
    R.calls after s (xs ++ cs) = R.calls after s cs := by
  induction xs with
  | nil => rfl
  | cons c xs ih =>
      obtain ⟨hc, hxs⟩ := List.forall_mem_cons.mp hxs
      rw [List.cons_append, R.calls_cons after s hc, ih hxs]

/-- The copy of the text up to the next `<` makes no call. -/
theorem calls_dropWhile (s : σ) (cs : List Char) :
    R.calls after s cs = R.calls after s (cs.dropWhile (· != '<')) := by
  have hfree : ∀ c ∈ cs.takeWhile (· != '<'), c ≠ '<' := by
    intro c hc
    simpa using List.mem_takeWhile_imp hc
  rw [← R.calls_append after s hfree (cs.dropWhile (· != '<')), List.takeWhile_append_dropWhile]

end Rewriter

/-! ## The two loops agree -/

/-- The window between two texts that `html` ends with. -/
def windowOf (html : String) (p : List Char × List Char) : Window :=
  ⟨RustStr.len html - (Utf8.encode p.1).length, RustStr.len html - (Utf8.encode p.2).length⟩

/-- The calls of the turns on bytes are those on characters, wherever the loop can be. -/
def Examines (examines : σ → ℕ → List Window) (after : σ → List Char → Option (List Char))
    (html : String) : Prop :=
  ∀ s i cs, Boundary html i ('<' :: cs) →
    examines s i
      = ((after s ('<' :: cs)).map fun rest => windowOf html ('<' :: cs, rest)).toList

/-- A call at a boundary has the window of the tag that starts there. -/
theorem tagEndWindow_eq {html : String} {i : ℕ} {cs : List Char} (h : Boundary html i cs) :
    tagEndWindow (RustStr.asBytes html) i
      = windowOf html (cs, ((tagEnd false false cs).map Prod.snd).getD []) := by
  have hlen : RustStr.len html = i + (Utf8.encode cs).length := h.at_asBytes.length_eq
  have hstart : RustStr.len html - (Utf8.encode cs).length = i := by omega
  rw [tagEndWindow, windowOf, hstart, findTagEnd_encode h.at_asBytes]
  cases hend : tagEnd false false cs with
  | none =>
      show (⟨i, RustStr.len html⟩ : Window) = ⟨i, RustStr.len html - 0⟩
      rw [Nat.sub_zero]
  | some p =>
      obtain ⟨tag, rest⟩ := p
      obtain ⟨hcs, hne⟩ := tagEnd_eq hend
      have hsplit : (Utf8.encode cs).length
          = (Utf8.encode tag).length + (Utf8.encode rest).length := by
        rw [hcs, Utf8.encode_append, List.length_append]
      simp only [Option.map_some, Option.getD_some, sub_one_add_one i hne]
      rw [hlen, hsplit]
      congr 1
      omega

variable {atLt : σ → ℕ → Option (Turn σ)} {examines : σ → ℕ → List Window} {R : Rewriter σ}
  {after : σ → List Char → Option (List Char)} {html : String}

/-- The traced loop computes the patch and the windows of its calls. -/
theorem tracedLoop_eq (himpl : Implements atLt R html) (hexamines : Examines examines after html)
    (fuel : ℕ) (s : σ) {i : ℕ} {cs : List Char} (out : String) (ws : List Window)
    (hb : Boundary html i cs) (hfuel : cs.length < fuel) :
    tracedLoop atLt examines html (RustStr.asBytes html) fuel s i out ws
      = some (out ++ String.ofList (R.run s cs),
          ws ++ (R.calls after s cs).map (windowOf html)) := by
  induction fuel generalizing s i cs out ws with
  | zero => omega
  | succ fuel ih =>
      have hat := hb.at_asBytes
      rw [tracedLoop]
      cases cs with
      | nil =>
          rw [if_neg (by rw [hat.lt_length_iff]; simp), R.run_nil, R.calls_nil]
          simp
      | cons c cs =>
          rw [List.length_cons] at hfuel
          rw [if_pos (hat.lt_length_iff.mpr (List.cons_ne_nil _ _))]
          by_cases hc : c = '<'
          · subst hc
            obtain ⟨j, hturn, hnext⟩ := himpl s i cs hb
            rw [if_pos (hb.beq_lt_iff.mpr rfl), hturn, R.run_lt, R.calls_lt, hexamines s i cs hb]
            have hshort := R.shorter s cs
            simp only [Option.bind_eq_bind, Option.bind_some]
            rw [ih _ _ _ hnext (by omega), String.append_assoc, ← String.ofList_append,
              List.map_append, List.append_assoc]
            cases after s ('<' :: cs) <;> rfl
          · obtain ⟨hslice, hnext, hshort⟩ := hb.slice_nextLt hc
            rw [if_neg (by rwa [hb.beq_lt_iff]), hslice]
            simp only [Option.bind_eq_bind, Option.bind_some]
            rw [ih s _ _ hnext (by omega), String.append_assoc, ← String.ofList_append,
              ← R.run_takeWhile, ← R.calls_dropWhile]

/-- **The windows of a run** are those of its calls on characters. -/
theorem traced_eq (himpl : Implements atLt R html) (hexamines : Examines examines after html)
    (s : σ) : traced atLt examines s html
      = some (String.ofList (R.run s html.toList),
          (R.calls after s html.toList).map (windowOf html)) := by
  have hlen := length_le_len html
  rw [traced, tracedLoop_eq himpl hexamines _ s "" [] (Boundary.start html) (by omega)]
  simp

/-! ## When the windows of a run are disjoint -/

/-- No position lies in two of the windows. -/
def NoneTwice (ws : List Window) : Prop :=
  ws.Pairwise fun v w => Disjoint v.positions w.positions

instance (ws : List Window) : Decidable (NoneTwice ws) :=
  inferInstanceAs (Decidable (ws.Pairwise _))

theorem length_encode_lt_cons {xs cs : List Char} (c : Char) (h : xs <:+ cs) :
    (Utf8.encode xs).length < (Utf8.encode (c :: cs)).length := by
  have hle := Utf8.length_encode_le_of_infix h.isInfix
  have hpos := Utf8.utf8EncodeChar_length_pos c
  rw [Utf8.encode_cons, List.length_append]
  omega

/-- A call in a text has a window that is not empty. -/
structure CallIn (cs : List Char) (p : List Char × List Char) : Prop where
  inside : (Utf8.encode p.1).length ≤ (Utf8.encode cs).length
  nonempty : (Utf8.encode p.2).length < (Utf8.encode p.1).length

/-- A later call is disjoint from an earlier one when it starts behind its window. -/
theorem disjoint_windowOf_iff {p q : List Char × List Char} {cs : List Char}
    (hp : CallIn cs p) (hq : CallIn cs q) (hcs : (Utf8.encode cs).length ≤ RustStr.len html)
    (hpq : (Utf8.encode q.1).length < (Utf8.encode p.1).length) :
    Disjoint (windowOf html p).positions (windowOf html q).positions
      ↔ (Utf8.encode q.1).length ≤ (Utf8.encode p.2).length := by
  obtain ⟨hpin, hpne⟩ := hp
  obtain ⟨hqin, hqne⟩ := hq
  rw [Window.positions, Window.positions, ← Finset.disjoint_coe, Finset.coe_Ico, Finset.coe_Ico,
    Set.Ico_disjoint_Ico]
  simp only [windowOf]
  omega

section Calls

variable (hafter : ∀ s cs rest, after s ('<' :: cs) = some rest → rest <:+ cs)
  (hrest : ∀ s cs, (R.cut s ('<' :: cs)).rest <:+ cs)
include hafter hrest

/-- Every call is in the text. -/
theorem callIn_of_mem_calls {s : σ} {cs : List Char} {p : List Char × List Char}
    (h : p ∈ R.calls after s cs) : CallIn cs p := by
  induction s, cs using Rewriter.calls.induct R with
  | case1 s => rw [R.calls_nil] at h; exact absurd h (by simp)
  | case2 s cs ih =>
      rw [R.calls_lt, List.mem_append, Option.mem_toList, Option.map_eq_some_iff] at h
      rcases h with ⟨rest, hcall, rfl⟩ | h
      · exact ⟨le_rfl, length_encode_lt_cons '<' (hafter s cs rest hcall)⟩
      · obtain ⟨hin, hne⟩ := ih h
        exact ⟨hin.trans (length_encode_lt_cons '<' (hrest s cs)).le, hne⟩
  | case3 s c cs hc ih =>
      rw [R.calls_cons after s hc] at h
      obtain ⟨hin, hne⟩ := ih h
      exact ⟨hin.trans (length_encode_lt_cons c List.suffix_rfl).le, hne⟩

/-- Induction on the run.  A call that ends before the run goes on is disjoint from the later
ones; a call up to the end of the text must be the last one. -/
theorem noneTwice_calls_iff {P : σ → List Char → Prop} (hnil : ∀ s, P s [])
    (hcopy : ∀ s c cs, c ≠ '<' → (P s (c :: cs) ↔ P s cs))
    (hcut : ∀ s cs, (∀ rest, after s ('<' :: cs) = some rest →
          (R.cut s ('<' :: cs)).rest <:+ rest)
        ∧ (P s ('<' :: cs) ↔ P (R.cut s ('<' :: cs)).state (R.cut s ('<' :: cs)).rest)
      ∨ after s ('<' :: cs) = some []
        ∧ (P s ('<' :: cs)
          ↔ R.calls after (R.cut s ('<' :: cs)).state (R.cut s ('<' :: cs)).rest = []))
    (s : σ) {cs : List Char} (hcs : (Utf8.encode cs).length ≤ RustStr.len html) :
    NoneTwice ((R.calls after s cs).map (windowOf html)) ↔ P s cs := by
  unfold NoneTwice
  induction s, cs using Rewriter.calls.induct R with
  | case1 s =>
      rw [R.calls_nil]
      exact iff_of_true List.Pairwise.nil (hnil s)
  | case2 s cs ih =>
      have hlater := ih ((length_encode_lt_cons '<' (hrest s cs)).le.trans hcs)
      rw [R.calls_lt]
      cases hcall : after s ('<' :: cs) with
      | none =>
          obtain ⟨-, hP⟩ := (hcut s cs).resolve_right (by simp [hcall])
          rw [hP, ← hlater]
          rfl
      | some rest =>
          have hfirst : CallIn ('<' :: cs) ('<' :: cs, rest) :=
            ⟨le_rfl, length_encode_lt_cons '<' (hafter s cs rest hcall)⟩
          have hdisjoint : ∀ q ∈ R.calls after (R.cut s ('<' :: cs)).state
              (R.cut s ('<' :: cs)).rest,
              (Disjoint (windowOf html ('<' :: cs, rest)).positions (windowOf html q).positions
                ↔ (Utf8.encode q.1).length ≤ (Utf8.encode rest).length) := by
            intro q hq
            obtain ⟨hin, hne⟩ := callIn_of_mem_calls hafter hrest hq
            have hlt := length_encode_lt_cons '<' (hrest s cs)
            exact disjoint_windowOf_iff hfirst ⟨hin.trans hlt.le, hne⟩ hcs (hin.trans_lt hlt)
          rw [Option.map_some, Option.toList_some, List.singleton_append, List.map_cons,
            List.pairwise_cons, List.forall_mem_map, hlater]
          rcases hcut s cs with ⟨hbehind, hP⟩ | ⟨hend, hP⟩
          · rw [hP, and_iff_right_iff_imp]
            intro _ q hq
            have hin := (callIn_of_mem_calls hafter hrest hq).inside
            have hle := Utf8.length_encode_le_of_infix (hbehind rest hcall).isInfix
            exact (hdisjoint q hq).mpr (hin.trans hle)
          · obtain rfl : rest = [] := Option.some.inj (hcall.symm.trans hend)
            rw [hP, ← hlater]
            constructor
            · rintro ⟨hall, -⟩
              rw [List.eq_nil_iff_forall_not_mem]
              intro q hq
              have hne := (callIn_of_mem_calls hafter hrest hq).nonempty
              have hle := (hdisjoint q hq).mp (hall q hq)
              rw [Utf8.encode_nil, List.length_nil] at hle
              omega
            · intro hnone
              rw [hnone]
              exact ⟨by simp, List.Pairwise.nil⟩
  | case3 s c cs hc ih =>
      rw [R.calls_cons after s hc, hcopy s c cs hc]
      exact ih ((length_encode_lt_cons c List.suffix_rfl).le.trans hcs)

end Calls

/-- A run makes no call when no tag starts in the text. -/
theorem calls_eq_nil_iff {tag : List UInt8} {s : σ} (hempty : tagOpen tag [] = false)
    (hfirst : ∀ c cs, c ≠ '<' → tagOpen tag (c :: cs) = false)
    (hcall : ∀ cs, after s ('<' :: cs) = none ↔ tagOpen tag ('<' :: cs) = false)
    (hlone : ∀ cs, tagOpen tag ('<' :: cs) = false →
      (R.cut s ('<' :: cs)).state = s ∧ (R.cut s ('<' :: cs)).rest = cs) (cs : List Char) :
    R.calls after s cs = [] ↔ ∀ rest, rest <:+ cs → tagOpen tag rest = false := by
  induction cs with
  | nil =>
      rw [R.calls_nil]
      refine iff_of_true rfl fun rest hrest => ?_
      rw [List.suffix_nil.mp hrest, hempty]
  | cons c cs ih =>
      have hsuffix : (∀ rest, rest <:+ c :: cs → tagOpen tag rest = false)
          ↔ tagOpen tag (c :: cs) = false ∧ ∀ rest, rest <:+ cs → tagOpen tag rest = false := by
        simp only [List.suffix_cons_iff, forall_eq_or_imp]
      rw [hsuffix, ← ih]
      by_cases hc : c = '<'
      · subst hc
        rw [R.calls_lt, List.append_eq_nil_iff, Option.toList_eq_nil_iff, Option.map_eq_none_iff,
          hcall]
        refine and_congr_right fun htag => ?_
        obtain ⟨hstate, hrest⟩ := hlone cs htag
        rw [hstate, hrest]
      · rw [R.calls_cons after s hc, hfirst c cs hc]
        simp

/-- A part that is cut off the front takes at least the `<`. -/
theorem rest_suffix {cs cut rest : List Char} (hcs : '<' :: cs = cut ++ rest) (hne : cut ≠ []) :
    rest <:+ cs := by
  obtain ⟨c, cut, rfl⟩ := List.exists_cons_of_ne_nil hne
  exact ⟨cut, (List.cons.inj hcs).2.symm⟩

/-- The text behind the window of a call at a `<`. -/
def behindTag (cs : List Char) : List Char := ((tagEnd false false cs).map Prod.snd).getD []

/-- What stands behind a tag is the end of the text. -/
theorem behindTag_suffix (cs : List Char) : behindTag ('<' :: cs) <:+ cs := by
  unfold behindTag
  cases hend : tagEnd false false ('<' :: cs) with
  | none => exact List.nil_suffix
  | some p =>
      obtain ⟨tag, rest⟩ := p
      obtain ⟨hcs, hne⟩ := tagEnd_eq hend
      exact rest_suffix hcs hne

end CopyLoop

namespace CodespanFixup

open CopyLoop TagScan

/-! ## The span patch -/

/-- The windows of the turn at an index. -/
def spanExamines (bytes : List UInt8) (_ : Unit) (i : ℕ) : List Window :=
  if isSpanOpenAt bytes i then [tagEndWindow bytes i] else []

/-- The windows that `find_tag_end` examines in a run of `preserveWhitespaceOnlySpans`. -/
def spanWindows (html : String) : Option (List Window) :=
  (traced (spanTurn html (RustStr.asBytes html)) (spanExamines (RustStr.asBytes html)) () html).map
    Prod.snd

def spanAfter (_ : Unit) (cs : List Char) : Option (List Char) :=
  if tagOpen spanTag cs then some (behindTag cs) else none

/-- Read from left to right, each `<span` tag up to the `>` that closes it: no such tag starts
behind one that is not closed. -/
inductive SpansReadOnce : List Char → Prop
  | nil : SpansReadOnce []
  | copied {c : Char} {cs : List Char} (hopen : tagOpen spanTag (c :: cs) = false)
      (h : SpansReadOnce cs) : SpansReadOnce (c :: cs)
  | closed {cs tag rest : List Char} (hopen : tagOpen spanTag cs = true)
      (hend : tagEnd false false cs = some (tag, rest)) (h : SpansReadOnce rest) : SpansReadOnce cs
  | unclosed {c : Char} {cs : List Char} (hopen : tagOpen spanTag (c :: cs) = true)
      (hend : tagEnd false false (c :: cs) = none)
      (hlast : ∀ rest, rest <:+ cs → tagOpen spanTag rest = false) : SpansReadOnce (c :: cs)

/-- The bytes and the characters agree on what the span pass examines. -/
theorem spanExamines_eq (html : String) :
    Examines (spanExamines (RustStr.asBytes html)) spanAfter html := by
  intro _ i cs hb
  rw [spanExamines, spanAfter, isSpanOpenAt, openAt_encode spanTag_ascii hb.at_asBytes,
    tagEndWindow_eq hb]
  split_ifs <;> rfl

theorem spanCut_suffix (s : Unit) (cs : List Char) : (spacers.cut s ('<' :: cs)).rest <:+ cs := by
  show (spacerCut s ('<' :: cs)).rest <:+ cs
  unfold spacerCut
  split
  · rename_i openTag close rest h
    obtain ⟨blank, hcs, hne, -⟩ := spacerSpan_eq_some h
    rw [← List.append_assoc blank, ← List.append_assoc] at hcs
    exact rest_suffix hcs (by simp [hne])
  · split
    · rename_i openTag rest h
      split_ifs at h
      obtain ⟨hcs, hne⟩ := tagEnd_eq h
      exact rest_suffix hcs hne
    · exact List.suffix_rfl

namespace SpansReadOnce

theorem copied_iff {c : Char} {cs : List Char} (hopen : tagOpen spanTag (c :: cs) = false) :
    SpansReadOnce (c :: cs) ↔ SpansReadOnce cs := by
  refine ⟨fun h => ?_, .copied hopen⟩
  cases h with
  | copied _ h => exact h
  | closed htag => exact absurd (hopen.symm.trans htag) (by simp)
  | unclosed htag => exact absurd (hopen.symm.trans htag) (by simp)

theorem closed_iff {cs tag rest : List Char} (hopen : tagOpen spanTag cs = true)
    (hend : tagEnd false false cs = some (tag, rest)) : SpansReadOnce cs ↔ SpansReadOnce rest := by
  refine ⟨fun h => ?_, .closed hopen hend⟩
  cases h with
  | nil => exact absurd hend (by simp [tagEnd])
  | copied htag => exact absurd (htag.symm.trans hopen) (by simp)
  | closed _ hend' h =>
      rw [hend, Option.some.injEq, Prod.mk.injEq] at hend'
      rwa [hend'.2]
  | unclosed _ hnone => exact absurd (hend.symm.trans hnone) (by simp)

theorem unclosed_iff {c : Char} {cs : List Char} (hopen : tagOpen spanTag (c :: cs) = true)
    (hend : tagEnd false false (c :: cs) = none) :
    SpansReadOnce (c :: cs) ↔ ∀ rest, rest <:+ cs → tagOpen spanTag rest = false := by
  refine ⟨fun h => ?_, .unclosed hopen hend⟩
  cases h with
  | copied htag => exact absurd (htag.symm.trans hopen) (by simp)
  | closed _ hsome => exact absurd (hend.symm.trans hsome) (by simp)
  | unclosed _ _ hlast => exact hlast

/-- Text without `<` is skipped. -/
theorem append_iff {xs : List Char} (hxs : ∀ c ∈ xs, c ≠ '<') (cs : List Char) :
    SpansReadOnce (xs ++ cs) ↔ SpansReadOnce cs := by
  induction xs with
  | nil => exact Iff.rfl
  | cons c xs ih =>
      obtain ⟨hc, hxs⟩ := List.forall_mem_cons.mp hxs
      rw [List.cons_append, copied_iff (tagOpen_of_ne_lt _ hc _), ih hxs]

/-- The end tag of a span is skipped. -/
theorem close_iff {close rest : List Char}
    (h : closeTag spanCloseTag (close ++ rest) = some (close, rest)) :
    SpansReadOnce (close ++ rest) ↔ SpansReadOnce rest := by
  have hopen : tagOpen spanTag (close ++ rest) = false := tagOpen_of_closeTag (by decide) h
  obtain ⟨c, close, rfl, hfree⟩ := spanClose_eq h
  have hcopied : SpansReadOnce (c :: (close ++ rest)) ↔ SpansReadOnce (close ++ rest) :=
    copied_iff hopen
  rw [List.cons_append, hcopied, append_iff hfree]

/-- Behind a closed tag the scanner may skip a spacer text and its end tag. -/
theorem spacerCut_iff {s : Unit} {cs tag rest : List Char}
    (hopen : tagOpen spanTag ('<' :: cs) = true)
    (hend : tagEnd false false ('<' :: cs) = some (tag, rest)) :
    (spacerCut s ('<' :: cs)).rest <:+ rest
      ∧ (SpansReadOnce rest ↔ SpansReadOnce (spacerCut s ('<' :: cs)).rest) := by
  unfold spacerCut
  cases hspan : spacerSpan ('<' :: cs) with
  | none =>
      rw [if_pos hopen, hend]
      exact ⟨List.suffix_rfl, Iff.rfl⟩
  | some p =>
      obtain ⟨openTag, close, rest'⟩ := p
      obtain ⟨blank, -, -, hblank, -, hend', -, hclose⟩ := spacerSpan_eq_some hspan
      rw [hend, Option.some.injEq, Prod.mk.injEq] at hend'
      rw [hend'.2]
      have hfree : ∀ c ∈ blank, c ≠ '<' := by
        intro c hc
        rcases ((isBlank_iff blank).mp hblank).2 c hc with rfl | rfl | rfl | rfl <;> decide
      refine ⟨⟨blank ++ close, by simp⟩, ?_⟩
      rw [append_iff hfree, close_iff hclose]

end SpansReadOnce

/-- There are no calls exactly where no `<span` tag opens. -/
theorem spanCalls_eq_nil_iff (cs : List Char) : spacers.calls spanAfter () cs = []
    ↔ ∀ rest, rest <:+ cs → tagOpen spanTag rest = false := by
  have hfirst : ∀ c cs, c ≠ '<' → tagOpen spanTag (c :: cs) = false :=
    fun c cs hc => tagOpen_of_ne_lt _ hc cs
  refine calls_eq_nil_iff rfl hfirst ?_ ?_ cs
  · intro cs
    rw [spanAfter]
    cases tagOpen spanTag ('<' :: cs) <;> simp
  · intro cs hopen
    have hcut : spacers.cut () ('<' :: cs) = ⟨['<'], cs, ()⟩ :=
      spacerCut_lone fun htag => absurd (hopen.symm.trans htag) (by simp)
    rw [hcut]
    exact ⟨rfl, rfl⟩

/-- **No byte is examined twice** by the span patch when no `<span` tag that is not closed has
another one behind it. -/
theorem spanWindows_iff (html : String) :
    (∃ ws, spanWindows html = some ws ∧ NoneTwice ws) ↔ SpansReadOnce html.toList := by
  have hwindows : spanWindows html
      = some ((spacers.calls spanAfter () html.toList).map (windowOf html)) := by
    rw [spanWindows, traced_eq (spanTurn_implements html) (spanExamines_eq html) ()]
    rfl
  simp only [hwindows, Option.some.injEq, exists_eq_left']
  refine noneTwice_calls_iff (P := fun _ => SpansReadOnce) ?_ spanCut_suffix (fun _ => .nil)
    (fun _ c cs hc => SpansReadOnce.copied_iff (tagOpen_of_ne_lt _ hc cs)) ?_ () le_rfl
  · intro _ cs rest hcall
    rw [spanAfter] at hcall
    split_ifs at hcall
    rw [← Option.some.inj hcall]
    exact behindTag_suffix cs
  · intro s cs
    show (∀ rest, spanAfter s ('<' :: cs) = some rest → (spacerCut s ('<' :: cs)).rest <:+ rest)
        ∧ (SpansReadOnce ('<' :: cs) ↔ SpansReadOnce (spacerCut s ('<' :: cs)).rest)
      ∨ spanAfter s ('<' :: cs) = some []
        ∧ (SpansReadOnce ('<' :: cs)
          ↔ spacers.calls spanAfter () (spacerCut s ('<' :: cs)).rest = [])
    rw [spanAfter, behindTag]
    cases hopen : tagOpen spanTag ('<' :: cs) with
    | false =>
        have hcut : spacerCut s ('<' :: cs) = ⟨['<'], cs, ()⟩ :=
          spacerCut_lone fun htag => absurd (hopen.symm.trans htag) (by simp)
        rw [hcut, SpansReadOnce.copied_iff hopen]
        exact Or.inl ⟨by simp, Iff.rfl⟩
    | true =>
        cases hend : tagEnd false false ('<' :: cs) with
        | none =>
            have hcut : spacerCut s ('<' :: cs) = ⟨['<'], cs, ()⟩ := spacerCut_lone fun _ => hend
            rw [hcut, spanCalls_eq_nil_iff, SpansReadOnce.unclosed_iff hopen hend]
            exact Or.inr ⟨rfl, Iff.rfl⟩
        | some p =>
            obtain ⟨tag, rest⟩ := p
            obtain ⟨hsuffix, hsame⟩ := SpansReadOnce.spacerCut_iff hopen hend
            rw [SpansReadOnce.closed_iff hopen hend]
            refine Or.inl ⟨fun rest' hcall => ?_, hsame⟩
            rw [if_pos rfl, Option.some.injEq] at hcall
            rw [← hcall]
            exact hsuffix

end CodespanFixup

namespace CodeblockLinebreaks

open CopyLoop TagScan

/-! ## The line-break patch -/

/-- The windows of the turn at an index. -/
def breakExamines (bytes : List UInt8) (inPre : Bool) (i : ℕ) : List Window :=
  if !inPre && isTagOpenAt bytes i preName then [tagEndWindow bytes i] else []

/-- The windows that `find_tag_end` examines in a run of `preserveCodeBlockLineBreaks`. -/
def breakWindows (html : String) : Option (List Window) :=
  (traced (breakTurn html (RustStr.asBytes html)) (breakExamines (RustStr.asBytes html)) false
    html).map Prod.snd

def breakAfter (inPre : Bool) (cs : List Char) : Option (List Char) :=
  if !inPre && tagOpen (openBytes preName) cs then some (behindTag cs) else none

/-- Read from left to right, each `<pre` tag up to the `>` that closes it and each region up to
its end tag: no `<pre` tag starts behind one that is not closed. -/
inductive PresReadOnce : Bool → List Char → Prop
  | nil {inPre : Bool} : PresReadOnce inPre []
  | copied {inPre : Bool} {c : Char} {cs : List Char}
      (hopen : inPre = false → tagOpen (openBytes preName) (c :: cs) = false)
      (hclose : inPre = true → closeTag (closeBytes preName) (c :: cs) = none)
      (h : PresReadOnce inPre cs) : PresReadOnce inPre (c :: cs)
  | opened {cs tag rest : List Char} (hopen : tagOpen (openBytes preName) cs = true)
      (hend : tagEnd false false cs = some (tag, rest)) (h : PresReadOnce true rest) :
      PresReadOnce false cs
  | closed {cs tag rest : List Char} (hclose : closeTag (closeBytes preName) cs = some (tag, rest))
      (h : PresReadOnce false rest) : PresReadOnce true cs
  | unclosed {c : Char} {cs : List Char} (hopen : tagOpen (openBytes preName) (c :: cs) = true)
      (hend : tagEnd false false (c :: cs) = none)
      (hlast : ∀ rest, rest <:+ cs → tagOpen (openBytes preName) rest = false) :
      PresReadOnce false (c :: cs)

namespace PresReadOnce

theorem copied_iff {inPre : Bool} {c : Char} {cs : List Char}
    (hopen : inPre = false → tagOpen (openBytes preName) (c :: cs) = false)
    (hclose : inPre = true → closeTag (closeBytes preName) (c :: cs) = none) :
    PresReadOnce inPre (c :: cs) ↔ PresReadOnce inPre cs := by
  refine ⟨fun h => ?_, .copied hopen hclose⟩
  cases h with
  | copied _ _ h => exact h
  | opened htag => exact absurd ((hopen rfl).symm.trans htag) (by simp)
  | closed hsome => exact absurd ((hclose rfl).symm.trans hsome) (by simp)
  | unclosed htag => exact absurd ((hopen rfl).symm.trans htag) (by simp)

theorem opened_iff {cs tag rest : List Char} (hopen : tagOpen (openBytes preName) cs = true)
    (hend : tagEnd false false cs = some (tag, rest)) :
    PresReadOnce false cs ↔ PresReadOnce true rest := by
  refine ⟨fun h => ?_, .opened hopen hend⟩
  cases h with
  | nil => exact absurd hend (by simp [tagEnd])
  | copied htag => exact absurd ((htag rfl).symm.trans hopen) (by simp)
  | opened _ hend' h =>
      rw [hend, Option.some.injEq, Prod.mk.injEq] at hend'
      rwa [hend'.2]
  | unclosed _ hnone => exact absurd (hend.symm.trans hnone) (by simp)

theorem closed_iff {cs tag rest : List Char}
    (hclose : closeTag (closeBytes preName) cs = some (tag, rest)) :
    PresReadOnce true cs ↔ PresReadOnce false rest := by
  refine ⟨fun h => ?_, .closed hclose⟩
  cases h with
  | nil => exact absurd hclose (by simp [closeTag, closeBytes, Utf8.encode])
  | copied _ hnone => exact absurd ((hnone rfl).symm.trans hclose) (by simp)
  | closed hclose' h =>
      rw [hclose, Option.some.injEq, Prod.mk.injEq] at hclose'
      rwa [hclose'.2]

theorem unclosed_iff {c : Char} {cs : List Char}
    (hopen : tagOpen (openBytes preName) (c :: cs) = true)
    (hend : tagEnd false false (c :: cs) = none) :
    PresReadOnce false (c :: cs)
      ↔ ∀ rest, rest <:+ cs → tagOpen (openBytes preName) rest = false := by
  refine ⟨fun h => ?_, .unclosed hopen hend⟩
  cases h with
  | copied htag => exact absurd ((htag rfl).symm.trans hopen) (by simp)
  | opened _ hsome => exact absurd (hend.symm.trans hsome) (by simp)
  | unclosed _ _ hlast => exact hlast

/-- A character that is no `<` is skipped. -/
theorem cons_iff {inPre : Bool} {c : Char} (hc : c ≠ '<') (cs : List Char) :
    PresReadOnce inPre (c :: cs) ↔ PresReadOnce inPre cs :=
  copied_iff (fun _ => tagOpen_of_ne_lt _ hc cs) (fun _ => closeTag_of_ne_lt _ hc cs)

theorem append_iff {inPre : Bool} {xs : List Char} (hxs : ∀ c ∈ xs, c ≠ '<') (cs : List Char) :
    PresReadOnce inPre (xs ++ cs) ↔ PresReadOnce inPre cs := by
  induction xs with
  | nil => exact Iff.rfl
  | cons c xs ih =>
      obtain ⟨hc, hxs⟩ := List.forall_mem_cons.mp hxs
      rw [List.cons_append, cons_iff hc, ih hxs]

/-- In a region the closing tag of a line is skipped. -/
theorem line_iff {cs tag rest : List Char} (hclose : closeTag (closeBytes preName) cs = none)
    (hline : boundaryTag cs = some (tag, rest)) :
    PresReadOnce true cs ↔ PresReadOnce true rest := by
  obtain ⟨hcs, -⟩ := boundaryTag_eq hline
  obtain ⟨c, tag, rfl, hchars⟩ := boundaryTag_tail_no_lt hline
  rw [hcs, List.cons_append] at hclose ⊢
  rw [copied_iff (by simp) (fun _ => hclose), append_iff hchars]

end PresReadOnce

/-- The bytes and the characters agree on what the line-break pass examines. -/
theorem breakExamines_eq (html : String) :
    Examines (breakExamines (RustStr.asBytes html)) breakAfter html := by
  intro inPre i cs hb
  rw [breakExamines, breakAfter, isTagOpenAt,
    openAt_encode (openBytes_ascii preName_ascii) hb.at_asBytes, tagEndWindow_eq hb]
  split_ifs <;> rfl

theorem breakCut_suffix (inPre : Bool) (cs : List Char) :
    (breaks.cut inPre ('<' :: cs)).rest <:+ cs := by
  show (breakCut inPre ('<' :: cs)).rest <:+ cs
  rcases breakCut_cases inPre ('<' :: cs) with ⟨tag, rest, rfl, hopen, hend⟩
    | ⟨tag, rest, rfl, hclose⟩ | ⟨tag, rest, rfl, hclose, hline⟩ | ⟨hnotag, hnoclose⟩
  · obtain ⟨hcs, hne⟩ := tagEnd_eq hend
    rw [breakCut_opened hopen hend]
    exact rest_suffix hcs hne
  · obtain ⟨hcs, hne⟩ := closeTag_eq hclose
    rw [breakCut_closed hclose]
    exact rest_suffix hcs hne
  · obtain ⟨hcs, hne⟩ := boundaryTag_eq hline
    rw [breakCut_line hclose hline]
    exact rest_suffix hcs hne
  · rw [breakCut_lone hnotag hnoclose]
    exact List.suffix_rfl

/-- There are no calls exactly where no `<pre` tag opens. -/
theorem breakCalls_eq_nil_iff (cs : List Char) : breaks.calls breakAfter false cs = []
    ↔ ∀ rest, rest <:+ cs → tagOpen (openBytes preName) rest = false := by
  have hfirst : ∀ c cs, c ≠ '<' → tagOpen (openBytes preName) (c :: cs) = false :=
    fun c cs hc => tagOpen_of_ne_lt _ hc cs
  refine calls_eq_nil_iff rfl hfirst ?_ ?_ cs
  · intro cs
    rw [breakAfter]
    cases tagOpen (openBytes preName) ('<' :: cs) <;> simp
  · intro cs hopen
    have hcut : breaks.cut false ('<' :: cs) = ⟨['<'], cs, false⟩ :=
      breakCut_lone (fun _ htag => absurd (hopen.symm.trans htag) (by simp)) (by simp)
    rw [hcut]
    exact ⟨rfl, rfl⟩

/-- **No byte is examined twice** by the line-break patch when no `<pre` tag that is not closed
has another one behind it. -/
theorem breakWindows_iff (html : String) :
    (∃ ws, breakWindows html = some ws ∧ NoneTwice ws) ↔ PresReadOnce false html.toList := by
  have hwindows : breakWindows html
      = some ((breaks.calls breakAfter false html.toList).map (windowOf html)) := by
    rw [breakWindows, traced_eq (breakTurn_implements html) (breakExamines_eq html) false]
    rfl
  simp only [hwindows, Option.some.injEq, exists_eq_left']
  refine noneTwice_calls_iff (P := PresReadOnce) ?_ breakCut_suffix (fun _ => .nil)
    (fun _ c cs hc => PresReadOnce.cons_iff hc cs) ?_ false le_rfl
  · intro inPre cs rest hcall
    rw [breakAfter] at hcall
    split_ifs at hcall
    rw [← Option.some.inj hcall]
    exact behindTag_suffix cs
  · intro inPre cs
    show (∀ rest, breakAfter inPre ('<' :: cs) = some rest →
          (breakCut inPre ('<' :: cs)).rest <:+ rest)
        ∧ (PresReadOnce inPre ('<' :: cs)
          ↔ PresReadOnce (breakCut inPre ('<' :: cs)).state (breakCut inPre ('<' :: cs)).rest)
      ∨ breakAfter inPre ('<' :: cs) = some []
        ∧ (PresReadOnce inPre ('<' :: cs)
          ↔ breaks.calls breakAfter (breakCut inPre ('<' :: cs)).state
            (breakCut inPre ('<' :: cs)).rest = [])
    rcases breakCut_cases inPre ('<' :: cs) with ⟨tag, rest, rfl, hopen, hend⟩
      | ⟨tag, rest, rfl, hclose⟩ | ⟨tag, rest, rfl, hclose, hline⟩ | ⟨hnotag, hnoclose⟩
    · rw [breakCut_opened hopen hend, breakAfter, hopen, behindTag, hend]
      exact Or.inl ⟨by simp, PresReadOnce.opened_iff hopen hend⟩
    · rw [breakCut_closed hclose]
      exact Or.inl ⟨by simp [breakAfter], PresReadOnce.closed_iff hclose⟩
    · rw [breakCut_line hclose hline]
      exact Or.inl ⟨by simp [breakAfter], PresReadOnce.line_iff hclose hline⟩
    · have hcut : breakCut inPre ('<' :: cs) = ⟨['<'], cs, inPre⟩ := breakCut_lone hnotag hnoclose
      rw [hcut, breakAfter, behindTag]
      cases inPre with
      | true =>
          exact Or.inl ⟨by simp, PresReadOnce.copied_iff (by simp) fun _ => (hnoclose rfl).1⟩
      | false =>
          cases hopen : tagOpen (openBytes preName) ('<' :: cs) with
          | false => exact Or.inl ⟨by simp, PresReadOnce.copied_iff (fun _ => hopen) (by simp)⟩
          | true =>
              have hend := hnotag rfl hopen
              rw [hend, breakCalls_eq_nil_iff]
              exact Or.inr ⟨rfl, PresReadOnce.unclosed_iff hopen hend⟩

end CodeblockLinebreaks

namespace CopyLoop

open CodespanFixup CodeblockLinebreaks

/-- **When a scanner reads no byte twice** in its calls of `find_tag_end`, for either patch. -/
theorem windows_disjoint_iff (html : String) :
    ((∃ ws, spanWindows html = some ws ∧ NoneTwice ws) ↔ SpansReadOnce html.toList)
      ∧ ((∃ ws, breakWindows html = some ws ∧ NoneTwice ws)
        ↔ PresReadOnce false html.toList) :=
  ⟨spanWindows_iff html, breakWindows_iff html⟩

/-- Two tags that are never closed: the second one is examined in both calls. -/
theorem windows_overlap :
    ¬ (∃ ws, spanWindows "<span <span " = some ws ∧ NoneTwice ws)
      ∧ ¬ (∃ ws, breakWindows "<pre <pre " = some ws ∧ NoneTwice ws) := by
  have hspans : spanWindows "<span <span " = some [⟨0, 12⟩, ⟨6, 12⟩] := rfl
  have hpres : breakWindows "<pre <pre " = some [⟨0, 10⟩, ⟨5, 10⟩] := rfl
  constructor
  · rintro ⟨ws, hws, hnone⟩
    rw [hspans, Option.some.injEq] at hws
    rw [← hws] at hnone
    exact absurd hnone (by decide)
  · rintro ⟨ws, hws, hnone⟩
    rw [hpres, Option.some.injEq] at hws
    rw [← hws] at hnone
    exact absurd hnone (by decide)

end CopyLoop
