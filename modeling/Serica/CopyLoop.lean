/-
# Copying a text tag by tag

Both code-block patches are one loop: copy the text up to the next `<`, and let the
patch decide what to push at the `<` and where to go on.  `copy` is that loop on
bytes and indices; a slice outside a character boundary is a panic, here `none`.

`Rewriter.run` is the loop on the remaining characters, without indices and without
panics.  The two agree as soon as the patches' own turns do (`copy_eq`).
-/
import Serica.TagScan

namespace CopyLoop

variable {σ : Type}

/-! ## The loop on bytes -/

/-- What a patch does at a `<`: the text it pushes, the index where the loop goes on,
and the patch's state from there on. -/
structure Turn (σ : Type) where
  pushed : String
  next : ℕ
  state : σ

/-- `while i < len`: at a `<` the patch's turn, elsewhere a copy of the text up to the
next `<`. -/
def copyLoop (atLt : σ → ℕ → Option (Turn σ)) (html : String) (bytes : List UInt8) :
    ℕ → σ → ℕ → String → Option String
  | 0, _, _, _ => none
  | fuel + 1, s, i, out =>
      if i < bytes.length then
        if bytes[i]? == some 0x3C then do
          let turn ← atLt s i
          copyLoop atLt html bytes fuel turn.state turn.next (out ++ turn.pushed)
        else do
          let run ← RustStr.slice html i (TagScan.nextLt bytes i)
          copyLoop atLt html bytes fuel s (TagScan.nextLt bytes i) (out ++ run)
      else some out

/-- The loop from the start of the text on.  Each turn moves forward, so the length of
the text bounds their number. -/
def copy (atLt : σ → ℕ → Option (Turn σ)) (s : σ) (html : String) : Option String :=
  copyLoop atLt html (RustStr.asBytes html) (RustStr.len html + 1) s 0 ""

/-! ## The loop on characters -/

/-- The characters pushed at a `<`, the characters left, and the next state. -/
structure Cut (σ : Type) where
  pushed : List Char
  rest : List Char
  state : σ

/-- A patch on characters: its cut at a text that starts with `<`, which takes at
least that `<`. -/
structure Rewriter (σ : Type) where
  cut : σ → List Char → Cut σ
  shorter : ∀ s cs, (cut s ('<' :: cs)).rest.length ≤ cs.length

/-- A part that is cut off the front takes at least the `<`. -/
theorem rest_length_le {cs cut rest : List Char} (hcs : '<' :: cs = cut ++ rest)
    (hne : cut ≠ []) : rest.length ≤ cs.length := by
  have hlen := congrArg List.length hcs
  have hpos := List.length_pos_of_ne_nil hne
  simp only [List.length_cons, List.length_append] at hlen
  omega

namespace Rewriter

variable (R : Rewriter σ)

/-- The text that the patch makes of a text. -/
def run : σ → List Char → List Char
  | _, [] => []
  | s, c :: cs =>
      if c = '<' then
        (R.cut s ('<' :: cs)).pushed
          ++ run (R.cut s ('<' :: cs)).state (R.cut s ('<' :: cs)).rest
      else c :: run s cs
termination_by _ cs => cs.length
decreasing_by
  · exact Nat.lt_succ_of_le (R.shorter s cs)
  · exact Nat.lt_succ_self _

@[simp] theorem run_nil (s : σ) : R.run s [] = [] := by rw [run]

theorem run_lt (s : σ) (cs : List Char) :
    R.run s ('<' :: cs) = (R.cut s ('<' :: cs)).pushed
      ++ R.run (R.cut s ('<' :: cs)).state (R.cut s ('<' :: cs)).rest := by
  rw [run, if_pos rfl]

theorem run_cons (s : σ) {c : Char} (hc : c ≠ '<') (cs : List Char) :
    R.run s (c :: cs) = c :: R.run s cs := by
  rw [run, if_neg hc]

/-- A text without `<` is copied. -/
theorem run_append (s : σ) {xs : List Char} (hxs : ∀ c ∈ xs, c ≠ '<') (cs : List Char) :
    R.run s (xs ++ cs) = xs ++ R.run s cs := by
  induction xs with
  | nil => rfl
  | cons c xs ih =>
      rw [List.cons_append, R.run_cons s (hxs c List.mem_cons_self),
        ih fun c' h' => hxs c' (List.mem_cons_of_mem _ h'), List.cons_append]

/-- What holds of a text and what is made of it: it is enough that copying a character
and making a cut keep it. -/
theorem run_induction {Q : List Char → List Char → Prop} (nil : Q [] [])
    (copy : ∀ c xs cs, Q xs cs → Q (c :: xs) (c :: cs))
    (cut : ∀ s cs xs, Q xs (R.cut s ('<' :: cs)).rest →
      Q ((R.cut s ('<' :: cs)).pushed ++ xs) ('<' :: cs)) (s : σ) (cs : List Char) :
    Q (R.run s cs) cs := by
  induction s, cs using Rewriter.run.induct R with
  | case1 s => rwa [run_nil]
  | case2 s cs ih =>
      rw [run_lt]
      exact cut s cs _ ih
  | case3 s c cs hc ih =>
      rw [run, if_neg hc]
      exact copy c _ _ ih

/-- A second run changes nothing when it makes of every cut what the first run made. -/
theorem run_idempotent (h : ∀ s cs, R.run s (R.run s ('<' :: cs))
      = (R.cut s ('<' :: cs)).pushed ++ R.run (R.cut s ('<' :: cs)).state
          (R.run (R.cut s ('<' :: cs)).state (R.cut s ('<' :: cs)).rest)) (s : σ)
    (cs : List Char) : R.run s (R.run s cs) = R.run s cs := by
  induction s, cs using Rewriter.run.induct R with
  | case1 s => rw [run_nil, run_nil]
  | case2 s cs ih => rw [h, ih, run_lt]
  | case3 s c cs hc ih => rw [R.run_cons s hc, R.run_cons s hc, ih]

/-- The copy of the text up to the next `<` in one piece. -/
theorem run_takeWhile (s : σ) (cs : List Char) :
    R.run s cs = cs.takeWhile (· != '<') ++ R.run s (cs.dropWhile (· != '<')) := by
  have hfree : ∀ c ∈ cs.takeWhile (· != '<'), c ≠ '<' := by
    intro c hc
    simpa using List.mem_takeWhile_imp hc
  rw [← R.run_append s hfree, List.takeWhile_append_dropWhile]

end Rewriter

/-! ## The two loops agree -/

/-- The index `i` is a character boundary of `html`, with the characters `cs` after it. -/
def Boundary (html : String) (i : ℕ) (cs : List Char) : Prop :=
  ∃ pre, html.toList = pre ++ cs ∧ (Utf8.encode pre).length = i

namespace Boundary

variable {html : String} {i : ℕ} {cs : List Char}

theorem start (html : String) : Boundary html 0 html.toList := ⟨[], rfl, rfl⟩

theorem advance {xs : List Char} (h : Boundary html i (xs ++ cs)) :
    Boundary html (i + (Utf8.encode xs).length) cs := by
  obtain ⟨pre, hpre, hi⟩ := h
  refine ⟨pre ++ xs, by rw [hpre, List.append_assoc], ?_⟩
  rw [Utf8.encode_append, List.length_append, hi]

theorem afterLt (h : Boundary html i ('<' :: cs)) : Boundary html (i + 1) cs := by
  rw [← List.singleton_append] at h
  exact h.advance

/-- A boundary is a position in the bytes. -/
theorem at_asBytes (h : Boundary html i cs) : TagScan.At (RustStr.asBytes html) i cs := by
  obtain ⟨pre, hpre, rfl⟩ := h
  have hbytes : RustStr.asBytes html = Utf8.encode pre ++ Utf8.encode cs := by
    rw [RustStr.asBytes, hpre, Utf8.encode_append]
  refine ⟨?_, ?_⟩
  · rw [hbytes, List.length_append]
    omega
  · rw [hbytes, List.drop_left]

/-- The slice from a boundary over the next characters. -/
theorem slice_eq {xs : List Char} (h : Boundary html i (xs ++ cs)) :
    RustStr.slice html i (i + (Utf8.encode xs).length) = some (String.ofList xs) := by
  obtain ⟨pre, hpre, rfl⟩ := h
  have hhtml : html = String.ofList (pre ++ xs ++ cs) := by
    rw [List.append_assoc, ← hpre, String.ofList_toList]
  rw [hhtml, ← List.length_append, ← Utf8.encode_append]
  exact RustStr.slice_ofList pre xs cs

/-- The loop looks for a `<` at a boundary. -/
theorem beq_lt_iff {c : Char} (h : Boundary html i (c :: cs)) :
    ((RustStr.asBytes html)[i]? == some 0x3C) = true ↔ c = '<' := by
  have hbeq := h.at_asBytes.getElem?_beq (a := '<') (by decide)
  have hbyte : UInt8.ofNat '<'.toNat = 0x3C := rfl
  rw [hbyte] at hbeq
  rw [hbeq, List.head?_cons]
  simp

/-- The copy of the text up to the next `<`. -/
theorem slice_nextLt {c : Char} (h : Boundary html i (c :: cs)) (hc : c ≠ '<') :
    RustStr.slice html i (TagScan.nextLt (RustStr.asBytes html) i)
        = some (String.ofList ((c :: cs).takeWhile (· != '<')))
      ∧ Boundary html (TagScan.nextLt (RustStr.asBytes html) i) ((c :: cs).dropWhile (· != '<'))
      ∧ ((c :: cs).dropWhile (· != '<')).length ≤ cs.length := by
  have hsplit := List.takeWhile_append_dropWhile (p := (· != '<')) (l := c :: cs)
  rw [TagScan.nextLt_encode h.at_asBytes]
  rw [← hsplit] at h
  refine ⟨h.slice_eq, h.advance, ?_⟩
  rw [List.dropWhile_cons_of_pos (by simpa using hc)]
  exact (List.dropWhile_suffix _).length_le

end Boundary

/-- A text has no more characters than bytes. -/
theorem length_le_len (html : String) : html.toList.length ≤ RustStr.len html := by
  rw [RustStr.len, RustStr.asBytes, Utf8.length_encode]
  have hpos : ∀ n ∈ html.toList.map Char.utf8Size, 1 ≤ n := by
    intro n hn
    obtain ⟨c, _, rfl⟩ := List.mem_map.mp hn
    exact c.utf8Size_pos
  have := List.card_nsmul_le_sum _ _ hpos
  simpa using this

/-- The patch's turn on bytes is its cut on characters, wherever the loop can be. -/
def Implements (atLt : σ → ℕ → Option (Turn σ)) (R : Rewriter σ) (html : String) : Prop :=
  ∀ s i cs, Boundary html i ('<' :: cs) → ∃ j,
    atLt s i = some ⟨String.ofList (R.cut s ('<' :: cs)).pushed, j, (R.cut s ('<' :: cs)).state⟩
      ∧ Boundary html j (R.cut s ('<' :: cs)).rest

variable {atLt : σ → ℕ → Option (Turn σ)} {R : Rewriter σ} {html : String}

theorem copyLoop_eq (himpl : Implements atLt R html) (fuel : ℕ) (s : σ) {i : ℕ} {cs : List Char}
    (out : String) (hb : Boundary html i cs) (hfuel : cs.length < fuel) :
    copyLoop atLt html (RustStr.asBytes html) fuel s i out
      = some (out ++ String.ofList (R.run s cs)) := by
  induction fuel generalizing s i cs out with
  | zero => omega
  | succ fuel ih =>
      have hat := hb.at_asBytes
      rw [copyLoop]
      cases cs with
      | nil => rw [if_neg (by rw [hat.lt_length_iff]; simp), R.run_nil]; simp
      | cons c cs =>
          rw [List.length_cons] at hfuel
          rw [if_pos (hat.lt_length_iff.mpr (List.cons_ne_nil _ _))]
          by_cases hc : c = '<'
          · subst hc
            obtain ⟨j, hturn, hnext⟩ := himpl s i cs hb
            rw [if_pos (hb.beq_lt_iff.mpr rfl), hturn, R.run_lt]
            have hshort := R.shorter s cs
            simp only [Option.bind_eq_bind, Option.bind_some]
            rw [ih _ _ hnext (by omega), String.append_assoc, ← String.ofList_append]
          · obtain ⟨hslice, hnext, hshort⟩ := hb.slice_nextLt hc
            rw [if_neg (by rwa [hb.beq_lt_iff]), hslice]
            simp only [Option.bind_eq_bind, Option.bind_some]
            rw [ih s _ hnext (by omega), String.append_assoc, ← String.ofList_append,
              ← R.run_takeWhile]

/-- **The loop on bytes is the loop on characters**; it neither panics nor runs out of
turns. -/
theorem copy_eq (himpl : Implements atLt R html) (s : σ) :
    copy atLt s html = some (String.ofList (R.run s html.toList)) := by
  have hlen := length_le_len html
  rw [copy, copyLoop_eq himpl _ s "" (Boundary.start html) (by omega)]
  simp

end CopyLoop
