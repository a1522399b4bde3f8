/-
# Restoring the placeholders

What `restoreWhitespacePlaceholders` makes of a text with placeholders.  A placeholder
becomes a space, and takes in one space on either side of it.

* `restore_pieces`: the text, piece by piece, and when each placeholder is a space and
  nothing else changes.
* `length_restore`: how many bytes the text loses.
* `restoreLoop_map`: no placeholder touches a space or another one.
-/
import Serica.CodespanFixup

namespace CodespanFixup

/-! ## One placeholder, one piece -/

/-- Drops one space at the start. -/
def skipSpace : List Char → List Char
  | ' ' :: cs => cs
  | cs => cs

/-- Only a space is skipped. -/
theorem skipSpace_cons {c : Char} (hc : c ≠ ' ') (cs : List Char) :
    skipSpace (c :: cs) = c :: cs := by
  rw [skipSpace.eq_def]
  split
  · rename_i heq
    exact absurd (List.cons.inj heq).1 hc
  · rfl

/-- A character that is no placeholder is copied. -/
theorem restoreLoop_cons {c : Char} (hc : c ≠ whitespaceSentinel) (cs out : List Char) :
    restoreLoop (c :: cs) out = restoreLoop cs (out ++ [c]) := by
  cases cs with
  | nil => rw [restoreLoop, restoreLoop, pushRestored, if_neg hc]
  | cons d cs => rw [restoreLoop, if_neg (fun h => hc h.1), pushRestored, if_neg hc]

/-- A placeholder takes in a space before it and a space after it. -/
theorem restoreLoop_sentinel (cs out : List Char) :
    restoreLoop (whitespaceSentinel :: cs) out
      = restoreLoop (skipSpace cs) (popSpace out ++ [' ']) := by
  cases cs with
  | nil => rfl
  | cons d cs =>
      rw [restoreLoop]
      by_cases hd : d = ' '
      · subst hd
        rw [if_pos ⟨rfl, rfl⟩]
        rfl
      · rw [if_neg (fun h => hd h.2), skipSpace_cons hd]
        rfl

/-- A piece without placeholders is copied. -/
theorem restoreLoop_append {p : List Char} (hp : whitespaceSentinel ∉ p) (cs out : List Char) :
    restoreLoop (p ++ cs) out = restoreLoop cs (out ++ p) := by
  induction p generalizing out with
  | nil => rw [List.nil_append, List.append_nil]
  | cons c p ih =>
      rw [List.mem_cons, not_or] at hp
      rw [List.cons_append, restoreLoop_cons (Ne.symm hp.1), ih hp.2, List.append_assoc,
        List.singleton_append]

/-- The last space is taken back. -/
theorem popSpace_concat (out : List Char) : popSpace (out ++ [' ']) = out := by
  rw [popSpace, if_pos List.getLast?_concat, List.dropLast_concat]

/-- What is taken back is in the last text that is not empty. -/
theorem popSpace_append {x : List Char} (hx : x ≠ []) (out : List Char) :
    popSpace (out ++ x) = out ++ popSpace x := by
  rw [popSpace, popSpace, List.getLast?_append_of_ne_nil out hx,
    List.dropLast_append_of_ne_nil hx]
  split_ifs <;> rfl

/-- Nothing is taken back but a space. -/
theorem popSpace_of_ne {out : List Char} (h : out.getLast? ≠ some ' ') : popSpace out = out :=
  if_neg h

/-! ## The pieces between the placeholders -/

/-- What becomes of a piece that follows a placeholder, and of the rest.  A piece of which
nothing is left leaves no second space. -/
def restoredAfter : List Char → List (List Char) → List Char
  | p, [] => skipSpace p
  | p, q :: qs =>
      if skipSpace p = [] then restoredAfter q qs
      else popSpace (skipSpace p) ++ ' ' :: restoredAfter q qs

/-- What becomes of the pieces of a text. -/
def restoredPieces : List Char → List (List Char) → List Char
  | p, [] => p
  | p, q :: qs => popSpace p ++ ' ' :: restoredAfter q qs

theorem skipSpace_append {p : List Char} (c : Char) (hc : c ≠ ' ') (cs : List Char) :
    skipSpace (p ++ c :: cs) = skipSpace p ++ c :: cs := by
  cases p with
  | nil => exact skipSpace_cons hc cs
  | cons d p =>
      by_cases hd : d = ' '
      · subst hd
        rfl
      · rw [List.cons_append, skipSpace_cons hd, skipSpace_cons hd, List.cons_append]

theorem sentinel_not_mem_skipSpace {p : List Char} (hp : whitespaceSentinel ∉ p) :
    whitespaceSentinel ∉ skipSpace p := by
  rw [skipSpace.eq_def]
  split
  · exact fun h => hp (List.mem_cons_of_mem _ h)
  · exact hp

theorem sentinel_ne_space : whitespaceSentinel ≠ ' ' := by decide

/-- Induction on the pieces; the output ends with the space of the placeholder before
them. -/
theorem restoreLoop_after (p : List Char) (ps : List (List Char))
    (h : ∀ q ∈ p :: ps, whitespaceSentinel ∉ q) (out : List Char) :
    restoreLoop (skipSpace ([whitespaceSentinel].intercalate (p :: ps))) (out ++ [' '])
      = out ++ ' ' :: restoredAfter p ps := by
  induction ps generalizing p out with
  | nil =>
      have hskip := sentinel_not_mem_skipSpace (h p List.mem_cons_self)
      have hcopy := restoreLoop_append hskip [] (out ++ [' '])
      rw [List.append_nil] at hcopy
      rw [List.intercalate_singleton, hcopy, restoreLoop, restoredAfter, List.append_assoc,
        List.singleton_append]
  | cons q qs ih =>
      have hrest := fun x hx => h x (List.mem_cons_of_mem p hx)
      rw [List.intercalate_cons_cons, List.append_assoc, List.singleton_append,
        skipSpace_append _ sentinel_ne_space,
        restoreLoop_append (sentinel_not_mem_skipSpace (h p List.mem_cons_self)),
        restoreLoop_sentinel, restoredAfter]
      split_ifs with hnil
      · rw [hnil, List.append_nil, popSpace_concat, ih q hrest]
      · rw [popSpace_append hnil, ih q hrest]
        simp

/-- The text with its placeholders restored, piece by piece. -/
theorem restoreLoop_pieces (p : List Char) (ps : List (List Char))
    (h : ∀ q ∈ p :: ps, whitespaceSentinel ∉ q) :
    restoreLoop ([whitespaceSentinel].intercalate (p :: ps)) [] = restoredPieces p ps := by
  have hp := h p List.mem_cons_self
  cases ps with
  | nil =>
      have hcopy := restoreLoop_append hp [] []
      rw [List.append_nil] at hcopy
      rw [List.intercalate_singleton, hcopy, restoreLoop, restoredPieces, List.nil_append]
  | cons q qs =>
      rw [List.intercalate_cons_cons, List.append_assoc, List.singleton_append,
        restoreLoop_append hp, List.nil_append, restoreLoop_sentinel,
        restoreLoop_after q qs fun x hx => h x (List.mem_cons_of_mem p hx), restoredPieces]

/-! ## When nothing else changes -/

theorem skipSpace_length (p : List Char) :
    (skipSpace p).length ≤ p.length ∧ ((skipSpace p).length = p.length ↔ p.head? ≠ some ' ') := by
  cases p with
  | nil => exact ⟨le_rfl, iff_of_true rfl (by simp)⟩
  | cons c p =>
      by_cases hc : c = ' '
      · subst hc
        exact ⟨Nat.le_succ _, iff_of_false (Nat.lt_succ_self _).ne (by simp)⟩
      · rw [skipSpace_cons hc]
        exact ⟨le_rfl, iff_of_true rfl (by simpa using hc)⟩

theorem skipSpace_of_ne {p : List Char} (h : p.head? ≠ some ' ') : skipSpace p = p := by
  cases p with
  | nil => rfl
  | cons c p => exact skipSpace_cons (by simpa using h) p

/-- A text gets shorter exactly when it ends in a space. -/
theorem popSpace_length (p : List Char) :
    (popSpace p).length ≤ p.length ∧ ((popSpace p).length = p.length ↔ p.getLast? ≠ some ' ') := by
  unfold popSpace
  split_ifs with h
  · have hpos : 0 < p.length := by
      apply List.length_pos_of_ne_nil
      rintro rfl
      exact absurd h (by simp)
    rw [List.length_dropLast]
    exact ⟨Nat.sub_le _ _, iff_of_false (by omega) (by simpa using h)⟩
  · exact ⟨le_rfl, iff_of_true rfl h⟩

/-- Restoring does not lengthen the text. -/
theorem length_restoredAfter_le (p : List Char) (ps : List (List Char)) :
    (restoredAfter p ps).length ≤ ([' '].intercalate (p :: ps)).length := by
  induction ps generalizing p with
  | nil =>
      rw [restoredAfter, List.intercalate_singleton]
      exact (skipSpace_length p).1
  | cons q qs ih =>
      have hq := ih q
      have hskip := (skipSpace_length p).1
      have hpop := (popSpace_length (skipSpace p)).1
      rw [restoredAfter, List.intercalate_cons_cons]
      split_ifs <;> simp only [List.length_append, List.length_cons, List.length_nil] <;> omega

/-- A part of a piece before a space, and what follows it, are not longer than the piece
and what follows it; so equal texts have equal parts. -/
theorem append_space_inj {x p A B : List Char} (hx : x.length ≤ p.length)
    (hA : A.length ≤ B.length) (h : x ++ ' ' :: A = p ++ [' '] ++ B) :
    x.length = p.length ∧ A = B := by
  have hlen := congrArg List.length h
  simp only [List.length_append, List.length_cons, List.length_nil] at hlen
  have hpiece : x.length = p.length := by omega
  rw [List.append_assoc, List.singleton_append] at h
  exact ⟨hpiece, (List.cons.inj (List.append_inj h hpiece).2).2⟩

/-- After a placeholder a piece stays as it is when it does not start with a space and,
in front of the next placeholder, is not empty and does not end with one. -/
theorem restoredAfter_eq_iff (p : List Char) (ps : List (List Char)) :
    restoredAfter p ps = [' '].intercalate (p :: ps)
      ↔ (∀ q ∈ p :: ps, q.head? ≠ some ' ')
        ∧ ∀ q ∈ (p :: ps).dropLast, q ≠ [] ∧ q.getLast? ≠ some ' ' := by
  induction ps generalizing p with
  | nil =>
      rw [restoredAfter, List.intercalate_singleton]
      simp only [List.mem_singleton, forall_eq, List.dropLast_singleton, List.not_mem_nil,
        false_implies, implies_true, and_true]
      exact ⟨fun h => (skipSpace_length p).2.mp (congrArg List.length h), skipSpace_of_ne⟩
  | cons q qs ih =>
      have hq := length_restoredAfter_le q qs
      have hskip := skipSpace_length p
      have hpop := popSpace_length (skipSpace p)
      rw [restoredAfter, List.intercalate_cons_cons, List.dropLast_cons_of_ne_nil (by simp)]
      simp only [List.forall_mem_cons (a := p), and_and_and_comm (b := ∀ x ∈ q :: qs, _)]
      rw [← ih q]
      constructor
      · intro h
        split_ifs at h with hnil
        · -- A piece that vanishes takes a space with it.
          have hlen := congrArg List.length h
          simp only [List.length_append, List.length_cons, List.length_nil] at hlen
          omega
        · obtain ⟨hpiece, hrest⟩ := append_space_inj (hpop.1.trans hskip.1) hq h
          have hhead : p.head? ≠ some ' ' := hskip.2.mp (by omega)
          rw [skipSpace_of_ne hhead] at hnil hpop hpiece
          exact ⟨⟨hhead, hnil, hpop.2.mp hpiece⟩, hrest⟩
      · rintro ⟨⟨hhead, hne, hlast⟩, hrest⟩
        rw [skipSpace_of_ne hhead, if_neg hne, popSpace_of_ne hlast, hrest, List.append_assoc,
          List.singleton_append]

/-- No placeholder touches a space or another placeholder. -/
def Untouched (p : List Char) (ps : List (List Char)) : Prop :=
  (∀ q ∈ (p :: ps).dropLast, q.getLast? ≠ some ' ') ∧ (∀ q ∈ ps, q.head? ≠ some ' ')
    ∧ ∀ q ∈ ps.dropLast, q ≠ []

/-- A space stands for each placeholder exactly when none touches a space or another one. -/
theorem restoredPieces_eq_iff (p : List Char) (ps : List (List Char)) :
    restoredPieces p ps = [' '].intercalate (p :: ps) ↔ Untouched p ps := by
  cases ps with
  | nil => exact iff_of_true (by simp [restoredPieces]) (by simp [Untouched])
  | cons q qs =>
      have hpop := popSpace_length p
      rw [restoredPieces, List.intercalate_cons_cons, Untouched,
        List.dropLast_cons_of_ne_nil (List.cons_ne_nil q qs), List.forall_mem_cons]
      have hafter := restoredAfter_eq_iff q qs
      simp only [forall_and] at hafter
      constructor
      · intro h
        obtain ⟨hpiece, hrest⟩ := append_space_inj hpop.1 (length_restoredAfter_le q qs) h
        obtain ⟨hheads, hne, hlasts⟩ := hafter.mp hrest
        exact ⟨⟨hpop.2.mp hpiece, hlasts⟩, hheads, hne⟩
      · rintro ⟨⟨hlast, hlasts⟩, hheads, hne⟩
        rw [popSpace_of_ne hlast, hafter.mpr ⟨hheads, hne, hlasts⟩, List.append_assoc,
          List.singleton_append]

/-- **The restored text, piece by piece.**  Each placeholder is one space, a piece loses
one space where it touches a placeholder, and placeholders with nothing left between them
are one space together.  Nothing but the placeholders changes exactly when none of them
touches a space or another one. -/
theorem restore_pieces (p : List Char) (ps : List (List Char))
    (h : ∀ q ∈ p :: ps, whitespaceSentinel ∉ q) :
    restoreWhitespacePlaceholders (String.ofList ([whitespaceSentinel].intercalate (p :: ps)))
        = String.ofList (restoredPieces p ps)
      ∧ (restoreWhitespacePlaceholders
            (String.ofList ([whitespaceSentinel].intercalate (p :: ps)))
          = String.ofList ([' '].intercalate (p :: ps)) ↔ Untouched p ps) := by
  have hrestore : restoreWhitespacePlaceholders
      (String.ofList ([whitespaceSentinel].intercalate (p :: ps)))
        = String.ofList (restoredPieces p ps) := by
    rw [restoreWhitespacePlaceholders, String.toList_ofList, restoreLoop_pieces p ps h]
  refine ⟨hrestore, ?_⟩
  rw [hrestore, String.ofList_inj, restoredPieces_eq_iff]

/-- Two placeholders with a space between them, and indented code after them. -/
theorem restore_pieces_indented :
    restoreWhitespacePlaceholders "if\uE000 \uE000x\n  \uE000y" = "if x\n  y" := by
  have hpieces := (restore_pieces ['i', 'f'] [[' '], ['x', '\n', ' ', ' '], ['y']]
    (by decide)).1
  exact hpieces

/-- A placeholder after the indentation of a line takes in one space of it. -/
theorem restore_loses_indentation :
    ¬ ∀ (p : List Char) (ps : List (List Char)), (∀ q ∈ p :: ps, whitespaceSentinel ∉ q) →
      restoreWhitespacePlaceholders (String.ofList ([whitespaceSentinel].intercalate (p :: ps)))
        = String.ofList ([' '].intercalate (p :: ps)) := by
  intro h
  have hline := h ['\n', ' ', ' '] [['x']] (by decide)
  exact absurd hline (by decide)

/-! ## The length -/

/-- Two adjacent characters of which the restoration keeps one space: a placeholder, and
a space or another placeholder. -/
def touches (a b : Char) : Bool :=
  (a == whitespaceSentinel && (b == ' ' || b == whitespaceSentinel))
    || (a == ' ' && b == whitespaceSentinel)

/-- How often a placeholder touches a space or another placeholder. -/
def touching : List Char → ℕ
  | a :: b :: cs => (if touches a b then 1 else 0) + touching (b :: cs)
  | _ => 0

/-- A placeholder touches a placeholder or a space in front of it. -/
theorem touches_sentinel (a : Char) :
    touches a whitespaceSentinel = true ↔ a = whitespaceSentinel ∨ a = ' ' := by
  simp [touches]

/-- Another character is touched only as a space behind a placeholder. -/
theorem touches_of_ne {b : Char} (hb : b ≠ whitespaceSentinel) (a : Char) :
    touches a b = true ↔ a = whitespaceSentinel ∧ b = ' ' := by
  simp [touches, hb]

theorem touching_none (cs : List Char) :
    touching ((none : Option Char).toList ++ cs) = touching cs := rfl

theorem length_encode_popSpace {out : List Char} (h : out.getLast? = some ' ') :
    (Utf8.encode (popSpace out)).length + 1 = (Utf8.encode out).length := by
  obtain ⟨init, rfl⟩ := List.getLast?_eq_some_iff.mp h
  rw [popSpace_concat, Utf8.encode_append, List.length_append]
  rfl

/-- The character before the rest of the text decides whether the output ends with a
space, and a space after a placeholder is gone before its turn. -/
def FollowsOutput (prev : Option Char) (cs out : List Char) : Prop :=
  (out.getLast? = some ' ' ↔ prev = some ' ' ∨ prev = some whitespaceSentinel)
    ∧ ¬ (prev = some whitespaceSentinel ∧ cs.head? = some ' ')

/-- What one character pushes, in bytes. -/
theorem length_pushRestored {prev : Option Char} {c : Char} {cs out : List Char}
    (h : FollowsOutput prev (c :: cs) out) :
    (Utf8.encode (pushRestored out c)).length + (if c = whitespaceSentinel then 2 else 0)
        + touching (prev.toList ++ [c])
      = (Utf8.encode out).length + (Utf8.encode [c]).length := by
  obtain ⟨hlast, hnext⟩ := h
  have htouch : touching (prev.toList ++ [c])
      = if prev.any (touches · c) = true then 1 else 0 := by
    cases prev with
    | none => rfl
    | some a => simp [touching]
  rw [htouch, pushRestored]
  by_cases hc : c = whitespaceSentinel
  · -- A placeholder takes the place of the space in front of it.
    have hprev : prev.any (touches · c) = true ↔ out.getLast? = some ' ' := by
      rw [hlast, hc]
      cases prev with
      | none => simp
      | some a => simp [touches_sentinel, or_comm]
    have hthree : (Utf8.encode [c]).length = 3 := by
      rw [hc]
      rfl
    have hspace : (Utf8.encode [' ']).length = 1 := rfl
    rw [if_pos hc, if_pos hc, Utf8.encode_append, List.length_append, hthree, hspace]
    split_ifs with hpop
    · have hpopped := length_encode_popSpace (hprev.mp hpop)
      omega
    · rw [popSpace_of_ne (fun h => hpop (hprev.mpr h))]
  · -- Another character touches a placeholder only as a space, which is skipped.
    have hprev : prev.any (touches · c) ≠ true := by
      cases prev with
      | none => simp
      | some a =>
          rw [Option.any_some, ne_eq, touches_of_ne hc]
          rintro ⟨rfl, rfl⟩
          exact hnext ⟨rfl, rfl⟩
    rw [if_neg hc, if_neg hc, if_neg hprev, Utf8.encode_append, List.length_append]
    rfl

/-- The pairs that touch are counted at each character. -/
theorem touching_append (prev : Option Char) (c : Char) (cs : List Char) :
    touching (prev.toList ++ c :: cs) = touching (prev.toList ++ [c]) + touching (c :: cs) := by
  cases prev with
  | none => simp [touching]
  | some a => simp [touching]

/-- The output ends in a space after a space or a placeholder. -/
theorem pushRestored_getLast (out : List Char) (c : Char) :
    (pushRestored out c).getLast? = some ' ' ↔ c = ' ' ∨ c = whitespaceSentinel := by
  unfold pushRestored
  split_ifs with hc
  · rw [List.getLast?_concat]
    exact iff_of_true rfl (Or.inr hc)
  · rw [List.getLast?_concat, Option.some.injEq, or_iff_left hc]

theorem length_encode_cons (c : Char) (cs : List Char) :
    (Utf8.encode (c :: cs)).length = (Utf8.encode [c]).length + (Utf8.encode cs).length := by
  rw [← List.length_append, ← Utf8.encode_append, List.singleton_append]

/-- The bytes of the output and of what is left of the text, and what is lost. -/
theorem length_restoreLoop {prev : Option Char} {cs out : List Char}
    (h : FollowsOutput prev cs out) :
    (Utf8.encode (restoreLoop cs out)).length + 2 * cs.count whitespaceSentinel
        + touching (prev.toList ++ cs)
      = (Utf8.encode out).length + (Utf8.encode cs).length := by
  -- By the cases of the loop; `prev` is the character that the output ends with.
  induction cs, out using restoreLoop.induct generalizing prev with
  | case1 out =>
      have hnil : touching (prev.toList ++ []) = 0 := by cases prev <;> rfl
      rw [restoreLoop, hnil]
      rfl
  | case2 c out =>
      have hpush := length_pushRestored h
      rw [restoreLoop]
      by_cases hc : c = whitespaceSentinel
      · rw [if_pos hc] at hpush
        rw [hc, List.count_singleton_self, ← hc]
        omega
      · rw [if_neg hc] at hpush
        rw [List.count_singleton, if_neg (by simpa using hc)]
        omega
  | case3 c d cs out hpair ih =>
      obtain ⟨rfl, rfl⟩ := hpair
      have hpush := length_pushRestored h
      -- The space is skipped, and counts as the end of the output.
      have hfollows : FollowsOutput (some ' ') cs (pushRestored out whitespaceSentinel) :=
        ⟨by rw [pushRestored_getLast]; simp, by simp [sentinel_ne_space.symm]⟩
      have hnext := ih hfollows
      rw [if_pos rfl] at hpush
      rw [restoreLoop, if_pos ⟨rfl, rfl⟩, touching_append]
      have hsplit := touching_append (some whitespaceSentinel) ' ' cs
      have hone : touching ((some whitespaceSentinel).toList ++ [' ']) = 1 := rfl
      have hcount : (whitespaceSentinel :: ' ' :: cs).count whitespaceSentinel
          = cs.count whitespaceSentinel + 1 := by
        rw [List.count_cons_self, List.count_cons_of_ne sentinel_ne_space.symm]
      have hspace : (Utf8.encode [' ']).length = 1 := rfl
      rw [hone] at hsplit
      change touching (whitespaceSentinel :: ' ' :: cs) = 1 + touching (' ' :: cs) at hsplit
      change _ + touching (' ' :: cs) = _ at hnext
      rw [hcount, hsplit, length_encode_cons, length_encode_cons ' ', hspace]
      omega
  | case4 c d cs out hpair ih =>
      have hpush := length_pushRestored h
      have hfollows : FollowsOutput (some c) (d :: cs) (pushRestored out c) :=
        ⟨by rw [pushRestored_getLast]; simp, by simpa using hpair⟩
      have hnext := ih hfollows
      rw [restoreLoop, if_neg hpair, touching_append]
      change _ + touching (c :: d :: cs) = _ at hnext
      rw [length_encode_cons c]
      by_cases hc : c = whitespaceSentinel
      · have hcount : (c :: d :: cs).count whitespaceSentinel
            = (d :: cs).count whitespaceSentinel + 1 := by
          rw [hc, List.count_cons_self]
        rw [if_pos hc] at hpush
        omega
      · rw [if_neg hc] at hpush
        rw [List.count_cons_of_ne hc]
        omega

/-- **The bytes that a text loses**: two for each placeholder, and one for each time that
one touches a space or another placeholder. -/
theorem length_restore (content : String) :
    RustStr.len (restoreWhitespacePlaceholders content)
        + 2 * content.toList.count whitespaceSentinel + touching content.toList
      = RustStr.len content := by
  have hfollows : FollowsOutput none content.toList [] := by simp [FollowsOutput]
  have h := length_restoreLoop hfollows
  rw [touching_none] at h
  rw [RustStr.len, RustStr.asBytes, restoreWhitespacePlaceholders, String.toList_ofList, h]
  exact Nat.zero_add _

/-! ## Placeholders that touch nothing -/

/-- A placeholder as a space. -/
def unmark (c : Char) : Char := if c = whitespaceSentinel then ' ' else c

/-- A character that touches nothing is put behind the output. -/
theorem pushRestored_of_apart {prev : Option Char} {c : Char} {cs out : List Char}
    (h : FollowsOutput prev (c :: cs) out) (htouch : touching (prev.toList ++ [c]) = 0) :
    pushRestored out c = out ++ [unmark c] := by
  rw [pushRestored, unmark]
  split_ifs with hc
  · have hlast : out.getLast? ≠ some ' ' := by
      rw [ne_eq, h.1]
      rintro (rfl | rfl) <;> simp [touching, touches, hc] at htouch
    rw [popSpace_of_ne hlast]
  · rfl

/-- Where no placeholder touches a space or another one, each is a space. -/
theorem restoreLoop_map {prev : Option Char} {cs out : List Char}
    (h : FollowsOutput prev cs out) (htouch : touching (prev.toList ++ cs) = 0) :
    restoreLoop cs out = out ++ cs.map unmark := by
  induction cs, out using restoreLoop.induct generalizing prev with
  | case1 out => rw [restoreLoop, List.map_nil, List.append_nil]
  | case2 c out => rw [restoreLoop, pushRestored_of_apart h htouch, List.map_singleton]
  | case3 c d cs out hpair ih =>
      obtain ⟨rfl, rfl⟩ := hpair
      rw [touching_append] at htouch
      exact absurd htouch (by simp [touching, touches])
  | case4 c d cs out hpair ih =>
      rw [touching_append, Nat.add_eq_zero_iff] at htouch
      have hfollows : FollowsOutput (some c) (d :: cs) (pushRestored out c) :=
        ⟨by rw [pushRestored_getLast]; simp, by simpa using hpair⟩
      have hnext := ih hfollows htouch.2
      rw [restoreLoop, if_neg hpair, hnext, pushRestored_of_apart h htouch.1, List.append_assoc]
      rfl

end CodespanFixup
