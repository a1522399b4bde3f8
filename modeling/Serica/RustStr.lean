/-
# Strings of the source language

The `str` methods that the program calls, on Lean's `String`.  Both are UTF-8
texts; offsets are byte offsets, and a slice outside a character boundary is a
panic, here `none`.
-/
import Serica.Utf8

namespace RustStr

/-- `s.as_bytes()`. -/
def asBytes (s : String) : List UInt8 := Utf8.encode s.toList

/-- `s.len()`, in bytes. -/
def len (s : String) : ℕ := (asBytes s).length

/-- `&s[i..j]`: panics unless `i ≤ j` and both are character boundaries of `s`. -/
def slice (s : String) (i j : ℕ) : Option String := do
  let (_, rest) ← Utf8.splitAt s.toList i
  if i ≤ j then
    let (mid, _) ← Utf8.splitAt rest (j - i)
    some (String.ofList mid)
  else none

/-- `c.is_whitespace()`: the Unicode property `White_Space`. -/
def isWhitespace (c : Char) : Bool :=
  let n := c.toNat
  (0x9 ≤ n && n ≤ 0xD) || n == 0x20 || n == 0x85 || n == 0xA0 || n == 0x1680
    || (0x2000 ≤ n && n ≤ 0x200A) || n == 0x2028 || n == 0x2029 || n == 0x202F || n == 0x205F
    || n == 0x3000

/-- `s.trim()`. -/
def trim (s : String) : String :=
  String.ofList ((s.toList.dropWhile isWhitespace).rdropWhile isWhitespace)

/-- `s.contains(pat)`. -/
def contains (s pat : String) : Bool := s.toList.tails.any fun rest => pat.toList.isPrefixOf rest

/-- `s.strip_prefix(pre)`. -/
def stripPrefix (pre s : String) : Option String :=
  if pre.toList.isPrefixOf s.toList then some (String.ofList (s.toList.drop pre.toList.length))
  else none

/-- `c.is_ascii_lowercase()`. -/
def isAsciiLowercase (c : Char) : Bool := 'a' ≤ c && c ≤ 'z'

/-- `s.to_lowercase()`.  ASCII letters are mapped as ASCII; `table` stands for the
Unicode mapping of the texts that hold other characters. -/
def toLowercase (table : String → String) (s : String) : String :=
  if s.toList.all (fun c => c.toNat < 128) then String.ofList (s.toList.map Char.toLower)
  else table s

/-- What is left behind a prefix is the rest of the string. -/
theorem stripPrefix_eq_some_iff {pre s t : String} :
    stripPrefix pre s = some t ↔ s = pre ++ t := by
  rw [stripPrefix, Option.ite_none_right_eq_some, List.isPrefixOf_iff_prefix, Option.some.injEq,
    List.prefix_iff_eq_append]
  constructor
  · rintro ⟨hs, rfl⟩
    rw [← String.toList_inj, String.toList_append, String.toList_ofList, hs]
  · rintro rfl
    rw [String.toList_append, List.drop_left, String.ofList_toList]
    exact ⟨rfl, rfl⟩

/-- A string is known by its bytes. -/
theorem asBytes_injective : Function.Injective asBytes := by
  intro s t h
  exact String.toList_inj.mp (Utf8.encode_injective h)

theorem asBytes_append (s t : String) :
    asBytes (s ++ t) = asBytes s ++ asBytes t := by
  rw [asBytes, String.toList_append, Utf8.encode_append]
  rfl

theorem asBytes_intercalate (sep : String) (segments : List String) :
    asBytes (sep.intercalate segments)
      = (asBytes sep).intercalate (segments.map asBytes) := by
  have hmap : ∀ css : List (List Char), Utf8.encode (sep.toList.intercalate css)
      = (Utf8.encode sep.toList).intercalate (css.map Utf8.encode) := by
    intro css
    induction css with
    | nil => rfl
    | cons cs css ih =>
        cases css with
        | nil => simp [List.intercalate]
        | cons ds css =>
            rw [List.intercalate_cons_cons, Utf8.encode_append, Utf8.encode_append, ih,
              List.map_cons, List.map_cons, List.map_cons, List.intercalate_cons_cons]
  rw [asBytes, String.toList_intercalate, hmap, List.map_map]
  rfl

/-- An element of a joined list is the separator or comes from one of the parts. -/
theorem mem_intercalate {α : Type} {a sep : α} {ls : List (List α)}
    (h : a ∈ [sep].intercalate ls) : a = sep ∨ ∃ l ∈ ls, a ∈ l := by
  induction ls with
  | nil => exact absurd h (by simp)
  | cons l ls ih =>
      cases ls with
      | nil =>
          rw [List.intercalate_singleton] at h
          exact Or.inr ⟨l, List.mem_cons_self, h⟩
      | cons l' ls =>
          rw [List.intercalate_cons_cons, List.mem_append, List.mem_append, List.mem_singleton] at h
          rcases h with (h | h) | h
          · exact Or.inr ⟨l, List.mem_cons_self, h⟩
          · exact Or.inl h
          · exact (ih h).imp id fun ⟨m, hm, hc⟩ => ⟨m, List.mem_cons_of_mem _ hm, hc⟩

/-- A slice that starts and ends where parts of the text do. -/
theorem slice_ofList (a b c : List Char) :
    slice (String.ofList (a ++ b ++ c)) (Utf8.encode a).length (Utf8.encode (a ++ b)).length
      = some (String.ofList b) := by
  have hle : (Utf8.encode a).length ≤ (Utf8.encode (a ++ b)).length :=
    Utf8.length_encode_le_of_infix (List.prefix_append a b).isInfix
  have hsub : (Utf8.encode (a ++ b)).length - (Utf8.encode a).length
      = (Utf8.encode b).length := by
    rw [Utf8.encode_append, List.length_append]
    omega
  rw [slice, String.toList_ofList, List.append_assoc, Utf8.splitAt_length_encode]
  simp only [Option.bind_eq_bind, Option.bind_some, if_pos hle, hsub]
  rw [Utf8.splitAt_length_encode]
  rfl

/-! ## Pieces -/

section Pieces

variable {α : Type*} {sep : α → Bool} {cs w : List α}

/-- A part of a list without separators, between separators or ends of the list. -/
def IsPiece (sep : α → Bool) (cs w : List α) : Prop :=
  ∃ front back, cs = front ++ w ++ back ∧ (∀ c ∈ w, sep c = false)
    ∧ (∀ c ∈ front.getLast?, sep c = true) ∧ ∀ c ∈ back.head?, sep c = true

theorem IsPiece.isInfix (h : IsPiece sep cs w) : w <:+: cs := by
  obtain ⟨front, back, rfl, -⟩ := h
  exact List.infix_append front w back

/-- The part in front of the first separator is the first piece. -/
theorem mem_splitOnP_append {back : List α} (hw : ∀ c ∈ w, sep c = false)
    (hback : ∀ c ∈ back.head?, sep c = true) : w ∈ (w ++ back).splitOnP sep := by
  cases back with
  | nil =>
      rw [List.append_nil, List.splitOnP_eq_singleton hw]
      exact List.mem_singleton_self w
  | cons c back =>
      rw [List.splitOnP_append_cons_of_forall_mem hw c (hback c rfl)]
      exact List.mem_cons_self

/-- What a split gives is a piece of the text. -/
theorem isPiece_of_mem_splitOnP (h : w ∈ cs.splitOnP sep) : IsPiece sep cs w := by
  induction hn : cs.length using Nat.strong_induction_on generalizing cs with
  | _ n ih =>
      have hsplit := List.takeWhile_append_dropWhile (p := fun c => !sep c) (l := cs)
      have hfree : ∀ c ∈ cs.takeWhile (fun c => !sep c), sep c = false := by
        intro c hc
        have hnot := List.mem_takeWhile_imp hc
        rwa [Bool.not_eq_true'] at hnot
      cases hrest : cs.dropWhile (fun c => !sep c) with
      | nil =>
          -- There is no separator, and the list is its only piece.
          rw [hrest, List.append_nil] at hsplit
          rw [hsplit] at hfree
          rw [List.splitOnP_eq_singleton hfree, List.mem_singleton] at h
          exact ⟨[], [], by rw [h, List.append_nil, List.nil_append], by rwa [h], by simp, by simp⟩
      | cons c rest =>
          have hc : sep c = true := by
            have hhead := List.head?_dropWhile_not (fun c => !sep c) cs
            rw [hrest] at hhead
            simpa using hhead
          rw [hrest] at hsplit
          rw [← hsplit, List.splitOnP_append_cons_of_forall_mem hfree c hc, List.mem_cons] at h
          rcases h with rfl | h
          · exact ⟨[], c :: rest, by rw [List.nil_append, hsplit], hfree, by simp,
              fun d hd => by rwa [← Option.some.inj hd]⟩
          · have hlt : rest.length < n := by
              rw [← hn, ← hsplit, List.length_append, List.length_cons]
              omega
            obtain ⟨front, back, hcs, hw, hfront, hback⟩ := ih rest.length hlt h rfl
            refine ⟨cs.takeWhile (fun c => !sep c) ++ c :: front, back, ?_, hw, ?_, hback⟩
            · calc cs = cs.takeWhile (fun c => !sep c) ++ c :: rest := hsplit.symm
                _ = cs.takeWhile (fun c => !sep c) ++ c :: front ++ w ++ back := by
                  rw [hcs]
                  simp only [List.append_assoc, List.cons_append]
            · intro d hd
              rw [List.getLast?_append, List.getLast?_cons, Option.some_or] at hd
              cases hlast : front.getLast? with
              | none =>
                  rw [hlast] at hd
                  rwa [← Option.some.inj hd]
              | some e =>
                  rw [hlast] at hd
                  rw [← Option.some.inj hd]
                  exact hfront e hlast

/-- **The pieces of a split** are the parts between separators. -/
theorem mem_splitOnP_iff : w ∈ cs.splitOnP sep ↔ IsPiece sep cs w := by
  refine ⟨isPiece_of_mem_splitOnP, ?_⟩
  rintro ⟨front, back, rfl, hw, hfront, hback⟩
  rcases List.eq_nil_or_concat' front with rfl | ⟨front, c, rfl⟩
  · exact mem_splitOnP_append hw hback
  · have hc : sep c = true := hfront c (by simp)
    rw [List.append_assoc, List.append_assoc, List.singleton_append,
      List.splitOnP_append_cons _ _ hc]
    exact List.mem_append_right _ (mem_splitOnP_append hw hback)

end Pieces
end RustStr
