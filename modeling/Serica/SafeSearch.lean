/-
# The safe-search filter

What `applySafeSearchFilter` removes, told by the places of words in a text, and how the
levels compare.

* `isBlocked_iff`: the scan over the pieces finds the whole words of the three texts.
* `applySafeSearchFilter_wholeWords`: the filter removes the results with a listed word, and
  a stricter level removes more.
-/
import Serica.Search

namespace Search

/-! ## Words -/

/-- A word of a text: a run of alphanumeric characters, with none right before or behind it. -/
def IsWholeWord (platform : Platform) (text word : String) : Prop :=
  word ≠ "" ∧ ∃ front back, text = front ++ word ++ back
    ∧ (∀ c ∈ word.toList, platform.isAlphanumeric c = true)
    ∧ (∀ c ∈ front.toList.getLast?, platform.isAlphanumeric c = false)
    ∧ ∀ c ∈ back.toList.head?, platform.isAlphanumeric c = false

/-- The host of the URL of a result; blank when there is none. -/
def resultHost (platform : Platform) (r : SearchResult) : String :=
  match platform.parseUrl r.url with
  | .ok u => u.hostStr.getD ""
  | .error _ => ""

/-- A word of the title, of the snippet or of the host is on the list, in lower case. -/
def HasListedWord (platform : Platform) (blocklist : List String) (r : SearchResult) : Prop :=
  ∃ text ∈ [r.title, r.snippet, resultHost platform r],
    ∃ word, IsWholeWord platform text word ∧ toAsciiLowercase word ∈ blocklist

/-- The pieces of a text that are not blank are its words. -/
theorem isWholeWord_iff (platform : Platform) (text word : String) :
    IsWholeWord platform text word ↔ word ≠ "" ∧ word ∈ words platform text := by
  unfold IsWholeWord words
  refine and_congr_right fun _ => ?_
  rw [List.mem_map]
  constructor
  · rintro ⟨front, back, rfl, hword, hfront, hback⟩
    refine ⟨word.toList, ?_, String.ofList_toList⟩
    rw [RustStr.mem_splitOnP_iff, String.toList_append, String.toList_append]
    refine ⟨front.toList, back.toList, rfl, ?_, ?_, ?_⟩
    all_goals simpa only [Bool.not_eq_true', Bool.not_eq_false']
  · rintro ⟨cs, hcs, rfl⟩
    obtain ⟨front, back, htext, hword, hfront, hback⟩ := RustStr.mem_splitOnP_iff.mp hcs
    simp only [Bool.not_eq_true', Bool.not_eq_false'] at hword hfront hback
    refine ⟨String.ofList front, String.ofList back, ?_, ?_, ?_, ?_⟩
    · rw [← String.toList_inj, htext]
      simp only [String.toList_append, String.toList_ofList]
    all_goals rwa [String.toList_ofList]

/-- **What the scan finds**, where the blank text is not on the list. -/
theorem isBlocked_iff (platform : Platform) {blocklist : List String} (hblank : "" ∉ blocklist)
    (r : SearchResult) :
    isBlocked platform blocklist r = true ↔ HasListedWord platform blocklist r := by
  have hword : ∀ text, (∃ word ∈ words platform text, toAsciiLowercase word ∈ blocklist)
      ↔ ∃ word, IsWholeWord platform text word ∧ toAsciiLowercase word ∈ blocklist := by
    intro text
    refine exists_congr fun word => ?_
    rw [isWholeWord_iff, and_assoc, iff_and_self]
    rintro ⟨-, hlisted⟩ rfl
    exact hblank hlisted
  unfold isBlocked HasListedWord
  simp only [List.any_append, Bool.or_eq_true, List.any_eq_true, decide_eq_true_eq, hword,
    List.exists_mem_cons_iff, List.not_mem_nil, false_and, exists_false, or_false, or_assoc]
  rfl

/-! ## Levels -/

/-- The list of a level; level 0 has none. -/
def safeSearchBlocklist (level : UInt8) : List String :=
  if level = 0 then [] else if level = 1 then safeSearchBlocklistModerate
  else safeSearchBlocklistStrict

theorem blank_not_mem_safeSearchBlocklist (level : UInt8) : "" ∉ safeSearchBlocklist level := by
  unfold safeSearchBlocklist
  split_ifs <;> decide

/-- A stricter level lists more. -/
theorem safeSearchBlocklist_subset {a b : UInt8} (h : a ≤ b) :
    safeSearchBlocklist a ⊆ safeSearchBlocklist b := by
  have hlists : safeSearchBlocklistModerate ⊆ safeSearchBlocklistStrict := by decide
  have hle : a.toNat ≤ b.toNat := UInt8.le_iff_toNat_le.mp h
  have hzero : ∀ n : UInt8, n = 0 ↔ n.toNat = 0 := fun n => UInt8.toNat_inj.symm
  have hone : ∀ n : UInt8, n = 1 ↔ n.toNat = 1 := fun n => UInt8.toNat_inj.symm
  unfold safeSearchBlocklist
  simp only [hzero, hone]
  split_ifs
  all_goals first | exact List.nil_subset _ | exact hlists | exact List.Subset.refl _ | omega

theorem applySafeSearchFilter_eq (platform : Platform) (results : List SearchResult)
    (level : UInt8) :
    applySafeSearchFilter platform results level
      = results.filter fun r => !isBlocked platform (safeSearchBlocklist level) r := by
  unfold applySafeSearchFilter safeSearchBlocklist
  split_ifs
  · have hnone : ∀ r, isBlocked platform [] r = false := by
      intro r
      simp [isBlocked]
    simp [hnone]
  · rfl
  · rfl

/-- A result that a stricter level keeps is kept. -/
theorem isBlocked_mono (platform : Platform) {a b : UInt8} (h : a ≤ b) {r : SearchResult}
    (hr : isBlocked platform (safeSearchBlocklist a) r = true) :
    isBlocked platform (safeSearchBlocklist b) r = true := by
  rw [isBlocked_iff platform (blank_not_mem_safeSearchBlocklist _)] at hr ⊢
  obtain ⟨text, htext, word, hword, hlisted⟩ := hr
  exact ⟨text, htext, word, hword, safeSearchBlocklist_subset h hlisted⟩

/-- **The filter**: in their order, it keeps the results without a listed word, and a stricter
level keeps fewer of them, also after another level. -/
theorem applySafeSearchFilter_wholeWords (platform : Platform) (results : List SearchResult) :
    (∀ level, ∃ keeps : SearchResult → Bool,
      (∀ r, keeps r = true ↔ ¬ HasListedWord platform (safeSearchBlocklist level) r)
        ∧ applySafeSearchFilter platform results level = results.filter keeps)
    ∧ ∀ a b, a ≤ b →
      (applySafeSearchFilter platform results b).Sublist (applySafeSearchFilter platform results a)
        ∧ applySafeSearchFilter platform (applySafeSearchFilter platform results a) b
          = applySafeSearchFilter platform results b := by
  refine ⟨fun level => ⟨_, fun r => ?_, applySafeSearchFilter_eq platform results level⟩, ?_⟩
  · rw [← isBlocked_iff platform (blank_not_mem_safeSearchBlocklist level), Bool.not_eq_true']
    exact Bool.eq_false_iff
  · intro a b hab
    have hkept : ∀ r, (!isBlocked platform (safeSearchBlocklist b) r) = true →
        (!isBlocked platform (safeSearchBlocklist a) r) = true := by
      intro r hr
      rw [Bool.not_eq_true', Bool.eq_false_iff] at hr ⊢
      exact fun hblocked => hr (isBlocked_mono platform hab hblocked)
    simp only [applySafeSearchFilter_eq]
    refine ⟨List.monotone_filter_right results hkept, ?_⟩
    rw [List.filter_filter]
    refine List.filter_congr fun r _ => ?_
    rw [Bool.and_eq_left_iff_imp]
    exact hkept r

end Search
