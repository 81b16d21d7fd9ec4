/-
Texts, and the few ways of taking them apart that the whole library shares.

A text is a list of Unicode characters, so lengths and offsets count characters. White space is
the Unicode property White_Space, which is wider than the class of blanks that the core library
tests for: it has the next-line and no-break spaces and the spaces from U+1680 on. The separator
controls U+001C to U+001F are not in it, which matters because two of them mark entity spans.

Three operations follow. `trim` takes white space off both ends, `split` cuts at every separator
and keeps the empty pieces, and `cut` parts a text at the first occurrence of one character.
-/
set_option autoImplicit false

namespace UtteranceGrammar

/-- A text is the list of its characters. -/
abbrev Text := List Char

/-- Rules and entities are known by names. -/
abbrev Name := String

namespace Text

/-! ## White space -/

/-- The characters with the Unicode property White_Space. -/
def isBlank (c : Char) : Bool :=
  let n := c.toNat
  (0x09 ≤ n && n ≤ 0x0D) || n == 0x20 || n == 0x85 || n == 0xA0 || n == 0x1680 ||
    (0x2000 ≤ n && n ≤ 0x200A) || n == 0x2028 || n == 0x2029 || n == 0x202F || n == 0x205F ||
    n == 0x3000

/-- The core library's white space is white space here too. -/
theorem isBlank_of_isWhitespace {c : Char} (h : c.isWhitespace = true) : isBlank c = true := by
  simp only [Char.isWhitespace, Bool.or_eq_true, decide_eq_true_eq] at h
  rcases h with ((rfl | rfl) | rfl) | rfl <;> decide

/-- A text without its leading white space. -/
def trimStart (s : Text) : Text := s.dropWhile isBlank

/-- A text without its trailing white space. -/
def trimEnd (s : Text) : Text := (s.reverse.dropWhile isBlank).reverse

/-- A text without the white space at its two ends. -/
def trim (s : Text) : Text := trimEnd (trimStart s)

/-! ## Separators -/

/-- The pieces of a text between its separators: always one more than there are separators, and
empty where two separators meet or one stands at an end. -/
def split (separates : Char → Bool) : Text → List Text
  | [] => [[]]
  | c :: s =>
    if separates c then [] :: split separates s else (split separates s).modifyHead (c :: ·)

/-- There is one piece more than there are separators. -/
theorem length_split (separates : Char → Bool) (s : Text) :
    (split separates s).length = s.countP separates + 1 := by
  induction s with
  | nil => rfl
  | cons c s ih => by_cases h : separates c = true <;> simp [split, h, ih]

/-- The trimmed pieces of a text, blank ones left out. -/
def words (separates : Char → Bool) (s : Text) : List Text :=
  ((split separates s).map trim).filter (!·.isEmpty)

/-! ## The first occurrence of a character -/

/-- The text before the first `c` and the text after it, if `c` occurs at all. -/
def cut (c : Char) : Text → Option (Text × Text)
  | [] => none
  | d :: s => if d = c then some ([], s) else (cut c s).map fun (a, b) => (d :: a, b)

theorem cut_eq_none_iff {c : Char} {s : Text} : cut c s = none ↔ c ∉ s := by
  induction s with
  | nil => simp [cut]
  | cons d s ih =>
    by_cases h : d = c
    · simp [cut, h]
    · simp [cut, h, ih, Ne.symm h]

/-- A cut is at the first occurrence, and nothing but that character is lost. -/
theorem cut_eq_some_iff {c : Char} {s a b : Text} :
    cut c s = some (a, b) ↔ s = a ++ c :: b ∧ c ∉ a := by
  induction s generalizing a with
  | nil => simp [cut]
  | cons d s ih =>
    by_cases h : d = c
    · cases a with
      | nil => simp [cut, h]
      | cons e a => simp [cut, h]; grind
    · cases a with
      | nil => simp [cut, h]
      | cons e a =>
        simp only [cut, h, ↓reduceIte, Option.map_eq_some_iff, Prod.exists, Prod.mk.injEq,
          List.cons.injEq, List.cons_append, List.mem_cons, not_or]
        grind

/-- What follows a cut is shorter than the text. -/
theorem length_lt_of_cut {c : Char} {s a b : Text} (h : cut c s = some (a, b)) :
    b.length < s.length := by
  rw [(cut_eq_some_iff.1 h).1]
  simp only [List.length_append, List.length_cons]
  omega

end Text

end UtteranceGrammar
