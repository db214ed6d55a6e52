import Mathlib.Data.List.DropRight
import Mathlib.Data.Nat.Notation

/-!
# Texts

Strings are lists of Unicode characters. White space is what `str.isspace` accepts; `strip` and
`split` are the methods of that name without an argument, so a word is a run of other characters.
What depends on the Unicode database beyond white space is a parameter, `Unicode`: the full upper
case mapping and the decimal digits, with the facts that hold in every version.
-/

set_option autoImplicit false

namespace Text

def isSpace (c : Char) : Bool :=
  let n := c.toNat
  decide (9 ≤ n ∧ n ≤ 13) || decide (28 ≤ n ∧ n ≤ 32) || n == 0x85 || n == 0xA0 || n == 0x1680 ||
    decide (0x2000 ≤ n ∧ n ≤ 0x200A) || n == 0x2028 || n == 0x2029 || n == 0x202F || n == 0x205F ||
    n == 0x3000

def strip (s : List Char) : List Char := (s.dropWhile isSpace).rdropWhile isSpace

/-- The white space that `int` and `float` skip around a number: not the separators `U+001C` to
`U+001F`. -/
def isPadding (c : Char) : Bool := isSpace c && !decide (28 ≤ c.toNat ∧ c.toNat ≤ 31)

/-- What `int` and `float` read of a text. -/
def trim (s : List Char) : List Char := (s.dropWhile isPadding).rdropWhile isPadding

def split (s : List Char) : List (List Char) := (s.splitOnP isSpace).filter fun w => !w.isEmpty

/-- A text is gone through to decide what all its characters have, and not the type `Char`. -/
instance decidableForallMem (p : Char → Prop) [DecidablePred p] (s : List Char) :
    Decidable (∀ c ∈ s, p c) :=
  List.decidableBAll p s

/-- A text without white space. -/
def Solid (s : List Char) : Prop := ∀ c ∈ s, isSpace c = false

instance (s : List Char) : Decidable (Solid s) :=
  List.decidableBAll (fun c => isSpace c = false) s

/-! ## Words -/

@[simp] theorem split_nil : split [] = [] := rfl

/-- White space ends a word. -/
theorem split_append_space (s rest : List Char) {c : Char} (hc : isSpace c = true) :
    split (s ++ c :: rest) = split s ++ split rest := by
  rw [split, List.splitOnP_append_cons s rest hc, List.filter_append]
  rfl

theorem split_cons_space (rest : List Char) {c : Char} (hc : isSpace c = true) :
    split (c :: rest) = split rest := split_append_space [] rest hc

theorem split_word {w : List Char} (hne : w ≠ []) (hw : Solid w) : split w = [w] := by
  rw [split, List.splitOnP_eq_singleton hw]
  cases w with
  | nil => exact absurd rfl hne
  | cons c w => rfl

theorem split_word_space {w : List Char} (hne : w ≠ []) (hw : Solid w) (rest : List Char) :
    split (w ++ ' ' :: rest) = w :: split rest := by
  rw [split_append_space w rest (by decide), split_word hne hw]
  rfl

theorem split_spaces {s : List Char} (hs : ∀ c ∈ s, isSpace c = true) : split s = [] := by
  induction s with
  | nil => rfl
  | cons c s ih =>
      rw [split_cons_space s (hs c List.mem_cons_self)]
      exact ih fun d hd => hs d (List.mem_cons_of_mem c hd)

theorem split_append_spaces (s : List Char) {t : List Char} (ht : ∀ c ∈ t, isSpace c = true) :
    split (s ++ t) = split s := by
  cases t with
  | nil => rw [List.append_nil]
  | cons c t =>
      have hrest : split t = [] := split_spaces fun d hd => ht d (List.mem_cons_of_mem c hd)
      rw [split_append_space s t (ht c List.mem_cons_self), hrest, List.append_nil]

/-- **Stripping a text leaves its words alone.** -/
theorem split_strip (s : List Char) : split (strip s) = split s := by
  have hfront : split (s.dropWhile isSpace) = split s := by
    induction s with
    | nil => rfl
    | cons c s ih =>
        by_cases hc : isSpace c = true
        · rw [List.dropWhile_cons_of_pos hc, ih, split_cons_space s hc]
        · rw [List.dropWhile_cons_of_neg hc]
  have hback := split_append_spaces (strip s)
    (t := (s.dropWhile isSpace).rtakeWhile isSpace) fun c hc => List.mem_rtakeWhile_imp hc
  rw [strip, List.rdropWhile_append_rtakeWhile] at hback
  rw [← hfront, hback]
  rfl

theorem strip_solid {s : List Char} (hs : Solid s) : strip s = s := by
  have hfront : s.dropWhile isSpace = s := by
    cases s with
    | nil => rfl
    | cons c s =>
        have hc := hs c List.mem_cons_self
        rw [List.dropWhile_cons_of_neg (by rw [hc]; decide)]
  rw [strip, hfront, List.rdropWhile_eq_self_iff]
  intro hne hlast
  rw [hs _ (List.getLast_mem hne)] at hlast
  cases hlast

/-- A stripped text does not end in white space. -/
theorem strip_last {s rest : List Char} {c : Char} (h : strip s = rest ++ [c]) :
    isSpace c = false := by
  have hne : strip s ≠ [] := by
    rw [h]
    exact List.append_ne_nil_of_right_ne_nil rest (List.cons_ne_nil c [])
  have hlast := List.rdropWhile_last_not isSpace (s.dropWhile isSpace) hne
  have hc : (strip s).getLast hne = c := by
    simp only [h, List.getLast_concat]
  rw [← hc]
  exact Bool.eq_false_iff.mpr hlast

/-- A text that stripping leaves alone begins with no white space. -/
theorem dropWhile_of_stripped {s : List Char} (h : strip s = s) : s.dropWhile isSpace = s := by
  have hlength : s.length ≤ (s.dropWhile isSpace).length := by
    have hle := (List.rdropWhile_prefix isSpace (s.dropWhile isSpace)).length_le
    rw [← strip, h] at hle
    exact hle
  exact (List.dropWhile_suffix isSpace).eq_of_length_le hlength

/-- Otherwise the text would lose its first character. -/
theorem head_of_stripped {c : Char} {cs : List Char} (h : strip (c :: cs) = c :: cs) :
    isSpace c = false := by
  by_contra hspace
  have hdrop := dropWhile_of_stripped h
  rw [List.dropWhile_cons_of_pos (Bool.of_not_eq_false hspace)] at hdrop
  have hle := (List.dropWhile_suffix (l := cs) isSpace).length_le
  rw [hdrop, List.length_cons] at hle
  omega

theorem isPadding_of_not_isSpace {c : Char} (h : isSpace c = false) : isPadding c = false := by
  rw [isPadding, h, Bool.false_and]

/-- **In a stripped text there is nothing to trim.** -/
theorem trim_of_stripped {s : List Char} (h : strip s = s) : trim s = s := by
  have hfront : s.dropWhile isPadding = s := by
    cases s with
    | nil => rfl
    | cons c cs =>
        have hhead : ¬ isPadding c = true := by
          rw [isPadding_of_not_isSpace (head_of_stripped h)]
          decide
        exact List.dropWhile_cons_of_neg hhead
  rw [trim, hfront, List.rdropWhile_eq_self_iff]
  intro hne hlast
  have hc : isSpace (s.getLast hne) = false :=
    strip_last (h.trans (List.dropLast_append_getLast hne).symm)
  rw [isPadding_of_not_isSpace hc] at hlast
  cases hlast

theorem trim_solid {s : List Char} (hs : Solid s) : trim s = s := trim_of_stripped (strip_solid hs)

/-- White space in front is stripped off a text that begins and ends without any. -/
theorem strip_of_ends {front s : List Char} {c : Char} (hfront : ∀ d ∈ front, isSpace d = true)
    (hs : (s ++ [c]).dropWhile isSpace = s ++ [c]) (hc : isSpace c = false) :
    strip (front ++ (s ++ [c])) = s ++ [c] := by
  have hdrop : (front ++ (s ++ [c])).dropWhile isSpace = s ++ [c] := by
    rw [List.dropWhile_append_of_pos hfront, hs]
  rw [strip, hdrop, List.rdropWhile_concat_neg _ _ _ (by rw [hc]; exact Bool.false_ne_true)]

/-- What follows a text that is not empty and begins with no white space does not matter. -/
theorem dropWhile_append_of_stripped {s : List Char} (hne : s ≠ []) (h : strip s = s)
    (rest : List Char) : (s ++ rest).dropWhile isSpace = s ++ rest := by
  obtain ⟨c, cs, rfl⟩ := List.exists_cons_of_ne_nil hne
  exact List.dropWhile_cons_of_neg (by rw [head_of_stripped h]; decide)

/-- **White space around a stripped text is stripped off.** -/
theorem strip_padded {front s back : List Char} (hfront : ∀ c ∈ front, isSpace c = true)
    (hback : ∀ c ∈ back, isSpace c = true) (hne : s ≠ []) (h : strip s = s) :
    strip (front ++ s ++ back) = s := by
  have hend : (s ++ back).rdropWhile isSpace = s.rdropWhile isSpace := by
    induction back using List.reverseRecOn with
    | nil => rw [List.append_nil]
    | append_singleton back c ih =>
        rw [← List.append_assoc, List.rdropWhile_concat_pos _ _ _ (hback c (by simp))]
        exact ih fun d hd => hback d (List.mem_append_left [c] hd)
  rw [strip, List.append_assoc, List.dropWhile_append_of_pos hfront,
    dropWhile_append_of_stripped hne h, hend]
  rw [strip, dropWhile_of_stripped h] at h
  exact h

theorem strip_eq_nil_iff (s : List Char) : strip s = [] ↔ ∀ c ∈ s, isSpace c = true := by
  rw [strip, List.rdropWhile_eq_nil_iff]
  constructor
  · intro h c hc
    rw [← List.takeWhile_append_dropWhile (p := isSpace) (l := s)] at hc
    rcases List.mem_append.mp hc with hc | hc
    · exact List.mem_takeWhile_imp hc
    · exact h c hc
  · exact fun h c hc => h c ((List.dropWhile_suffix isSpace).subset hc)

/-- What is joined is there in the joined text. -/
theorem mem_intercalate {c : Char} {sep s : List Char} {parts : List (List Char)} (hs : s ∈ parts)
    (hc : c ∈ s) : c ∈ sep.intercalate parts := by
  induction parts with
  | nil => cases hs
  | cons part parts ih =>
      cases parts with
      | nil =>
          rw [List.mem_singleton.mp hs] at hc
          rwa [List.intercalate_singleton]
      | cons part' parts =>
          rw [List.intercalate_cons_cons]
          rcases List.mem_cons.mp hs with rfl | hs
          · exact List.mem_append_left _ (List.mem_append_left _ hc)
          · exact List.mem_append_right _ (ih hs)

/-! ## Partition -/

/-- The parts before and after the first occurrence of `sep`, which is not empty; `str.partition`
less its middle part. -/
def partition (sep : List Char) : List Char → List Char × List Char
  | [] => ([], [])
  | c :: s =>
      if sep <+: c :: s then ([], (c :: s).drop sep.length)
      else
        let (before, rest) := partition sep s
        (c :: before, rest)

/-- A separator whose first character does not come back in it cannot begin inside of what stands
before it and end inside of it. -/
theorem not_prefix_of_not_infix {x : Char} {t before rest : List Char} (hx : x ∉ t)
    (hne : before ≠ []) (hbefore : ¬ x :: t <+: before) :
    ¬ x :: t <+: before ++ (x :: t ++ rest) := by
  intro hprefix
  rcases Nat.lt_or_ge before.length (x :: t).length with hlt | hge
  · -- then the `x` after `before` is one of `t`
    obtain ⟨k, hk⟩ := Nat.exists_eq_succ_of_ne_zero
      (fun h => hne (List.length_eq_zero_iff.mp h))
    have hget := hprefix.getElem hlt
    rw [List.getElem_append_right (Nat.le_refl _)] at hget
    simp only [Nat.sub_self, List.cons_append, List.getElem_cons_zero, hk] at hget
    rw [List.getElem_cons_succ] at hget
    exact hx (hget ▸ List.getElem_mem _)
  · exact hbefore (List.prefix_of_prefix_length_le hprefix (List.prefix_append _ _) hge)

/-- **Partition at the separator that was put in.** -/
theorem partition_append {x : Char} {t before : List Char} (hx : x ∉ t)
    (hbefore : ¬ x :: t <:+: before) (rest : List Char) :
    partition (x :: t) (before ++ (x :: t ++ rest)) = (before, rest) := by
  induction before with
  | nil =>
      have hprefix : x :: t <+: x :: (t ++ rest) := List.prefix_append (x :: t) rest
      rw [List.nil_append, List.cons_append, partition, if_pos hprefix]
      simp
  | cons c before ih =>
      have hprefix : ¬ x :: t <+: c :: before ++ (x :: t ++ rest) :=
        not_prefix_of_not_infix hx (List.cons_ne_nil c before) fun h => hbefore h.isInfix
      have hrest := ih fun h => hbefore (List.infix_cons h)
      rw [List.cons_append] at hprefix ⊢
      rw [partition, if_neg hprefix, hrest]

/-- The parts before and after the last occurrence of `sep`; `str.rpartition` for a separator of one
character, less its middle part. -/
def rpartition (sep : Char) (s : List Char) : List Char × List Char :=
  ((s.rdropWhile (· != sep)).dropLast, s.rtakeWhile (· != sep))

/-- **The last separator is the one with none behind it.** -/
theorem rpartition_append {sep : Char} {after : List Char} (h : sep ∉ after)
    (before : List Char) : rpartition sep (before ++ sep :: after) = (before, after) := by
  have hreverse : (before ++ sep :: after).reverse = after.reverse ++ sep :: before.reverse := by
    simp
  have hafter : ∀ c ∈ after.reverse, (c != sep) = true := by
    intro c hc
    rw [bne_iff_ne]
    rintro rfl
    exact h (List.mem_reverse.mp hc)
  have hsep : ¬ (sep != sep) = true := by simp
  rw [rpartition, List.rdropWhile, List.rtakeWhile, hreverse, List.dropWhile_append_of_pos hafter,
    List.takeWhile_append_of_pos hafter, List.dropWhile_cons_of_neg (p := fun c => c != sep) hsep,
    List.takeWhile_cons_of_neg (p := fun c => c != sep) hsep]
  simp

/-! ## The Unicode database -/

/-- What `str.upper` and the conversions of numbers take from the Unicode database. -/
structure Unicode where
  upperChar : Char → List Char
  decimal : Char → Option ℕ
  upperChar_ne_nil : ∀ c, upperChar c ≠ []
  /-- Upper case makes no white space. -/
  upperChar_solid : ∀ c, isSpace c = false → Solid (upperChar c)
  upperChar_not_lower : ∀ c, ∀ d ∈ upperChar c, d.isLower = false
  upperChar_ascii : ∀ c, c.toNat < 128 → upperChar c = [c.toUpper]
  decimal_ascii : ∀ c, c.toNat < 128 →
    decimal c = if c.isDigit then some (c.toNat - '0'.toNat) else none

namespace Unicode

def upper (unicode : Unicode) (s : List Char) : List Char := s.flatMap unicode.upperChar

theorem upper_append (unicode : Unicode) (s t : List Char) :
    unicode.upper (s ++ t) = unicode.upper s ++ unicode.upper t :=
  List.flatMap_append

theorem upper_not_lower (unicode : Unicode) (s : List Char) :
    ∀ d ∈ unicode.upper s, d.isLower = false := by
  intro d hd
  obtain ⟨c, -, hc⟩ := List.mem_flatMap.mp hd
  exact unicode.upperChar_not_lower c d hc

/-- A stripped text does not end in white space in upper case either. -/
theorem upper_strip_last (unicode : Unicode) {s rest : List Char} {d : Char}
    (h : unicode.upper (strip s) = rest ++ [d]) : isSpace d = false := by
  rcases List.eq_nil_or_concat' (strip s) with hnil | ⟨front, c, hlast⟩
  · rw [hnil] at h
    exact absurd h.symm (List.append_ne_nil_of_right_ne_nil rest (List.cons_ne_nil d []))
  · have hsolid := unicode.upperChar_solid c (strip_last hlast)
    have hupper : unicode.upper (strip s) = unicode.upper front ++ unicode.upperChar c := by
      rw [hlast, upper_append]
      simp only [upper, List.flatMap_singleton]
    obtain ⟨hd, tl, htl⟩ := (List.eq_nil_or_concat' (unicode.upperChar c)).resolve_left
      (unicode.upperChar_ne_nil c)
    rw [hupper, htl, ← List.append_assoc] at h
    have hd := (List.append_inj' h rfl).2
    apply hsolid
    rw [htl, hd]
    exact List.mem_append_right _ List.mem_cons_self

theorem toNat_toUpper (c : Char) :
    c.toUpper.toNat = if 97 ≤ c.toNat ∧ c.toNat ≤ 122 then c.toNat - 32 else c.toNat := by
  have hle : ('a'.val ≤ c.val ∧ c.val ≤ 'z'.val) ↔ 97 ≤ c.toNat ∧ c.toNat ≤ 122 := Iff.rfl
  unfold Char.toUpper
  by_cases hlower : 'a'.val ≤ c.val ∧ c.val ≤ 'z'.val
  · rw [dif_pos hlower, if_pos (hle.mp hlower)]
    have hc := hle.mp hlower
    show (c.val + ('A'.val - 'a'.val)).toNat = c.toNat - 32
    have hshift : ('A'.val - 'a'.val).toNat = 2 ^ 32 - 32 := by decide
    have hval : c.val.toNat = c.toNat := rfl
    rw [UInt32.toNat_add, hshift, hval]
    omega
  · rw [dif_neg hlower, if_neg (fun hc => hlower (hle.mpr hc))]

theorem isLower_eq (c : Char) :
    c.isLower = (decide (97 ≤ c.toNat) && decide (c.toNat ≤ 122)) := rfl

/-- Upper case and digits of ASCII only. -/
def ascii : Unicode where
  upperChar c := [c.toUpper]
  decimal c := if c.isDigit then some (c.toNat - '0'.toNat) else none
  upperChar_ne_nil c := List.cons_ne_nil _ []
  upperChar_solid c hc d hd := by
    obtain rfl := List.mem_singleton.mp hd
    have h := toNat_toUpper c
    by_cases hlower : 97 ≤ c.toNat ∧ c.toNat ≤ 122
    · rw [if_pos hlower] at h
      simp only [isSpace, h]
      simp
      omega
    · rw [if_neg hlower] at h
      simp only [isSpace, h]
      exact hc
  upperChar_not_lower c d hd := by
    obtain rfl := List.mem_singleton.mp hd
    have h := toNat_toUpper c
    rw [isLower_eq, h]
    by_cases hlower : 97 ≤ c.toNat ∧ c.toNat ≤ 122
    · rw [if_pos hlower]
      simp
      omega
    · rw [if_neg hlower, ← Bool.decide_and]
      exact decide_eq_false hlower
  upperChar_ascii c _ := rfl
  decimal_ascii c _ := rfl

end Unicode

end Text
