import Javalette.Outbuf.Buffer
import Mathlib.Data.Nat.Find

/-!
# What `fix_stack` does to the lines

`LineForm` has the kinds of lines that the back ends write, `LineForm.result` says what is meant
to become of each, and `fixStack_iff` when that is what happens.

Two off-by-one slips limit it.  A line that has exactly `MAX_LINE_LEN` characters after the
substitution, as the other functions accept it, is left without the character that ends it or loses
its last one.  With its assertions the program also gives up on a line that has this length before.
-/

namespace Javalette.Output

/-! ## The lines -/

/-- The number that a numeral stands for: digits with an optional sign, within the range of an
`int`. -/
def Numeral (num : Text) (n : ℤ) : Prop :=
  fitsInt n = true ∧ ∃ ds : Text, ds ≠ [] ∧ (∀ c ∈ ds, c.isDigit = true) ∧
    (num = ds ∧ n = digitsVal ds ∨ num = '+' :: ds ∧ n = digitsVal ds ∨
      num = '-' :: ds ∧ n = -digitsVal ds)

/-- The kinds of lines: `@P@`, `@E@`, a line without a marker, and a line with the marker
`@FP@num@`, where `num` stands for `n`. -/
inductive LineForm
  | prologue
  | epilogue
  | plain (str : Text)
  | marker (pre num : Text) (n : ℤ) (post : Text)

/-- There is no marker in a text. -/
structure NoMarker (str : Text) : Prop where
  notP : str ≠ markP
  notE : str ≠ markE
  noFP : ∀ j, ¬markFP <+: str.drop j

namespace LineForm

/-- The text of a line. -/
def text : LineForm → Text
  | prologue => markP
  | epilogue => markE
  | plain str => str
  | marker pre num _ post => pre ++ (markFP ++ (num ++ '@' :: post))

/-- The line is what its kind says: the marker is the only one in it, and a line has no line
break. -/
def Valid : LineForm → Prop
  | prologue => True
  | epilogue => True
  | plain str => NoMarker str
  | marker pre num n post => Numeral num n ∧ '\n' ∉ pre ++ post ∧
      ∀ j, markFP <+: (marker pre num n post).text.drop j → j = pre.length

variable (ndebug : Bool) (stackSize : BitVec 32) (prologueText epilogueText : Text)
variable (format : ℤ → Text)

/-- A line with the offset in the place of the marker. -/
def substituted (pre : Text) (n : ℤ) (post : Text) : Text :=
  pre ++ (format (stackSize.toInt - n) ++ post)

/-- The lines that are meant to be in the place of a line. -/
def result : LineForm → List Text
  | prologue => textLines prologueText
  | epilogue => textLines epilogueText
  | plain str => [str]
  | marker pre _ n post => [substituted stackSize format pre n post]

/-- There is room for a line: the lines of the prologue and the epilogue are not too long, the
offset fits an `int`, and a line with a marker is shorter than `MAX_LINE_LEN` after the
substitution.  The assertion wants every other line to be shorter than `MAX_LINE_LEN`, too. -/
def Room : LineForm → Prop
  | prologue => ∀ l ∈ textLines prologueText, l.length ≤ maxLineLen
  | epilogue => ∀ l ∈ textLines epilogueText, l.length ≤ maxLineLen
  | plain str => ndebug = true ∨ str.length < maxLineLen
  | marker pre num n post =>
      (ndebug = true ∨ (marker pre num n post).text.length < maxLineLen) ∧
        fitsInt (stackSize.toInt - n) = true ∧
          (substituted stackSize format pre n post).length < maxLineLen

/-- What comes for the line brings no marker with it. -/
def Clean : LineForm → Prop
  | prologue => ∀ l ∈ textLines prologueText, NoMarker l
  | epilogue => ∀ l ∈ textLines epilogueText, NoMarker l
  | plain _ | marker _ _ _ _ => True

end LineForm

/-- What is printed for a number has a digit, and neither a line break nor the character of the
markers. -/
structure PrintsNumber (format : ℤ → Text) : Prop where
  digit : ∀ d, ∃ c ∈ format d, c.isDigit = true
  oneLine : ∀ d, '\n' ∉ format d
  noAt : ∀ d, '@' ∉ format d

lemma PrintsNumber.ne_nil {format : ℤ → Text} (h : PrintsNumber format) (d : ℤ) :
    format d ≠ [] := by
  intro hn
  obtain ⟨c, hc, -⟩ := h.digit d
  rw [hn] at hc
  cases hc

/-! ## Reading a marker -/

lemma strstr_eq_none {needle str : Text} (hne : needle ≠ [])
    (h : ∀ j, ¬needle <+: str.drop j) : strstr needle str = none := by
  induction str with
  | nil =>
      rw [strstr, if_neg]
      simpa using hne
  | cons c str ih =>
      have h₀ : ¬needle.isPrefixOf (c :: str) = true := fun hp =>
        h 0 (List.isPrefixOf_iff_prefix.mp hp)
      rw [strstr, if_neg h₀, ih fun j => h (j + 1)]
      rfl

lemma strstr_eq_some {needle str : Text} (hne : needle ≠ []) {i : ℕ}
    (hi : needle <+: str.drop i) (h : ∀ j, needle <+: str.drop j → j = i) :
    strstr needle str = some i := by
  induction str generalizing i with
  | nil =>
      rw [List.drop_nil, List.prefix_nil] at hi
      exact absurd hi hne
  | cons c str ih =>
      rw [strstr]
      by_cases h₀ : needle.isPrefixOf (c :: str) = true
      · rw [if_pos h₀, ← h 0 (List.isPrefixOf_iff_prefix.mp h₀)]
      · rw [if_neg h₀]
        cases i with
        | zero => exact absurd (List.isPrefixOf_iff_prefix.mpr hi) h₀
        | succ i =>
            rw [ih hi fun j hj => Nat.succ.inj (h (j + 1) hj)]
            rfl

lemma not_isSpace_of_isDigit {c : Char} (h : c.isDigit = true) : isSpace c = false := by
  rw [isSpace, decide_eq_false_iff_not]
  intro hmem
  simp only [List.mem_cons, List.not_mem_nil, or_false] at hmem
  rcases hmem with rfl | rfl | rfl | rfl | rfl | rfl <;> revert h <;> decide

lemma takeWhile_digits {ds : Text} (hds : ∀ c ∈ ds, c.isDigit = true) (post : Text) :
    (ds ++ '@' :: post).takeWhile Char.isDigit = ds := by
  rw [List.takeWhile_append_of_pos hds, List.takeWhile_cons_of_neg (by decide), List.append_nil]

/-- What `sscanf` reads from a marker. -/
lemma scanInt_marker {num : Text} {n : ℤ} (h : Numeral num n) (post : Text) :
    scanInt (num ++ '@' :: post) = some n := by
  obtain ⟨hfits, ds, hne, hds, hnum⟩ := h
  have htake := takeWhile_digits hds post
  have hempty : ds.isEmpty = false := by
    cases ds with
    | nil => exact absurd rfl hne
    | cons c ds => rfl
  obtain ⟨hspace, hscan⟩ : (num ++ '@' :: post).dropWhile isSpace = num ++ '@' :: post ∧
      scanSigned (num ++ '@' :: post) = some n := by
    -- digits alone, or with a minus or a plus before them
    rcases hnum with ⟨rfl, rfl⟩ | ⟨rfl, rfl⟩ | ⟨rfl, rfl⟩
    · cases num with
      | nil => exact absurd rfl hne
      | cons c ds =>
          have hc := hds c List.mem_cons_self
          refine ⟨List.dropWhile_cons_of_neg (by rw [not_isSpace_of_isDigit hc]; decide), ?_⟩
          have hminus : c ≠ '-' := by
            rintro rfl
            revert hc
            decide
          have hplus : c ≠ '+' := by
            rintro rfl
            revert hc
            decide
          rw [List.cons_append] at htake ⊢
          unfold scanSigned
          split
          · next heq => exact absurd (List.cons.inj heq).1 hminus
          · simp only [List.head?_cons, Option.some.injEq, hplus, if_false, htake, hempty,
              Bool.false_eq_true]
    · refine ⟨rfl, ?_⟩
      rw [List.cons_append]
      unfold scanSigned
      split
      · next heq => exact absurd (List.cons.inj heq).1 (by decide)
      · simp only [List.head?_cons, if_true, List.tail_cons, htake, hempty, Bool.false_eq_true,
          if_false]
    · refine ⟨rfl, ?_⟩
      rw [List.cons_append, scanSigned, htake, hempty]
      rfl
  rw [scanInt, hspace, hscan, Option.filter_some, if_pos hfits]

lemma notMem_numeral {num : Text} {n : ℤ} (h : Numeral num n) : '@' ∉ num := by
  obtain ⟨-, ds, -, hds, hnum⟩ := h
  have hmem : '@' ∉ ds := fun hm => absurd (hds _ hm) (by decide)
  rcases hnum with ⟨rfl, -⟩ | ⟨rfl, -⟩ | ⟨rfl, -⟩
  · exact hmem
  · simpa using hmem
  · simpa using hmem

/-! ## The array `line_buf2` -/

/-- The number of characters in the array. -/
def lineBuf2Size : ℕ := maxLineLen + 1

/-- A store keeps the size of the array and its last character. -/
structure KeepsLast (buf buf' : CharArray) : Prop where
  size : buf'.length = lineBuf2Size
  last : buf'.drop maxLineLen = buf.drop maxLineLen

lemma drop_splice {buf mid : CharArray} {i : ℕ} (hbuf : buf.length = lineBuf2Size)
    (hmid : i + mid.length ≤ maxLineLen) :
    KeepsLast buf (buf.take i ++ mid ++ buf.drop (i + mid.length)) := by
  rw [lineBuf2Size] at hbuf
  have htake : (buf.take i ++ mid).length = i + mid.length := by
    rw [List.length_append, List.length_take]
    omega
  refine ⟨?_, ?_⟩
  · rw [List.length_append, htake, List.length_drop, lineBuf2Size]
    omega
  · rw [List.drop_append, List.drop_eq_nil_of_le (by omega), htake, List.nil_append, List.drop_drop]
    congr 1
    omega

lemma strncpy_keeps {buf buf' : CharArray} {i n : ℕ} {src : Text} (hbuf : buf.length = lineBuf2Size)
    (hn : i + n ≤ maxLineLen) (h : strncpy buf i src n = some buf') : KeepsLast buf buf' := by
  rw [strncpy, if_pos (by rw [hbuf, lineBuf2Size]; omega)] at h
  have hlen : ((src.map some ++ List.replicate n none).take n).length = n := by simp
  have hkeep : KeepsLast buf (buf.take i ++ (src.map some ++ List.replicate n none).take n ++
      buf.drop (i + ((src.map some ++ List.replicate n none).take n).length)) :=
    drop_splice hbuf (hlen.symm ▸ hn)
  rw [hlen] at hkeep
  exact Option.some.inj h ▸ hkeep

lemma snprintf_keeps {buf : CharArray} {i n : ℕ} {text : Text} (hbuf : buf.length = lineBuf2Size)
    (hn : i + n ≤ maxLineLen) : KeepsLast buf (snprintf buf i n text) := by
  unfold snprintf
  split
  · exact ⟨hbuf, rfl⟩
  · refine drop_splice hbuf ?_
    simp only [List.length_append, List.length_map, List.length_take, List.length_singleton]
    omega

lemma cString_eq (t : Text) (rest : CharArray) : cString (t.map some ++ none :: rest) = some t := by
  rw [cString, if_pos (by simp)]
  rw [List.takeWhile_append_of_pos (by simp), List.takeWhile_cons_of_neg (by simp), List.append_nil]
  simp

/-- An array whose last character does not end a string has a shorter string in it, or none. -/
lemma length_cString_lt {buf : CharArray} {c : Char} {t : Text} (hbuf : buf.length = lineBuf2Size)
    (hlast : buf.drop maxLineLen = [some c]) (h : cString buf = some t) :
    t.length < maxLineLen := by
  rw [cString] at h
  split at h
  · next hmem =>
      obtain rfl := Option.some.inj h
      have hsplit := List.take_append_drop maxLineLen buf
      rw [hlast] at hsplit
      have hin : none ∈ buf.take maxLineLen := by
        rw [← hsplit, List.mem_append] at hmem
        simpa using hmem
      obtain ⟨l, r, hlr⟩ := List.append_of_mem hin
      have hlen : (buf.takeWhile Option.isSome).length ≤ l.length := by
        rw [← hsplit, hlr, List.append_assoc, List.takeWhile_append]
        split
        · rw [List.cons_append, List.takeWhile_cons_of_neg (by simp), List.append_nil]
        · exact (List.takeWhile_prefix _).length_le
      have hl : l.length < maxLineLen := by
        have := congrArg List.length hlr
        simp only [List.length_take, List.length_append, List.length_cons, hbuf,
          lineBuf2Size] at this
        omega
      exact ((List.length_filterMap_le _ _).trans hlen).trans_lt hl
  · cases h

/-- A string is not empty when there is a character at the beginning of the array. -/
lemma cString_ne_nil {buf : CharArray} {c : Char} {t : Text} (hfirst : buf.head? = some (some c))
    (h : cString buf = some t) : t ≠ [] := by
  obtain ⟨rest, rfl⟩ := List.head?_eq_some_iff.mp hfirst
  rw [cString] at h
  split at h
  · obtain rfl := Option.some.inj h
    simp
  · cases h

/-! ## The substitution -/

section Substitution

variable {stackSize : BitVec 32} {format : ℤ → Text} {pre num post : Text} {n : ℤ}

/-- The copies and the conversion in the order in which they are made. -/
def splice (buf : CharArray) (str : Text) (i : ℕ) (off post : Text) : Option CharArray :=
  (strncpy buf 0 str i).bind fun buf =>
    let buf := snprintf buf i (maxLineLen - i) off
    let i := i + off.length
    if maxLineLen < i then none else strncpy buf i post (maxLineLen - i)

/-- What is computed for a marker. -/
lemma substitute_marker (hnum : Numeral num n) (buf : CharArray) :
    substitute stackSize format buf (LineForm.marker pre num n post).text pre.length =
      if fitsInt (stackSize.toInt - n) = true then
        splice buf (LineForm.marker pre num n post).text pre.length
          (format (stackSize.toInt - n)) post
      else none := by
  have hdrop : (LineForm.marker pre num n post).text.drop (pre.length + 4) =
      num ++ '@' :: post := by
    rw [LineForm.text, ← List.drop_drop, List.drop_left]
    rfl
  have hat : ∀ c ∈ num, decide (c ≠ '@') = true := fun c hc => by
    simpa using ne_of_mem_of_not_mem hc (notMem_numeral hnum)
  have hskip : (num ++ '@' :: post).dropWhile (· ≠ '@') = '@' :: post := by
    rw [List.dropWhile_append_of_pos hat, List.dropWhile_cons_of_neg (by simp)]
  rw [substitute, hdrop, scanInt_marker hnum]
  simp only [Option.bind_eq_bind, Option.bind_some, hskip, List.isEmpty_cons, Bool.false_eq_true,
    if_false, List.tail_cons]
  rfl

/-- The splice, when there is room. -/
lemma splice_eq {buf : CharArray} (hbuf : buf.length = lineBuf2Size) {off : Text}
    (rest : Text) (hroom : (pre ++ (off ++ post)).length < maxLineLen) :
    ∃ tail, splice buf (pre ++ rest) pre.length off post =
      some ((pre ++ (off ++ post)).map some ++ none :: tail) := by
  rw [List.length_append, List.length_append] at hroom
  rw [lineBuf2Size] at hbuf
  -- the three copies in turn: what is before the marker, the number, and what is behind it
  have h₁ : strncpy buf 0 (pre ++ rest) pre.length =
      some (pre.map some ++ buf.drop pre.length) := by
    rw [strncpy, if_pos (by omega), List.take_zero, List.nil_append, zero_add]
    rw [List.map_append, List.append_assoc, List.take_left' (by simp)]
  have h₂ : ∃ tail, snprintf (pre.map some ++ buf.drop pre.length) pre.length
      (maxLineLen - pre.length) off = (pre ++ off).map some ++ none :: tail := by
    rw [snprintf, if_neg (by omega), List.take_left' (by simp), List.take_of_length_le (by omega)]
    exact ⟨_, by rw [List.map_append, List.append_assoc, List.append_assoc, List.append_assoc]; rfl⟩
  obtain ⟨tail₂, h₂⟩ := h₂
  have hlen : (snprintf (pre.map some ++ buf.drop pre.length) pre.length
      (maxLineLen - pre.length) off).length = maxLineLen + 1 := by
    refine (snprintf_keeps ?_ (by omega)).size
    rw [List.length_append, List.length_map, List.length_drop, lineBuf2Size]
    omega
  have h₃ : ∃ tail, strncpy ((pre ++ off).map some ++ none :: tail₂) (pre.length + off.length) post
      (maxLineLen - (pre.length + off.length)) =
        some ((pre ++ (off ++ post)).map some ++ none :: tail) := by
    obtain ⟨k, hk⟩ : ∃ k, maxLineLen - (pre.length + off.length) = post.length + (k + 1) :=
      ⟨maxLineLen - (pre.length + off.length) - post.length - 1, by omega⟩
    have hblank : (post.map some ++
        List.replicate (post.length + (k + 1)) (none : Option Char)).take
          (post.length + (k + 1)) = post.map some ++ none :: List.replicate k none := by
      rw [List.take_append, List.take_of_length_le (by simp), List.length_map,
        Nat.add_sub_cancel_left, List.take_replicate, Nat.min_eq_left (by omega),
        List.replicate_succ]
    rw [h₂] at hlen
    rw [strncpy, if_pos (by rw [hlen]; omega), hk, hblank, List.take_left' (by simp)]
    exact ⟨_, by simp only [List.map_append, List.append_assoc, List.cons_append]; rfl⟩
  obtain ⟨tail₃, h₃⟩ := h₃
  refine ⟨tail₃, ?_⟩
  rw [splice, h₁, Option.bind_some]
  dsimp only
  rw [if_neg (by omega), h₂, h₃]

/-- The splice keeps the last character of the array, and writes a first one. -/
lemma splice_keeps {buf buf' : CharArray} (hbuf : buf.length = lineBuf2Size) {off : Text}
    (hoff : off ≠ []) {rest : Text}
    (h : splice buf (pre ++ rest) pre.length off post = some buf') :
    KeepsLast buf buf' ∧ ∃ c, buf'.head? = some (some c) := by
  have hpos : 0 < off.length := List.length_pos_iff.mpr hoff
  obtain ⟨buf₁, h₁, h⟩ := Option.bind_eq_some_iff.mp h
  have hpre : pre.length < maxLineLen := by
    dsimp only at h
    split at h
    · cases h
    · omega
  have hk₁ := strncpy_keeps hbuf (by omega) h₁
  have hk₂ : KeepsLast buf₁ (snprintf buf₁ pre.length (maxLineLen - pre.length) off) :=
    snprintf_keeps hk₁.size (by omega)
  dsimp only at h
  split at h
  · cases h
  · next hfit =>
      have hk₃ := strncpy_keeps hk₂.size (by omega) h
      refine ⟨⟨hk₃.size, hk₃.last.trans (hk₂.last.trans hk₁.last)⟩, ?_⟩
      -- the first character is that of the prefix, or of the offset
      have hfirst₂ : ∃ c, (snprintf buf₁ pre.length (maxLineLen - pre.length) off).head? =
          some (some c) := by
        rw [snprintf, if_neg (by omega)]
        cases pre with
        | nil =>
            obtain ⟨c, off, rfl⟩ := List.exists_cons_of_ne_nil hoff
            exact ⟨c, rfl⟩
        | cons c pre =>
            rw [strncpy, if_pos (by rw [hbuf, lineBuf2Size]; omega)] at h₁
            refine ⟨c, ?_⟩
            rw [← Option.some.inj h₁]
            rfl
      obtain ⟨c, hc⟩ := hfirst₂
      obtain ⟨t, ht⟩ := List.head?_eq_some_iff.mp hc
      have hlen := hk₂.size
      rw [ht] at h hlen
      rw [strncpy, if_pos (by rw [hlen, lineBuf2Size]; omega)] at h
      refine ⟨c, ?_⟩
      obtain ⟨k, hk⟩ : ∃ k, pre.length + off.length = k + 1 :=
        ⟨pre.length + off.length - 1, by omega⟩
      rw [← Option.some.inj h, hk]
      rfl

end Substitution

/-! ## One line -/

lemma length_textLines_le {str l : Text} (h : l ∈ textLines str) : l.length ≤ str.length := by
  obtain ⟨k, hk⟩ : ∃ k, str.length = k := ⟨_, rfl⟩
  induction k using Nat.strong_induction_on generalizing str with
  | _ k ih =>
      subst hk
      rcases text_cases str with rfl | ⟨hn, hne⟩ | ⟨l', rest, hn, rfl⟩
      · cases h
      · rw [textLines_eq_singleton hn hne, List.mem_singleton] at h
        rw [h]
      · rw [textLines_append hn, List.mem_cons] at h
        rw [List.length_append, List.length_cons]
        rcases h with rfl | h
        · omega
        · have := ih rest.length (by rw [List.length_append, List.length_cons]; omega) h rfl
          omega

lemma textLines_ne_nil {str : Text} (h : str ≠ []) : textLines str ≠ [] := by
  rcases text_cases str with rfl | ⟨hn, hne⟩ | ⟨l, rest, hn, rfl⟩
  · exact absurd rfl h
  · simp [textLines_eq_singleton hn hne]
  · simp [textLines_append hn]

section OneLine

variable {ndebug : Bool} {stackSize : BitVec 32} {prologue epilogue : Text}
variable {format : ℤ → Text} {f : LineForm}

/-- A text that is neither `@P@` nor `@E@`. -/
lemma replacement_other {buf : CharArray} {str : Text} (hP : str ≠ markP) (hE : str ≠ markE) :
    replacement ndebug stackSize prologue epilogue format buf str =
      if ndebug || str.length < maxLineLen then
        match strstr markFP str with
        | none => some (none, buf)
        | some i => do
            let buf ← substitute stackSize format buf str i
            let str ← cString buf
            return (some str, buf)
      else none :=
  (if_neg hP).trans (if_neg hE)

/-- A line with a marker. -/
lemma replacement_marker {pre num post : Text} {n : ℤ}
    (hv : (LineForm.marker pre num n post).Valid) (buf : CharArray) :
    replacement ndebug stackSize prologue epilogue format buf
      (LineForm.marker pre num n post).text =
      if (ndebug = true ∨ (LineForm.marker pre num n post).text.length < maxLineLen) ∧
          fitsInt (stackSize.toInt - n) = true then
        (splice buf (LineForm.marker pre num n post).text pre.length
          (format (stackSize.toInt - n)) post).bind fun buf =>
            (cString buf).map fun str => (some str, buf)
      else none := by
  obtain ⟨hnum, -, honly⟩ := hv
  -- a marked line is longer than the two one-line markers
  have hlong : 5 ≤ (LineForm.marker pre num n post).text.length := by
    simp only [LineForm.text, markFP, List.length_append, List.length_cons, List.length_nil]
    omega
  have hP : (LineForm.marker pre num n post).text ≠ markP := fun h => by
    rw [h] at hlong
    exact absurd hlong (by decide)
  have hE : (LineForm.marker pre num n post).text ≠ markE := fun h => by
    rw [h] at hlong
    exact absurd hlong (by decide)
  have hfind : strstr markFP (LineForm.marker pre num n post).text = some pre.length := by
    refine strstr_eq_some (by decide) ?_ honly
    rw [LineForm.text, List.drop_left]
    exact List.prefix_append _ _
  rw [replacement_other hP hE, hfind]
  by_cases hlen : ndebug = true ∨ (LineForm.marker pre num n post).text.length < maxLineLen
  · rw [if_pos (by simpa using hlen)]
    simp only [Option.bind_eq_bind, substitute_marker hnum]
    by_cases hfits : fitsInt (stackSize.toInt - n) = true
    · rw [if_pos hfits, if_pos ⟨hlen, hfits⟩]
      congr 1
      funext buf
      cases cString buf <;> rfl
    · rw [if_neg hfits, if_neg fun h => hfits h.2]
      rfl
  · rw [if_neg (by simpa using hlen), if_neg fun h => hlen h.1]

/-- A line for which there is room becomes what it is meant to become. -/
lemma line_of_room (hf : PrintsNumber format) (hv : f.Valid)
    (hroom : f.Room ndebug stackSize prologue epilogue format) {buf : CharArray}
    (hbuf : buf.length = lineBuf2Size) : ∃ new buf',
      replacement ndebug stackSize prologue epilogue format buf f.text = some (new, buf') ∧
        newLines f.text new = some (f.result stackSize prologue epilogue format) ∧
          KeepsLast buf buf' := by
  cases f with
  | prologue => exact ⟨some prologue, buf, rfl, if_pos hroom, hbuf, rfl⟩
  | epilogue => exact ⟨some epilogue, buf, rfl, if_pos hroom, hbuf, rfl⟩
  | plain str =>
      refine ⟨none, buf, ?_, rfl, hbuf, rfl⟩
      rw [LineForm.Room] at hroom
      rw [LineForm.text, replacement_other hv.notP hv.notE, if_pos (by simpa using hroom),
        strstr_eq_none (by decide) hv.noFP]
  | marker pre num n post =>
      obtain ⟨hlen, hfits, hafter⟩ := hroom
      obtain ⟨tail, hsplice⟩ := splice_eq hbuf (markFP ++ (num ++ '@' :: post)) hafter
      have hkeep := (splice_keeps hbuf (hf.ne_nil _) hsplice).1
      refine ⟨some (pre ++ (format (stackSize.toInt - n) ++ post)), _, ?_, ?_, hkeep⟩
      · rw [replacement_marker hv, if_pos ⟨hlen, hfits⟩, LineForm.text, hsplice, Option.bind_some,
          cString_eq]
        rfl
      · -- one line in, one line out: nothing that is put together holds a line break
        have hone : '\n' ∉ pre ++ (format (stackSize.toInt - n) ++ post) := by
          have hbreak := hv.2.1
          have hoff := hf.oneLine (stackSize.toInt - n)
          simp only [List.mem_append, not_or] at hbreak ⊢
          exact ⟨hbreak.1, hoff, hbreak.2⟩
        have hne : pre ++ (format (stackSize.toInt - n) ++ post) ≠ [] := by
          simp [hf.ne_nil]
        rw [newLines, textLines_eq_singleton hone hne, if_pos]
        · rfl
        · intro l hl
          rw [List.mem_singleton] at hl
          rw [hl]
          exact hafter.le

/-- A line for which there is no room becomes something else, if the end of the array is not zero
by chance. -/
lemma line_of_no_room (hf : PrintsNumber format) (hv : f.Valid)
    (hroom : ¬f.Room ndebug stackSize prologue epilogue format) {buf : CharArray}
    (hbuf : buf.length = lineBuf2Size) {c : Char} (hlast : buf.drop maxLineLen = [some c])
    {new : Option Text} {buf' : CharArray} {ls : List Text}
    (hrep : replacement ndebug stackSize prologue epilogue format buf f.text = some (new, buf'))
    (hnew : newLines f.text new = some ls) : ∃ e l ls',
      f.result stackSize prologue epilogue format = [e] ∧ ls = l :: ls' ∧ l ≠ e := by
  cases f with
  | prologue =>
      obtain ⟨rfl, rfl⟩ := Prod.mk.inj (Option.some.inj hrep)
      rw [LineForm.Room] at hroom
      rw [newLines, if_neg hroom] at hnew
      cases hnew
  | epilogue =>
      obtain ⟨rfl, rfl⟩ := Prod.mk.inj (Option.some.inj hrep)
      rw [LineForm.Room] at hroom
      rw [newLines, if_neg hroom] at hnew
      cases hnew
  | plain str =>
      rw [LineForm.Room] at hroom
      rw [LineForm.text, replacement_other hv.notP hv.notE,
        if_neg (by simpa using hroom)] at hrep
      cases hrep
  | marker pre num n post =>
      rw [replacement_marker hv] at hrep
      split at hrep
      · next hcond =>
          obtain ⟨hlen, hfits⟩ := hcond
          -- only the length after the substitution is left of the three conditions
          have hafter : maxLineLen ≤
              (LineForm.substituted stackSize format pre n post).length := by
            by_contra hlt
            exact hroom ⟨hlen, hfits, by omega⟩
          obtain ⟨arr, hsplice, hrep⟩ := Option.bind_eq_some_iff.mp hrep
          obtain ⟨str, hstr, hrep⟩ := Option.map_eq_some_iff.mp hrep
          obtain ⟨rfl, rfl⟩ := Prod.mk.inj hrep
          obtain ⟨hkeep, c', hfirst⟩ := splice_keeps hbuf (hf.ne_nil _) hsplice
          -- the buffer ends at its last character, so what is kept is shorter than the line
          have hshort := length_cString_lt hkeep.size (hkeep.last.trans hlast) hstr
          rw [newLines] at hnew
          split at hnew
          · obtain rfl := Option.some.inj hnew
            obtain ⟨l, ls', hls⟩ :=
              List.exists_cons_of_ne_nil (textLines_ne_nil (cString_ne_nil hfirst hstr))
            refine ⟨_, l, ls', rfl, hls, ?_⟩
            rintro rfl
            have := length_textLines_le (by rw [hls]; exact List.mem_cons_self :
              LineForm.substituted stackSize format pre n post ∈ textLines str)
            omega
          · cases hnew
      · cases hrep

end OneLine

/-! ## The whole buffer -/

section Whole

variable {ndebug : Bool} {stackSize : BitVec 32} {prologue epilogue : Text} {format : ℤ → Text}

/-- With room for every line, the lines become what they are meant to become. -/
lemma fixTexts_of_room (hf : PrintsNumber format) {forms : List LineForm}
    (hv : ∀ f ∈ forms, f.Valid)
    (hroom : ∀ f ∈ forms, f.Room ndebug stackSize prologue epilogue format)
    {buf : CharArray} (hbuf : buf.length = lineBuf2Size) :
    fixTexts ndebug stackSize prologue epilogue format buf (forms.map LineForm.text) =
      some (forms.flatMap (LineForm.result stackSize prologue epilogue format)) := by
  induction forms generalizing buf with
  | nil => rfl
  | cons f forms ih =>
      obtain ⟨new, buf', hrep, hnew, hkeep⟩ :=
        line_of_room hf (hv f List.mem_cons_self) (hroom f List.mem_cons_self) hbuf
      have hrest := ih (fun g hg => hv g (List.mem_cons_of_mem f hg))
        (fun g hg => hroom g (List.mem_cons_of_mem f hg)) hkeep.size
      rw [List.map_cons, fixTexts, hrep]
      simp only [Option.bind_eq_bind, Option.bind_some, hnew, hrest, Option.pure_def,
        List.flatMap_cons]

/-- Without room for some line, they do not. -/
lemma room_of_fixTexts (hf : PrintsNumber format) {forms : List LineForm}
    (hv : ∀ f ∈ forms, f.Valid) {buf : CharArray} (hbuf : buf.length = lineBuf2Size) {c : Char}
    (hlast : buf.drop maxLineLen = [some c])
    (h : fixTexts ndebug stackSize prologue epilogue format buf (forms.map LineForm.text) =
      some (forms.flatMap (LineForm.result stackSize prologue epilogue format))) :
    ∀ f ∈ forms, f.Room ndebug stackSize prologue epilogue format := by
  induction forms generalizing buf with
  | nil => simp
  | cons f forms ih =>
      rw [List.map_cons, fixTexts, List.flatMap_cons] at h
      obtain ⟨⟨new, buf'⟩, hrep, h⟩ := Option.bind_eq_some_iff.mp h
      obtain ⟨ls, hnew, h⟩ := Option.bind_eq_some_iff.mp h
      obtain ⟨rest, hrest, h⟩ := Option.bind_eq_some_iff.mp h
      have heq := Option.some.inj h
      have hvf := hv f List.mem_cons_self
      by_cases hroom : f.Room ndebug stackSize prologue epilogue format
      · obtain ⟨new', buf'', hrep', hnew', hkeep⟩ :=
          line_of_room hf hvf hroom hbuf
        obtain ⟨rfl, rfl⟩ := Prod.mk.inj (Option.some.inj (hrep.symm.trans hrep'))
        obtain rfl := Option.some.inj (hnew.symm.trans hnew')
        have hrest' := List.append_cancel_left heq
        intro g hg
        rcases List.mem_cons.mp hg with rfl | hg
        · exact hroom
        · exact ih (fun g hg => hv g (List.mem_cons_of_mem f hg)) hkeep.size
            (hkeep.last.trans hlast) (hrest' ▸ hrest) g hg
      · obtain ⟨e, l, ls', hres, rfl, hne⟩ := line_of_no_room hf hvf hroom hbuf hlast hrep hnew
        rw [hres] at heq
        exact absurd (List.cons.inj heq).1 hne

lemma not_isDigit_of_mem (c : Char) (h : c ∈ markP ∨ c ∈ markE ∨ c ∈ markFP) :
    c.isDigit = false := by
  have hmem : c ∈ ['@', 'P', 'E', 'F'] := by
    simp only [markP, markE, markFP, List.mem_cons, List.not_mem_nil, or_false] at h ⊢
    tauto
  revert c
  simp only [List.mem_cons, List.not_mem_nil, or_false]
  rintro c - (rfl | rfl | rfl | rfl) <;> decide

/-- No marker is left in a line, and none comes about where the offset meets the rest. -/
lemma noMarker_substituted (hf : PrintsNumber format) {pre num post : Text} {n : ℤ}
    (hv : (LineForm.marker pre num n post).Valid) :
    NoMarker (LineForm.substituted stackSize format pre n post) := by
  obtain ⟨d, hd, hdigit⟩ := hf.digit (stackSize.toInt - n)
  have hat := hf.noAt (stackSize.toInt - n)
  rw [LineForm.substituted]
  set off := format (stackSize.toInt - n)
  have hmem : d ∈ pre ++ (off ++ post) := by simp [hd]
  refine ⟨fun h => ?_, fun h => ?_, fun j hj => ?_⟩
  · rw [h] at hmem
    exact absurd hdigit (by simp [not_isDigit_of_mem d (.inl hmem)])
  · rw [h] at hmem
    exact absurd hdigit (by simp [not_isDigit_of_mem d (.inr (.inl hmem))])
  · have hwhole : ∀ k < 4, (pre ++ (off ++ post))[j + k]? = markFP[k]? := by
      intro k hk
      obtain ⟨r, hr⟩ := hj
      rw [← List.getElem?_drop, ← hr, List.getElem?_append_left (by exact hk)]
    rcases Nat.lt_or_ge j pre.length with hpre | hpre
    · rcases Nat.lt_or_ge pre.length (j + 4) with hend | hend
      · rcases Nat.lt_or_ge (j + 3) (pre.length + off.length) with hoff | hoff
        · -- the marker ends in the offset
          have hlast := hwhole 3 (by decide)
          rw [List.getElem?_append_right (by omega), List.getElem?_append_left (by omega)] at hlast
          exact hat (List.mem_of_getElem? hlast)
        · -- the offset is part of the marker
          obtain ⟨m, hm, rfl⟩ := List.getElem_of_mem hd
          have hin := hwhole (pre.length + m - j) (by omega)
          rw [List.getElem?_append_right (by omega), List.getElem?_append_left (by omega),
            show j + (pre.length + m - j) - pre.length = m by omega, List.getElem?_eq_getElem hm]
            at hin
          have hmark := List.mem_of_getElem? hin.symm
          exact absurd hdigit (by simp [not_isDigit_of_mem _ (.inr (.inr hmark))])
      · -- the marker is before the offset
        have hjpre : markFP <+: pre.drop j := by
          rw [List.drop_append_of_le_length (by omega)] at hj
          refine List.prefix_of_prefix_length_le hj (List.prefix_append _ _) ?_
          rw [List.length_drop]
          show 4 ≤ _
          omega
        have hjtext : markFP <+: (LineForm.marker pre num n post).text.drop j := by
          rw [LineForm.text, List.drop_append_of_le_length (by omega)]
          exact hjpre.trans (List.prefix_append _ _)
        have := hv.2.2 j hjtext
        omega
    · rcases Nat.lt_or_ge j (pre.length + off.length) with hoff | hoff
      · -- the marker begins in the offset
        have hfirst := hwhole 0 (by decide)
        rw [List.getElem?_append_right (by omega), List.getElem?_append_left (by omega)] at hfirst
        exact hat (List.mem_of_getElem? hfirst)
      · -- the marker is after the offset
        obtain ⟨k, rfl⟩ : ∃ k, j = pre.length + (off.length + k) :=
          ⟨j - pre.length - off.length, by omega⟩
        rw [← List.drop_drop, List.drop_left, ← List.drop_drop, List.drop_left] at hj
        have hjtext : markFP <+: (LineForm.marker pre num n post).text.drop
            (pre.length + (markFP.length + (num.length + (k + 1)))) := by
          rw [LineForm.text, ← List.drop_drop, List.drop_left, ← List.drop_drop, List.drop_left,
            ← List.drop_drop, List.drop_left]
          exact hj
        have := hv.2.2 _ hjtext
        omega

/-- What becomes of the lines has no marker, unless the prologue or the epilogue has. -/
lemma noMarker_result (hf : PrintsNumber format) {f : LineForm} (hv : f.Valid)
    (hclean : f.Clean prologue epilogue) {l : Text}
    (hl : l ∈ f.result stackSize prologue epilogue format) : NoMarker l := by
  cases f with
  | prologue => exact hclean l hl
  | epilogue => exact hclean l hl
  | plain str =>
      obtain rfl := List.mem_singleton.mp hl
      exact hv
  | marker pre num n post =>
      obtain rfl := List.mem_singleton.mp hl
      exact noMarker_substituted hf hv

variable {α : Type} [DecidableEq α] {malloc : (α → Option (Line α)) → α}

/-- `fix_stack` works on the buffer with the lines `xs`, which are of the given forms: whatever is
in `line_buf2` at first, it ends with a well-linked buffer of the lines that are meant, and without
markers. -/
def Fixed (ndebug : Bool) (stackSize : BitVec 32) (prologue epilogue : Text) (format : ℤ → Text)
    (malloc : (α → Option (Line α)) → α) (forms : List LineForm) (buf : Outbuf α) : Prop :=
  ∃ N, ∀ fuel ≥ N, ∀ chars : CharArray, chars.length = lineBuf2Size → ∃ buf' ys,
    fixStack ndebug stackSize prologue epilogue format malloc fuel buf chars = some buf' ∧
      Holds buf' ys ∧
      ys.map Prod.snd = forms.flatMap (LineForm.result stackSize prologue epilogue format) ∧
      ∀ y ∈ ys, NoMarker y.2

section Forms

variable {forms : List LineForm} {buf : Outbuf α} {xs : List (α × Text)}

lemma fixed_of_room (hm : Fresh malloc) (hf : PrintsNumber format) (hv : ∀ f ∈ forms, f.Valid)
    (h : Holds buf xs) (hxs : xs.map Prod.snd = forms.map LineForm.text)
    (hroom : ∀ f ∈ forms, f.Room ndebug stackSize prologue epilogue format)
    (hclean : ∀ f ∈ forms, f.Clean prologue epilogue) :
    Fixed ndebug stackSize prologue epilogue format malloc forms buf := by
  refine ⟨xs.length + 1, fun fuel hfuel chars hchars => ?_⟩
  have htexts := fixTexts_of_room hf hv hroom hchars
  rw [← hxs] at htexts
  obtain ⟨buf', ys, heq, h', hys⟩ :=
    (fixStack_spec ndebug stackSize prologue epilogue format hm h hfuel chars).1 _ htexts
  refine ⟨buf', ys, heq, h', hys, fun y hy => ?_⟩
  have hmem : y.2 ∈ forms.flatMap (LineForm.result stackSize prologue epilogue format) :=
    hys ▸ List.mem_map.mpr ⟨y, hy, rfl⟩
  obtain ⟨f, hfm, hl⟩ := List.mem_flatMap.mp hmem
  exact noMarker_result hf (hv f hfm) (hclean f hfm) hl

lemma Fixed.room (hm : Fresh malloc) (hf : PrintsNumber format) (hv : ∀ f ∈ forms, f.Valid)
    (h : Holds buf xs) (hxs : xs.map Prod.snd = forms.map LineForm.text)
    (hfixed : Fixed ndebug stackSize prologue epilogue format malloc forms buf) :
    ∀ f ∈ forms, f.Room ndebug stackSize prologue epilogue format := by
  obtain ⟨N, hN⟩ := hfixed
  have hchars : (List.replicate lineBuf2Size (some 'x')).length = lineBuf2Size := by simp
  obtain ⟨buf', ys, heq, h', hys, -⟩ := hN (N + (xs.length + 1)) (by omega) _ hchars
  have hfuel : xs.length < N + (xs.length + 1) := by omega
  obtain ⟨hsome, hnone⟩ := fixStack_spec ndebug stackSize prologue epilogue format hm h hfuel
    (List.replicate lineBuf2Size (some 'x'))
  rw [hxs] at hsome hnone
  cases htexts : fixTexts ndebug stackSize prologue epilogue format
      (List.replicate lineBuf2Size (some 'x')) (forms.map LineForm.text) with
  | none =>
      rw [hnone htexts] at heq
      cases heq
  | some ls =>
      obtain ⟨buf'', zs, heq', h'', hzs⟩ := hsome ls htexts
      obtain rfl := Option.some.inj (heq.symm.trans heq')
      obtain rfl := h'.unique h''
      rw [← hzs, hys] at htexts
      exact room_of_fixTexts hf hv hchars (c := 'x') (by rw [List.drop_replicate]; rfl) htexts

lemma Fixed.clean (hfixed : Fixed ndebug stackSize prologue epilogue format malloc forms buf) :
    ∀ f ∈ forms, f.Clean prologue epilogue := by
  obtain ⟨N, hN⟩ := hfixed
  obtain ⟨-, ys, -, -, hys, hno⟩ := hN N (le_refl N) (List.replicate lineBuf2Size none) (by simp)
  have hlines : ∀ f ∈ forms, ∀ l ∈ f.result stackSize prologue epilogue format, NoMarker l := by
    intro f hfm l hl
    have hmem : l ∈ ys.map Prod.snd := hys ▸ List.mem_flatMap.mpr ⟨f, hfm, hl⟩
    obtain ⟨y, hy, rfl⟩ := List.mem_map.mp hmem
    exact hno y hy
  intro f hfm
  cases f with
  | prologue => exact hlines _ hfm
  | epilogue => exact hlines _ hfm
  | plain _ => trivial
  | marker _ _ _ _ => trivial

/-- **`fix_stack`** replaces exactly the markers, if and only if there is room for every line, and
no marker comes with the prologue or the epilogue. -/
theorem fixStack_iff (hm : Fresh malloc) (hf : PrintsNumber format) (hv : ∀ f ∈ forms, f.Valid)
    (h : Holds buf xs) (hxs : xs.map Prod.snd = forms.map LineForm.text) :
    Fixed ndebug stackSize prologue epilogue format malloc forms buf ↔
      ∀ f ∈ forms,
        f.Room ndebug stackSize prologue epilogue format ∧ f.Clean prologue epilogue := by
  constructor
  · intro hfixed f hfm
    exact ⟨hfixed.room hm hf hv h hxs f hfm, hfixed.clean f hfm⟩
  · intro hall
    exact fixed_of_room hm hf hv h hxs (fun f hfm => (hall f hfm).1) fun f hfm => (hall f hfm).2

end Forms

end Whole

/-! ## A line that has the full length -/

/-- The conversion `%d`. -/
def printInt (d : ℤ) : Text :=
  if d < 0 then '-' :: Nat.toDigits 10 d.natAbs else Nat.toDigits 10 d.natAbs

lemma printsNumber_printInt : PrintsNumber printInt := by
  have hdigit : ∀ d : ℤ, ∀ c ∈ Nat.toDigits 10 d.natAbs, c.isDigit = true := fun d c hc =>
    Nat.isDigit_of_mem_toDigits (by decide) (by decide) hc
  have hnot : ∀ (d : ℤ) (c : Char), c ≠ '-' → c.isDigit = false → c ∉ printInt d := by
    intro d c hminus hc hmem
    have hmem' : c ∈ Nat.toDigits 10 d.natAbs := by
      unfold printInt at hmem
      split at hmem
      · exact (List.mem_cons.mp hmem).resolve_left hminus
      · exact hmem
    simp [hdigit d c hmem'] at hc
  refine ⟨fun d => ?_, fun d => hnot d _ (by decide) (by decide),
    fun d => hnot d _ (by decide) (by decide)⟩
  have hne : Nat.toDigits 10 d.natAbs ≠ [] := Nat.toDigits_ne_nil
  obtain ⟨c, ds, hds⟩ := List.exists_cons_of_ne_nil hne
  refine ⟨c, ?_, hdigit d c (by simp [hds])⟩
  unfold printInt
  split <;> simp [hds]

/-- The numeral of the lines below. -/
def hundred : Text := ['1', '0', '0']

/-- The text of such a line after its beginning. -/
def hundredRest : Text := markFP ++ (hundred ++ ['@'])

lemma numeral_hundred : Numeral hundred 100 := by
  have hdigits : hundred.all Char.isDigit = true := by decide
  exact ⟨by decide, hundred, by decide, List.all_eq_true.mp hdigits, .inl ⟨rfl, by decide⟩⟩

lemma marker_hundred_valid {pre : Text} (hline : '\n' ∉ pre) (hat : '@' ∉ pre) :
    (LineForm.marker pre hundred 100 []).Valid := by
  refine ⟨numeral_hundred, fun hmem => ?_, fun j hj => ?_⟩
  · rw [List.append_nil] at hmem
    exact hline hmem
  · have hj' : markFP <+: (pre ++ hundredRest).drop j := hj
    rcases Nat.lt_or_ge j pre.length with hlt | hge
    · -- it would begin with another character
      rw [List.drop_append_of_le_length hlt.le, List.drop_eq_getElem_cons hlt, List.cons_append,
        markFP, List.cons_prefix_cons] at hj'
      exact absurd (hj'.1 ▸ List.getElem_mem hlt) hat
    · obtain ⟨k, rfl⟩ : ∃ k, j = pre.length + k := ⟨j - pre.length, by omega⟩
      rw [← List.drop_drop, List.drop_left] at hj'
      rcases Nat.lt_or_ge k 8 with hk | hk
      · have hall : ∀ k < 8, markFP <+: hundredRest.drop k → k = 0 := by decide
        rw [hall k hk hj', add_zero]
      · rw [List.drop_eq_nil_of_le hk, List.prefix_nil] at hj'
        exact absurd hj' (by decide)

/-- A buffer with one line. -/
def oneLine (str : Text) : Outbuf ℕ where
  heap a := if a = 0 then some ⟨none, none, str⟩ else none
  head := some 0
  tail := some 0

lemma holds_oneLine (str : Text) : Holds (oneLine str) [(0, str)] := by
  refine ⟨List.nodup_singleton _, ⟨rfl, trivial⟩, rfl, rfl, fun a ha => ?_⟩
  by_contra hn
  have ha₀ : a ≠ 0 := fun h₀ => hn (h₀ ▸ List.mem_singleton_self _)
  exact ha (if_neg ha₀)

open Classical in
/-- The least free address. -/
noncomputable def leastFree (heap : ℕ → Option (Line ℕ)) : ℕ :=
  if h : ∃ a, heap a = none then Nat.find h else 0

lemma fresh_leastFree : Fresh leastFree := by
  intro heap hfin
  obtain ⟨a, ha⟩ := hfin.exists_notMem
  have hex : ∃ a, heap a = none := ⟨a, not_not.mp ha⟩
  rw [leastFree, dif_pos hex]
  exact Nat.find_spec hex

/-- A line of `511` characters, and of `512` when the offset has nine digits. -/
def fullLine : LineForm := .marker (List.replicate 503 'a') hundred 100 []

lemma length_fullLine : fullLine.text.length = 511 := by
  rw [fullLine, LineForm.text, List.length_append, List.length_replicate]
  rfl

lemma fullLine_valid : fullLine.Valid := by
  apply marker_hundred_valid <;> intro hmem <;>
    exact absurd (List.eq_of_mem_replicate hmem) (by decide)

lemma length_fullLine_substituted : (LineForm.substituted 100000100#32 printInt
    (List.replicate 503 'a') 100 []).length = maxLineLen := by
  have hdigits : printInt 100000000 = '1' :: List.replicate 8 '0' := by decide +kernel
  have hoff : (100000100#32).toInt - 100 = 100000000 := by decide
  rw [LineForm.substituted, hoff, hdigits, List.length_append, List.length_replicate]
  rfl

/-- **A line that gets the full length** is spoilt, with and without the assertions. -/
theorem fixStack_full_line_fails : fullLine.Valid ∧ fullLine.text.length < maxLineLen ∧
    (∀ l ∈ fullLine.result 100000100#32 [] [] printInt, l.length ≤ maxLineLen) ∧
    Holds (oneLine fullLine.text) [(0, fullLine.text)] ∧
    ∀ ndebug, ¬Fixed ndebug 100000100#32 [] [] printInt leastFree [fullLine]
      (oneLine fullLine.text) := by
  have hvalid : ∀ f ∈ [fullLine], f.Valid := by
    intro f hf
    rw [List.mem_singleton.mp hf]
    exact fullLine_valid
  refine ⟨fullLine_valid, ?_, fun l hl => ?_, holds_oneLine _, fun ndebug hfixed => ?_⟩
  · rw [length_fullLine]
    decide
  · rw [List.mem_singleton.mp hl, length_fullLine_substituted]
  · have hroom := hfixed.room fresh_leastFree printsNumber_printInt hvalid (holds_oneLine _) rfl
      fullLine List.mem_cons_self
    obtain ⟨-, -, hlt⟩ := hroom
    rw [length_fullLine_substituted] at hlt
    exact absurd hlt (lt_irrefl _)

/-- The marked line of the buffer below. -/
def smallLine : LineForm := .marker ['p', 'u', 's', 'h', ' '] hundred 100 []

/-- The lines of a function with one instruction. -/
def smallForms : List LineForm := [.prologue, smallLine, .epilogue]

/-- A buffer with these lines. -/
def smallBuffer : Outbuf ℕ where
  heap
    | 0 => some ⟨none, some 1, markP⟩
    | 1 => some ⟨some 0, some 2, smallLine.text⟩
    | 2 => some ⟨some 1, none, markE⟩
    | _ => none
  head := some 0
  tail := some 2

lemma holds_smallBuffer : Holds smallBuffer [(0, markP), (1, smallLine.text), (2, markE)] := by
  refine ⟨by decide, ⟨rfl, rfl, rfl, trivial⟩, rfl, rfl, fun a ha => ?_⟩
  match a, ha with
  | 0, _ => simp
  | 1, _ => simp
  | 2, _ => simp
  | a + 3, ha => exact absurd rfl ha

lemma noMarker_of_notMem {str : Text} (h : '@' ∉ str) : NoMarker str := by
  refine ⟨?_, ?_, fun j hj => h ?_⟩
  · rintro rfl
    exact h (by decide)
  · rintro rfl
    exact h (by decide)
  · obtain ⟨r, hr⟩ := hj
    have hmem : '@' ∈ str.drop j := by
      rw [← hr]
      exact List.mem_cons_self
    exact List.mem_of_mem_drop hmem

lemma smallForms_room (ndebug : Bool) : ∀ f ∈ smallForms,
    f.Room ndebug 8#32 ['a', '\n', 'b'] [] printInt ∧ f.Clean ['a', '\n', 'b'] [] := by
  have hlines : textLines ['a', '\n', 'b'] = [['a'], ['b']] := by decide
  intro f hf
  simp only [smallForms, List.mem_cons, List.not_mem_nil, or_false] at hf
  rcases hf with rfl | rfl | rfl
  · rw [LineForm.Room, LineForm.Clean, hlines]
    refine ⟨by decide, fun l hl => noMarker_of_notMem ?_⟩
    revert l
    decide
  · exact ⟨⟨.inr (by decide), by decide, by decide⟩, trivial⟩
  · have hnone : textLines [] = [] := by decide
    rw [LineForm.Room, LineForm.Clean, hnone]
    exact ⟨by decide, fun l hl => absurd hl List.not_mem_nil⟩

/-- The prologue has two lines here, and the epilogue none. -/
theorem fixStack_iff_small :
    Fixed true 8#32 ['a', '\n', 'b'] [] printInt leastFree smallForms smallBuffer ∧
      Fixed false 8#32 ['a', '\n', 'b'] [] printInt leastFree smallForms smallBuffer := by
  have hvalid : ∀ f ∈ smallForms, f.Valid := by
    have hline : smallLine.Valid := marker_hundred_valid (by decide) (by decide)
    simpa [smallForms, LineForm.Valid] using hline
  constructor
  · exact (fixStack_iff fresh_leastFree printsNumber_printInt hvalid holds_smallBuffer rfl).mpr
      (smallForms_room true)
  · exact (fixStack_iff fresh_leastFree printsNumber_printInt hvalid holds_smallBuffer rfl).mpr
      (smallForms_room false)

end Javalette.Output
