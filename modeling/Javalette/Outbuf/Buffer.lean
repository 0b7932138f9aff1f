import Javalette.Library.DoublyLinked
import Javalette.Outbuf.Model

/-!
# The operations on the buffer

`Holds` says that the heap has the lines of a list, and nothing else.  Each operation on the
buffer is an operation on the list, at the place of the line it is given, whatever comes before
and after; the loop of `fix_stack` computes what `fixTexts` computes from the texts alone.
-/

namespace Javalette.Output

open DoublyLinked

variable {α : Type}

/-- What is in the cell of a line. -/
def lineCell (p : Option α) (x : α × Text) (q : Option α) : Line α := ⟨p, q, x.2⟩

/-- The buffer holds the lines, well linked, and nothing else. -/
structure Holds (buf : Outbuf α) (xs : List (α × Text)) : Prop where
  nodup : (xs.map Prod.fst).Nodup
  linked : Linked Prod.fst lineCell buf.heap none xs none
  head : buf.head = firstAddr Prod.fst xs none
  tail : buf.tail = lastAddr Prod.fst none xs
  inUse : ∀ a, buf.heap a ≠ none → a ∈ xs.map Prod.fst

/-- `malloc` finds a cell that is not in use. -/
def Fresh (malloc : (α → Option (Line α)) → α) : Prop :=
  ∀ heap : α → Option (Line α), {a | heap a ≠ none}.Finite → heap (malloc heap) = none

section Places

variable {buf : Outbuf α} {pre post : List (α × Text)} {a : α} {str : Text}

lemma Holds.cell (h : Holds buf (pre ++ (a, str) :: post)) :
    buf.heap a = some ⟨lastAddr Prod.fst none pre, firstAddr Prod.fst post none, str⟩ :=
  (linked_append.mp h.linked).2.1

/-- The cells of the lines are in use. -/
lemma Holds.ne_none {xs : List (α × Text)} (h : Holds buf xs) (ha : a ∈ xs.map Prod.fst) :
    buf.heap a ≠ none := by
  obtain ⟨x, hx, rfl⟩ := List.mem_map.mp ha
  obtain ⟨l, r, rfl⟩ := List.append_of_mem hx
  rw [h.cell]
  exact Option.some_ne_none _

lemma Holds.malloc_notMem {xs : List (α × Text)} (h : Holds buf xs)
    {malloc : (α → Option (Line α)) → α} (hm : Fresh malloc) :
    malloc buf.heap ∉ xs.map Prod.fst := by
  intro hmem
  refine h.ne_none hmem (hm _ ?_)
  exact (List.finite_toSet (xs.map Prod.fst)).subset fun a ha => h.inUse a ha

/-- Before and after a place there are different cells. -/
lemma Holds.disjoint (h : Holds buf (pre ++ post)) :
    (pre.map Prod.fst).Nodup ∧ (post.map Prod.fst).Nodup ∧
      ∀ a ∈ pre.map Prod.fst, a ∉ post.map Prod.fst := by
  have hnd := h.nodup
  rw [List.map_append, List.nodup_append] at hnd
  exact ⟨hnd.1, hnd.2.1, fun a ha hb => hnd.2.2 a ha a hb rfl⟩

/-- The lines are determined by the buffer. -/
lemma Holds.unique {xs ys : List (α × Text)} (h : Holds buf xs) (h' : Holds buf ys) : xs = ys := by
  refine h.linked.unique ?_ h'.linked (h.head.symm.trans h'.head)
  intro x y p q p' q' haddr hcell
  obtain ⟨-, hq, hstr⟩ := Line.mk.inj hcell
  exact ⟨Prod.ext haddr hstr, hq⟩

end Places

section Operations

variable [DecidableEq α] {malloc : (α → Option (Line α)) → α} {buf : Outbuf α}
  {pre post : List (α × Text)}

/-- The first part of an insertion: the new line `nl` follows on the lines before it. -/
lemma linkAfter_spec (h : Holds buf (pre ++ post)) {nl : α} (hnl : nl ∉ (pre ++ post).map Prod.fst)
    (str : Text) : ∃ heap, linkAfter buf nl str (lastAddr Prod.fst none pre) =
        some (⟨heap, firstAddr Prod.fst (pre ++ [(nl, str)]) none, buf.tail⟩,
          firstAddr Prod.fst post none) ∧
      Linked Prod.fst lineCell heap none (pre ++ [(nl, str)]) (firstAddr Prod.fst post none) ∧
      Linked Prod.fst lineCell heap (lastAddr Prod.fst none pre) post none ∧
      ∀ a, heap a ≠ none → a ∈ (pre ++ (nl, str) :: post).map Prod.fst := by
  rw [List.map_append, List.mem_append, not_or] at hnl
  obtain ⟨hpre, hpost⟩ := linked_append.mp h.linked
  have huse : ∀ (heap : α → Option (Line α)),
      (∀ a, heap a ≠ none → a = nl ∨ a ∈ (pre ++ post).map Prod.fst) →
        ∀ a, heap a ≠ none → a ∈ (pre ++ (nl, str) :: post).map Prod.fst := by
    intro heap hheap a ha
    have hmem := hheap a ha
    simp only [List.map_append, List.map_cons, List.mem_append, List.mem_cons] at hmem ⊢
    tauto
  have hnew : ∀ (l : Line α) a, Function.update buf.heap nl (some l) a ≠ none →
      a = nl ∨ a ∈ (pre ++ post).map Prod.fst := by
    intro l a ha
    by_cases hnl : a = nl
    · exact .inl hnl
    · rw [Function.update_of_ne hnl] at ha
      exact .inr (h.inUse a ha)
  -- the new line becomes the head, or it goes behind the last of the lines before it
  rcases List.eq_nil_or_concat pre with rfl | ⟨l, y, rfl⟩
  · refine ⟨Function.update buf.heap nl (some ⟨none, firstAddr Prod.fst post none, str⟩), ?_,
      ⟨Function.update_self .., trivial⟩, hpost.update hnl.2 _, huse _ (hnew _)⟩
    rw [lastAddr_nil, linkAfter, h.head]
    rfl
  · rw [List.concat_eq_append] at *
    have hy : y.1 ∉ l.map Prod.fst ∧ y.1 ∉ post.map Prod.fst := by
      obtain ⟨hnd, -, hdisj⟩ := h.disjoint
      rw [List.map_append, List.nodup_append] at hnd
      exact ⟨fun hmem => hnd.2.2 _ hmem _ (by simp) rfl, hdisj y.1 (by simp)⟩
    have hcell : buf.heap y.1 =
        some ⟨lastAddr Prod.fst none l, firstAddr Prod.fst post none, y.2⟩ := by
      have h' : Holds buf (l ++ y :: post) := by simpa using h
      exact h'.cell
    have hne : y.1 ≠ nl := fun he => hnl.1 (by simp [← he])
    refine ⟨_, ?_, linked_append.mpr ⟨(hpre.update hnl.1
      (some ⟨some y.1, firstAddr Prod.fst post none, str⟩)).setLast hy.1 (some nl), ?_, trivial⟩,
      (hpost.update hnl.2 _).update hy.2 _, huse _ fun a ha => ?_⟩
    · have hhead : buf.head = firstAddr Prod.fst (l ++ [y] ++ [(nl, str)]) none := by
        rw [h.head]
        cases l <;> rfl
      rw [lastAddr_concat, linkAfter, hcell, Option.map_some, ← hhead]
      rfl
    · rw [Function.update_of_ne (Ne.symm hne), Function.update_self, lastAddr_concat]
      rfl
    · by_cases hay : a = y.1
      · exact .inr (by simp [hay])
      · rw [Function.update_of_ne hay] at ha
        exact hnew _ a ha

/-- **`do_insertln`** puts a line after the lines that end with the given one. -/
theorem doInsertln_spec (hm : Fresh malloc) (h : Holds buf (pre ++ post)) (str : Text) :
    ∃ a buf', doInsertln malloc buf (lastAddr Prod.fst none pre) str = some buf' ∧
      Holds buf' (pre ++ (a, str) :: post) := by
  have hnl := h.malloc_notMem hm
  set nl := malloc buf.heap with hnl_def
  obtain ⟨heap, heq, hpre, hpost, huse⟩ := linkAfter_spec h hnl str
  have hnodup : ((pre ++ (nl, str) :: post).map Prod.fst).Nodup := by
    rw [List.map_append, List.map_cons, List.nodup_middle, List.nodup_cons, ← List.map_append]
    exact ⟨hnl, h.nodup⟩
  have htail : (if lastAddr Prod.fst none pre = buf.tail then some nl else buf.tail) =
      lastAddr Prod.fst none (pre ++ (nl, str) :: post) := by
    rw [h.tail, lastAddr_append, lastAddr_append]
    cases post with
    | nil => exact if_pos rfl
    | cons z r =>
        refine if_neg fun he => ?_
        -- the last line would be before and after the place
        rcases List.eq_nil_or_concat (z :: r) with hz | ⟨r', y, hy⟩
        · cases hz
        · rw [List.concat_eq_append] at hy
          rw [hy, lastAddr_concat] at he
          have hmem : y.1 ∈ (z :: r).map Prod.fst := by rw [hy]; simp
          rcases List.eq_nil_or_concat pre with rfl | ⟨l, x, rfl⟩
          · cases he
          · rw [List.concat_eq_append, lastAddr_concat] at he
            exact h.disjoint.2.2 y.1 (by rw [← Option.some.inj he]; simp) hmem
  have hhead : firstAddr Prod.fst (pre ++ [(nl, str)]) none =
      firstAddr Prod.fst (pre ++ (nl, str) :: post) none := by cases pre <;> rfl
  have hcompute : ∀ heap', modifyLine heap (fun n => { n with prev := some nl })
      (firstAddr Prod.fst post none) = some heap' →
      doInsertln malloc buf (lastAddr Prod.fst none pre) str =
        some ⟨heap', firstAddr Prod.fst (pre ++ (nl, str) :: post) none,
          lastAddr Prod.fst none (pre ++ (nl, str) :: post)⟩ := by
    intro heap' heap_eq
    rw [doInsertln, ← hnl_def]
    simp only [heq, Option.bind_eq_bind, Option.bind_some, heap_eq, htail, hhead]
    rfl
  have hsplit : pre ++ (nl, str) :: post = (pre ++ [(nl, str)]) ++ post := by simp
  cases post with
  | nil => exact ⟨nl, _, hcompute heap rfl, hnodup, hpre, rfl, rfl, huse⟩
  | cons z r =>
      have hz : z.1 ∉ r.map Prod.fst ∧ z.1 ∉ (pre ++ [(nl, str)]).map Prod.fst := by
        rw [hsplit, List.map_append, List.nodup_append] at hnodup
        exact ⟨(List.nodup_cons.mp hnodup.2.1).1,
          fun hmem => hnodup.2.2 _ hmem _ (by simp) rfl⟩
      have heap_eq : modifyLine heap (fun n => { n with prev := some nl })
          (firstAddr Prod.fst (z :: r) none) =
            some (Function.update heap z.1
              (some (lineCell (some nl) z (firstAddr Prod.fst r none)))) := by
        rw [firstAddr_cons, modifyLine, hpost.1]
        rfl
      refine ⟨nl, _, hcompute _ heap_eq, hnodup, ?_, rfl, rfl, fun a ha => ?_⟩
      · rw [hsplit, linked_append]
        refine ⟨hpre.update hz.2 _, ?_⟩
        rw [lastAddr_concat]
        exact hpost.setFirst hz.1 (some nl)
      · by_cases haz : a = z.1
        · simp [haz]
        · dsimp only at ha
          rw [Function.update_of_ne haz] at ha
          exact huse a ha

/-- **`removeln`** takes a line out. -/
theorem removeln_spec {a : α} {str : Text} (h : Holds buf (pre ++ (a, str) :: post)) :
    ∃ buf', removeln buf a = some buf' ∧ Holds buf' (pre ++ post) := by
  have hnd := h.nodup
  rw [List.map_append, List.map_cons, List.nodup_middle, List.nodup_cons, ← List.map_append] at hnd
  have ha : a ∉ pre.map Prod.fst ∧ a ∉ post.map Prod.fst := by
    rw [← not_or, ← List.mem_append, ← List.map_append]
    exact hnd.1
  obtain ⟨hpre, -, hpost⟩ := linked_append.mp h.linked
  have hdisj := List.nodup_append.mp (List.map_append ▸ hnd.2)
  -- the line before
  obtain ⟨heap₁, heq₁, hpre₁, hpost₁, huse₁⟩ : ∃ heap₁,
      modifyLine buf.heap (fun p => { p with next := firstAddr Prod.fst post none })
        (lastAddr Prod.fst none pre) = some heap₁ ∧
      Linked Prod.fst lineCell heap₁ none pre (firstAddr Prod.fst post none) ∧
      Linked Prod.fst lineCell heap₁ (some a) post none ∧
      ∀ b, heap₁ b ≠ none → b ∈ (pre ++ (a, str) :: post).map Prod.fst := by
    rcases List.eq_nil_or_concat pre with rfl | ⟨l, y, rfl⟩
    · exact ⟨buf.heap, rfl, trivial, hpost, h.inUse⟩
    · rw [List.concat_eq_append] at *
      have hl : y.1 ∉ l.map Prod.fst := by
        have hnd' := hdisj.1
        rw [List.map_append, List.nodup_append] at hnd'
        exact fun hmem => hnd'.2.2 _ hmem _ (by simp) rfl
      have hr : y.1 ∉ post.map Prod.fst := fun hmem => hdisj.2.2 y.1 (by simp) _ hmem rfl
      have hcell : buf.heap y.1 = some ⟨lastAddr Prod.fst none l, some a, y.2⟩ := by
        have h' : Holds buf (l ++ y :: (a, str) :: post) := by simpa using h
        exact h'.cell
      refine ⟨_, by rw [lastAddr_concat, modifyLine, hcell]; rfl,
        hpre.setLast hl (firstAddr Prod.fst post none), hpost.update hr _, fun b hb => ?_⟩
      by_cases hby : b = y.1
      · simp [hby]
      · rw [Function.update_of_ne hby] at hb
        exact h.inUse b hb
  -- the line after
  obtain ⟨heap₂, heq₂, hpre₂, hpost₂, huse₂⟩ : ∃ heap₂,
      modifyLine heap₁ (fun n => { n with prev := lastAddr Prod.fst none pre })
        (firstAddr Prod.fst post none) = some heap₂ ∧
      Linked Prod.fst lineCell heap₂ none pre (firstAddr Prod.fst post none) ∧
      Linked Prod.fst lineCell heap₂ (lastAddr Prod.fst none pre) post none ∧
      ∀ b, heap₂ b ≠ none → b ∈ (pre ++ (a, str) :: post).map Prod.fst := by
    cases post with
    | nil => exact ⟨heap₁, rfl, hpre₁, trivial, huse₁⟩
    | cons z r =>
        have hz : z.1 ∉ r.map Prod.fst := (List.nodup_cons.mp hdisj.2.1).1
        have hl : z.1 ∉ pre.map Prod.fst := fun hmem => hdisj.2.2 _ hmem _ (by simp) rfl
        refine ⟨_, by rw [firstAddr_cons, modifyLine, hpost₁.1]; rfl, hpre₁.update hl _,
          hpost₁.setFirst hz (lastAddr Prod.fst none pre), fun b hb => ?_⟩
        by_cases hbz : b = z.1
        · simp [hbz]
        · rw [Function.update_of_ne hbz] at hb
          exact huse₁ b hb
  have hhead : (if buf.head = some a then firstAddr Prod.fst post none else buf.head) =
      firstAddr Prod.fst (pre ++ post) none := by
    rw [h.head]
    cases pre with
    | nil => exact if_pos rfl
    | cons x l =>
        refine if_neg fun he => ha.1 ?_
        rw [← Option.some.inj he]
        simp
  have htail : (if buf.tail = some a then lastAddr Prod.fst none pre else buf.tail) =
      lastAddr Prod.fst none (pre ++ post) := by
    rw [h.tail, lastAddr_append, lastAddr_append]
    rcases List.eq_nil_or_concat post with rfl | ⟨r, y, rfl⟩
    · exact if_pos rfl
    · rw [List.concat_eq_append] at *
      rw [lastAddr_concat]
      have hlast : lastAddr Prod.fst (lastAddr Prod.fst none pre) ((a, str) :: (r ++ [y])) =
          some y.1 := lastAddr_concat _ ((a, str) :: r) y
      rw [hlast]
      refine if_neg fun he => ha.2 ?_
      rw [← Option.some.inj he]
      simp
  refine ⟨⟨Function.update heap₂ a none, firstAddr Prod.fst (pre ++ post) none,
    lastAddr Prod.fst none (pre ++ post)⟩, ?_, hnd.2, ?_, rfl, rfl, fun b hb => ?_⟩
  · rw [removeln, h.cell]
    simp only [Option.bind_eq_bind, Option.bind_some, heq₁, heq₂, hhead, htail]
    rfl
  · exact linked_append.mpr ⟨hpre₂.update ha.1 _, hpost₂.update ha.2 _⟩
  · by_cases hba : b = a
    · subst hba
      exact absurd (Function.update_self ..) hb
    · dsimp only at hb
      rw [Function.update_of_ne hba] at hb
      have hmem := huse₂ b hb
      simp only [List.map_append, List.map_cons, List.mem_append, List.mem_cons] at hmem ⊢
      tauto

end Operations

/-! ## Texts of several lines -/

/-- The lines of a text; a line break at the end does not begin another line. -/
def textLines (str : Text) : List Text :=
  let ls := str.splitOnP (· = '\n')
  if ls.getLast? = some [] then ls.dropLast else ls

@[simp] lemma textLines_nil : textLines [] = [] := rfl

lemma textLines_eq_singleton {l : Text} (hl : '\n' ∉ l) (hne : l ≠ []) : textLines l = [l] := by
  have hsplit : l.splitOnP (· = '\n') = [l] :=
    List.splitOnP_eq_singleton fun c hc => by
      simpa using fun he : c = '\n' => hl (he ▸ hc)
  rw [textLines, hsplit]
  simp [hne]

lemma textLines_append {l : Text} (hl : '\n' ∉ l) (rest : Text) :
    textLines (l ++ '\n' :: rest) = l :: textLines rest := by
  have hsplit : (l ++ '\n' :: rest).splitOnP (· = '\n') = l :: rest.splitOnP (· = '\n') :=
    List.splitOnP_append_cons_of_forall_mem
      (fun c hc => by simpa using fun he : c = '\n' => hl (he ▸ hc)) _ (by simp) _
  have hne := List.splitOnP_ne_nil (fun c : Char => decide (c = '\n')) rest
  rw [textLines, textLines, hsplit]
  simp only [List.getLast?_cons_of_ne_nil hne, List.dropLast_cons_of_ne_nil hne]
  split <;> rfl

/-- A text is empty, a line, or a line with a line break after it. -/
lemma text_cases (str : Text) : str = [] ∨ ('\n' ∉ str ∧ str ≠ []) ∨
    ∃ l rest, '\n' ∉ l ∧ str = l ++ '\n' :: rest := by
  by_cases h : '\n' ∈ str
  · obtain ⟨l, rest, rfl, hl⟩ := List.eq_append_cons_of_mem h
    exact .inr (.inr ⟨l, rest, hl, rfl⟩)
  · by_cases hne : str = []
    · exact .inl hne
    · exact .inr (.inl ⟨h, hne⟩)

/-- The inner loop of `FOR_ALL_LINES`. -/
lemma readLine_eq {l rest : Text} (hl : '\n' ∉ l) (hrest : rest = [] ∨ rest.head? = some '\n')
    {i : ℕ} (hi : i ≤ maxLineLen) : readLine i (l ++ rest) =
      if i + l.length ≤ maxLineLen then some (l, rest) else none := by
  induction l generalizing i with
  | nil =>
      rw [List.nil_append, List.length_nil, if_pos (by simpa using hi)]
      rcases hrest with rfl | hrest
      · rfl
      · obtain ⟨rest', rfl⟩ := List.head?_eq_some_iff.mp hrest
        simp [readLine]
  | cons c l ih =>
      rw [List.mem_cons, not_or] at hl
      rw [List.cons_append, readLine, if_neg (Ne.symm hl.1), List.length_cons]
      by_cases hfull : i = maxLineLen
      · rw [if_pos hfull, if_neg (by omega)]
      · rw [if_neg hfull, ih hl.2 (by omega)]
        by_cases hfit : i + 1 + l.length ≤ maxLineLen
        · rw [if_pos hfit, if_pos (by omega)]
          rfl
        · rw [if_neg hfit, if_neg (by omega)]
          rfl

section Texts

variable [DecidableEq α] {malloc : (α → Option (Line α)) → α} {buf : Outbuf α}
  {pre post : List (α × Text)}

omit [DecidableEq α] in
/-- The pointer goes on to the line that has been inserted. -/
lemma advance_eq {a : α} {l : Text} (h : Holds buf (pre ++ (a, l) :: post)) :
    advance buf (lastAddr Prod.fst none pre) = some (some a) := by
  rcases List.eq_nil_or_concat pre with rfl | ⟨pre, y, rfl⟩
  · rw [lastAddr_nil, advance, h.head]
    rfl
  · rw [List.concat_eq_append] at *
    have h' : Holds buf (pre ++ y :: (a, l) :: post) := by simpa using h
    rw [lastAddr_concat, advance, h'.cell]
    rfl

/-- What `insertln` does with the text `str`. -/
structure Inserts (malloc : (α → Option (Line α)) → α) (fuel : ℕ) (buf : Outbuf α)
    (pre post : List (α × Text)) (str : Text) : Prop where
  fits : (∀ l ∈ textLines str, l.length ≤ maxLineLen) → ∃ buf' new,
    insertln malloc fuel buf (lastAddr Prod.fst none pre) str = some buf' ∧
      Holds buf' (pre ++ new ++ post) ∧ new.map Prod.snd = textLines str
  aborts : (∃ l ∈ textLines str, maxLineLen < l.length) →
    insertln malloc fuel buf (lastAddr Prod.fst none pre) str = none

/-- One turn of the loop of `FOR_ALL_LINES`. -/
lemma insertln_turn (hm : Fresh malloc) (h : Holds buf (pre ++ post)) {fuel : ℕ} {l : Text}
    (rest : Text) (hl : '\n' ∉ l) (hrest : rest = [] ∨ rest.head? = some '\n')
    (hne : l ++ rest ≠ []) :
    (l.length ≤ maxLineLen → ∃ a buf', Holds buf' (pre ++ [(a, l)] ++ post) ∧
      insertln malloc (fuel + 1) buf (lastAddr Prod.fst none pre) (l ++ rest) =
        insertln malloc fuel buf' (lastAddr Prod.fst none (pre ++ [(a, l)])) rest.tail) ∧
    (maxLineLen < l.length →
      insertln malloc (fuel + 1) buf (lastAddr Prod.fst none pre) (l ++ rest) = none) := by
  have hread := readLine_eq hl hrest (Nat.zero_le maxLineLen)
  rw [zero_add] at hread
  obtain ⟨c, str, hcons⟩ := List.exists_cons_of_ne_nil hne
  constructor
  · intro hlen
    rw [if_pos hlen] at hread
    obtain ⟨a, buf', heq, h'⟩ := doInsertln_spec hm h l
    refine ⟨a, buf', by simpa using h', ?_⟩
    rw [hcons] at hread ⊢
    rw [insertln, hread]
    simp only [Option.bind_eq_bind, Option.bind_some, heq, advance_eq h', lastAddr_concat]
  · intro hlen
    rw [if_neg (by omega)] at hread
    rw [hcons] at hread ⊢
    rw [insertln, hread]
    rfl

/-- **`insertln`** puts in the lines of the text, or gives up at one that is too long. -/
theorem insertln_spec (hm : Fresh malloc) {fuel : ℕ} {str : Text} (hfuel : str.length < fuel)
    (h : Holds buf (pre ++ post)) : Inserts malloc fuel buf pre post str := by
  induction fuel generalizing buf pre str with
  | zero => omega
  | succ fuel ih =>
      rcases text_cases str with rfl | ⟨hl, hne⟩ | ⟨l, rest, hl, rfl⟩
      · refine ⟨fun _ => ⟨buf, [], rfl, by simpa using h, rfl⟩, ?_⟩
        rintro ⟨l, hmem, -⟩
        cases hmem
      · -- the last line, without a line break
        have hpos : 0 < str.length := List.length_pos_iff.mpr hne
        obtain ⟨k, rfl⟩ : ∃ k, fuel = k + 1 := ⟨fuel - 1, by omega⟩
        obtain ⟨hfit, habort⟩ := insertln_turn hm h [] hl (.inl rfl) (by simpa using hne)
        rw [List.append_nil] at hfit habort
        have hlines := textLines_eq_singleton hl hne
        constructor
        · intro hlen
          obtain ⟨a, buf', h', heq⟩ := hfit (hlen str (by rw [hlines]; simp))
          exact ⟨buf', [(a, str)], heq, h', by rw [hlines]; rfl⟩
        · rintro ⟨l, hmem, hlen⟩
          rw [hlines, List.mem_singleton] at hmem
          exact habort (hmem ▸ hlen)
      · obtain ⟨hfit, habort⟩ := insertln_turn hm h ('\n' :: rest) hl (.inr rfl) (by simp)
        have hlines := textLines_append hl rest
        have hrest : rest.length < fuel := by
          rw [List.length_append, List.length_cons] at hfuel
          omega
        constructor
        · intro hlen
          obtain ⟨a, buf', h', heq⟩ := hfit (hlen l (by rw [hlines]; simp))
          obtain ⟨buf'', new, heq', h'', hnew⟩ := (ih hrest h').fits fun l' hl' =>
            hlen l' (by rw [hlines]; exact List.mem_cons_of_mem l hl')
          refine ⟨buf'', (a, l) :: new, heq.trans heq', by simpa using h'', ?_⟩
          rw [hlines, List.map_cons, hnew]
        · rintro ⟨l', hmem, hlen⟩
          rw [hlines, List.mem_cons] at hmem
          by_cases hfirst : l.length ≤ maxLineLen
          · obtain ⟨a, buf', h', heq⟩ := hfit hfirst
            refine heq.trans ((ih hrest h').aborts ⟨l', hmem.resolve_left ?_, hlen⟩)
            rintro rfl
            omega
          · exact habort (by omega)

/-- **`changeln`** puts the lines of the text in the place of a line. -/
theorem changeln_spec (hm : Fresh malloc) {a : α} {t : Text}
    (h : Holds buf (pre ++ (a, t) :: post)) (str : Text) :
    ((∀ l ∈ textLines str, l.length ≤ maxLineLen) → ∃ buf' new,
      changeln malloc buf a str = some buf' ∧ Holds buf' (pre ++ new ++ post) ∧
        new.map Prod.snd = textLines str) ∧
    ((∃ l ∈ textLines str, maxLineLen < l.length) → changeln malloc buf a str = none) := by
  obtain ⟨buf₁, heq₁, h₁⟩ := removeln_spec h
  have hins := insertln_spec hm (Nat.lt_succ_self str.length) h₁
  have heq : changeln malloc buf a str =
      insertln malloc (str.length + 1) buf₁ (lastAddr Prod.fst none pre) str := by
    rw [changeln, h.cell]
    simp only [Option.bind_eq_bind, Option.bind_some, heq₁]
  rw [heq]
  exact ⟨hins.fits, hins.aborts⟩

/-! ## The loop of `fix_stack` -/

section FixLoop

variable (ndebug : Bool) (stackSize : BitVec 32) (prologue epilogue : Text) (format : ℤ → Text)

/-- The lines that `fix_stack` leaves in the place of one line. -/
def newLines (t : Text) : Option Text → Option (List Text)
  | none => some [t]
  | some str =>
      if ∀ l ∈ textLines str, l.length ≤ maxLineLen then some (textLines str) else none

/-- The lines that `fix_stack` leaves, from the lines that there are. -/
def fixTexts : CharArray → List Text → Option (List Text)
  | _, [] => some []
  | buf, t :: ts => do
      let (new, buf) ← replacement ndebug stackSize prologue epilogue format buf t
      let ls ← newLines t new
      let rest ← fixTexts buf ts
      return ls ++ rest

variable {ndebug stackSize prologue epilogue format}

/-- One line of the buffer. -/
lemma fixLine_spec (hm : Fresh malloc) {a : α} {t : Text} (h : Holds buf (pre ++ (a, t) :: post))
    (new : Option Text) :
    (∀ ls, newLines t new = some ls → ∃ buf' xs,
      changeTo malloc buf a new = some buf' ∧ Holds buf' (pre ++ xs ++ post) ∧
        xs.map Prod.snd = ls) ∧
    (newLines t new = none → changeTo malloc buf a new = none) := by
  cases new with
  | none =>
      refine ⟨fun ls hls => ⟨buf, [(a, t)], rfl, by simpa using h, Option.some.inj hls⟩, ?_⟩
      intro hn
      cases hn
  | some str =>
      obtain ⟨hfits, haborts⟩ := changeln_spec hm h str
      rw [newLines]
      constructor
      · intro ls hls
        split at hls
        · next hlen =>
            obtain rfl := Option.some.inj hls
            exact hfits hlen
        · cases hls
      · intro hn
        split at hn
        · cases hn
        · next hlen =>
            push Not at hlen
            exact haborts hlen

/-- **The loop of `fix_stack`** computes the lines from the lines. -/
theorem fixLoop_spec (hm : Fresh malloc) {todo : List (α × Text)} {fuel : ℕ}
    (hfuel : todo.length < fuel) (h : Holds buf (pre ++ todo)) (chars : CharArray) :
    (∀ ls, fixTexts ndebug stackSize prologue epilogue format chars (todo.map Prod.snd) = some ls →
      ∃ buf' xs, fixLoop ndebug stackSize prologue epilogue format malloc fuel buf chars
          (firstAddr Prod.fst todo none) = some buf' ∧
        Holds buf' (pre ++ xs) ∧ xs.map Prod.snd = ls) ∧
    (fixTexts ndebug stackSize prologue epilogue format chars (todo.map Prod.snd) = none →
      fixLoop ndebug stackSize prologue epilogue format malloc fuel buf chars
        (firstAddr Prod.fst todo none) = none) := by
  induction todo generalizing buf pre fuel chars with
  | nil =>
      obtain ⟨fuel, rfl⟩ : ∃ k, fuel = k + 1 := ⟨fuel - 1, by omega⟩
      refine ⟨fun ls hls => ⟨buf, [], rfl, h, Option.some.inj hls⟩, fun hn => by cases hn⟩
  | cons x todo ih =>
      obtain ⟨a, t⟩ := x
      obtain ⟨fuel, rfl⟩ : ∃ k, fuel = k + 1 := ⟨fuel - 1, by omega⟩
      have hcell := h.cell
      rw [firstAddr_cons, fixLoop, hcell, List.map_cons, fixTexts]
      simp only [Option.bind_eq_bind, Option.bind_some, Option.pure_def]
      -- the run stops where the replaced line does not fit, and so does the list of texts
      cases hrep : replacement ndebug stackSize prologue epilogue format chars t with
      | none => simp
      | some r =>
          obtain ⟨new, chars'⟩ := r
          obtain ⟨hline, hlineNone⟩ := fixLine_spec hm h new
          simp only [Option.bind_some]
          cases hnew : newLines t new with
          | none =>
              rw [hlineNone hnew]
              simp
          | some ls₁ =>
              obtain ⟨buf₁, xs₁, heq₁, h₁, hxs₁⟩ := hline ls₁ hnew
              have hfuel' : todo.length < fuel := by
                rw [List.length_cons] at hfuel
                omega
              -- the lines made so far join the part that is behind the loop
              obtain ⟨hrest, hrestNone⟩ := ih hfuel' h₁ chars'
              rw [heq₁]
              simp only [Option.bind_some]
              constructor
              · intro ls hls
                obtain ⟨ls₂, hls₂, hls⟩ := Option.bind_eq_some_iff.mp hls
                obtain rfl := Option.some.inj hls
                obtain ⟨buf', xs, heq, h', hxs⟩ := hrest ls₂ hls₂
                refine ⟨buf', xs₁ ++ xs, heq, by simpa using h', ?_⟩
                rw [List.map_append, hxs₁, hxs]
              · intro hn
                refine hrestNone ?_
                cases hls₂ : fixTexts ndebug stackSize prologue epilogue format chars'
                    (todo.map Prod.snd) with
                | none => rfl
                | some ls₂ => rw [hls₂] at hn; cases hn

variable (ndebug stackSize prologue epilogue format)

/-- **`fix_stack`** computes the lines from the lines. -/
theorem fixStack_spec (hm : Fresh malloc) {xs : List (α × Text)} (h : Holds buf xs) {fuel : ℕ}
    (hfuel : xs.length < fuel) (chars : CharArray) :
    (∀ ls, fixTexts ndebug stackSize prologue epilogue format chars (xs.map Prod.snd) = some ls →
      ∃ buf' ys,
        fixStack ndebug stackSize prologue epilogue format malloc fuel buf chars = some buf' ∧
        Holds buf' ys ∧ ys.map Prod.snd = ls) ∧
    (fixTexts ndebug stackSize prologue epilogue format chars (xs.map Prod.snd) = none →
      fixStack ndebug stackSize prologue epilogue format malloc fuel buf chars = none) := by
  rw [fixStack, h.head]
  exact fixLoop_spec hm hfuel (show Holds buf ([] ++ xs) from h) chars

end FixLoop

end Texts

end Javalette.Output
