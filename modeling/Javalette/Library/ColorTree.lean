import Mathlib.Data.List.Sort
import Mathlib.Data.Multiset.Basic
import Mathlib.Tactic.Linarith

/-!
# Two-coloured search trees and paths into them

A `ColorTree` is a binary tree whose nodes are red or black.  A `Path` is what is left of
such a tree when one subtree has been cut out: the list of the nodes above the hole,
innermost first, each with the subtree on its other side.  `plug` puts a subtree back.

Three things are developed here, over an arbitrary node payload.

* `toList` is the in-order reading; `toList_plug` splits the reading of a plugged tree into
  what lies before the hole, the subtree, and what lies after.
* `Balanced t c n` says that `t` is a red-black tree with root colour `c` and black height
  `n`, and `Path.Fits p c n N` that plugging a suitable tree of height `n` into `p` gives a
  red-black tree of height `N` (`Fits.plug`).  `Fits.length_le` bounds the length of a path
  by the black heights, which is what an algorithm with an explicit path stack needs.
* `Path.insertFixup` restores the red-black shape after a red node has been put into the
  hole, and `Balanced.insertFixup` and `toList_insertFixup` say that it does.

The two sides of a tree are exchanged by a `Side`, so that every mirror image is the same
definition and the same proof.
-/

namespace Javalette

/-- The colour of a node. -/
inductive Color
  | red
  | black
  deriving DecidableEq, Repr

/-- A child position. -/
inductive Side
  | left
  | right
  deriving DecidableEq, Repr

namespace Side

/-- The other child position. -/
def flip : Side → Side
  | .left => .right
  | .right => .left

/-- Of two things given as "on side `s`" and "on the other side", the one on the left. -/
def onLeft {β : Type} : Side → β → β → β
  | .left, near, _ => near
  | .right, _, far => far

/-- Of two things given as "on side `s`" and "on the other side", the one on the right. -/
def onRight {β : Type} : Side → β → β → β
  | .left, _, far => far
  | .right, near, _ => near

@[simp] lemma flip_left : flip .left = .right := rfl
@[simp] lemma flip_right : flip .right = .left := rfl
@[simp] lemma flip_flip (s : Side) : s.flip.flip = s := by cases s <;> rfl
@[simp] lemma onLeft_left {β : Type} (a b : β) : onLeft .left a b = a := rfl
@[simp] lemma onLeft_right {β : Type} (a b : β) : onLeft .right a b = b := rfl
@[simp] lemma onRight_left {β : Type} (a b : β) : onRight .left a b = b := rfl
@[simp] lemma onRight_right {β : Type} (a b : β) : onRight .right a b = a := rfl

lemma eq_or_eq_flip (s s' : Side) : s' = s ∨ s' = s.flip := by
  cases s <;> cases s' <;> simp

lemma flip_ne (s : Side) : s.flip ≠ s := by cases s <;> simp

end Side

/-- A binary tree with a colour and a payload at every node. -/
inductive ColorTree (ν : Type)
  | nil
  | node (color : Color) (left : ColorTree ν) (val : ν) (right : ColorTree ν)
  deriving DecidableEq, Repr

namespace ColorTree

variable {ν μ : Type}

/-- The in-order reading of a tree. -/
def toList : ColorTree ν → List ν
  | nil => []
  | node _ l v r => l.toList ++ v :: r.toList

/-- The colour of the root; the empty tree counts as black. -/
def rootColor : ColorTree ν → Color
  | nil => .black
  | node c _ _ _ => c

/-- The tree with a payload map applied at every node. -/
def map (f : ν → μ) : ColorTree ν → ColorTree μ
  | nil => nil
  | node c l v r => node c (l.map f) (f v) (r.map f)

/-- A node whose child on side `s` is `near` and whose other child is `far`. -/
def sided (s : Side) (c : Color) (near : ColorTree ν) (v : ν) (far : ColorTree ν) :
    ColorTree ν :=
  node c (s.onLeft near far) v (s.onRight near far)

@[simp] lemma toList_nil : (nil : ColorTree ν).toList = [] := rfl

@[simp] lemma toList_node (c : Color) (l : ColorTree ν) (v : ν) (r : ColorTree ν) :
    (node c l v r).toList = l.toList ++ v :: r.toList := rfl

@[simp] lemma rootColor_nil : (nil : ColorTree ν).rootColor = .black := rfl

@[simp] lemma rootColor_node (c : Color) (l : ColorTree ν) (v : ν) (r : ColorTree ν) :
    (node c l v r).rootColor = c := rfl

@[simp] lemma map_nil (f : ν → μ) : (nil : ColorTree ν).map f = nil := rfl

@[simp] lemma map_node (f : ν → μ) (c : Color) (l : ColorTree ν) (v : ν) (r : ColorTree ν) :
    (node c l v r).map f = node c (l.map f) (f v) (r.map f) := rfl

lemma sided_left (c : Color) (a : ColorTree ν) (v : ν) (b : ColorTree ν) :
    sided .left c a v b = node c a v b := rfl

lemma sided_right (c : Color) (a : ColorTree ν) (v : ν) (b : ColorTree ν) :
    sided .right c a v b = node c b v a := rfl

@[simp] lemma rootColor_sided (s : Side) (c : Color) (a : ColorTree ν) (v : ν)
    (b : ColorTree ν) : (sided s c a v b).rootColor = c := rfl

@[simp] lemma map_sided (f : ν → μ) (s : Side) (c : Color) (a : ColorTree ν) (v : ν)
    (b : ColorTree ν) : (sided s c a v b).map f = sided s c (a.map f) (f v) (b.map f) := by
  cases s <;> rfl

lemma toList_map (f : ν → μ) (t : ColorTree ν) : (t.map f).toList = t.toList.map f := by
  induction t with
  | nil => rfl
  | node c l v r ihl ihr => simp [ihl, ihr]

lemma rootColor_map (f : ν → μ) (t : ColorTree ν) : (t.map f).rootColor = t.rootColor := by
  cases t <;> rfl

lemma node_eq_sided (s : Side) (c : Color) (l : ColorTree ν) (v : ν) (r : ColorTree ν) :
    node c l v r = sided s c (s.onLeft l r) v (s.onRight l r) := by
  cases s <;> rfl

/-! ## Balance -/

/-- `Balanced t c n`: the root of `t` has colour `c`, no red node has a red child, and every
path from the root to an empty subtree has exactly `n` black nodes. -/
inductive Balanced : ColorTree ν → Color → ℕ → Prop
  | nil : Balanced nil .black 0
  | red {l v r n} : Balanced l .black n → Balanced r .black n →
      Balanced (node .red l v r) .red n
  | black {l v r cl cr n} : Balanced l cl n → Balanced r cr n →
      Balanced (node .black l v r) .black (n + 1)

namespace Balanced

lemma rootColor {t : ColorTree ν} {c : Color} {n : ℕ} (h : Balanced t c n) :
    t.rootColor = c := by
  cases h <;> rfl

lemma blacken {l : ColorTree ν} {v : ν} {r : ColorTree ν} {n : ℕ}
    (h : Balanced (node .red l v r) .red n) : Balanced (node .black l v r) .black (n + 1) := by
  cases h with
  | red hl hr => exact .black hl hr

lemma sided_red {s : Side} {a : ColorTree ν} {v : ν} {b : ColorTree ν} {n : ℕ}
    (ha : Balanced a .black n) (hb : Balanced b .black n) :
    Balanced (sided s .red a v b) .red n := by
  cases s
  · exact .red ha hb
  · exact .red hb ha

lemma sided_black {s : Side} {a : ColorTree ν} {v : ν} {b : ColorTree ν} {ca cb : Color}
    {n : ℕ} (ha : Balanced a ca n) (hb : Balanced b cb n) :
    Balanced (sided s .black a v b) .black (n + 1) := by
  cases s
  · exact .black ha hb
  · exact .black hb ha

lemma eq_nil {t : ColorTree ν} (h : Balanced t .black 0) : t = .nil := by
  cases h
  rfl

lemma of_nil {c : Color} {n : ℕ} (h : Balanced (.nil : ColorTree ν) c n) :
    c = .black ∧ n = 0 := by
  cases h
  exact ⟨rfl, rfl⟩

/-- The children of a red node, seen from either side. -/
lemma of_red {s : Side} {t : ColorTree ν} {n : ℕ} (h : Balanced t .red n) :
    ∃ a v b, t = sided s .red a v b ∧ Balanced a .black n ∧ Balanced b .black n := by
  cases h with
  | @red l v r _ hl hr =>
      cases s
      · exact ⟨l, v, r, rfl, hl, hr⟩
      · exact ⟨r, v, l, rfl, hr, hl⟩

/-- The children of a black node, seen from either side. -/
lemma of_black {s : Side} {t : ColorTree ν} {n : ℕ} (h : Balanced t .black (n + 1)) :
    ∃ a v b ca cb, t = sided s .black a v b ∧ Balanced a ca n ∧ Balanced b cb n := by
  cases h with
  | @black l v r cl cr _ hl hr =>
      cases s
      · exact ⟨l, v, r, cl, cr, rfl, hl, hr⟩
      · exact ⟨r, v, l, cr, cl, rfl, hr, hl⟩

/-- The payloads do not matter. -/
lemma setVal {c ct : Color} {l r : ColorTree ν} {v : ν} {n : ℕ}
    (h : Balanced (node c l v r) ct n) (v' : ν) : Balanced (node c l v' r) ct n := by
  cases h with
  | red hl hr => exact .red hl hr
  | black hl hr => exact .black hl hr

lemma map {t : ColorTree ν} {c : Color} {n : ℕ} (h : Balanced t c n) (f : ν → μ) :
    Balanced (t.map f) c n := by
  induction h with
  | nil => exact .nil
  | red _ _ ihl ihr => exact .red ihl ihr
  | black _ _ ihl ihr => exact .black ihl ihr

end Balanced

/-- No red node has a red child. -/
def NoRedRed : ColorTree ν → Prop
  | nil => True
  | node c l _ r =>
      (c = .red → l.rootColor = .black ∧ r.rootColor = .black) ∧ l.NoRedRed ∧ r.NoRedRed

/-- The number of black nodes on each path from the root to an empty subtree. -/
def blackCounts : ColorTree ν → List ℕ
  | nil => [0]
  | node c l _ r =>
      (l.blackCounts ++ r.blackCounts).map (fun n => if c = .black then n + 1 else n)

/-- The number of nodes on the longest path. -/
def height : ColorTree ν → ℕ
  | nil => 0
  | node _ l _ r => max l.height r.height + 1

/-- A red-black tree is at most twice as high as its black height. -/
lemma Balanced.height_le {t : ColorTree ν} {c : Color} {n : ℕ} (h : Balanced t c n) :
    t.height ≤ 2 * n + if c = .red then 1 else 0 := by
  induction h with
  | nil => simp [height]
  | red _ _ ihl ihr =>
      simp only [height, reduceCtorEq, if_false, if_true] at ihl ihr ⊢
      omega
  | @black _ _ _ cl cr _ _ _ ihl ihr =>
      simp only [height, reduceCtorEq, if_false]
      split at ihl <;> split at ihr <;> omega

lemma Balanced.noRedRed {t : ColorTree ν} {c : Color} {n : ℕ} (h : Balanced t c n) :
    t.NoRedRed := by
  induction h with
  | nil => trivial
  | red hl hr ihl ihr => exact ⟨fun _ => ⟨hl.rootColor, hr.rootColor⟩, ihl, ihr⟩
  | black _ _ ihl ihr => exact ⟨by simp, ihl, ihr⟩

lemma Balanced.blackCounts {t : ColorTree ν} {c : Color} {n : ℕ} (h : Balanced t c n) :
    ∀ k ∈ t.blackCounts, k = n := by
  induction h with
  | nil => simp [ColorTree.blackCounts]
  | red _ _ ihl ihr =>
      intro k hk
      simp only [ColorTree.blackCounts, reduceCtorEq, if_false, List.map_id', List.mem_append] at hk
      exact hk.elim (ihl k) (ihr k)
  | black _ _ ihl ihr =>
      intro k hk
      simp only [ColorTree.blackCounts, if_true, List.mem_map, List.mem_append] at hk
      obtain ⟨j, hj, rfl⟩ := hk
      rw [hj.elim (ihl j) (ihr j)]

/-! ## Paths -/

/-- One node above a hole: the side on which the hole is, the colour and payload of the
node, and the subtree on the other side. -/
structure Frame (ν : Type) where
  side : Side
  color : Color
  val : ν
  sibling : ColorTree ν
  deriving DecidableEq, Repr

/-- A tree with a hole, as the nodes above the hole, innermost first. -/
abbrev Path (ν : Type) := List (Frame ν)

/-- The node of a frame with `t` in its hole. -/
def Frame.fill (f : Frame ν) (t : ColorTree ν) : ColorTree ν :=
  sided f.side f.color t f.val f.sibling

/-- A frame with a payload map applied. -/
def Frame.map (f : ν → μ) (fr : Frame ν) : Frame μ :=
  ⟨fr.side, fr.color, f fr.val, fr.sibling.map f⟩

/-- The whole tree, with `t` in the hole of the path. -/
def plug : Path ν → ColorTree ν → ColorTree ν
  | [], t => t
  | f :: p, t => plug p (f.fill t)

/-- What the in-order reading has before the hole. -/
def before : Path ν → List ν
  | [] => []
  | ⟨.left, _, _, _⟩ :: p => before p
  | ⟨.right, _, v, l⟩ :: p => before p ++ (l.toList ++ [v])

/-- What the in-order reading has after the hole. -/
def after : Path ν → List ν
  | [] => []
  | ⟨.left, _, v, r⟩ :: p => (v :: r.toList) ++ after p
  | ⟨.right, _, _, _⟩ :: p => after p

@[simp] lemma plug_nil (t : ColorTree ν) : plug [] t = t := rfl

@[simp] lemma plug_cons (f : Frame ν) (p : Path ν) (t : ColorTree ν) :
    plug (f :: p) t = plug p (f.fill t) := rfl

lemma Frame.fill_mk (s : Side) (c : Color) (v : ν) (sib t : ColorTree ν) :
    (Frame.mk s c v sib).fill t = sided s c t v sib := rfl

@[simp] lemma Frame.rootColor_fill (f : Frame ν) (t : ColorTree ν) :
    (f.fill t).rootColor = f.color := rfl

@[simp] lemma Frame.map_fill (g : ν → μ) (f : Frame ν) (t : ColorTree ν) :
    (f.fill t).map g = (f.map g).fill (t.map g) := by
  simp [Frame.fill, Frame.map]

lemma map_plug (g : ν → μ) (p : Path ν) (t : ColorTree ν) :
    (plug p t).map g = plug (p.map (Frame.map g)) (t.map g) := by
  induction p generalizing t with
  | nil => rfl
  | cons f p ih => simp [ih]

/-- The in-order reading of a plugged tree. -/
lemma toList_plug (p : Path ν) (t : ColorTree ν) :
    (plug p t).toList = before p ++ t.toList ++ after p := by
  induction p generalizing t with
  | nil => simp [before, after]
  | cons f p ih =>
      obtain ⟨s, c, v, sib⟩ := f
      cases s <;> simp [ih, before, after, Frame.fill, sided]

/-- The in-order reading only depends on that of the subtree in the hole. -/
lemma toList_plug_congr (p : Path ν) {t t' : ColorTree ν} (h : t.toList = t'.toList) :
    (plug p t).toList = (plug p t').toList := by
  rw [toList_plug, toList_plug, h]

lemma plug_append (p q : Path ν) (t : ColorTree ν) : plug (p ++ q) t = plug q (plug p t) := by
  induction p generalizing t with
  | nil => rfl
  | cons f p ih => exact ih _

lemma before_append (p q : Path ν) : before (p ++ q) = before q ++ before p := by
  induction p with
  | nil => simp [before]
  | cons f p ih =>
      obtain ⟨s, c, v, sib⟩ := f
      cases s <;> simp [before, ih]

lemma after_append (p q : Path ν) : after (p ++ q) = after p ++ after q := by
  induction p with
  | nil => simp [after]
  | cons f p ih =>
      obtain ⟨s, c, v, sib⟩ := f
      cases s <;> simp [after, ih]

lemma height_le_length (t : ColorTree ν) : t.height ≤ t.toList.length := by
  induction t with
  | nil => rfl
  | node c l v r ihl ihr =>
      rw [height, toList_node, List.length_append, List.length_cons]
      omega

/-- A node of a mapped tree comes from a node of the tree. -/
lemma exists_of_map_eq_plug {g : ν → μ} {p : Path μ} {t : ColorTree ν} {u : ColorTree μ}
    (h : t.map g = plug p u) :
    ∃ q t', t = plug q t' ∧ t'.map g = u := by
  induction p generalizing u with
  | nil => exact ⟨[], t, rfl, h⟩
  | cons f p ih =>
      obtain ⟨q, t', rfl, ht'⟩ := ih h
      obtain ⟨s, c, v, sib⟩ := f
      cases t' with
      | nil => cases s <;> cases ht'
      | node c' l v' r =>
          cases s
          · obtain ⟨-, hl, -, -⟩ := node.inj ht'
            exact ⟨⟨.left, c', v', r⟩ :: q, l, rfl, hl⟩
          · obtain ⟨-, -, -, hr⟩ := node.inj ht'
            exact ⟨⟨.right, c', v', l⟩ :: q, r, rfl, hr⟩

/-! ## Balance of a tree with a hole -/

/-- `Fits p c n N`: plugging a tree of black height `n` into `p` gives a red-black tree with
a black root and black height `N`, provided the tree has a black root when `c` is red.
So `c` is the colour of the innermost node; the empty path counts as red, because the root
of a whole tree has to be black. -/
inductive Fits : Path ν → Color → ℕ → ℕ → Prop
  | root (n : ℕ) : Fits [] .red n n
  | red {s v sib p n N} : Balanced sib .black n → Fits p .black n N →
      Fits (⟨s, .red, v, sib⟩ :: p) .red n N
  | black {s v sib p c cs n N} : Balanced sib cs n → Fits p c (n + 1) N →
      Fits (⟨s, .black, v, sib⟩ :: p) .black n N

namespace Fits

/-- Plugging a tree that fits gives a red-black tree. -/
lemma plug {p : Path ν} {c : Color} {n N : ℕ} (h : Fits p c n N) {t : ColorTree ν}
    {ct : Color} (ht : Balanced t ct n) (hc : c = .red → ct = .black) :
    Balanced (plug p t) .black N := by
  induction h generalizing t ct with
  | root n => obtain rfl := hc rfl; exact ht
  | red hs _ ih =>
      obtain rfl := hc rfl
      exact ih (Balanced.sided_red ht hs) (by simp)
  | black hs _ ih => exact ih (Balanced.sided_black ht hs) (fun _ => rfl)

lemma le {p : Path ν} {c : Color} {n N : ℕ} (h : Fits p c n N) : n ≤ N := by
  induction h <;> omega

lemma of_nil {c : Color} {n N : ℕ} (h : Fits ([] : Path ν) c n N) : c = .red ∧ n = N := by
  cases h
  exact ⟨rfl, rfl⟩

/-- A path is at most twice as long as the black nodes on it are many: between two black
nodes there is at most one red one, and the outermost node is black. -/
lemma length_le {p : Path ν} {c : Color} {n N : ℕ} (h : Fits p c n N) :
    p.length + 2 * n + (if c = .black then 1 else 0) ≤ 2 * N := by
  induction h with
  | root n => simp
  | red _ _ ih => simp at ih ⊢; omega
  | @black _ _ _ _ c _ _ _ _ _ ih => cases c <;> simp at ih ⊢ <;> omega

/-- What lies above a red node of a red-black tree is a black node. -/
lemma of_red_cons {s : Side} {v : ν} {sib : ColorTree ν} {p : Path ν} {c : Color} {n N : ℕ}
    (h : Fits (⟨s, .red, v, sib⟩ :: p) c n N) :
    c = .red ∧ Balanced sib .black n ∧
      ∃ s' v' sib' cs' p', p = ⟨s', .black, v', sib'⟩ :: p' ∧ Balanced sib' cs' n ∧
        ∃ c', Fits p' c' (n + 1) N := by
  cases h with
  | red hs hp =>
      refine ⟨rfl, hs, ?_⟩
      cases hp with
      | black hs' hp' => exact ⟨_, _, _, _, _, rfl, hs', _, hp'⟩

lemma of_black_cons {s : Side} {v : ν} {sib : ColorTree ν} {p : Path ν} {c : Color}
    {n N : ℕ} (h : Fits (⟨s, .black, v, sib⟩ :: p) c n N) :
    c = .black ∧ ∃ cs c', Balanced sib cs n ∧ Fits p c' (n + 1) N := by
  cases h with
  | black hs hp => exact ⟨rfl, _, _, hs, hp⟩

/-- The innermost node of a path may have any two black subtrees of the right height. -/
lemma fill {s : Side} {cf : Color} {v : ν} {sib : ColorTree ν} {p : Path ν} {c : Color}
    {n N : ℕ} (h : Fits (⟨s, cf, v, sib⟩ :: p) c n N) {a b : ColorTree ν}
    (ha : Balanced a .black n) (hb : Balanced b .black n) (v' : ν) :
    Balanced (ColorTree.plug p (sided s cf a v' b)) .black N := by
  cases h with
  | red _ hp => exact hp.plug (Balanced.sided_red ha hb) (by simp)
  | black _ hp => exact hp.plug (Balanced.sided_black ha hb) (fun _ => rfl)

/-- A subtree of a red-black tree, cut out, leaves a path that it fits. -/
lemma of_plug {p : Path ν} {t : ColorTree ν} {N : ℕ} (h : Balanced (ColorTree.plug p t) .black N) :
    ∃ c n, Fits p c n N ∧ ∃ ct, Balanced t ct n ∧ (c = .red → ct = .black) := by
  induction p generalizing t with
  | nil => exact ⟨_, _, .root N, _, h, fun _ => rfl⟩
  | cons f p ih =>
      obtain ⟨s, c, v, sib⟩ := f
      obtain ⟨c', n', hp, ct, ht, hc⟩ := ih h
      rw [Frame.fill_mk] at ht
      obtain rfl : c = ct := by simpa using ht.rootColor
      cases c with
      | red =>
          obtain ⟨a, v', b, heq, ha, hb⟩ := ht.of_red (s := s)
          obtain ⟨rfl, rfl, rfl⟩ : t = a ∧ v = v' ∧ sib = b := by
            cases s <;> simp [sided] at heq <;> simp [heq]
          obtain rfl : c' = .black := by
            cases c'
            · exact absurd (hc rfl) (by simp)
            · rfl
          exact ⟨_, _, .red hb hp, _, ha, fun _ => rfl⟩
      | black =>
          obtain ⟨n, rfl⟩ : ∃ n, n' = n + 1 := by
            cases n' with
            | zero => exact absurd ht.eq_nil (by cases s <;> simp [sided])
            | succ n => exact ⟨n, rfl⟩
          obtain ⟨a, v', b, ca, cb, heq, ha, hb⟩ := ht.of_black (s := s)
          obtain ⟨rfl, rfl, rfl⟩ : t = a ∧ v = v' ∧ sib = b := by
            cases s <;> simp [sided] at heq <;> simp [heq]
          exact ⟨_, _, .black hb hp, _, ha, by simp⟩

end Fits

/-! ## Insertion -/

/-- Put the red node with children `l`, `r` and payload `v` into the hole, recolouring and
rotating until no red node has a red child.  The flag says whether the black height of the
whole tree has grown. -/
def insertFixup : Path ν → ColorTree ν → ν → ColorTree ν → ColorTree ν × Bool
  | [], l, v, r => (node .black l v r, true)
  | ⟨sp, .red, pv, ps⟩ :: ⟨s, _, ppv, node .red ul uv ur⟩ :: p, l, v, r =>
      -- the uncle is red: recolour and go on at the grandparent
      insertFixup p
        (s.onLeft (sided sp .black (node .red l v r) pv ps) (node .black ul uv ur)) ppv
        (s.onRight (sided sp .black (node .red l v r) pv ps) (node .black ul uv ur))
  | ⟨sp, .red, pv, ps⟩ :: ⟨s, _, ppv, uncle⟩ :: p, l, v, r =>
      if sp = s then
        (plug p (sided s .black (node .red l v r) pv (sided s .red ps ppv uncle)), false)
      else
        (plug p (sided s .black (sided s .red ps pv (s.onLeft l r)) v
          (sided s .red (s.onRight l r) ppv uncle)), false)
  | p, l, v, r => (plug p (node .red l v r), false)

/-- Fixing up an insertion does not change the in-order reading. -/
lemma toList_insertFixup (p : Path ν) (l : ColorTree ν) (v : ν) (r : ColorTree ν) :
    (insertFixup p l v r).1.toList = (plug p (node .red l v r)).toList := by
  fun_induction insertFixup p l v r with
  | case1 l v r => simp
  | case2 sp pv ps s c ppv ul uv ur p l v r ih =>
      rw [ih, plug_cons, plug_cons]
      apply toList_plug_congr
      cases s <;> cases sp <;> simp [Frame.fill, sided]
  | case3 pv ps s c ppv uncle p l v r h =>
      rw [plug_cons, plug_cons]
      apply toList_plug_congr
      cases s <;> simp [Frame.fill, sided]
  | case4 sp pv ps s c ppv uncle p l v r h hne =>
      rw [plug_cons, plug_cons]
      apply toList_plug_congr
      cases s <;> cases sp <;> simp_all [Frame.fill, sided]
  | case5 p l v r => rfl

/-- **Insertion restores balance.**  Putting a red node of the height of the hole into a
path and fixing up gives a red-black tree, one black node higher exactly when the flag says
so. -/
lemma Balanced.insertFixup {p : Path ν} {l : ColorTree ν} {v : ν} {r : ColorTree ν}
    {c : Color} {n N : ℕ} (hp : Fits p c n N) (hl : Balanced l .black n)
    (hr : Balanced r .black n) :
    Balanced (insertFixup p l v r).1 .black
      (if (ColorTree.insertFixup p l v r).2 then N + 1 else N) := by
  fun_induction ColorTree.insertFixup p l v r generalizing c n with
  | case1 l v r => cases hp; exact .black hl hr
  | case2 sp pv ps s cpp ppv ul uv ur p l v r ih =>
      obtain ⟨-, hps, s', v', sib', cs', p', heq, hu, c', hp'⟩ := hp.of_red_cons
      obtain ⟨⟨rfl, rfl, rfl, rfl⟩, rfl⟩ := List.cons.inj heq |>.imp_left Frame.mk.inj
      obtain rfl : Color.red = cs' := hu.rootColor
      have hpar : Balanced (sided sp .black (node .red l v r) pv ps) .black (n + 1) :=
        Balanced.sided_black (.red hl hr) hps
      cases s
      · exact ih hp' hpar hu.blacken
      · exact ih hp' hu.blacken hpar
  | case3 pv ps s cpp ppv uncle p l v r h =>
      obtain ⟨-, hps, s', v', sib', cs', p', heq, hu, c', hp'⟩ := hp.of_red_cons
      obtain ⟨⟨rfl, rfl, rfl, rfl⟩, rfl⟩ := List.cons.inj heq |>.imp_left Frame.mk.inj
      -- the uncle is not red here, and two rotations are counted with a black sibling
      have hu' : cs' = .black := by
        cases hu with
        | red _ _ => exact absurd rfl (h _ _ _)
        | _ => rfl
      subst hu'
      exact hp'.plug (Balanced.sided_black (.red hl hr) (Balanced.sided_red hps hu))
        (fun _ => rfl)
  | case4 sp pv ps s cpp ppv uncle p l v r h hne =>
      obtain ⟨-, hps, s', v', sib', cs', p', heq, hu, c', hp'⟩ := hp.of_red_cons
      obtain ⟨⟨rfl, rfl, rfl, rfl⟩, rfl⟩ := List.cons.inj heq |>.imp_left Frame.mk.inj
      have hu' : cs' = .black := by
        cases hu with
        | red _ _ => exact absurd rfl (h _ _ _)
        | _ => rfl
      subst hu'
      -- the node turned up keeps one subtree at each of the two nodes below it
      have hnear : Balanced (s.onLeft l r) .black n := by cases s <;> assumption
      have hfar : Balanced (s.onRight l r) .black n := by cases s <;> assumption
      exact hp'.plug (Balanced.sided_black (Balanced.sided_red hps hnear)
        (Balanced.sided_red hfar hu)) (fun _ => rfl)
  | case5 p l v r h₁ h₂ h₃ =>
      -- a red parent has a parent of its own, so the loop ends below a black node or at the root
      have hc : c = .black := by
        cases hp with
        | root n => exact absurd rfl h₁
        | red hs hp =>
            cases hp with
            | black hs' hp' => exact absurd rfl (h₃ _ _ _ _ _ _ _ _)
        | black _ _ => rfl
      subst hc
      exact hp.plug (.red hl hr) (by simp)

/-- Fixing up commutes with a payload map: it never looks at a payload. -/
lemma map_insertFixup (g : ν → μ) (p : Path ν) (l : ColorTree ν) (v : ν) (r : ColorTree ν) :
    insertFixup (p.map (Frame.map g)) (l.map g) (g v) (r.map g) =
      ((insertFixup p l v r).1.map g, (insertFixup p l v r).2) := by
  fun_induction insertFixup p l v r with
  | case1 l v r => rfl
  | case2 sp pv ps s c ppv ul uv ur p l v r ih =>
      rw [← ih]
      cases s <;> cases sp <;> rfl
  | case3 pv ps s c ppv uncle p l v r h =>
      cases uncle with
      | nil => simp [insertFixup, Frame.map, map_plug]
      | node cu ul uv ur =>
          cases cu
          · exact absurd rfl (h _ _ _)
          · simp [insertFixup, Frame.map, map_plug]
  | case4 sp pv ps s c ppv uncle p l v r h hne =>
      have hl : (s.onLeft l r).map g = s.onLeft (l.map g) (r.map g) := by cases s <;> rfl
      have hr : (s.onRight l r).map g = s.onRight (l.map g) (r.map g) := by cases s <;> rfl
      cases uncle with
      | nil => simp [insertFixup, Frame.map, map_plug, hne, hl, hr]
      | node cu ul uv ur =>
          cases cu
          · exact absurd rfl (h _ _ _)
          · simp [insertFixup, Frame.map, map_plug, hne, hl, hr]
  | case5 p l v r h₁ h₂ h₃ =>
      match p with
      | [] => exact absurd rfl h₁
      | [⟨sp, .red, pv, ps⟩] => simp [insertFixup, Frame.map]
      | ⟨sp, .red, pv, ps⟩ :: ⟨s, cpp, ppv, u⟩ :: p => exact absurd rfl (h₃ _ _ _ _ _ _ _ _)
      | ⟨sp, .black, pv, ps⟩ :: p => simp [insertFixup, Frame.map, map_plug]

/-! ## Searching -/

/-- Go down from `t`, below the path `p`, as `cut` directs: to the left when it answers
`lt`, to the right when it answers `gt`, until it answers `eq` or the subtree is empty. -/
def zoom (cut : ν → Ordering) : ColorTree ν → Path ν → Path ν × ColorTree ν
  | nil, p => (p, nil)
  | node c l v r, p =>
      match cut v with
      | .lt => zoom cut l (⟨.left, c, v, r⟩ :: p)
      | .gt => zoom cut r (⟨.right, c, v, l⟩ :: p)
      | .eq => (p, node c l v r)

/-- Going down does not change the whole tree. -/
lemma plug_zoom (cut : ν → Ordering) (t : ColorTree ν) (p : Path ν) :
    plug (zoom cut t p).1 (zoom cut t p).2 = plug p t := by
  fun_induction zoom cut t p with
  | case1 p => rfl
  | case2 c l v r p h ih => exact ih
  | case3 c l v r p h ih => exact ih
  | case4 c l v r p h => rfl

/-- Where a search stops, it has found what it looks for or come to an empty subtree. -/
lemma zoom_snd (cut : ν → Ordering) (t : ColorTree ν) (p : Path ν) :
    (zoom cut t p).2 = nil ∨ ∃ c l v r, (zoom cut t p).2 = node c l v r ∧ cut v = .eq := by
  fun_induction zoom cut t p with
  | case1 p => exact .inl rfl
  | case2 c l v r p h ih => exact ih
  | case3 c l v r p h ih => exact ih
  | case4 c l v r p h => exact .inr ⟨c, l, v, r, rfl, h⟩

/-- `cut` answers in the order `R`: nothing after a `lt` is `gt` or `eq`, nothing before a
`gt` is `lt` or `eq`. -/
structure IsCut (R : ν → ν → Prop) (cut : ν → Ordering) : Prop where
  lt_of_lt : ∀ {u v}, R u v → cut u = .lt → cut v = .lt
  gt_of_gt : ∀ {u v}, R u v → cut v = .gt → cut u = .gt

/-- What the path has before and after the hole lies on the right side of the cut. -/
def Splits (cut : ν → Ordering) (p : Path ν) : Prop :=
  (∀ v ∈ before p, cut v = .gt) ∧ ∀ v ∈ after p, cut v = .lt

lemma splits_nil (cut : ν → Ordering) : Splits cut ([] : Path ν) := by
  simp [Splits, before, after]

/-- **A search in an ordered tree splits it at the cut.** -/
lemma splits_zoom {R : ν → ν → Prop} {cut : ν → Ordering} (hcut : IsCut R cut)
    {t : ColorTree ν} {p : Path ν} (hord : (plug p t).toList.Pairwise R)
    (hp : Splits cut p) : Splits cut (zoom cut t p).1 := by
  fun_induction zoom cut t p with
  | case1 p => exact hp
  | case2 c l v r p h ih =>
      refine ih hord ⟨hp.1, fun u hu => ?_⟩
      simp only [after, List.cons_append, List.mem_cons, List.mem_append] at hu
      rw [toList_plug, List.append_assoc, List.pairwise_append, List.pairwise_append] at hord
      have hnode := hord.2.1.1
      rw [toList_node, List.pairwise_append, List.pairwise_cons] at hnode
      rcases hu with rfl | hu | hu
      · exact h
      · exact hcut.lt_of_lt (hnode.2.1.1 u hu) h
      · exact hp.2 u hu
  | case3 c l v r p h ih =>
      refine ih hord ⟨fun u hu => ?_, hp.2⟩
      simp only [before, List.mem_append, List.mem_singleton] at hu
      rw [toList_plug, List.append_assoc, List.pairwise_append, List.pairwise_append] at hord
      have hnode := hord.2.1.1
      rw [toList_node, List.pairwise_append] at hnode
      rcases hu with hu | hu | rfl
      · exact hp.1 u hu
      · exact hcut.gt_of_gt (hnode.2.2 u hu v (by simp)) h
      · exact h
  | case4 c l v r p h => exact hp

/-- A search goes straight down a path that the cut directs. -/
lemma zoom_plug {cut : ν → Ordering} {p : Path ν} (hp : Splits cut p) (t : ColorTree ν)
    (q : Path ν) : zoom cut (plug p t) q = zoom cut t (p ++ q) := by
  induction p generalizing t with
  | nil => rfl
  | cons f p ih =>
      obtain ⟨s, c, v, sib⟩ := f
      obtain ⟨hb, ha⟩ := hp
      cases s
      · rw [plug_cons, ih ⟨hb, fun u hu => ha u (by simp [after, hu])⟩, Frame.fill, sided_left,
          zoom, ha v (by simp [after])]
        rfl
      · rw [plug_cons, ih ⟨fun u hu => hb u (by simp [before, hu]), ha⟩, Frame.fill, sided_right,
          zoom, hb v (by simp [before])]
        rfl

/-- A search that comes to an empty subtree: nothing in the tree is what it looks for. -/
lemma ne_eq_of_zoom_eq_nil {R : ν → ν → Prop} {cut : ν → Ordering} (hcut : IsCut R cut)
    {t : ColorTree ν} (hord : t.toList.Pairwise R) (hnil : (zoom cut t []).2 = nil) :
    ∀ v ∈ t.toList, cut v ≠ .eq := by
  intro v hv
  obtain ⟨hb, ha⟩ := splits_zoom hcut (p := []) hord (splits_nil cut)
  have hplug := plug_zoom cut t []
  rw [hnil, plug_nil] at hplug
  rw [← hplug, toList_plug, toList_nil, List.append_nil, List.mem_append] at hv
  rcases hv with hv | hv
  · simp [hb v hv]
  · simp [ha v hv]

/-- The first node of a tree in order: the path to it and the subtree it heads. -/
def leftmost : ColorTree ν → Path ν × ColorTree ν
  | node c (node cl ll lv lr) v r =>
      let (p, t) := leftmost (node cl ll lv lr)
      (p ++ [⟨.left, c, v, r⟩], t)
  | t => ([], t)

/-- The first node has no left child, nothing before it, and everything else after it. -/
lemma leftmost_spec (c : Color) (l : ColorTree ν) (v : ν) (r : ColorTree ν) :
    ∃ p cy y ry, leftmost (node c l v r) = (p, node cy nil y ry) ∧
      plug p (node cy nil y ry) = node c l v r ∧ before p = [] := by
  induction l generalizing c v r with
  | nil => exact ⟨[], c, v, r, rfl, rfl, rfl⟩
  | node cl ll lv lr ihl ihr =>
      obtain ⟨p, cy, y, ry, heq, hplug, hbefore⟩ := ihl cl lv lr
      refine ⟨p ++ [⟨.left, c, v, r⟩], cy, y, ry, ?_, ?_, ?_⟩
      · rw [leftmost, heq]
      · rw [plug_append, hplug]
        rfl
      · rw [before_append, hbefore]
        rfl

/-- Insert a payload where the search for it ends. -/
def insert (cut : ν → Ordering) (v : ν) (t : ColorTree ν) : ColorTree ν :=
  (insertFixup (zoom cut t []).1 nil v nil).1

/-- The in-order reading after an insertion at a place that the search left empty. -/
lemma toList_insert (cut : ν → Ordering) (v : ν) (t : ColorTree ν) :
    (insert cut v t).toList =
      before (zoom cut t []).1 ++ v :: after (zoom cut t []).1 := by
  rw [insert, toList_insertFixup, toList_plug]
  simp

/-- A search commutes with a payload map. -/
lemma zoom_map (g : ν → μ) (cut : μ → Ordering) (t : ColorTree ν) (p : Path ν) :
    zoom cut (t.map g) (p.map (Frame.map g)) =
      ((zoom (fun v => cut (g v)) t p).1.map (Frame.map g),
        (zoom (fun v => cut (g v)) t p).2.map g) := by
  fun_induction zoom (fun v => cut (g v)) t p with
  | case1 p => rfl
  | case2 c l v r p h ih =>
      rw [← ih, map_node, zoom, h]
      rfl
  | case3 c l v r p h ih =>
      rw [← ih, map_node, zoom, h]
      rfl
  | case4 c l v r p h =>
      rw [map_node, zoom, h]

/-- Insertion commutes with a payload map. -/
lemma map_insert (g : ν → μ) (cut : μ → Ordering) (v : ν) (t : ColorTree ν) :
    (insert (fun u => cut (g u)) v t).map g = insert cut (g v) (t.map g) := by
  have hz := zoom_map g cut t []
  rw [List.map_nil] at hz
  rw [insert, insert, hz]
  exact (congrArg Prod.fst (map_insertFixup g _ nil v nil)).symm

/-! ## Deletion -/

/-- The tree with another colour at its root. -/
def recolor (c : Color) : ColorTree ν → ColorTree ν
  | nil => nil
  | node _ l v r => node c l v r

@[simp] lemma toList_recolor (c : Color) (t : ColorTree ν) : (t.recolor c).toList = t.toList := by
  cases t <;> rfl

lemma map_recolor (g : ν → μ) (c : Color) (t : ColorTree ν) :
    (t.recolor c).map g = (t.map g).recolor c := by
  cases t <;> rfl

/-- The last turn of a deletion, at a black sibling `w` with a red child: `t` is the subtree
that is a black node short, `a` the child of `w` near to it and `b` the other one. -/
def deleteRotations (s : Side) (c : Color) (t : ColorTree ν) (pv : ν) (a : ColorTree ν) (w : ν)
    (b : ColorTree ν) : ColorTree ν :=
  match b.rootColor, a with
  | .black, node _ al av ar =>
      sided s c (sided s .black t pv (s.onLeft al ar)) av (sided s .black (s.onRight al ar) w b)
  | _, _ => sided s c (sided s .black t pv a) w (b.recolor .black)

/-- The turn of a deletion below a red node `pv`, which is the last but one: `sib` is the
sibling of the subtree `t` that is a black node short. -/
def deleteBelowRed (s : Side) (t : ColorTree ν) (pv : ν) : ColorTree ν → ColorTree ν
  | nil => sided s .red t pv nil
  | node _ l w r =>
      if (s.onLeft l r).rootColor = .black ∧ (s.onRight l r).rootColor = .black then
        sided s .black t pv (node .red l w r)
      else deleteRotations s .red t pv (s.onLeft l r) w (s.onRight l r)

/-- Put a subtree that is a black node short into the hole, recolouring and rotating until
every path has the same number of black nodes. -/
def deleteFixup : Path ν → ColorTree ν → ColorTree ν
  | [], t => t.recolor .black
  | ⟨s, c, pv, sib⟩ :: p, t =>
      if t.rootColor = .red then plug p (sided s c (t.recolor .black) pv sib)
      else
        match sib with
        | nil => plug p (sided s c t pv nil)
        | node cw l w r =>
            if (s.onLeft l r).rootColor = .black ∧ (s.onRight l r).rootColor = .black then
              if cw = .black then deleteFixup p (sided s c t pv (node .red l w r))
              else
                -- the sibling is red: rotate it above the parent, which becomes red
                plug p (sided s .black (deleteBelowRed s t pv (s.onLeft l r)) w (s.onRight l r))
            else plug p (deleteRotations s c t pv (s.onLeft l r) w (s.onRight l r))

/-- Replace a node of colour `c` by its only child `w`. -/
def unlink (p : Path ν) (c : Color) (w : ColorTree ν) : ColorTree ν :=
  if c = .black then deleteFixup p w else plug p w

/-- Delete the root of a subtree.  When it has two children, the payload of its successor moves
into it and the successor is unlinked. -/
def deleteNode (p : Path ν) : ColorTree ν → ColorTree ν
  | nil => plug p nil
  | node c l _ nil => unlink p c l
  | node c nil _ r => unlink p c r
  | node c l v r =>
      match leftmost r with
      | (q, node cy _ y ry) => unlink (q ++ ⟨.right, c, y, l⟩ :: p) cy ry
      | (_, nil) => plug p (node c l v r)

/-- Delete the payload that the search finds, if there is one. -/
def delete (cut : ν → Ordering) (t : ColorTree ν) : ColorTree ν :=
  deleteNode (zoom cut t []).1 (zoom cut t []).2

lemma recolor_self {c : Color} {t : ColorTree ν} (ht : t.rootColor = c) : t.recolor c = t := by
  subst ht
  cases t <;> rfl

/-- A deletion ends at a red node, which takes the missing black. -/
lemma deleteFixup_red (p : Path ν) {t : ColorTree ν} (ht : t.rootColor = .red) :
    deleteFixup p t = plug p (t.recolor .black) := by
  cases p with
  | nil => rfl
  | cons f p =>
      rw [deleteFixup.eq_def]
      exact if_pos ht

lemma deleteFixup_leaf (s : Side) (c : Color) (pv : ν) (p : Path ν) {t : ColorTree ν}
    (ht : t.rootColor ≠ .red) :
    deleteFixup (⟨s, c, pv, nil⟩ :: p) t = plug p (sided s c t pv nil) := by
  rw [deleteFixup.eq_def]
  exact if_neg ht

/-- One turn of a deletion, with the sibling seen from the side of the hole. -/
lemma deleteFixup_sided (s : Side) (c : Color) (pv : ν) (cw : Color) (a : ColorTree ν) (w : ν)
    (b : ColorTree ν) (p : Path ν) {t : ColorTree ν} (ht : t.rootColor ≠ .red) :
    deleteFixup (⟨s, c, pv, sided s cw a w b⟩ :: p) t =
      if a.rootColor = .black ∧ b.rootColor = .black then
        if cw = .black then deleteFixup p (sided s c t pv (sided s .red a w b))
        else plug p (sided s .black (deleteBelowRed s t pv a) w b)
      else plug p (deleteRotations s c t pv a w b) := by
  rw [deleteFixup.eq_def]
  cases s
  · exact if_neg ht
  · exact if_neg ht

/-- A red nephew away from the hole is reached by one rotation. -/
lemma deleteRotations_outer (s : Side) (c : Color) (t : ColorTree ν) (pv : ν) (a : ColorTree ν)
    (w : ν) (b₁ : ColorTree ν) (vb : ν) (b₂ : ColorTree ν) :
    deleteRotations s c t pv a w (sided s .red b₁ vb b₂) =
      sided s c (sided s .black t pv a) w (sided s .black b₁ vb b₂) := by
  unfold deleteRotations
  rw [rootColor_sided]
  rfl

/-- A red nephew near to the hole takes two rotations. -/
lemma deleteRotations_inner (s : Side) (c : Color) (t : ColorTree ν) (pv : ν) (ca : Color)
    (a₁ : ColorTree ν) (va : ν) (a₂ : ColorTree ν) (w : ν) {b : ColorTree ν}
    (hb : b.rootColor = .black) :
    deleteRotations s c t pv (sided s ca a₁ va a₂) w b =
      sided s c (sided s .black t pv a₁) va (sided s .black a₂ w b) := by
  unfold deleteRotations
  rw [hb]
  cases s <;> rfl

lemma deleteBelowRed_sided (s : Side) (t : ColorTree ν) (pv : ν) (cw : Color) (a : ColorTree ν)
    (w : ν) (b : ColorTree ν) :
    deleteBelowRed s t pv (sided s cw a w b) =
      if a.rootColor = .black ∧ b.rootColor = .black then
        sided s .black t pv (sided s .red a w b)
      else deleteRotations s .red t pv a w b := by
  cases s <;> rfl

/-- A turn below a red node, whose sibling is black. -/
lemma deleteFixup_red_parent (s : Side) (pv : ν) {sib : ColorTree ν} (hsib : sib.rootColor = .black)
    (p : Path ν) {t : ColorTree ν} (ht : t.rootColor ≠ .red) :
    deleteFixup (⟨s, .red, pv, sib⟩ :: p) t = plug p (deleteBelowRed s t pv sib) := by
  cases sib with
  | nil => exact deleteFixup_leaf s .red pv p ht
  | node cw l w r =>
      obtain rfl : cw = .black := hsib
      rw [node_eq_sided s, deleteFixup_sided _ _ _ _ _ _ _ _ ht, deleteBelowRed_sided]
      by_cases hblack : (s.onLeft l r).rootColor = .black ∧ (s.onRight l r).rootColor = .black
      · rw [if_pos hblack, if_pos rfl, if_pos hblack, deleteFixup_red _ (rootColor_sided _ _ _ _ _)]
        rfl
      · rw [if_neg hblack, if_neg hblack]

lemma toList_deleteRotations (s : Side) (c : Color) (t : ColorTree ν) (pv : ν) (a : ColorTree ν)
    (w : ν) (b : ColorTree ν) :
    (deleteRotations s c t pv a w b).toList =
      (sided s c t pv (sided s .black a w b)).toList := by
  unfold deleteRotations
  split
  · cases s <;> simp [sided]
  · cases s <;> simp [sided]

lemma toList_deleteBelowRed (s : Side) (t : ColorTree ν) (pv : ν) (sib : ColorTree ν) :
    (deleteBelowRed s t pv sib).toList = (sided s .red t pv sib).toList := by
  cases sib with
  | nil => cases s <;> rfl
  | node c l w r =>
      rw [deleteBelowRed]
      split
      · cases s <;> simp [sided]
      · rw [toList_deleteRotations]
        cases s <;> simp [sided]

/-- Fixing up a deletion does not change the in-order reading. -/
lemma toList_deleteFixup (p : Path ν) (t : ColorTree ν) :
    (deleteFixup p t).toList = (plug p t).toList := by
  induction p generalizing t with
  | nil => exact toList_recolor _ t
  | cons f p ih =>
      obtain ⟨s, c, pv, sib⟩ := f
      by_cases ht : t.rootColor = .red
      · rw [deleteFixup_red _ ht, plug_cons]
        apply toList_plug_congr
        cases s <;> simp [Frame.fill, sided]
      · cases sib with
        | nil => rw [deleteFixup_leaf _ _ _ _ ht, plug_cons, Frame.fill]
        | node cw l w r =>
            rw [node_eq_sided s, deleteFixup_sided _ _ _ _ _ _ _ _ ht, plug_cons, Frame.fill]
            split
            · split
              · rw [ih]
                apply toList_plug_congr
                cases s <;> simp [sided]
              · apply toList_plug_congr
                cases s <;> simp [sided, toList_deleteBelowRed]
            · apply toList_plug_congr
              rw [toList_deleteRotations]
              cases s <;> simp [sided]

lemma toList_unlink (p : Path ν) (c : Color) (w : ColorTree ν) :
    (unlink p c w).toList = (plug p w).toList := by
  unfold unlink
  split
  · exact toList_deleteFixup p w
  · rfl

lemma deleteNode_right (p : Path ν) (c : Color) (l : ColorTree ν) (v : ν) :
    deleteNode p (node c l v nil) = unlink p c l := by
  cases l <;> rfl

lemma deleteNode_left (p : Path ν) (c : Color) (v : ν) (r : ColorTree ν) :
    deleteNode p (node c nil v r) = unlink p c r := by
  cases r <;> rfl

/-- A node with two children takes the payload of its successor. -/
lemma deleteNode_two {p : Path ν} {c : Color} {l : ColorTree ν} {v : ν} {cr : Color}
    {lr : ColorTree ν} {vr : ν} {rr : ColorTree ν} {q : Path ν} {cy : Color} {y : ν}
    {ly ry : ColorTree ν} (hl : l ≠ nil) (hr : leftmost (node cr lr vr rr) = (q, node cy ly y ry)) :
    deleteNode p (node c l v (node cr lr vr rr)) =
      unlink (q ++ ⟨.right, c, y, l⟩ :: p) cy ry := by
  cases l with
  | nil => exact absurd rfl hl
  | node => rw [deleteNode, hr] <;> simp

/-- Deleting a node leaves the in-order reading without its payload. -/
lemma toList_deleteNode (p : Path ν) (c : Color) (l : ColorTree ν) (v : ν) (r : ColorTree ν) :
    (deleteNode p (node c l v r)).toList =
      before p ++ l.toList ++ (r.toList ++ after p) := by
  cases r with
  | nil =>
      rw [deleteNode_right, toList_unlink, toList_plug]
      simp
  | node cr lr vr rr =>
      by_cases hl : l = nil
      · subst hl
        rw [deleteNode_left, toList_unlink, toList_plug]
        simp
      · obtain ⟨q, cy, y, ry, hleft, hplug, hbefore⟩ := leftmost_spec cr lr vr rr
        have hread : (node cr lr vr rr).toList = y :: (ry.toList ++ after q) := by
          rw [← hplug, toList_plug, hbefore]
          simp
        rw [deleteNode_two hl hleft, toList_unlink, toList_plug, before_append, after_append,
          hbefore, hread]
        simp [before, after]

/-- The in-order reading after a deletion: the payload that the search found is missing. -/
lemma delete_spec (cut : ν → Ordering) (t : ColorTree ν) :
    ((zoom cut t []).2 = nil ∧ delete cut t = t) ∨
      ∃ us v ws, cut v = .eq ∧ t.toList = us ++ v :: ws ∧ (delete cut t).toList = us ++ ws := by
  have hplug := plug_zoom cut t []
  rw [plug_nil] at hplug
  rcases zoom_snd cut t [] with hz | ⟨c, l, v, r, hz, hv⟩
  · refine .inl ⟨hz, ?_⟩
    rw [delete, hz, deleteNode, ← hz, hplug]
  · refine .inr ⟨before (zoom cut t []).1 ++ l.toList, v, r.toList ++ after (zoom cut t []).1, hv,
      ?_, ?_⟩
    · rw [hz] at hplug
      generalize (zoom cut t []).1 = p at hplug
      rw [← hplug, toList_plug]
      simp
    · rw [delete, hz, toList_deleteNode]

@[simp] lemma onLeft_map (g : ν → μ) (s : Side) (l r : ColorTree ν) :
    s.onLeft (l.map g) (r.map g) = (s.onLeft l r).map g := by
  cases s <;> rfl

@[simp] lemma onRight_map (g : ν → μ) (s : Side) (l r : ColorTree ν) :
    s.onRight (l.map g) (r.map g) = (s.onRight l r).map g := by
  cases s <;> rfl

lemma map_deleteRotations (g : ν → μ) (s : Side) (c : Color) (t : ColorTree ν) (pv : ν)
    (a : ColorTree ν) (w : ν) (b : ColorTree ν) :
    (deleteRotations s c t pv a w b).map g =
      deleteRotations s c (t.map g) (g pv) (a.map g) (g w) (b.map g) := by
  unfold deleteRotations
  rw [rootColor_map]
  cases b.rootColor
  · simp [map_recolor]
  · cases a <;> simp [map_recolor]

lemma map_deleteBelowRed (g : ν → μ) (s : Side) (t : ColorTree ν) (pv : ν) (sib : ColorTree ν) :
    (deleteBelowRed s t pv sib).map g = deleteBelowRed s (t.map g) (g pv) (sib.map g) := by
  cases sib with
  | nil => simp [deleteBelowRed]
  | node c l w r =>
      rw [map_node, deleteBelowRed, deleteBelowRed, onLeft_map, onRight_map, rootColor_map,
        rootColor_map]
      split
      · simp
      · exact map_deleteRotations g _ _ _ _ _ _ _

/-- Fixing up a deletion commutes with a payload map. -/
lemma map_deleteFixup (g : ν → μ) (p : Path ν) (t : ColorTree ν) :
    (deleteFixup p t).map g = deleteFixup (p.map (Frame.map g)) (t.map g) := by
  induction p generalizing t with
  | nil => exact map_recolor g _ t
  | cons f p ih =>
      obtain ⟨s, c, pv, sib⟩ := f
      have hc := rootColor_map g t
      by_cases ht : t.rootColor = .red
      · rw [deleteFixup_red _ ht, deleteFixup_red _ (hc ▸ ht), map_plug, map_recolor, List.map_cons,
          Frame.map]
      · have ht' : (t.map g).rootColor ≠ .red := hc ▸ ht
        rw [List.map_cons, Frame.map]
        cases sib with
        | nil =>
            rw [deleteFixup_leaf _ _ _ _ ht, map_nil, deleteFixup_leaf _ _ _ _ ht', map_plug]
            simp
        | node cw l w r =>
            rw [node_eq_sided s, map_sided, deleteFixup_sided _ _ _ _ _ _ _ _ ht,
              deleteFixup_sided _ _ _ _ _ _ _ _ ht', rootColor_map, rootColor_map]
            split
            · split
              · simp [ih]
              · simp [map_plug, map_deleteBelowRed]
            · simp [map_plug, map_deleteRotations]

lemma map_unlink (g : ν → μ) (p : Path ν) (c : Color) (w : ColorTree ν) :
    (unlink p c w).map g = unlink (p.map (Frame.map g)) c (w.map g) := by
  unfold unlink
  split
  · exact map_deleteFixup g p w
  · exact map_plug g p w

lemma leftmost_map (g : ν → μ) (t : ColorTree ν) :
    leftmost (t.map g) = ((leftmost t).1.map (Frame.map g), (leftmost t).2.map g) := by
  induction t with
  | nil => rfl
  | node c l v r ihl ihr =>
      cases l with
      | nil => rfl
      | node cl ll lv lr =>
          rw [map_node, map_node, leftmost, leftmost, ← map_node, ihl, List.map_append]
          rfl

lemma map_deleteNode (g : ν → μ) (p : Path ν) (t : ColorTree ν) :
    (deleteNode p t).map g = deleteNode (p.map (Frame.map g)) (t.map g) := by
  cases t with
  | nil => exact map_plug g p nil
  | node c l v r =>
      cases r with
      | nil => rw [deleteNode_right, map_unlink, map_node, map_nil, deleteNode_right]
      | node cr lr vr rr =>
          cases l with
          | nil => rw [deleteNode_left, map_unlink, map_node g c, map_nil, deleteNode_left]
          | node cl ll vl rl =>
              obtain ⟨q, cy, y, ry, hleft, -⟩ := leftmost_spec cr lr vr rr
              have hleft' := leftmost_map g (node cr lr vr rr)
              rw [hleft, map_node g cr] at hleft'
              rw [deleteNode_two (by simp) hleft, map_unlink, map_node g c, map_node g cr,
                deleteNode_two (by simp) hleft', List.map_append]
              rfl

/-- Deletion commutes with a payload map. -/
lemma map_delete (g : ν → μ) (cut : μ → Ordering) (t : ColorTree ν) :
    (delete (fun u => cut (g u)) t).map g = delete cut (t.map g) := by
  have hz := zoom_map g cut t []
  rw [List.map_nil] at hz
  rw [delete, delete, map_deleteNode, hz]

end ColorTree

end Javalette
