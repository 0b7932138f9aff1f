import Mathlib.Data.List.Basic
import Mathlib.Logic.Function.Basic

/-!
# `tree.c`: declarations and scopes

Each symbol points to its current declaration, and the declaration to the one of the same symbol
in an outer scope.  The array `decls` has the declared symbols of all open scopes, one scope
after the other, and `scopes` says where each of them begins.

The model is generic in the symbols (`sym_t*`), the cells of the pool, the types and what the
union of a declaration may hold.  `palloc` is not spelled out: `declare` is given the cell that
it hands out.  The array `decls` is the list of its first `decls_free` elements.
-/

namespace Javalette.Scope

variable {σ α τ υ : Type}

/-- `src_pos_t`. -/
structure SrcPos where
  line : ℕ
  col : ℕ
  deriving DecidableEq, Repr

/-- `decl_t`. -/
structure Decl (α τ υ : Type) where
  type : τ
  scope : ℕ
  initialized : Bool
  u : Option υ
  prev : Option α
  deriving DecidableEq, Repr

/-- `MAX_SCOPES`. -/
def maxScopes : ℕ := 64

/-- The static variables of the section, with the field `decl` of the symbols, the cells in use
and the errors reported so far. -/
structure State (σ α τ υ : Type) where
  decl : σ → Option α
  heap : α → Option (Decl α τ υ)
  decls : List σ
  scopes : ℕ → ℕ
  curScope : ℕ
  errors : List (SrcPos × String)

/-- `decl_init`. -/
def declInit : State σ α τ υ where
  decl _ := none
  heap _ := none
  decls := []
  scopes _ := 0
  curScope := 0
  errors := []

/-- `push_scope`, which gives up when there are too many nested blocks. -/
def pushScope (s : State σ α τ υ) : Option (State σ α τ υ) :=
  if s.curScope + 1 ≥ maxScopes then none
  else some { s with
    curScope := s.curScope + 1
    scopes := Function.update s.scopes (s.curScope + 1) s.decls.length }

section

variable [DecidableEq σ] [DecidableEq α]

/-- A turn of the loop of `pop_scope`. -/
def popDecl (s : State σ α τ υ) (sym : σ) : Option (State σ α τ υ) := do
  let a ← s.decl sym
  let d ← s.heap a
  return { s with
    decl := Function.update s.decl sym d.prev
    heap := Function.update s.heap a none }

/-- `pop_scope`. -/
def popScope (s : State σ α τ υ) : Option (State σ α τ υ) :=
  if s.curScope = 0 then none
  else do
    let s ← (s.decls.drop (s.scopes s.curScope)).foldlM popDecl s
    return { s with
      decls := s.decls.take (s.scopes s.curScope)
      curScope := s.curScope - 1 }

/-- The declaration that the symbol has is one of the current scope. -/
def declaredHere (s : State σ α τ υ) (sym : σ) : Option Bool :=
  match s.decl sym with
  | none => some false
  | some b => (s.heap b).map fun d => d.scope = s.curScope

/-- `declare`, where `palloc` hands out the cell `a`. -/
def declare (s : State σ α τ υ) (sym : σ) (type : τ) (srcPos : SrcPos) (a : α) :
    Option (State σ α τ υ) := do
  if ← declaredHere s sym then
    return { s with errors := s.errors ++ [(srcPos, "duplicate identifier")] }
  else
    return { s with
      decl := Function.update s.decl sym (some a)
      heap := Function.update s.heap a (some ⟨type, s.curScope, false, none, s.decl sym⟩)
      decls := s.decls ++ [sym] }

/-- What the semantic check does with the scopes. -/
inductive Action (σ α τ : Type)
  | push
  | declare (sym : σ) (type : τ) (srcPos : SrcPos) (a : α)
  | pop

/-- One action. -/
def perform (s : State σ α τ υ) : Action σ α τ → Option (State σ α τ υ)
  | .push => pushScope s
  | .declare sym type srcPos a => declare s sym type srcPos a
  | .pop => popScope s

/-- A sequence of actions. -/
def performAll (s : State σ α τ υ) (acts : List (Action σ α τ)) : Option (State σ α τ υ) :=
  acts.foldlM perform s

end

end Javalette.Scope
