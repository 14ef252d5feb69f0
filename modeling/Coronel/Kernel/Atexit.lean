import Mathlib.Data.List.Induction
import Mathlib.Order.Nat

/-!
# Destructors of static objects

`appendix/icxxabi.cpp`. A destructor is the address of its function; which one is called for which
entry of the table is written down in order.
-/

namespace Coronel

/-- `atexit_func_entry_t` -/
structure AtexitFuncEntry where
  destructorFunc : Nat
  objPtr : Nat
  dsoHandle : Nat
deriving DecidableEq, Repr

/-- `ATEXIT_MAX_FUNCS` -/
def atexitMaxFuncs : Nat := 128

/-- `__atexit_funcs` up to `__atexit_func_count` -/
structure Atexit where
  funcs : List AtexitFuncEntry
  /-- Ghost: the entries whose destructor was called, with their place, in order. -/
  calls : List (Nat × AtexitFuncEntry)
deriving DecidableEq, Repr

namespace Atexit

/-- `__cxa_atexit` -/
def cxaAtexit (s : Atexit) (f objptr dso : Nat) : Int × Atexit :=
  if atexitMaxFuncs ≤ s.funcs.length then
    (-1, s)
  else
    (0, { s with funcs := s.funcs ++ [⟨f, objptr, dso⟩] })

/-- `(*__atexit_funcs[i].destructor_func)(__atexit_funcs[i].obj_ptr)` -/
def call (s : Atexit) (i : Nat) (e : AtexitFuncEntry) : Atexit :=
  { s with calls := s.calls ++ [(i, e)] }

/-- The body of the loops of `__cxa_finalize`. -/
def finalizeAt (f i : Nat) (s : Atexit) : Atexit :=
  let e := s.funcs.getD i ⟨0, 0, 0⟩
  if f = 0 then
    if e.destructorFunc ≠ 0 then s.call i e else s
  else if e.destructorFunc = f then
    { s.call i e with funcs := s.funcs.set i { e with destructorFunc := 0 } }
  else
    s

/-- `while (i--)` -/
def finalizeFrom (f : Nat) : Nat → Atexit → Atexit
  | 0, s => s
  | i + 1, s => finalizeFrom f i (finalizeAt f i s)

/-- `__cxa_finalize` -/
def cxaFinalize (s : Atexit) (f : Nat) : Atexit := finalizeFrom f s.funcs.length s

/-- A call into the table. -/
inductive Call
  | atexit (f objptr dso : Nat)
  | finalize (f : Nat)
deriving DecidableEq, Repr

def step (s : Atexit) : Call → Atexit
  | .atexit f objptr dso => (s.cxaAtexit f objptr dso).2
  | .finalize f => s.cxaFinalize f

/-- The state after the calls. -/
def run (cs : List Call) : Atexit := cs.foldl step ⟨[], []⟩

end Atexit
end Coronel
