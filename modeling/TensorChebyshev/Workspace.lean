import Std.Data.HashMap
import TensorChebyshev.Expansion.Evaluate
import TensorChebyshev.Expansion.Substitute

/-!
Computations on named expansions. A workspace holds expansions and, apart from them, Chebyshev
series under names; a command computes one of them from others and stores it. A command that
fails stores nothing, so what was there stays as it was. An operation in place is one that is
stored under the name of its operand; so is the assignment form of an operator, which halts
before anything is stored.
-/

namespace TensorChebyshev

/-- Named expansions and named series. -/
structure Workspace (T : Type) where
  expansions : Std.HashMap String (Expansion T)
  series : Std.HashMap String (List T)

/-- Why a command ends without a value. -/
inductive Failure (R : Type) where
  /-- The operation is refused. -/
  | refused (cause : Error R)
  /-- The operation is refused in a form that does not report it but halts. -/
  | halted (cause : Error R)
  /-- Nothing is stored under this name. -/
  | unknownName (name : String)

/-- A refusal made to halt. -/
def Failure.halting {R : Type} : Failure R → Failure R
  | .refused cause => .halted cause
  | other => other

/-- The ways to compute an expansion from stored ones. -/
inductive Action (T R : Type) where
  | zero (nvar degree : Nat)
  | constant (nvar degree : Nat) (value : T)
  | basis (nvar degree position : Nat)
  | coordinate (nvar degree v : Nat)
  | ofCoefficients (nvar degree : Nat) (cs : Array T)
  | zerosLike (a : String)
  | constantLike (a : String) (value : T)
  | copy (a : String)
  | setCoefficient (a : String) (position : Nat) (value : T)
  | setCoefficients (a : String) (cs : Array T)
  | combine (op : Operator) (a b : String)
  | multiply (strategy : Strategy) (a b : String)
  | neg (a : String)
  | combineScalar (op : Operator) (a : String) (value : T)
  | scalarCombine (op : Operator) (value : T) (a : String)
  | power (a : String) (n : Nat)
  | inverse (options : NewtonOptions R) (a : String)
  | compose (strategy : Strategy) (a : String) (substitutions : List String)
  | composeSeries (a : String) (cs : List T) (lo hi : T)
  | composeStored (a name : String) (lo hi : T)
  /-- One of the Chebyshev polynomials of an expansion that is mapped from an interval. -/
  | polynomial (a : String) (k : Nat) (lo hi : T)
  | apply (real : RealScalar T) (f : T → T) (a : String)
  /-- The operator form of an action, which halts when the action is refused. -/
  | operator (action : Action T R)

/-- A value to compute and the name to store it under. -/
inductive Command (T R : Type) where
  | store (name : String) (action : Action T R)
  | fit (name : String) (f : T → T) (lo hi : T) (degree : Nat)

inductive Answer (T : Type) where
  | expansion (e : Expansion T)
  | series (cs : List T)

namespace Workspace

variable {T R : Type}

def empty : Workspace T := ⟨∅, ∅⟩

def expansion (w : Workspace T) (name : String) : Except (Failure R) (Expansion T) :=
  match w.expansions[name]? with
  | some e => .ok e
  | none => .error (.unknownName name)

def seriesNamed (w : Workspace T) (name : String) : Except (Failure R) (List T) :=
  match w.series[name]? with
  | some cs => .ok cs
  | none => .error (.unknownName name)

/-- A result whose refusal is reported, not halted on. -/
def reported {α : Type} (r : Result R α) : Except (Failure R) α := r.mapError .refused

variable [RealLine R] [Scalar T R] [CosineTransform T]

/-- The expansion that an action computes. -/
def eval (w : Workspace T) : Action T R → Except (Failure R) (Expansion T)
  | .zero nvar degree => reported (Expansion.zero nvar degree)
  | .constant nvar degree value => reported (Expansion.constant nvar degree value)
  | .basis nvar degree position => reported (Expansion.basis nvar degree position)
  | .coordinate nvar degree v => reported (Expansion.coordinate nvar degree v)
  | .ofCoefficients nvar degree cs => reported (Expansion.ofCoefficients nvar degree cs)
  | .zerosLike a => do return (← w.expansion a).zerosLike
  | .constantLike a value => do return (← w.expansion a).constantLike value
  | .copy a => w.expansion a
  | .setCoefficient a position value => do
    reported ((← w.expansion a).setCoefficient position value)
  | .setCoefficients a cs => do reported ((← w.expansion a).setCoefficients cs)
  | .combine op a b => do reported (Expansion.combine op (← w.expansion a) (← w.expansion b))
  | .multiply strategy a b => do
    reported (Expansion.multiply strategy (← w.expansion a) (← w.expansion b))
  | .neg a => do return (← w.expansion a).neg
  | .combineScalar op a value => do
    reported (Expansion.combineScalar op (← w.expansion a) value)
  | .scalarCombine op value a => do
    reported (Expansion.scalarCombine op value (← w.expansion a))
  | .power a n => do return (← w.expansion a).power n
  | .inverse options a => do reported ((← w.expansion a).inverse options)
  | .compose strategy a substitutions => do
    let outer ← w.expansion a
    let inner ← substitutions.mapM w.expansion
    reported (outer.compose strategy inner)
  | .composeSeries a cs lo hi => do reported ((← w.expansion a).composeSeries cs lo hi)
  | .composeStored a name lo hi => do
    let cs ← w.seriesNamed name
    reported ((← w.expansion a).composeSeries cs lo hi)
  | .polynomial a k lo hi => do
    let polynomials ← reported ((← w.expansion a).chebyshevBasis lo hi)
    match polynomials[k]? with
    | some e => return e
    | none => .error (.refused (.noBasisFunction k polynomials.length))
  | .apply real f a =>
    letI := real
    do reported ((← w.expansion a).apply f)
  | .operator action => (w.eval action).mapError Failure.halting

/-- What a command computes, and the workspace with it stored. -/
def exec (w : Workspace T) : Command T R → Except (Failure R) (Answer T × Workspace T)
  | .store name action => do
    let e ← w.eval action
    return (.expansion e, { w with expansions := w.expansions.insert name e })
  | .fit name f lo hi degree => do
    let cs ← reported (TensorChebyshev.fit f lo hi degree)
    return (.series cs, { w with series := w.series.insert name cs })

/-- The workspace after a command, the same one if the command fails. -/
def step (w : Workspace T) (c : Command T R) : Workspace T :=
  match w.exec c with
  | .ok (_, w') => w'
  | .error _ => w

def run (w : Workspace T) (cs : List (Command T R)) : Workspace T := cs.foldl step w

end Workspace

end TensorChebyshev
