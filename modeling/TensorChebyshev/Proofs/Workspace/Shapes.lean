import TensorChebyshev.Workspace
import TensorChebyshev.Proofs.Expansion.Shapes

/-!
# Shapes in a workspace

Before an action is carried out its text says which shape the result will have: the
numbers that it names, or the shape of the expansions that it names. And an action
that is not in operator form reports what it refuses.
-/

namespace TensorChebyshev

variable {T R : Type}

/-- Where the shape of a result comes from. -/
inductive ShapeSource where
  /-- It is asked for. -/
  | numbers (nvar degree : Nat)
  /-- It is the shape of the expansions with these names. -/
  | operands (names : List String)

/-- The source gives the shape with these numbers, where `shapes` has the numbers of
the shapes of what is stored. -/
def ShapeSource.Gives (shapes : String → Option (Nat × Nat)) (shape : Nat × Nat) :
    ShapeSource → Prop
  | .numbers nvar degree => shape = (nvar, degree)
  | .operands names => names ≠ [] ∧ ∀ name ∈ names, shapes name = some shape

def Action.shapeSource : Action T R → ShapeSource
  | .zero nvar degree | .constant nvar degree _ | .basis nvar degree _
  | .coordinate nvar degree _ | .ofCoefficients nvar degree _ => .numbers nvar degree
  | .zerosLike a | .constantLike a _ | .copy a | .setCoefficient a _ _ | .setCoefficients a _
  | .neg a | .combineScalar _ a _ | .scalarCombine _ _ a | .power a _ | .inverse _ a
  | .composeSeries a _ _ _ | .composeStored a _ _ _ | .polynomial a _ _ _ | .apply _ _ a =>
    .operands [a]
  | .combine _ a b | .multiply _ a b => .operands [a, b]
  | .compose _ _ substitutions => .operands substitutions
  | .operator action => action.shapeSource

/-- The action is an operator form. -/
def Action.isOperator : Action T R → Bool
  | .operator _ => true
  | _ => false

namespace Expansion

/-- The numbers that a shape is made of. -/
def shapeNumbers (e : Expansion T) : Nat × Nat := (e.nvar, e.degree)

theorem shapeNumbers_of_alike {a b : Expansion T} (h : a.shape.Alike b.shape) :
    a.shapeNumbers = b.shapeNumbers := Prod.ext h.1 h.2

theorem shapeNumbers_of_shape {a b : Expansion T} (h : a.shape = b.shape) :
    a.shapeNumbers = b.shapeNumbers :=
  shapeNumbers_of_alike ⟨congrArg (·.nvar) h, congrArg (·.degree) h⟩

end Expansion

namespace Workspace

variable {w : Workspace T}

/-- The numbers of the shapes of the stored expansions. -/
def shapes (w : Workspace T) (name : String) : Option (Nat × Nat) :=
  (w.expansions[name]?).map Expansion.shapeNumbers

/-- What an action computes has the shape that its source gives, and what it refuses
it reports. -/
structure Yields (w : Workspace T) (source : ShapeSource)
    (r : Except (Failure R) (Expansion T)) : Prop where
  shape : ∀ e, r = .ok e → source.Gives w.shapes e.shapeNumbers
  reports : ∀ cause, r ≠ .error (.halted cause)

theorem reported_eq_ok {A : Type} {r : Result R A} {a : A} (h : reported r = .ok a) :
    r = .ok a := Expansion.eq_ok_of_mapError h

theorem reported_ne_halted {A : Type} (r : Result R A) (cause : Error R) :
    reported r ≠ .error (.halted cause) := by
  cases r <;> exact fun h => nomatch h

theorem expansion_eq_ok {a : String} {x : Expansion T}
    (h : w.expansion a = (.ok x : Except (Failure R) _)) : w.shapes a = some x.shapeNumbers := by
  rw [expansion] at h
  rw [shapes]
  cases hx : w.expansions[a]? with
  | none =>
      rw [hx] at h
      cases h
  | some y =>
      rw [hx] at h
      cases h
      rfl

theorem expansion_ne_halted (w : Workspace T) (a : String) (cause : Error R) :
    w.expansion a ≠ .error (.halted cause) := by
  rw [expansion]
  cases w.expansions[a]? <;> exact fun h => nomatch h

/-- A chain halts only where one of its parts does. -/
theorem bind_ne_halted {A B : Type} {r : Except (Failure R) A} {f : A → Except (Failure R) B}
    {cause : Error R} (hr : r ≠ .error (.halted cause)) (hf : ∀ a, f a ≠ .error (.halted cause)) :
    r >>= f ≠ .error (.halted cause) := by
  cases r with
  | error failure =>
      intro h
      cases h
      exact hr rfl
  | ok a => exact hf a

theorem mapM_ne_halted (w : Workspace T) (names : List String) (cause : Error R) :
    names.mapM w.expansion ≠ .error (.halted cause) := by
  induction names with
  | nil => exact fun h => nomatch h
  | cons name names ih =>
      rw [List.mapM_cons]
      refine bind_ne_halted (w.expansion_ne_halted name cause) fun x => ?_
      exact bind_ne_halted ih fun xs h => nomatch h

/-- All names of a list that is looked up are found. -/
theorem mapM_eq_ok {names : List String} {xs : List (Expansion T)}
    (h : names.mapM w.expansion = (.ok xs : Except (Failure R) _)) :
    names.length = xs.length ∧
      ∀ name ∈ names, ∃ x ∈ xs, w.expansion name = (.ok x : Except (Failure R) _) := by
  induction names generalizing xs with
  | nil =>
      cases h
      exact ⟨rfl, by simp⟩
  | cons name names ih =>
      rw [List.mapM_cons] at h
      obtain ⟨x, hx, h⟩ := Expansion.exists_of_bind_eq_ok h
      obtain ⟨xs, hxs, h⟩ := Expansion.exists_of_bind_eq_ok h
      cases h
      obtain ⟨hlen, hall⟩ := ih hxs
      refine ⟨by rw [List.length_cons, hlen, List.length_cons], fun name' hname => ?_⟩
      rcases List.mem_cons.mp hname with rfl | hmem
      · exact ⟨x, List.mem_cons_self .., hx⟩
      · obtain ⟨y, hy, hfound⟩ := hall name' hmem
        exact ⟨y, List.mem_cons_of_mem _ hy, hfound⟩

/-! ## Kinds of actions -/

theorem yields_made {nvar degree : Nat} {r : Result R (Expansion T)}
    (h : ∀ e, r = .ok e → e.nvar = nvar ∧ e.degree = degree) :
    w.Yields (.numbers nvar degree) (reported r) where
  shape e he := Prod.ext (h e (reported_eq_ok he)).1 (h e (reported_eq_ok he)).2
  reports := reported_ne_halted r

theorem yields_unary {a : String} {f : Expansion T → Except (Failure R) (Expansion T)}
    (hshape : ∀ x e, f x = .ok e → e.shape = x.shape)
    (hreports : ∀ x cause, f x ≠ .error (.halted cause)) :
    w.Yields (.operands [a]) (w.expansion a >>= f) where
  shape e he := by
    obtain ⟨x, hx, hf⟩ := Expansion.exists_of_bind_eq_ok he
    refine ⟨List.cons_ne_nil _ _, fun name hname => ?_⟩
    rw [List.mem_singleton.mp hname, expansion_eq_ok hx,
      Expansion.shapeNumbers_of_shape (hshape x e hf)]
  reports cause := bind_ne_halted (w.expansion_ne_halted a cause) fun x => hreports x cause

/-- An action on one expansion that refuses or answers with an expansion of the same
shape. -/
theorem yields_reported {a : String} {f : Expansion T → Result R (Expansion T)}
    (h : ∀ x e, f x = .ok e → e.shape = x.shape) :
    w.Yields (.operands [a]) (w.expansion a >>= fun x => reported (f x)) :=
  yields_unary (fun x e he => h x e (reported_eq_ok he)) fun x => reported_ne_halted (f x)

/-- An action on one expansion that is never refused. -/
theorem yields_total {a : String} {f : Expansion T → Expansion T} (h : ∀ x, (f x).shape = x.shape) :
    w.Yields (R := R) (.operands [a]) (w.expansion a >>= fun x => .ok (f x)) :=
  yields_reported (f := fun x => .ok (f x)) fun x e he => by
    cases he
    exact h x

theorem yields_binary {a b : String} {f : Expansion T → Expansion T → Result R (Expansion T)}
    (h : ∀ x y e, f x y = .ok e → x.shape.Alike e.shape ∧ y.shape.Alike e.shape) :
    w.Yields (.operands [a, b])
      (w.expansion a >>= fun x => w.expansion b >>= fun y => reported (f x y)) where
  shape e he := by
    obtain ⟨x, hx, he⟩ := Expansion.exists_of_bind_eq_ok he
    obtain ⟨y, hy, he⟩ := Expansion.exists_of_bind_eq_ok he
    obtain ⟨hxe, hye⟩ := h x y e (reported_eq_ok he)
    refine ⟨List.cons_ne_nil _ _, fun name hname => ?_⟩
    rcases List.mem_cons.mp hname with rfl | hname
    · rw [expansion_eq_ok hx, Expansion.shapeNumbers_of_alike hxe]
    · rw [List.mem_singleton.mp hname, expansion_eq_ok hy, Expansion.shapeNumbers_of_alike hye]
  reports cause :=
    bind_ne_halted (w.expansion_ne_halted a cause) fun x =>
      bind_ne_halted (w.expansion_ne_halted b cause) fun y => reported_ne_halted (f x y) cause

theorem yields_compose [RealLine R] [Scalar T R] [CosineTransform T] (strategy : Strategy)
    (a : String) (names : List String) :
    w.Yields (.operands names) (w.eval (.compose strategy a names)) where
  shape e he := by
    obtain ⟨x, -, he⟩ := Expansion.exists_of_bind_eq_ok he
    obtain ⟨gs, hgs, he⟩ := Expansion.exists_of_bind_eq_ok he
    obtain ⟨hne, halike⟩ := Expansion.alike_of_compose (reported_eq_ok he)
    obtain ⟨hlen, hfound⟩ := mapM_eq_ok hgs
    refine ⟨?_, fun name hname => ?_⟩
    · rintro rfl
      exact hne (List.length_eq_zero_iff.mp hlen.symm)
    · obtain ⟨g, hg, hexpansion⟩ := hfound name hname
      rw [expansion_eq_ok hexpansion, Expansion.shapeNumbers_of_alike (halike g hg)]
  reports cause :=
    bind_ne_halted (w.expansion_ne_halted a cause) fun x =>
      bind_ne_halted (w.mapM_ne_halted names cause) fun gs => reported_ne_halted _ cause

theorem yields_polynomial [RealLine R] [Scalar T R] [CosineTransform T] (a : String) (k : Nat)
    (lo hi : T) : w.Yields (.operands [a]) (w.eval (.polynomial a k lo hi)) := by
  refine yields_unary (fun x e he => ?_) fun x cause => ?_
  · obtain ⟨es, hes, he⟩ := Expansion.exists_of_bind_eq_ok he
    have hmem : e ∈ es := by
      split at he
      · rename_i hget
        cases he
        exact List.mem_of_getElem? hget
      · cases he
    exact Expansion.shape_of_chebyshevBasis (reported_eq_ok hes) e hmem
  · refine bind_ne_halted (reported_ne_halted _ cause) fun es => ?_
    split <;> exact fun h => nomatch h

/-! ## All actions -/

section Eval

variable [RealLine R] [Scalar T R] [CosineTransform T]

theorem step_of_ok {name : String} {action : Action T R} {e : Expansion T}
    (h : w.eval action = .ok e) :
    w.step (.store name action) = { w with expansions := w.expansions.insert name e } := by
  rw [step, exec, h]
  rfl

theorem step_of_error {name : String} {action : Action T R} {cause : Failure R}
    (h : w.eval action = .error cause) : w.step (.store name action) = w := by
  rw [step, exec, h]
  rfl

/-- **What an action in reporting form yields**, one case for each action. -/
theorem eval_yields (w : Workspace T) {action : Action T R} (h : action.isOperator = false) :
    w.Yields action.shapeSource (w.eval action) := by
  cases action with
  | zero nvar degree =>
      refine yields_made fun e => Expansion.numbers_of_shapeFor fun s e he => ?_
      cases he
      rfl
  | constant nvar degree value =>
      refine yields_made fun e => Expansion.numbers_of_shapeFor fun s e he => ?_
      cases he
      rfl
  | basis nvar degree position => exact yields_made fun e => Expansion.numbers_of_basis
  | coordinate nvar degree v => exact yields_made fun e => Expansion.numbers_of_coordinate
  | ofCoefficients nvar degree cs =>
      exact yields_made fun e => Expansion.numbers_of_shapeFor fun s e =>
        Expansion.shape_of_ofCoefficientsIn
  | zerosLike a => exact yields_total fun x => rfl
  | constantLike a value => exact yields_total fun x => rfl
  | copy a =>
      have hcopy := yields_total (R := R) (w := w) (a := a) (f := id) fun x => rfl
      rwa [show (fun x : Expansion T => (.ok (id x) : Except (Failure R) _)) = pure from rfl,
        bind_pure] at hcopy
  | setCoefficient a position value =>
      exact yields_reported fun x e => Expansion.shape_of_setCoefficient
  | setCoefficients a cs => exact yields_reported fun x e => Expansion.shape_of_ofCoefficientsIn
  | combine op a b => exact yields_binary fun x y e => Expansion.alike_of_combine
  | multiply strategy a b => exact yields_binary fun x y e => Expansion.alike_of_multiply
  | neg a => exact yields_total fun x => rfl
  | combineScalar op a value => exact yields_reported fun x e => Expansion.shape_of_combineScalar
  | scalarCombine op value a => exact yields_reported fun x e => Expansion.shape_of_scalarCombine
  | power a n => exact yields_total fun x => rfl
  | inverse options a => exact yields_reported fun x e => Expansion.shape_of_inverse
  | compose strategy a substitutions => exact yields_compose strategy a substitutions
  | composeSeries a cs lo hi => exact yields_reported fun x e => Expansion.shape_of_composeSeries
  | composeStored a name lo hi =>
      rw [eval, seriesNamed]
      cases w.series[name]? with
      | none =>
          constructor
          · intro e he
            cases he
          · intro cause he
            cases he
      | some cs => exact yields_reported fun x e => Expansion.shape_of_composeSeries
  | polynomial a k lo hi => exact yields_polynomial a k lo hi
  | apply real f a => exact yields_reported fun x e => Expansion.shape_of_apply
  | operator action => cases h

/-- **A result has the shape that its source gives**, also that of an action in
operator form. -/
theorem gives_of_eval {action : Action T R} {e : Expansion T} (h : w.eval action = .ok e) :
    action.shapeSource.Gives w.shapes e.shapeNumbers := by
  induction action with
  | operator action ih =>
      rw [eval] at h
      exact ih (Expansion.eq_ok_of_mapError h)
  | _ => exact (w.eval_yields rfl).shape e h

end Eval

end Workspace

end TensorChebyshev
