import TensorChebyshev.Proofs.Checked.Function

/-!
# Memories

A memory is to raw expansions what a workspace is to those of the library: it keeps
them under names, and a command computes one of them from others. The actions are
the same, but each of them is carried out by the computations that may stop. A
memory that holds what a workspace holds answers every action as the workspace does,
and it holds what the workspace holds after the next command.
-/

namespace TensorChebyshev

variable {T R : Type}

/-- Named expansions, of whatever length, and named series. -/
structure Memory (T : Type) where
  expansions : Std.HashMap String (Raw T)
  series : Std.HashMap String (List T)

namespace Checked

/-- A refusal in operator form. A fault stays the fault that it is. -/
def halting {α : Type} (c : Checked R α) : Checked R α :=
  c.mapError fun
    | .failed cause => .failed cause.halting
    | stop => stop

/-- What an action of a workspace computes, or its failure. -/
def ofEval (r : Except (Failure R) (Expansion T)) : Checked R (Raw T) :=
  (r.map Expansion.raw).mapError .failed

theorem ofEval_reported (r : Result R (Expansion T)) :
    ofEval (Workspace.reported r) = Raw.ofResult r := by
  cases r <;> rfl

end Checked

/-- Computations on a memory. What was written before a stop stays written. -/
abbrev OnMemory (T R α : Type) : Type := ExceptT (Stop R) (StateM (Memory T)) α

namespace Memory

def empty : Memory T := ⟨∅, ∅⟩

def expansion (m : Memory T) (name : String) : Checked R (Raw T) :=
  match m.expansions[name]? with
  | some e => .ok e
  | none => .error (.failed (.unknownName name))

def seriesNamed (m : Memory T) (name : String) : Checked R (List T) :=
  match m.series[name]? with
  | some cs => .ok cs
  | none => .error (.failed (.unknownName name))

section Run

variable [RealLine R] [Scalar T R] [CosineTransform T]

/-- The expansion that an action computes. -/
def eval (m : Memory T) : Action T R → Checked R (Raw T)
  | .zero nvar degree => Raw.zero nvar degree
  | .constant nvar degree value => Raw.constant nvar degree value
  | .basis nvar degree position => Raw.basis nvar degree position
  | .coordinate nvar degree v => Raw.coordinate nvar degree v
  | .ofCoefficients nvar degree cs => Raw.ofCoefficients nvar degree cs
  | .zerosLike a => do return (← m.expansion a).zerosLike
  | .constantLike a value => do (← m.expansion a).constantLike value
  | .copy a => m.expansion a
  | .setCoefficient a position value => do (← m.expansion a).setCoefficient position value
  | .setCoefficients a cs => do (← m.expansion a).setCoefficients cs
  | .combine op a b => do Raw.combine op (← m.expansion a) (← m.expansion b)
  | .multiply strategy a b => do Raw.multiply strategy (← m.expansion a) (← m.expansion b)
  | .neg a => do return (← m.expansion a).neg
  | .combineScalar op a value => do Raw.combineScalar op (← m.expansion a) value
  | .scalarCombine op value a => do Raw.scalarCombine op value (← m.expansion a)
  | .power a n => do (← m.expansion a).power n
  | .inverse options a => do (← m.expansion a).inverse options
  | .compose strategy a substitutions => do
    let outer ← m.expansion a
    let inner ← substitutions.mapM m.expansion
    outer.compose strategy inner.toArray
  | .composeSeries a cs lo hi => do (← m.expansion a).composeSeries cs lo hi
  | .composeStored a name lo hi => do
    let cs ← m.seriesNamed name
    (← m.expansion a).composeSeries cs lo hi
  | .polynomial a k lo hi => do
    let polynomials ← (← m.expansion a).chebyshevBasis lo hi
    match polynomials[k]? with
    | some e => return e
    | none => Checked.refuse (.noBasisFunction k polynomials.length)
  | .apply real f a =>
    letI := real
    do (← m.expansion a).apply f
  | .operator action => (m.eval action).halting

/-- Carries out a command. -/
def command : Command T R → OnMemory T R Unit
  | .store name action => do
    let e ← MonadExcept.ofExcept ((← get).eval action)
    modify fun m => { m with expansions := m.expansions.insert name e }
  | .fit name f lo hi degree => do
    let cs ← MonadExcept.ofExcept (Raw.fit f lo hi degree)
    modify fun m => { m with series := m.series.insert name cs }

/-- How a command ends. -/
def outcome (m : Memory T) (c : Command T R) : Checked R Unit := ((command c).run m).1

/-- The memory that a command leaves, however it ends. -/
def step (m : Memory T) (c : Command T R) : Memory T := ((command c).run m).2

def run (m : Memory T) (cs : List (Command T R)) : Memory T := cs.foldl step m

end Run

/-! ## The workspace in a memory -/

/-- The memory holds the expansions of the workspace, without what their types say,
and its series. -/
structure Holds (m : Memory T) (w : Workspace T) : Prop where
  expansions : ∀ name : String, m.expansions[name]? = (w.expansions[name]?).map Expansion.raw
  series : m.series = w.series

variable {m : Memory T} {w : Workspace T}

theorem holds_empty : (empty : Memory T).Holds .empty where
  expansions name := by simp [empty, Workspace.empty]
  series := rfl

/-- A computation on a stored expansion. -/
theorem Holds.bind (h : m.Holds w) (a : String) {next : Raw T → Checked R (Raw T)}
    {f : Expansion T → Except (Failure R) (Expansion T)}
    (hf : ∀ x, next x.raw = Checked.ofEval (f x)) :
    (m.expansion a >>= next) = Checked.ofEval (w.expansion a >>= f) := by
  rw [expansion, Workspace.expansion, h.expansions]
  cases w.expansions[a]? with
  | none => rfl
  | some x => exact hf x

/-- A computation on several stored expansions. -/
theorem Holds.mapM_bind (h : m.Holds w) (names : List String)
    {next : List (Raw T) → Checked R (Raw T)}
    {f : List (Expansion T) → Except (Failure R) (Expansion T)}
    (hf : ∀ xs, next (xs.map Expansion.raw) = Checked.ofEval (f xs)) :
    (names.mapM m.expansion >>= next) = Checked.ofEval (names.mapM w.expansion >>= f) := by
  induction names generalizing next f with
  | nil => exact hf []
  | cons name names ih =>
      simp only [List.mapM_cons, bind_assoc, pure_bind]
      exact h.bind name fun x => ih fun xs => hf (x :: xs)

/-- An operation that is the library's on every expansion of it. -/
theorem Holds.bind_reported (h : m.Holds w) (a : String) {next : Raw T → Checked R (Raw T)}
    {f : Expansion T → Result R (Expansion T)} (hf : ∀ x, next x.raw = Raw.ofResult (f x)) :
    (m.expansion a >>= next)
      = Checked.ofEval (w.expansion a >>= fun x => Workspace.reported (f x)) :=
  h.bind a fun x => (hf x).trans (Checked.ofEval_reported (f x)).symm

theorem Holds.bind_two (h : m.Holds w) (a b : String) {next : Raw T → Raw T → Checked R (Raw T)}
    {f : Expansion T → Expansion T → Result R (Expansion T)}
    (hf : ∀ x y, next x.raw y.raw = Raw.ofResult (f x y)) :
    (m.expansion a >>= fun x => m.expansion b >>= next x)
      = Checked.ofEval (w.expansion a >>= fun x => w.expansion b >>= fun y =>
          Workspace.reported (f x y)) :=
  h.bind a fun x => h.bind_reported b (hf x)

section Run

variable [RealLine R] [Scalar T R] [CosineTransform T]

theorem polynomial_eq (x : Expansion T) (k : Nat) (lo hi : T) :
    (x.raw.chebyshevBasis lo hi >>= fun polynomials =>
        match polynomials[k]? with
        | some e => return e
        | none => Checked.refuse (.noBasisFunction k polynomials.length))
      = Checked.ofEval (Workspace.reported (x.chebyshevBasis lo hi) >>= fun polynomials =>
          match polynomials[k]? with
          | some e => return e
          | none => .error (.refused (.noBasisFunction k polynomials.length)) :
            Except (Failure R) (Expansion T)) := by
  rw [Raw.chebyshevBasis_raw]
  cases x.chebyshevBasis lo hi with
  | error cause => rfl
  | ok polynomials =>
      show (match (polynomials.map Expansion.raw)[k]? with
        | some e => return e
        | none => Checked.refuse (.noBasisFunction k (polynomials.map Expansion.raw).length)) = _
      rw [List.getElem?_map, List.length_map]
      show _ = Checked.ofEval (match polynomials[k]? with
        | some e => return e
        | none => .error (.refused (.noBasisFunction k polynomials.length)))
      cases polynomials[k]? <;> rfl

/-- **An action ends in a memory as it ends in the workspace**, one case for each
action. -/
theorem eval_eq (h : m.Holds w) (action : Action T R) :
    m.eval action = Checked.ofEval (w.eval action) := by
  induction action with
  | zero nvar degree => exact (Raw.zero_eq nvar degree).trans (Checked.ofEval_reported _).symm
  | constant nvar degree value =>
      exact (Raw.constant_eq nvar degree value).trans (Checked.ofEval_reported _).symm
  | basis nvar degree position =>
      exact (Raw.basis_eq nvar degree position).trans (Checked.ofEval_reported _).symm
  | coordinate nvar degree v =>
      exact (Raw.coordinate_eq nvar degree v).trans (Checked.ofEval_reported _).symm
  | ofCoefficients nvar degree cs =>
      exact (Raw.ofCoefficients_eq nvar degree cs).trans (Checked.ofEval_reported _).symm
  | zerosLike a => exact h.bind a fun x => rfl
  | constantLike a value => exact h.bind a fun x => Raw.constantLike_of x.coeffs value
  | copy a =>
      rw [eval, Workspace.eval, ← bind_pure (m.expansion a), ← bind_pure (w.expansion a)]
      exact h.bind a fun x => rfl
  | setCoefficient a position value =>
      exact h.bind_reported a fun x => Raw.setCoefficient_raw x position value
  | setCoefficients a cs => exact h.bind_reported a fun x => Raw.setCoefficients_raw x cs
  | combine op a b => exact h.bind_two a b fun x y => Raw.combine_raw op x y
  | multiply strategy a b => exact h.bind_two a b fun x y => Raw.multiply_raw strategy x y
  | neg a => exact h.bind a fun x => congrArg Except.ok (Raw.neg_raw x)
  | combineScalar op a value => exact h.bind_reported a fun x => Raw.combineScalar_raw op x value
  | scalarCombine op value a => exact h.bind_reported a fun x => Raw.scalarCombine_raw op value x
  | power a n => exact h.bind a fun x => Raw.power_raw x n
  | inverse options a => exact h.bind_reported a fun x => Raw.inverse_raw options x
  | compose strategy a substitutions =>
      exact h.bind a fun x => h.mapM_bind substitutions fun gs =>
        (Raw.compose_raw strategy x gs).trans (Checked.ofEval_reported _).symm
  | composeSeries a cs lo hi => exact h.bind_reported a fun x => Raw.composeSeries_raw x cs lo hi
  | composeStored a name lo hi =>
      rw [eval, seriesNamed, h.series, Workspace.eval, Workspace.seriesNamed]
      cases w.series[name]? with
      | none => rfl
      | some cs => exact h.bind_reported a fun x => Raw.composeSeries_raw x cs lo hi
  | polynomial a k lo hi => exact h.bind a fun x => polynomial_eq x k lo hi
  | apply real f a =>
      let := real
      exact h.bind_reported a fun x => Raw.apply_raw x f
  | operator action ih =>
      rw [eval, ih, Workspace.eval]
      cases w.eval action <;> rfl

/-! ## Commands -/

theorem run_store (m : Memory T) (name : String) (action : Action T R) :
    (command (.store name action)).run m = match m.eval action with
      | .ok e => (.ok (), { m with expansions := m.expansions.insert name e })
      | .error stop => (.error stop, m) := by
  show ((MonadExcept.ofExcept (m.eval action) >>= fun e => modify fun m =>
    { m with expansions := m.expansions.insert name e } : OnMemory T R Unit).run m) = _
  cases m.eval action <;> rfl

theorem run_fit (m : Memory T) (name : String) (f : T → T) (lo hi : T) (degree : Nat) :
    (command (.fit name f lo hi degree)).run m = match Raw.fit f lo hi degree with
      | .ok cs => (.ok (), { m with series := m.series.insert name cs })
      | .error stop => (.error stop, m) := by
  show ((MonadExcept.ofExcept (Raw.fit f lo hi degree) >>= fun cs => modify fun m =>
    { m with series := m.series.insert name cs } : OnMemory T R Unit).run m) = _
  cases (Raw.fit f lo hi degree : Checked R (List T)) <;> rfl

/-- **A command keeps the memory equal to the workspace**: where the workspace is left
alone, nothing was written to the memory. -/
theorem step_holds (h : m.Holds w) (c : Command T R) : (m.step c).Holds (w.step c) := by
  cases c with
  | store name action =>
      rw [step, run_store, eval_eq h, Workspace.step, Workspace.exec]
      cases w.eval action with
      | error cause => exact h
      | ok e =>
          constructor
          · intro other
            show (m.expansions.insert name e.raw)[other]?
              = ((w.expansions.insert name e)[other]?).map Expansion.raw
            rw [Std.HashMap.getElem?_insert, Std.HashMap.getElem?_insert, h.expansions]
            split <;> rfl
          · exact h.series
  | fit name f lo hi degree =>
      rw [step, run_fit, Raw.fit_eq_ofResult, Workspace.step, Workspace.exec]
      cases (TensorChebyshev.fit f lo hi degree : Result R (List T)) with
      | error cause => exact h
      | ok cs =>
          constructor
          · exact h.expansions
          · exact congrArg (·.insert name cs) h.series

theorem run_holds (h : m.Holds w) (cs : List (Command T R)) : (m.run cs).Holds (w.run cs) := by
  induction cs generalizing m w with
  | nil => exact h
  | cons c cs ih => exact ih (step_holds h c)

end Run

end Memory

end TensorChebyshev
