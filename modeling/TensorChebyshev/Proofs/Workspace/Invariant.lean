import TensorChebyshev.Proofs.Checked.Memory
import TensorChebyshev.Proofs.Workspace.Shapes

/-!
# What holds in every memory

Nothing in a raw expansion says that its coefficients are those of its shape, and
most operations never ask. Yet after any commands every expansion in the memory has
one coefficient for each basis function, and nothing that is asked of the memory ends
with a fault: the memory holds what the workspace holds, whose types say so. No law
of the scalars is used.
-/

namespace TensorChebyshev

variable {T R : Type}

namespace Raw

/-- The numbers of the shape are in their bounds, and there are as many coefficients
as basis functions. -/
structure WellFormed (e : Raw T) : Prop where
  nvar_pos : 1 ≤ e.nvar
  degree_le : e.degree ≤ 100
  size_eq : e.coeffs.size = (e.nvar + e.degree).choose e.nvar
  size_lt : e.coeffs.size < 2 ^ 32

def shapeNumbers (e : Raw T) : Nat × Nat := (e.nvar, e.degree)

end Raw

theorem Expansion.wellFormed_raw (e : Expansion T) : e.raw.WellFormed where
  nvar_pos := e.shape.admissible.nvar_pos
  degree_le := e.shape.admissible.degree_le
  size_eq := e.coeffs.size_toArray.trans e.size_eq_choose
  size_lt := e.coeffs.size_toArray.trans_lt e.size_lt

/-- The name under which a command stores an expansion. -/
def Command.target? : Command T R → Option String
  | .store name _ => some name
  | .fit .. => none

namespace Memory

/-- The numbers of the shapes of the stored expansions. -/
def shapes (m : Memory T) (name : String) : Option (Nat × Nat) :=
  (m.expansions[name]?).map Raw.shapeNumbers

section Safe

variable [RealLine R] [Scalar T R] [CosineTransform T]

/-- What is promised of a memory whatever is asked of it next. -/
structure Safe (R : Type) [RealLine R] [Scalar T R] [CosineTransform T] (m : Memory T) : Prop where
  /-- Every expansion in it is well formed. -/
  live : ∀ (name : String) (e : Raw T), m.expansions[name]? = some e → e.WellFormed
  /-- So is every result, whose shape is the one asked for or that of the operands. -/
  result : ∀ (action : Action T R) (e : Raw T), m.eval action = .ok e →
    e.WellFormed ∧ action.shapeSource.Gives m.shapes e.shapeNumbers
  /-- No command ends with a fault. -/
  sound : ∀ c : Command T R, (m.outcome c).Sound
  /-- An action that is not an operator does not halt, it reports what it refuses. -/
  reports : ∀ action : Action T R, action.isOperator = false →
    ∀ cause, m.eval action ≠ .error (.failed (.halted cause))
  /-- A command that fails or halts leaves the memory as it was. -/
  failed : ∀ (c : Command T R) (stop : Stop R), m.outcome c = .error stop → m.step c = m
  /-- A command changes no expansion but the one that it stores. -/
  others : ∀ (c : Command T R) (name : String), c.target? ≠ some name →
    (m.step c).expansions[name]? = m.expansions[name]?
  /-- Evaluation does not end with a fault. -/
  evaluates : ∀ (name : String) (e : Raw T), m.expansions[name]? = some e →
    (∀ point, (e.evaluate point : Checked R T).Sound) ∧
      ∀ x, (e.evaluateScalar x : Checked R T).Sound
  /-- Nor do the Chebyshev polynomials of an expansion, all of which have its shape. -/
  polynomials : ∀ (name : String) (e : Raw T), m.expansions[name]? = some e → ∀ lo hi : T,
    (e.chebyshevBasis lo hi : Checked R (List (Raw T))).Sound ∧
      ∀ es : List (Raw T), e.chebyshevBasis lo hi = (.ok es : Checked R _) →
        ∀ p ∈ es, p.WellFormed ∧ p.shapeNumbers = e.shapeNumbers

variable {m : Memory T} {w : Workspace T}

omit [RealLine R] [Scalar T R] [CosineTransform T] in
/-- What is in the memory comes from the workspace. -/
theorem Holds.exists_raw (h : m.Holds w) {name : String} {e : Raw T}
    (he : m.expansions[name]? = some e) : ∃ x : Expansion T, x.raw = e := by
  rw [h.expansions] at he
  obtain ⟨x, -, hx⟩ := Option.map_eq_some_iff.mp he
  exact ⟨x, hx⟩

omit [RealLine R] [Scalar T R] [CosineTransform T] in
theorem Holds.shapes_eq (h : m.Holds w) : m.shapes = w.shapes := by
  funext name
  rw [shapes, h.expansions, Option.map_map]
  rfl

theorem Holds.result (h : m.Holds w) {action : Action T R} {e : Raw T}
    (he : m.eval action = .ok e) :
    e.WellFormed ∧ action.shapeSource.Gives m.shapes e.shapeNumbers := by
  rw [eval_eq h] at he
  obtain ⟨x, hx, rfl⟩ := Expansion.exists_of_map_eq_ok (Expansion.eq_ok_of_mapError he)
  rw [h.shapes_eq]
  exact ⟨x.wellFormed_raw, Workspace.gives_of_eval hx⟩

theorem Holds.sound (h : m.Holds w) (c : Command T R) : (m.outcome c).Sound := by
  intro fault hfault
  cases c with
  | store name action =>
      rw [outcome, run_store, eval_eq h] at hfault
      cases hw : w.eval action <;> rw [hw] at hfault <;> cases hfault
  | fit name f lo hi degree =>
      rw [outcome, run_fit, Raw.fit_eq_ofResult] at hfault
      cases hfit : (TensorChebyshev.fit f lo hi degree : Result R (List T)) <;>
        rw [hfit] at hfault <;> cases hfault

theorem Holds.reports (h : m.Holds w) {action : Action T R} (haction : action.isOperator = false)
    (cause : Error R) : m.eval action ≠ .error (.failed (.halted cause)) := by
  intro hhalt
  rw [eval_eq h] at hhalt
  cases hw : w.eval action with
  | ok x =>
      rw [hw] at hhalt
      cases hhalt
  | error failure =>
      rw [hw] at hhalt
      cases hhalt
      exact (w.eval_yields haction).reports cause hw

/-- Nothing is written before the last place where a command can stop. -/
theorem step_of_error {c : Command T R} {stop : Stop R} (h : m.outcome c = .error stop) :
    m.step c = m := by
  cases c with
  | store name action =>
      rw [outcome, run_store] at h
      rw [step, run_store]
      cases he : m.eval action with
      | error stop => rfl
      | ok e =>
          rw [he] at h
          cases h
  | fit name f lo hi degree =>
      rw [outcome, run_fit] at h
      rw [step, run_fit]
      cases hcs : (Raw.fit f lo hi degree : Checked R (List T)) with
      | error stop => rfl
      | ok cs =>
          rw [hcs] at h
          cases h

theorem getElem?_step {c : Command T R} {name : String} (h : c.target? ≠ some name) :
    (m.step c).expansions[name]? = m.expansions[name]? := by
  cases c with
  | store target action =>
      have hne : ¬ (target == name) = true := fun heq => h (congrArg some (beq_iff_eq.mp heq))
      rw [step, run_store]
      cases m.eval action with
      | error stop => rfl
      | ok e =>
          show (m.expansions.insert target e)[name]? = _
          rw [Std.HashMap.getElem?_insert, if_neg hne]
  | fit target f lo hi degree =>
      rw [step, run_fit]
      cases (Raw.fit f lo hi degree : Checked R (List T)) <;> rfl

theorem Holds.polynomials (h : m.Holds w) {name : String} {e : Raw T}
    (he : m.expansions[name]? = some e) (lo hi : T) :
    (e.chebyshevBasis lo hi : Checked R (List (Raw T))).Sound ∧
      ∀ es : List (Raw T), e.chebyshevBasis lo hi = (.ok es : Checked R _) →
        ∀ p ∈ es, p.WellFormed ∧ p.shapeNumbers = e.shapeNumbers := by
  obtain ⟨x, rfl⟩ := h.exists_raw he
  rw [Raw.chebyshevBasis_raw]
  refine ⟨Checked.sound_ofResult _, fun es hes p hp => ?_⟩
  obtain ⟨xs, hxs, rfl⟩ := Expansion.exists_of_map_eq_ok (Expansion.eq_ok_of_mapError hes)
  obtain ⟨y, hy, rfl⟩ := List.mem_map.mp hp
  have hshape := Expansion.shape_of_chebyshevBasis hxs y hy
  exact ⟨y.wellFormed_raw, Expansion.shapeNumbers_of_shape hshape⟩

/-- **A memory that holds a workspace is safe.** -/
theorem Holds.safe (h : m.Holds w) : m.Safe R where
  live name e he := by
    obtain ⟨x, rfl⟩ := h.exists_raw he
    exact x.wellFormed_raw
  result action e := h.result
  sound := h.sound
  reports action := h.reports
  failed c stop := step_of_error
  others c name := getElem?_step
  evaluates name e he := by
    obtain ⟨x, rfl⟩ := h.exists_raw he
    constructor
    · intro point
      rw [Raw.evaluate_raw]
      exact Checked.sound_ofResult _
    · intro t
      rw [Raw.evaluateScalar_raw]
      exact Checked.sound_ofResult _
  polynomials name e he := h.polynomials he

/-- **Every run is safe**: whatever commands were carried out, beginning with nothing,
the memory is safe, and it holds what the workspace holds after the same commands. -/
theorem run_safe (cs : List (Command T R)) :
    ((empty : Memory T).run cs).Safe R ∧
      ((empty : Memory T).run cs).Holds (Workspace.empty.run cs) :=
  ⟨(run_holds holds_empty cs).safe, run_holds holds_empty cs⟩

end Safe

attribute [local instance] CosineTransform.bySums in
/-- An expansion that is divided by zero in place: the division halts, and the
expansion is still there. -/
theorem run_safe_division :
    let m : Memory ℝ := empty.run [.store "x" (.zero 1 2)]
    let division : Command ℝ ℝ := .store "x" (.operator (.combineScalar .div "x" 0))
    (∃ e, m.expansions["x"]? = some e ∧ e.WellFormed ∧ e.shapeNumbers = (1, 2)) ∧
      m.outcome division = .error (.failed (.halted .zeroDivisor)) ∧ m.step division = m := by
  intro m division
  obtain ⟨hsafe, hholds⟩ := run_safe (T := ℝ) (R := ℝ) [.store "x" (.zero 1 2)]
  let w : Workspace ℝ := Workspace.empty.run [.store "x" (.zero 1 2)]
  have hline : Admissible 1 2 := ⟨by decide, by decide, by decide⟩
  let line : Expansion ℝ := Expansion.zeroIn (Shape.ofAdmissible hline)
  have hzero : Workspace.empty.eval (.zero 1 2 : Action ℝ ℝ) = .ok line := by
    rw [Workspace.eval, Expansion.zero, Expansion.shapeFor_of_admissible hline]
    rfl
  have hx : w.expansions["x"]? = some line := by
    show (Workspace.empty.step (.store "x" (.zero 1 2))).expansions["x"]? = _
    rw [Workspace.step_of_ok hzero]
    exact Std.HashMap.getElem?_insert_self
  have hdivision : w.eval (.operator (.combineScalar .div "x" 0))
      = .error (.halted .zeroDivisor) := by
    rw [Workspace.eval, Workspace.eval, Workspace.expansion, hx]
    show (Workspace.reported (line.divScalar 0)).mapError Failure.halting = _
    rw [Expansion.divScalar, if_pos (by simp [isZero])]
    rfl
  have hhalts : m.outcome division = .error (.failed (.halted .zeroDivisor)) := by
    rw [outcome, run_store, eval_eq hholds, hdivision]
    rfl
  have hlive : m.expansions["x"]? = some line.raw := by
    rw [hholds.expansions, hx]
    rfl
  exact ⟨⟨line.raw, hlive, hsafe.live "x" line.raw hlive, rfl⟩, hhalts,
    hsafe.failed division _ hhalts⟩

end Memory

end TensorChebyshev
